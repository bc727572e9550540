import Mathlib
import RecordLayout.Proofs.Layout.Answers

/-!
# Calls of a memo

A computation that is kept in a memo may ask the memo for further keys, and these for further ones. Each
call comes with a computation of its own, and whether this one is run depends on all that has been called
before, at any depth. What can be seen of the calls is written down on the way: when a call is made, when
its computation begins and ends, and what the call answers.

A key is open while its computation runs. The memo tells which keys are open and what the others gave,
and so does the log; this carries the induction over a run, in which other keys are opened and closed
between the call and the answer of each one.

Main results:

* `Observed.asked`, `Observed.ended`, `Observed.nodup_begun` — what each step of a run adds to the log;
* `Inquiry.run_accords` — the memo agrees with the log, and what was open before is open after;
* `Inquiry.run_orderly` — the calls of a whole run.
-/

namespace RecordLayout

/-! ## Computations that ask -/

/-- A computation, as far as a memo is concerned. -/
inductive Inquiry (τ κ ε ν : Type) where
  /-- Ends with a value or a failure. -/
  | done (result : Except ε ν)
  /-- Looks at what is outside of the memo, and changes it. -/
  | act (change : τ → τ) (next : τ → Inquiry τ κ ε ν)
  /-- Asks for a key, brings what computes it, and goes on with the answer, which may be a failure. -/
  | ask (key : κ) (compute : Inquiry τ κ ε ν) (next : Except ε ν → Inquiry τ κ ε ν)

/-- The memo and what is outside of it. -/
structure Moment (τ κ ε ν : Type) where
  memo : Memo κ ε ν
  outside : τ

/-- What can be seen of the calls of a memo. -/
inductive MemoEvent (τ κ ε ν : Type) where
  /-- A call is made. -/
  | asked (key : κ) (now : Moment τ κ ε ν)
  /-- The computation that a call has brought begins to run. -/
  | began (key : κ)
  /-- A computation has ended. -/
  | ended (key : κ) (result : Except ε ν)
  /-- A call answers. -/
  | answered (key : κ) (answer : Except ε ν) (now : Moment τ κ ε ν)

/-- A moment, and what has been seen up to it. -/
structure Watched (τ κ ε ν : Type) where
  now : Moment τ κ ε ν
  log : List (MemoEvent τ κ ε ν)

namespace Watched

variable {τ κ ε ν : Type}

/-- Nothing is known yet, and nothing has been seen. -/
def start (outside : τ) : Watched τ κ ε ν := ⟨⟨.empty, outside⟩, []⟩

/-- Writes down what can be seen. -/
def note (s : Watched τ κ ε ν) (event : MemoEvent τ κ ε ν) : Watched τ κ ε ν :=
  { s with log := s.log ++ [event] }

theorem note_note (s : Watched τ κ ε ν) (first second : MemoEvent τ κ ε ν) :
    (s.note first).note second = { s with log := s.log ++ [first, second] } := by
  simp only [note, List.append_assoc, List.cons_append, List.nil_append]

/-- The memo. -/
def memoPart : Part (Watched τ κ ε ν) (Memo κ ε ν) :=
  ⟨(·.now.memo), fun m s => { s with now := { s.now with memo := m } }⟩

/-- Runs the computation of a key, and writes down when it begins and ends. -/
def noting (key : κ) (compute : Watched τ κ ε ν → Except ε ν × Watched τ κ ε ν) :
    EStateM ε (Watched τ κ ε ν) ν := fun s =>
  match compute (s.note (.began key)) with
  | (.ok v, t) => .ok v (t.note (.ended key (.ok v)))
  | (.error e, t) => .error e (t.note (.ended key (.error e)))

theorem outcome_noting {key : κ} {compute : Watched τ κ ε ν → Except ε ν × Watched τ κ ε ν}
    {s t : Watched τ κ ε ν} {result : Except ε ν} (hrun : compute (s.note (.began key)) = (result, t)) :
    outcome (noting key compute) s = (result, t.note (.ended key result)) := by
  simp only [outcome, noting, hrun]
  cases result <;> rfl

end Watched

/-- Runs a computation, with its calls to the memo; asking for a key whose computation is running fails
with `busy`. -/
def Inquiry.run {τ κ ε ν : Type} [BEq κ] (busy : κ → ε) :
    Inquiry τ κ ε ν → Watched τ κ ε ν → Except ε ν × Watched τ κ ε ν
  | .done result, s => (result, s)
  | .act change next, s =>
    (next s.now.outside).run busy { s with now := { s.now with outside := change s.now.outside } }
  | .ask key compute next, s =>
    -- the memo decides whether the computation is run; if so, its own entries stand between these two
    let fetched := outcome
      (Memo.fetch Watched.memoPart (busy key) key (Watched.noting key (compute.run busy)))
      (s.note (.asked key s.now))
    (next fetched.1).run busy (fetched.2.note (.answered key fetched.1 fetched.2.now))

/-! ## What the log says -/

section

variable {τ κ ε ν : Type}

/-- The keys whose computation has begun, once for each time. -/
def begun (log : List (MemoEvent τ κ ε ν)) : List κ :=
  log.filterMap fun
    | .began key => some key
    | _ => none

theorem mem_begun {key : κ} {log : List (MemoEvent τ κ ε ν)} :
    key ∈ begun log ↔ .began key ∈ log := by
  unfold begun
  rw [List.mem_filterMap]
  constructor
  · rintro ⟨event, hevent, heq⟩
    cases event <;> cases heq
    exact hevent
  · intro h
    exact ⟨_, h, rfl⟩

theorem begun_append (log more : List (MemoEvent τ κ ε ν)) :
    begun (log ++ more) = begun log ++ begun more := List.filterMap_append

variable [BEq κ]

/-- The two entries that a step of a run adds to a log. -/
inductive Observation (busy : κ → ε) (log : List (MemoEvent τ κ ε ν)) :
    MemoEvent τ κ ε ν → MemoEvent τ κ ε ν → Prop where
  /-- A call of a key whose computation has ended. -/
  | known {key : κ} {result : Except ε ν} {now : Moment τ κ ε ν} (hended : .ended key result ∈ log) :
    Observation busy log (.asked key now) (.answered key result now)
  /-- A call of a key whose computation is running. -/
  | refused {key : κ} {now : Moment τ κ ε ν} (hbegan : .began key ∈ log)
    (hopen : ∀ result, .ended key result ∉ log) :
    Observation busy log (.asked key now) (.answered key (.error (busy key)) now)
  /-- The first call of a key. -/
  | begins {key : κ} {now : Moment τ κ ε ν} (hnew : .began key ∉ log) :
    Observation busy log (.asked key now) (.began key)
  /-- The end of a computation. -/
  | ends {key : κ} {result : Except ε ν} {now : Moment τ κ ε ν} (hbegan : .began key ∈ log)
    (hopen : ∀ result, .ended key result ∉ log) (hkept : now.memo.find? key = some (.done result)) :
    Observation busy log (.ended key result) (.answered key result now)

/-- The log of a run, step by step. -/
inductive Observed (busy : κ → ε) : List (MemoEvent τ κ ε ν) → Prop where
  | start : Observed busy []
  | step {log : List (MemoEvent τ κ ε ν)} {first second : MemoEvent τ κ ε ν}
    (h : Observed busy log) (hstep : Observation busy log first second) :
    Observed busy (log ++ [first, second])

/-- How a call goes on, by what has been seen before it: with the result of the computation of its key if
this has ended, with a failure if it is running, and else with its beginning. Where nothing runs, nothing
has changed when the call answers. -/
def Met (busy : κ → ε) (before : List (MemoEvent τ κ ε ν)) (key : κ) (now : Moment τ κ ε ν)
    (after : List (MemoEvent τ κ ε ν)) : Prop :=
  (∃ result, .ended key result ∈ before ∧ [.answered key result now] <+: after) ∨
    (.began key ∈ before ∧ (∀ result, .ended key result ∉ before) ∧
      [.answered key (.error (busy key)) now] <+: after) ∨
    .began key ∉ before ∧ [.began key] <+: after

end

/-- A list that ends in two entries, taken apart at one of its entries. -/
theorem append_pair_eq {α : Type} {log before after : List α} {a b x : α}
    (h : log ++ [a, b] = before ++ x :: after) :
    (∃ mid, log = before ++ x :: mid ∧ after = mid ++ [a, b]) ∨
      (before = log ∧ x = a ∧ after = [b]) ∨ before = log ++ [a] ∧ x = b ∧ after = [] := by
  rcases List.append_eq_append_iff.mp h with ⟨l, rfl, hl⟩ | ⟨l, rfl, hl⟩
  · match l, hl with
    | [], hl =>
      cases hl
      exact Or.inr (Or.inl ⟨List.append_nil _, rfl, rfl⟩)
    | [_], hl =>
      -- everything else stands before the entry, the first of the two included
      cases hl
      exact Or.inr (Or.inr ⟨rfl, rfl, rfl⟩)
    | _ :: _ :: _, hl => simp at hl
  · cases l with
    | nil =>
      cases hl
      exact Or.inr (Or.inl ⟨(List.append_nil _).symm, rfl, rfl⟩)
    | cons y l =>
      cases hl
      exact Or.inl ⟨l, rfl, rfl⟩

section

variable {τ κ ε ν : Type} [BEq κ] {busy : κ → ε} {log before after more : List (MemoEvent τ κ ε ν)}
  {key : κ} {result : Except ε ν} {now : Moment τ κ ε ν}

omit [BEq κ] in
/-- What follows a call stays there when more is written down. -/
theorem Met.append (h : Met busy before key now after) : Met busy before key now (after ++ more) := by
  have hlater : after <+: after ++ more := List.prefix_append after more
  rcases h with ⟨result, hended, hnext⟩ | ⟨hbegan, hopen, hnext⟩ | ⟨hnew, hnext⟩
  · exact Or.inl ⟨result, hended, hnext.trans hlater⟩
  · exact Or.inr (Or.inl ⟨hbegan, hopen, hnext.trans hlater⟩)
  · exact Or.inr (Or.inr ⟨hnew, hnext.trans hlater⟩)

namespace Observed

/-- No computation begins twice. -/
theorem nodup_begun (h : Observed busy log) : (begun log).Nodup := by
  induction h with
  | start => exact List.nodup_nil
  | step h hstep ih =>
    rw [begun_append]
    -- of the two entries of a step, at most one is a beginning, and only of a key that is new
    cases hstep with
    | known _ => simpa [begun] using ih
    | refused _ _ => simpa [begun] using ih
    | ends _ _ _ => simpa [begun] using ih
    | begins hnew =>
      refine ih.append (List.nodup_singleton _) (List.disjoint_singleton.mpr ?_)
      exact fun hmem => hnew (mem_begun.mp hmem)

/-- What ends has begun before, and at its end the call answers; the result is kept then. -/
theorem ended (h : Observed busy log) (hlog : log = before ++ .ended key result :: after) :
    .began key ∈ before ∧
      ∃ now rest, after = .answered key result now :: rest ∧
        now.memo.find? key = some (.done result) := by
  induction h generalizing after with
  | start => simp at hlog
  | step h hstep ih =>
    rcases append_pair_eq hlog with ⟨mid, hmid, rfl⟩ | ⟨rfl, rfl, rfl⟩ | ⟨-, rfl, -⟩
    · -- it had ended before the last step, and so had its call
      obtain ⟨hbegan, now, rest, rfl, hkept⟩ := ih hmid
      exact ⟨hbegan, now, _, rfl, hkept⟩
    · cases hstep with
      | ends hbegan _ hkept => exact ⟨hbegan, _, [], rfl, hkept⟩
    · -- no step has an end as its second entry
      cases hstep

/-- At any time, what has ended has begun. -/
theorem began_of_ended (h : Observed busy (before ++ after)) (hended : .ended key result ∈ before) :
    .began key ∈ before := by
  obtain ⟨early, late, rfl⟩ := List.append_of_mem hended
  rw [List.append_assoc, List.cons_append] at h
  exact List.mem_append_left _ (h.ended rfl).1

/-- What begins has not begun before. -/
theorem not_began (h : Observed busy (before ++ .began key :: after)) : .began key ∉ before := by
  intro hbegan
  -- it would stand twice among the keys that have begun
  have hnodup := h.nodup_begun
  rw [begun_append, List.nodup_append'] at hnodup
  exact hnodup.2.2 (mem_begun.mpr hbegan) (mem_begun.mpr List.mem_cons_self)

/-- A call is answered at once, or its computation begins. -/
theorem asked (h : Observed busy log) (hlog : log = before ++ .asked key now :: after) :
    Met busy before key now after := by
  induction h generalizing after with
  | start => simp at hlog
  | step h hstep ih =>
    rcases append_pair_eq hlog with ⟨mid, hmid, rfl⟩ | ⟨rfl, rfl, rfl⟩ | ⟨-, rfl, -⟩
    · exact (ih hmid).append
    · cases hstep with
      | known hended => exact Or.inl ⟨_, hended, List.prefix_rfl⟩
      | refused hbegan hopen => exact Or.inr (Or.inl ⟨hbegan, hopen, List.prefix_rfl⟩)
      | begins hnew => exact Or.inr (Or.inr ⟨hnew, List.prefix_rfl⟩)
    · cases hstep

end Observed

end

/-! ## What the memo says -/

namespace Watched

variable {τ κ ε ν : Type}

/-- A call has been answered at once. -/
def replied (s : Watched τ κ ε ν) (key : κ) (answer : Except ε ν) : Watched τ κ ε ν :=
  { s with log := s.log ++ [.asked key s.now, .answered key answer s.now] }

variable [BEq κ]

/-- The computation of a call has begun. -/
def opened (s : Watched τ κ ε ν) (key : κ) : Watched τ κ ε ν where
  now := { s.now with memo := s.now.memo.insert key .running }
  log := s.log ++ [.asked key s.now, .began key]

/-- The computation of a call has ended, and the call has been answered. -/
def closed (s : Watched τ κ ε ν) (key : κ) (result : Except ε ν) : Watched τ κ ε ν :=
  let now : Moment τ κ ε ν := { s.now with memo := s.now.memo.insert key (.done result) }
  ⟨now, s.log ++ [.ended key result, .answered key result now]⟩

end Watched

section

variable {τ κ ε ν : Type} [BEq κ] {busy : κ → ε} {s t : Watched τ κ ε ν} {key : κ}
  {compute : Inquiry τ κ ε ν} {next : Except ε ν → Inquiry τ κ ε ν} {result : Except ε ν}

namespace Inquiry

/-- Whatever a call of a known key brings, the run goes on with what is known. -/
theorem run_ask_known (hdone : s.now.memo.find? key = some (.done result)) :
    (ask key compute next).run busy s = (next result).run busy (s.replied key result) := by
  have hfetch : outcome (Memo.fetch Watched.memoPart (busy key) key
      (Watched.noting key (compute.run busy))) (s.note (.asked key s.now)) =
        (result, s.note (.asked key s.now)) := Memo.outcome_fetch_done hdone
  simp only [run, hfetch]
  exact congrArg _ (Watched.note_note _ _ _)

/-- Whatever a call of an open key brings, the run goes on with its failure. -/
theorem run_ask_running (hrunning : s.now.memo.find? key = some .running) :
    (ask key compute next).run busy s =
      (next (.error (busy key))).run busy (s.replied key (.error (busy key))) := by
  have hfetch : outcome (Memo.fetch Watched.memoPart (busy key) key
      (Watched.noting key (compute.run busy))) (s.note (.asked key s.now)) =
        (.error (busy key), s.note (.asked key s.now)) := Memo.outcome_fetch_running hrunning
  simp only [run, hfetch]
  exact congrArg _ (Watched.note_note _ _ _)

/-- A call of a new key opens it, runs what it has brought, and closes it with the result. -/
theorem run_ask_new (hnew : s.now.memo.find? key = none)
    (hrun : compute.run busy (s.opened key) = (result, t)) :
    (ask key compute next).run busy s = (next result).run busy (t.closed key result) := by
  -- the call is written down, then the memo is changed, then the beginning is written down
  have hopened : (Watched.memoPart.set (s.now.memo.insert key .running)
      (s.note (.asked key s.now))).note (.began key) = s.opened key :=
    Watched.note_note (Watched.memoPart.set (s.now.memo.insert key .running) s) _ _
  have hfetch : outcome (Memo.fetch Watched.memoPart (busy key) key
      (Watched.noting key (compute.run busy))) (s.note (.asked key s.now)) = _ :=
    Memo.outcome_fetch_new hnew (Watched.outcome_noting (by rw [← hrun, ← hopened]; rfl))
  simp only [run, hfetch]
  exact congrArg _ (Watched.note_note (Watched.memoPart.set (t.now.memo.insert key (.done result)) t) _ _)

end Inquiry

/-- The memo agrees with a log that was observed: it knows the keys whose computation has begun, and the
results of those that have ended. -/
structure Accords (busy : κ → ε) (s : Watched τ κ ε ν) : Prop where
  observed : Observed busy s.log
  began_iff : ∀ key, .began key ∈ s.log ↔ s.now.memo.find? key ≠ none
  ended_iff : ∀ key result, .ended key result ∈ s.log ↔ s.now.memo.find? key = some (.done result)

namespace Accords

theorem start (outside : τ) : Accords busy (.start outside : Watched τ κ ε ν) where
  observed := .start
  began_iff _ := ⟨nofun, fun h => absurd rfl h⟩
  ended_iff _ _ := ⟨nofun, nofun⟩

/-- The key is open. -/
theorem of_running (h : Accords busy s) (hrunning : s.now.memo.find? key = some .running) :
    .began key ∈ s.log ∧ ∀ result, .ended key result ∉ s.log := by
  rw [h.began_iff, hrunning]
  refine ⟨nofun, fun result hended => ?_⟩
  rw [h.ended_iff, hrunning] at hended
  cases hended

theorem replied (h : Accords busy s) {answer : Except ε ν}
    (hstep : Observation busy s.log (.asked key s.now) (.answered key answer s.now)) :
    Accords busy (s.replied key answer) where
  observed := h.observed.step hstep
  -- neither entry is a beginning or an end, and the memo is as it was
  began_iff other := by simpa [Watched.replied] using h.began_iff other
  ended_iff other result := by simpa [Watched.replied] using h.ended_iff other result

variable [LawfulBEq κ]

theorem opened (h : Accords busy s) (hnew : s.now.memo.find? key = none) :
    Accords busy (s.opened key) where
  observed := h.observed.step (.begins fun hbegan => (h.began_iff key).mp hbegan hnew)
  began_iff other := by
    by_cases heq : other = key
    · subst heq
      simp [Watched.opened]
    · simp [Watched.opened, Memo.find?_insert_of_ne _ heq, h.began_iff, heq]
  ended_iff other result := by
    by_cases heq : other = key
    · subst heq
      simp [Watched.opened, h.ended_iff, hnew]
    · simp [Watched.opened, Memo.find?_insert_of_ne _ heq, h.ended_iff]

theorem closed (h : Accords busy s) (hrunning : s.now.memo.find? key = some .running)
    (result : Except ε ν) : Accords busy (s.closed key result) where
  observed :=
    h.observed.step (.ends (h.of_running hrunning).1 (h.of_running hrunning).2
      (Memo.find?_insert_self _ _ _))
  began_iff other := by
    by_cases heq : other = key
    · subst heq
      simp [Watched.closed, h.began_iff, hrunning]
    · simp [Watched.closed, Memo.find?_insert_of_ne _ heq, h.began_iff]
  ended_iff other result' := by
    by_cases heq : other = key
    · subst heq
      simp [Watched.closed, h.ended_iff, hrunning, eq_comm]
    · simp [Watched.closed, Memo.find?_insert_of_ne _ heq, h.ended_iff, heq]

end Accords

variable [LawfulBEq κ]

/-- The memo still agrees with the log after a run, and the same keys are open as before it: those that
were opened on the way have been closed again, the last one first. -/
theorem Inquiry.run_accords (inquiry : Inquiry τ κ ε ν) (h : Accords busy s) :
    Accords busy (inquiry.run busy s).2 ∧
      ∀ key, (inquiry.run busy s).2.now.memo.find? key = some .running ↔
        s.now.memo.find? key = some .running := by
  induction inquiry generalizing s with
  | done result => exact ⟨h, fun _ => Iff.rfl⟩
  | act change next ih =>
    exact ih s.now.outside (s := { s with now := { s.now with outside := change s.now.outside } })
      ⟨h.observed, h.began_iff, h.ended_iff⟩
  | ask key compute next ihc ihn =>
    match hfind : s.now.memo.find? key with
    | some (.done result) =>
      -- neither here nor in the next case is anything run or any key opened
      rw [run_ask_known hfind]
      exact ihn result (h.replied (.known ((h.ended_iff key result).mpr hfind)))
    | some .running =>
      obtain ⟨hbegan, hopen⟩ := h.of_running hfind
      rw [run_ask_running hfind]
      exact ihn _ (h.replied (.refused hbegan hopen))
    | none =>
      -- the key is open while what the call has brought runs, and still is when this ends
      obtain ⟨result, t, hrun⟩ : ∃ result t, compute.run busy (s.opened key) = (result, t) :=
        ⟨_, _, rfl⟩
      obtain ⟨ht, hopen⟩ := ihc (h.opened hfind)
      rw [hrun] at ht hopen
      have hrunning : t.now.memo.find? key = some .running :=
        (hopen key).mpr (Memo.find?_insert_self _ _ _)
      rw [run_ask_new hfind hrun]
      obtain ⟨hu, hsame⟩ := ihn result (ht.closed hrunning result)
      refine ⟨hu, fun other => (hsame other).trans ?_⟩
      by_cases heq : other = key
      · -- it was not open before the call, and it is closed now
        subst heq
        simp [Watched.closed, hfind]
      · have hother := hopen other
        simp only [Watched.opened, Memo.find?_insert_of_ne _ heq] at hother
        simp only [Watched.closed, Memo.find?_insert_of_ne _ heq]
        exact hother

namespace Accords

omit [LawfulBEq κ]

variable {before after : List (MemoEvent τ κ ε ν)} {now : Moment τ κ ε ν}

/-- The first call of a key runs what it has brought. -/
theorem first (h : Accords busy s) (hlog : s.log = before ++ .asked key now :: after)
    (hnew : .began key ∉ before) : [.began key] <+: after := by
  have hobserved := hlog ▸ h.observed
  rcases h.observed.asked hlog with ⟨result, hended, -⟩ | ⟨hbegan, -, -⟩ | ⟨-, hnext⟩
  · exact absurd (hobserved.began_of_ended hended) hnew
  · exact absurd hbegan hnew
  · exact hnext

/-- A call of an open key fails at once. -/
theorem refused (h : Accords busy s) (hlog : s.log = before ++ .asked key now :: after)
    (hbegan : .began key ∈ before) (hopen : ∀ result, .ended key result ∉ before) :
    [.answered key (.error (busy key)) now] <+: after := by
  rcases h.observed.asked hlog with ⟨result, hended, -⟩ | ⟨-, -, hnext⟩ | ⟨hnew, -⟩
  · exact absurd hended (hopen result)
  · exact hnext
  · exact absurd hbegan hnew

/-- A call of a key whose computation has ended answers its result at once. -/
theorem known (h : Accords busy s) (hlog : s.log = before ++ .asked key now :: after)
    (hended : .ended key result ∈ before) : [.answered key result now] <+: after := by
  have hobserved := hlog ▸ h.observed
  rcases h.observed.asked hlog with ⟨result', hended', hnext⟩ | ⟨-, hopen, -⟩ | ⟨hnew, -⟩
  · -- a computation has one result, as the memo keeps one
    have hkept := (h.ended_iff key result).mp (hlog ▸ List.mem_append_left _ hended)
    have hkept' := (h.ended_iff key result').mp (hlog ▸ List.mem_append_left _ hended')
    rw [hkept] at hkept'
    cases hkept'
    exact hnext
  · exact absurd hended (hopen result)
  · exact absurd (hobserved.began_of_ended hended) hnew

/-- What has begun ends, if its key is not open any more, and then its call answers. -/
theorem ends (h : Accords busy s) (hlog : s.log = before ++ .began key :: after)
    (hclosed : s.now.memo.find? key ≠ some .running) :
    ∃ inner result now rest,
      after = inner ++ .ended key result :: .answered key result now :: rest ∧
      now.memo.find? key = some (.done result) ∧ s.now.memo.find? key = some (.done result) := by
  have hobserved := hlog ▸ h.observed
  have hbegan : .began key ∈ s.log := hlog ▸ List.mem_append_right _ List.mem_cons_self
  obtain ⟨result, hkept⟩ : ∃ result, s.now.memo.find? key = some (.done result) := by
    match hfind : s.now.memo.find? key with
    | none => exact absurd hfind ((h.began_iff key).mp hbegan)
    | some .running => exact absurd hfind hclosed
    | some (.done result) => exact ⟨result, rfl⟩
  have hended := (h.ended_iff key result).mpr hkept
  rw [hlog, List.mem_append, List.mem_cons] at hended
  -- it cannot have ended before it began
  rcases hended with hearly | heq | hlate
  · exact absurd (hobserved.began_of_ended hearly) hobserved.not_began
  · cases heq
  · obtain ⟨inner, rest, rfl⟩ := List.append_of_mem hlate
    have hsplit : s.log = (before ++ .began key :: inner) ++ .ended key result :: rest := by
      rw [hlog, List.append_assoc, List.cons_append]
    obtain ⟨-, now, rest, rfl, hnow⟩ := h.observed.ended hsplit
    exact ⟨inner, result, now, rest, rfl, hnow, hkept⟩

end Accords

/-- Whatever is asked for, at any depth, and whatever comes out of it, with nothing known at the start. No
computation is run twice. A call whose key has not been asked for before runs what it brings. A call of an
open key fails at once, and a call of a key whose computation has ended answers the result of this at
once; in both cases the memo, and all that is outside of it, are as they were when the call was made. And
what is begun ends: the call that runs it answers its very result, be it a value or a failure, and this
result is kept then, and for good. -/
theorem Inquiry.run_orderly (busy : κ → ε) (inquiry : Inquiry τ κ ε ν) (outside : τ)
    {answer : Except ε ν} (hrun : inquiry.run busy (.start outside) = (answer, s)) :
    (begun s.log).Nodup ∧
    (∀ before key now after, s.log = before ++ .asked key now :: after →
      (.began key ∉ before → [.began key] <+: after) ∧
      (.began key ∈ before → (∀ result, .ended key result ∉ before) →
        [.answered key (.error (busy key)) now] <+: after) ∧
      ∀ result, .ended key result ∈ before → [.answered key result now] <+: after) ∧
    ∀ before key after, s.log = before ++ .began key :: after →
      ∃ inner result now rest,
        after = inner ++ .ended key result :: .answered key result now :: rest ∧
        now.memo.find? key = some (.done result) ∧ s.now.memo.find? key = some (.done result) := by
  have hstart : Accords busy (.start outside : Watched τ κ ε ν) := .start outside
  obtain ⟨h, hopen⟩ := inquiry.run_accords hstart
  rw [hrun] at h hopen
  refine ⟨h.observed.nodup_begun, ?_, ?_⟩
  · intro before key now after hlog
    exact ⟨h.first hlog, h.refused hlog, fun result => h.known hlog⟩
  · intro before key after hlog
    -- no key is open at the start, so none is at the end
    have hclosed : s.now.memo.find? key ≠ some .running :=
      fun hrunning => nomatch (hopen key).mp hrunning
    exact h.ends hlog hclosed

end

/-- A computation that asks for its own key on the way, and for another one that fails. -/
def reentered : Inquiry Nat String String Nat :=
  .ask "a" (.ask "a" (.done (.ok 1)) fun _ => .ask "b" (.done (.error "no")) fun _ => .done (.ok 2))
    fun _ => .ask "b" (.done (.ok 3)) fun _ => .ask "a" (.done (.ok 4)) .done

/-- Asked for on its own way, the key is refused, with the memo as it was. Its computation gives what it
gives, and this is kept, as is the failure of the other one. -/
theorem Inquiry.run_orderly_reentered :
    ∃ s, reentered.run (fun key => "running: " ++ key) (.start 0) = (.ok 2, s) ∧
      (begun s.log).Nodup ∧ begun s.log = ["a", "b"] ∧
      (∃ after, s.log = [.asked "a" ⟨.empty, 0⟩, .began "a"] ++
          .asked "a" ⟨⟨[("a", .running)]⟩, 0⟩ :: after ∧
        [.answered "a" (.error "running: a") ⟨⟨[("a", .running)]⟩, 0⟩] <+: after) ∧
      s.now.memo.find? "a" = some (.done (.ok 2)) ∧
      s.now.memo.find? "b" = some (.done (.error "no")) := by
  obtain ⟨hnodup, hcalls, -⟩ :=
    Inquiry.run_orderly (fun key => "running: " ++ key) reentered 0 rfl
  have hrefused := (hcalls [.asked "a" ⟨.empty, 0⟩, .began "a"] "a" ⟨⟨[("a", .running)]⟩, 0⟩ _ rfl).2.1
    (by simp) (by simp)
  exact ⟨_, rfl, hnodup, rfl, ⟨_, rfl, hrefused⟩, rfl, rfl⟩

end RecordLayout
