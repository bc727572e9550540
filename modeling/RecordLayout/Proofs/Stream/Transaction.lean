import Mathlib
import RecordLayout.Proofs.Stream.View
import RecordLayout.Stream.Script

/-!
# Steps on open transactions

A step on a stream with open transactions does what it does on a plain copy of the stream, which holds
the bytes that the stream shows: it gives the same answer and moves the same cursor, and the stream
goes on showing what the copy holds.

Main results:

* `ByteStream.put_copy`, `ByteStream.commit_copy` — writes and commits;
* `StreamStep.mirrors_run` — one step, unless it writes nothing behind the end.
-/

namespace RecordLayout

/-! ## Plain copies -/

namespace ByteStream

/-- The bytes that a stream shows, as a stream without transactions. -/
def copy (s : ByteStream) : ByteStream := .memory s.shown s.position

/-- Whether every write to the stream and every commit succeeds: it is memory, perhaps seen through
transactions. -/
def Buffered : ByteStream → Prop
  | .memory _ _ => True
  | .edited under _ => under.Buffered
  | .metered _ _ => False
  | .piecewise _ => False

/-- The stream below a transaction. -/
def below? : ByteStream → Option ByteStream
  | .edited under _ => some under
  | _ => none

/-- What every step keeps: a stream that shows its bytes, on which writes succeed, and the stream
below it. -/
structure Follows (s s' : ByteStream) : Prop where
  coherent : s'.Coherent
  buffered : s'.Buffered
  below : s'.below? = s.below?

theorem Follows.refl {s : ByteStream} (hcoh : s.Coherent) (hbuf : s.Buffered) : Follows s s :=
  ⟨hcoh, hbuf, rfl⟩

/-- Following is transitive. -/
theorem Follows.trans {s t u : ByteStream} (hst : Follows s t) (htu : Follows t u) : Follows s u :=
  ⟨htu.coherent, htu.buffered, htu.below.trans hst.below⟩

/-- A stream that follows another follows itself. -/
theorem Follows.self {s t : ByteStream} (h : Follows s t) : Follows t t :=
  .refl h.coherent h.buffered

/-- A stream in memory is its own copy. -/
@[simp] theorem copy_memory (content : Bytes) (cursor : Nat) :
    copy (.memory content cursor) = .memory content cursor := rfl

@[simp] theorem copy_begin (s : ByteStream) : s.begin.copy = s.copy := rfl

@[simp] theorem position_copy (s : ByteStream) : s.copy.position = s.position := rfl

/-- A copy has the size of its stream. -/
theorem size_copy {s : ByteStream} (h : s.Coherent) : s.copy.size = s.size := (size_shown h).symm

/-- A copy has as much left as its stream. -/
theorem remaining_copy {s : ByteStream} (h : s.Coherent) : s.copy.remaining = s.remaining := by
  rw [remaining, remaining, size_copy h, position_copy]

/-- Copying and moving the cursor may be swapped. -/
theorem copy_setPosition (s : ByteStream) (p : Nat) :
    (s.setPosition p).copy = s.copy.setPosition p := by
  simp only [copy, setPosition, shown_setPosition, position_setPosition]

/-- Copying and resizing may be swapped. -/
theorem copy_setSize (s : ByteStream) (n : Nat) : (s.setSize n).copy = s.copy.setSize n := by
  simp only [copy, setSize, shown_setSize, position_setSize]

/-- Moving the cursor is followed. -/
theorem follows_setPosition {s : ByteStream} (hcoh : s.Coherent) (hbuf : s.Buffered) (p : Nat) :
    Follows s (s.setPosition p) := by
  refine ⟨coherent_setPosition hcoh p, ?_, ?_⟩
  · cases s <;> exact hbuf
  · cases s <;> rfl

/-- Resizing is followed. -/
theorem follows_setSize {s : ByteStream} (hcoh : s.Coherent) (hbuf : s.Buffered) (n : Nat) :
    Follows s (s.setSize n) := by
  refine ⟨coherent_setSize hcoh n, ?_, ?_⟩
  · cases s <;> exact hbuf
  · cases s <;> rfl

/-- An open transaction follows itself. -/
theorem follows_begin {s : ByteStream} (hcoh : s.Coherent) (hbuf : s.Buffered) :
    Follows s.begin s.begin :=
  .refl (coherent_begin hcoh) hbuf

/-- A write to memory, perhaps through transactions, succeeds and does what it does on the copy. -/
theorem put_copy {s : ByteStream} {data : Bytes} (hcoh : s.Coherent) (hbuf : s.Buffered)
    (hgap : data ≠ [] ∨ s.position ≤ s.shown.length) :
    ∃ s', s.put data = .ok s' ∧ Follows s s' ∧ s.copy.put data = .ok s'.copy := by
  have hfinish {s' : ByteStream} (hput : s.put data = .ok s') (hbuf' : s'.Buffered)
      (hbelow : s'.below? = s.below?) :
      ∃ s', s.put data = .ok s' ∧ Follows s s' ∧ s.copy.put data = .ok s'.copy := by
    obtain ⟨hshown, hpos, hcoh'⟩ := put_shown hcoh hgap hput
    refine ⟨s', hput, ⟨hcoh', hbuf', hbelow⟩, ?_⟩
    rw [copy, copy, hshown, hpos]
    rfl
  cases s with
  | memory content cursor => exact hfinish rfl trivial rfl
  | edited under edits => exact hfinish rfl hbuf rfl
  | metered left under => exact hbuf.elim
  | piecewise under => exact hbuf.elim

/-- Held-back changes can be applied to memory, perhaps through further transactions. -/
theorem applyAll_ok {s : ByteStream} {changes : List Edit} (hcoh : s.Coherent) (hbuf : s.Buffered)
    (hsolid : ∀ change ∈ changes, change.Solid) :
    ∃ s', applyAll changes s = .ok () s' ∧ Follows s s' := by
  induction changes with
  | nil => exact ⟨s, rfl, .refl hcoh hbuf⟩
  | cons change older ih =>
    obtain ⟨t, hold, hst⟩ := ih fun c hc => hsolid c (List.mem_cons_of_mem _ hc)
    have hlast : ∃ u, t.apply change = .ok u ∧ Follows t u := by
      cases change with
      | write offset data =>
        have hmoved := follows_setPosition hst.coherent hst.buffered offset
        have hdata : data ≠ [] := hsolid _ List.mem_cons_self
        obtain ⟨u, hput, hu, -⟩ := put_copy hmoved.coherent hmoved.buffered (Or.inl hdata)
        exact ⟨u, hput, hmoved.trans hu⟩
      | resize size => exact ⟨_, rfl, follows_setSize hst.coherent hst.buffered size⟩
    obtain ⟨u, happly, htu⟩ := hlast
    refine ⟨u, ?_, hst.trans htu⟩
    simp only [applyAll, bind, EStateM.bind, hold, happly]

/-- A commit onto memory, perhaps through further transactions, succeeds; the stream below then is
what the transaction was, without the transaction. -/
theorem commit_copy {s t : ByteStream} (hbuf : s.Buffered) (hcoh : s.Coherent)
    (hst : Follows s.begin t) :
    ∃ s', commit t = .ok () s' ∧ Follows s s' ∧ s'.copy = t.copy := by
  cases t with
  | edited under edits =>
    obtain rfl : under = s := Option.some.inj hst.below
    obtain ⟨hsize, hsolid, -⟩ := hst.coherent
    obtain ⟨u, happly, hu⟩ := applyAll_ok hcoh hbuf hsolid
    have hcommit : commit (.edited under edits) = .ok () (u.setPosition edits.cursor) := by
      simp only [commit, happly]
    obtain ⟨hshown, hpos, -⟩ := commit_shown hst.coherent hcommit
    refine ⟨_, hcommit, hu.trans (follows_setPosition hu.coherent hu.buffered _), ?_⟩
    rw [copy, copy, hshown, hpos]
  | memory content cursor => cases hst.below
  | metered left under => cases hst.below
  | piecewise under => cases hst.below

/-- Giving a transaction up leaves the stream below. -/
theorem discard_follows {s t : ByteStream} (hst : Follows s.begin t) : t.discard = s := by
  cases t with
  | edited under edits => exact Option.some.inj hst.below
  | memory content cursor => cases hst.below
  | metered left under => cases hst.below
  | piecewise under => cases hst.below

end ByteStream

open ByteStream

/-! ## Actions -/

/-- An action answers on a stream what it answers on the plain copy, and leaves a stream whose copy
is what it leaves of the copy. -/
def Mirrors {α : Type} (act : StreamM ByteStream α) (s : ByteStream) : Prop :=
  ∃ answer s', outcome act s = (answer, s') ∧ Follows s s' ∧
    outcome act s.copy = (answer, s'.copy)

namespace Mirrors

variable {α β : Type} {s : ByteStream}

theorem pure (h : Follows s s) (a : α) : Mirrors (Pure.pure a) s :=
  ⟨.ok a, s, rfl, h, rfl⟩

/-- A refusal is mirrored by the same refusal. -/
theorem throw (h : Follows s s) (e : StreamError) :
    Mirrors (MonadExcept.throw e : StreamM ByteStream α) s :=
  ⟨.error e, s, rfl, h, rfl⟩

/-- Mirrored steps compose. -/
theorem bind {act : StreamM ByteStream α} {next : α → StreamM ByteStream β} (hact : Mirrors act s)
    (hnext : ∀ a s', Follows s s' → Mirrors (next a) s') : Mirrors (act >>= next) s := by
  obtain ⟨answer, s', hrun, hs', hcopy⟩ := hact
  simp only [Mirrors, outcome, Bind.bind, EStateM.bind] at hrun hcopy hnext ⊢
  -- the copy has taken the same branch, with the same answer
  cases hs : act s with
  | ok a t =>
    simp only [hs, Prod.mk.injEq] at hrun
    obtain ⟨rfl, rfl⟩ := hrun
    obtain ⟨answer', s'', hrun', hs'', hcopy'⟩ := hnext a t hs'
    cases hc : act s.copy with
    | ok b u =>
      simp only [hc, Prod.mk.injEq, Except.ok.injEq] at hcopy
      obtain ⟨rfl, rfl⟩ := hcopy
      exact ⟨answer', s'', hrun', hs'.trans hs'', hcopy'⟩
    | error e u => simp [hc] at hcopy
  | error e t =>
    simp only [hs, Prod.mk.injEq] at hrun
    obtain ⟨rfl, rfl⟩ := hrun
    cases hc : act s.copy with
    | ok b u => simp [hc] at hcopy
    | error d u =>
      simp only [hc, Prod.mk.injEq, Except.error.injEq] at hcopy
      obtain ⟨rfl, rfl⟩ := hcopy
      exact ⟨.error _, t, rfl, hs', rfl⟩

/-- Restating an error does not disturb the mirror. -/
theorem failingAs {act : StreamM ByteStream α} (restate : StreamError → StreamError)
    (hact : Mirrors act s) : Mirrors (failingAs restate act) s := by
  obtain ⟨answer, s', hrun, hs', hcopy⟩ := hact
  refine ⟨answer.mapError restate, s', ?_, hs', ?_⟩
  · simp only [outcome, RecordLayout.failingAs] at hrun ⊢
    cases hs : act s <;> simp only [hs, Prod.mk.injEq] at hrun ⊢ <;> obtain ⟨rfl, rfl⟩ := hrun <;>
      exact ⟨rfl, rfl⟩
  · simp only [outcome, RecordLayout.failingAs] at hcopy ⊢
    cases hs : act s.copy <;> simp only [hs, Prod.mk.injEq] at hcopy ⊢ <;>
      obtain ⟨rfl, hs⟩ := hcopy <;> exact ⟨rfl, hs⟩

end Mirrors

/-! ## Reading -/

/-- Taking bytes is mirrored on the copy. -/
theorem mirrors_take {s : ByteStream} (h : Follows s s) (n : Nat) :
    Mirrors (take n) s := by
  have hrem := remaining_copy h.coherent
  by_cases hn : n ≤ s.remaining
  · have hread : s.peek s.position n = s.copy.peek s.copy.position n := by
      have hsize := remaining_shown h.coherent
      rw [peek_shown h.coherent (by omega)]
      rfl
    refine ⟨.ok (s.peek s.position n), s.setPosition (s.position + n), ?_,
      follows_setPosition h.coherent h.buffered _, ?_⟩
    · simp only [outcome, take, if_pos hn]
    · simp only [outcome, take, hrem, if_pos hn, hread, copy_setPosition, position_copy]
  · refine ⟨.error (.endOfStream n s.remaining), s, ?_, h, ?_⟩
    · simp only [outcome, take, if_neg hn]
    · simp only [outcome, take, hrem, if_neg hn]

/-- Advancing is mirrored on the copy. -/
theorem mirrors_advance {s : ByteStream} (h : Follows s s) (n : Nat) :
    Mirrors (advance n) s := by
  have hrem := remaining_copy h.coherent
  by_cases hn : n ≤ s.remaining
  · refine ⟨.ok (), s.setPosition (s.position + n), ?_,
      follows_setPosition h.coherent h.buffered _, ?_⟩
    · simp only [outcome, advance, if_pos hn]
    · simp only [outcome, advance, hrem, if_pos hn, copy_setPosition, position_copy]
  · refine ⟨.error (.endOfStream n s.remaining), s, ?_, h, ?_⟩
    · simp only [outcome, advance, if_neg hn]
    · simp only [outcome, advance, hrem, if_neg hn]

/-- Skipping is mirrored on the copy. -/
theorem mirrors_skip {s : ByteStream} (h : Follows s s) (n : Nat) :
    Mirrors (ByteSource.skip n) s := by
  have hjump : s.skipsByReading = false := by
    cases s with
    | memory content cursor => rfl
    | edited under edits => rfl
    | metered left under => exact h.buffered.elim
    | piecewise under => exact h.buffered.elim
  have hcopy : s.copy.skipsByReading = false := rfl
  have hadv := mirrors_advance h n
  simpa only [Mirrors, outcome, ByteSource.skip, hjump, hcopy, Bool.false_eq_true, if_false]
    using hadv

/-- Reading a byte is mirrored on the copy. -/
theorem mirrors_readByte {s : ByteStream} (h : Follows s s) :
    Mirrors (ByteSource.readByte : StreamM ByteStream UInt8) s :=
  (mirrors_take h 1).bind fun _ _ hs => .pure hs.self _

/-- Each round of the varint reader is mirrored on the copy. -/
theorem mirrors_continueVarint {s : ByteStream} (h : Follows s s) (more : Nat)
    (decoder : Varint.Decoder) :
    Mirrors (ByteSource.continueVarint more decoder : StreamM ByteStream UInt64) s := by
  induction more generalizing s decoder with
  | zero => exact .throw h _
  | succ more ih =>
    rw [ByteSource.continueVarint]
    refine (mirrors_readByte h).bind fun byte t ht => ?_
    cases decoder.push byte with
    | more next => exact ih ht.self next
    | done value => exact .pure ht.self value
    | overflow => exact .throw ht.self _

/-- Reading piece by piece is mirrored on the copy. -/
theorem mirrors_readInPieces {s : ByteStream} (h : Follows s s) (total start : Nat) :
    Mirrors (readInPieces take total start) s := by
  induction hleft : total - start using Nat.strong_induction_on generalizing s start with
  | _ left ih =>
    rw [readInPieces]
    split
    · exact .pure h _
    · refine ((mirrors_take h _).failingAs _).bind fun piece t ht => ?_
      refine (ih _ ?_ ht.self _ rfl).bind fun rest u hu => .pure hu.self _
      omega

/-- A reading step does what it does on the plain copy. -/
theorem ReadStep.mirrors_run {s : ByteStream} (h : Follows s s) (step : ReadStep) :
    Mirrors step.run s := by
  cases step with
  | bytes n => exact (mirrors_take h n).bind fun _ _ hs => .pure hs.self _
  | skip n => exact (mirrors_skip h n).bind fun _ _ hs => .pure hs.self _
  | byte => exact (mirrors_readByte h).bind fun _ _ hs => .pure hs.self _
  | word width =>
    have hword : Mirrors (ByteSource.readWord width : StreamM ByteStream UInt64) s := by
      rw [ByteSource.readWord]
      split
      · exact .throw h _
      · exact (mirrors_take h width).bind fun _ _ hs => .pure hs.self _
    exact hword.bind fun _ _ hs => .pure hs.self _
  | u32 =>
    exact ((mirrors_take h 4).bind fun _ _ hs => .pure hs.self _).bind fun _ _ hs => .pure hs.self _
  | u64 =>
    exact ((mirrors_take h 8).bind fun _ _ hs => .pure hs.self _).bind fun _ _ hs => .pure hs.self _
  | varint =>
    exact (mirrors_continueVarint h _ _).bind fun _ _ hs => .pure hs.self _
  | counted n => exact (mirrors_readInPieces h n 0).bind fun _ _ hs => .pure hs.self _

/-! ## Writing -/

/-- Whether a step writes, but no bytes at all. -/
def WriteStep.isEmpty : WriteStep → Bool
  | .bytes data => data.isEmpty
  | .word width _ => width == 0
  | _ => false

/-- A write is mirrored unless it is an empty one past the end. -/
theorem mirrors_write {s : ByteStream} {data : Bytes} (h : Follows s s)
    (hgap : data ≠ [] ∨ s.position ≤ s.shown.length) : Mirrors (ByteSink.write data) s := by
  obtain ⟨s', hput, hs', hcopy⟩ := put_copy h.coherent h.buffered hgap
  exact ⟨.ok (), s', by simp only [outcome, ByteSink.write, hput], hs',
    by simp only [outcome, ByteSink.write, hcopy]⟩

/-- A varint has at least one byte. -/
theorem groups_ne_nil (more n : Nat) : Varint.groups more n ≠ [] := by
  cases more with
  | zero => simp [Varint.groups]
  | succ more =>
    rw [Varint.groups]
    split <;> simp

/-- A writing step does what it does on the plain copy, unless it writes nothing behind the end. -/
theorem WriteStep.mirrors_run {s : ByteStream} (h : Follows s s) (step : WriteStep)
    (hgap : step.isEmpty = true → s.position ≤ s.shown.length) : Mirrors step.run s := by
  -- a word of some width is never an empty write, so it cannot leave a gap unfilled
  have hsolid {n v : Nat} (hn : n ≠ 0) : leBytes n v ≠ [] := by
    intro hnil
    exact hn (by simpa using congrArg List.length hnil)
  have hdone (act : StreamM ByteStream Unit) (hact : Mirrors act s) :
      Mirrors (act >>= fun _ => Pure.pure StepAnswer.done) s :=
    hact.bind fun _ _ hs => .pure hs.self _
  -- an empty write past the end is the one step at which the copy and the transaction differ
  cases step with
  | bytes data =>
    refine hdone _ (mirrors_write h ?_)
    by_cases hdata : data = []
    · exact Or.inr (hgap (by simp [isEmpty, hdata]))
    · exact Or.inl hdata
  | byte value => exact hdone _ (mirrors_write h (Or.inl (by simp)))
  | word width value =>
    refine hdone _ ?_
    rw [ByteSink.writeWord]
    split
    · exact .throw h _
    · refine mirrors_write h ?_
      by_cases hwidth : width = 0
      · exact Or.inr (hgap (by simp [isEmpty, hwidth]))
      · exact Or.inl (hsolid hwidth)
  | u32 value => exact hdone _ (mirrors_write h (Or.inl (hsolid (by decide))))
  | u64 value => exact hdone _ (mirrors_write h (Or.inl (hsolid (by decide))))
  | varint value => exact hdone _ (mirrors_write h (Or.inl (groups_ne_nil _ _)))

/-- Whether a step writes nothing while the cursor stands behind the end. -/
def StreamStep.FillsGap (s : ByteStream) : StreamStep → Prop
  | .write step => step.isEmpty = true ∧ s.size < s.position
  | _ => False

/-- A step on a stream with open transactions does what it does on the plain copy. -/
theorem StreamStep.mirrors_run {s : ByteStream} (h : Follows s s) (step : StreamStep)
    (hgap : ¬step.FillsGap s.copy) : Mirrors step.run s := by
  cases step with
  | read step => exact step.mirrors_run h
  | write step =>
    refine step.mirrors_run h fun hempty => Nat.le_of_not_lt fun hlt => hgap ⟨hempty, ?_⟩
    exact hlt
  | setPosition p =>
    exact ⟨.ok .done, s.setPosition p, rfl, follows_setPosition h.coherent h.buffered p,
      by rw [copy_setPosition]; rfl⟩
  | setSize n =>
    exact ⟨.ok .done, s.setSize n, rfl, follows_setSize h.coherent h.buffered n,
      by rw [copy_setSize]; rfl⟩
  | remaining =>
    refine ⟨.ok (.number s.remaining), s, rfl, h, ?_⟩
    simp only [outcome, StreamStep.run, remaining_copy h.coherent]

end RecordLayout
