import Mathlib
import RecordLayout.Proofs.Chunk.Balance
import RecordLayout.Proofs.Stream.Staying

/-!
# Each chunk is a stream of its own

A store is called to allocate and to free chunks, to open one and take some steps on it, and to read
one whole, in any order and with any outcome. What it answers is told by the history of the calls
alone. A chunk lives from the call that allocated it to the first list that is freed and names it, and
it holds what the visits to it, one after another and each from the front, leave on a stream that was
empty at first. Nothing that is done to other chunks comes into this.

Main results:

* `ByteStream.runSteps_memory`, `StoreCall.replayed_snoc` — steps on memory, and visits in a row;
* `StoreCall.serve_tells`, `StoreCall.serveAll_tells` — the history tells what the store holds, after
  one call more and after a run;
* `StoreCall.calls_replayed` — what holds after every run from an empty store.
-/

namespace RecordLayout

/-! ## Steps on memory -/

namespace ByteStream

theorem runSteps_staysOn (steps : List StreamStep) (s : ByteStream) :
    StaysOn s (runSteps steps s).2 := by
  induction steps generalizing s with
  | nil => exact .refl s
  | cons step rest ih => exact (StreamStep.stays step s).trans (ih _)

/-- Steps on memory end on memory. -/
theorem runSteps_memory (steps : List StreamStep) (content : Bytes) (cursor : Nat) :
    ∃ content' cursor', (runSteps steps (.memory content cursor)).2 = .memory content' cursor' := by
  have hstays := runSteps_staysOn steps (.memory content cursor)
  have hbuffered := hstays.buffered trivial
  have hbelow := hstays.below
  -- a stream that takes every write and shows no other one is memory
  cases hlast : (runSteps steps (.memory content cursor)).2 with
  | memory content' cursor' => exact ⟨content', cursor', rfl⟩
  | edited under edits =>
    rw [hlast] at hbelow
    cases hbelow
  | metered left under =>
    rw [hlast] at hbuffered
    exact hbuffered.elim
  | piecewise under =>
    rw [hlast] at hbuffered
    exact hbuffered.elim

theorem runSteps_append (first second : List StreamStep) (s : ByteStream) :
    (runSteps (first ++ second) s).2 = (runSteps second (runSteps first s).2).2 := by
  induction first generalizing s with
  | nil => rfl
  | cons step rest ih => exact ih _

end ByteStream

/-! ## Calls -/

/-- A call to a chunk store. -/
inductive StoreCall where
  | allocate
  | free (chunks : List ChunkId)
  /-- Opens a chunk, takes some steps on it and closes it. -/
  | visit (chunk : ChunkId) (steps : List StreamStep)
  | readAll (chunk : ChunkId)

/-- What a store answers when it does what it is called for. -/
inductive StoreAnswer where
  | allocated (chunk : ChunkId)
  | freed
  | visited (reports : List StepReport)
  | bytes (content : Bytes)

/-- A call with the answer to it. -/
structure StoreEvent where
  call : StoreCall
  answer : Except StreamError StoreAnswer

namespace StoreCall

open ByteStream ChunkStore

/-- What a store answers, with the store after that. -/
def serve (store : ChunkStore) : StoreCall → Except StreamError StoreAnswer × ChunkStore
  | .allocate => (.ok (.allocated store.allocate.1), store.allocate.2)
  | .free chunks => match store.free chunks with
    | .ok store' => (.ok .freed, store')
    | .error e => (.error e, store)
  | .visit chunk steps =>
    let (answer, store') := store.withOpen chunk (runSteps steps)
    (answer.map .visited, store')
  | .readAll chunk => ((store.readAll chunk).map .bytes, store)

/-- Calls one after another: what happened, and the store after that. -/
def serveAll (store : ChunkStore) : List StoreCall → List StoreEvent × ChunkStore
  | [] => ([], store)
  | call :: rest =>
    let (answer, store') := call.serve store
    let (events, last) := serveAll store' rest
    (⟨call, answer⟩ :: events, last)

/-! ## What a history says of a chunk -/

/-- The chunks that were allocated, in this order. -/
def allocated (events : List StoreEvent) : List ChunkId :=
  events.filterMap fun event => match event.answer with
    | .ok (.allocated chunk) => some chunk
    | _ => none

/-- A chunk was allocated just before the events of `since`, and no list that was freed in these names
it. -/
def Lives (chunk : ChunkId) (events since : List StoreEvent) : Prop :=
  (∃ before, events = before ++ ⟨.allocate, .ok (.allocated chunk)⟩ :: since) ∧
    ∀ chunks, ⟨.free chunks, .ok .freed⟩ ∈ since → chunk ∉ chunks

/-- The visits to a chunk that were granted, each with its steps. -/
def visits (chunk : ChunkId) (events : List StoreEvent) : List (List StreamStep) :=
  events.filterMap fun event => match event with
    | ⟨.visit visited steps, .ok _⟩ => if visited = chunk then some steps else none
    | _ => none

/-- What visits leave on a stream that was empty at first, if each starts at the front. -/
def replayed (visits : List (List StreamStep)) : ByteStream :=
  (runSteps (visits.flatMap fun steps => .setPosition 0 :: steps) .empty).2

variable {store : ChunkStore} {events since : List StoreEvent} {chunk : ChunkId}

theorem replayed_memory (visits : List (List StreamStep)) :
    ∃ content cursor, replayed visits = .memory content cursor :=
  runSteps_memory _ _ _

/-- One visit more. It finds what the others left, with the cursor at the front. -/
theorem replayed_snoc (visits : List (List StreamStep)) (steps : List StreamStep) :
    replayed (visits ++ [steps]) = (runSteps steps (.ofBytes (replayed visits).content)).2 := by
  obtain ⟨content, cursor, hmemory⟩ := replayed_memory visits
  have hrewound : (replayed visits).setPosition 0 = .ofBytes (replayed visits).content := by
    rw [hmemory]
    exact congrArg ofBytes (content_ofBytes content).symm
  rw [← hrewound]
  unfold replayed
  rw [List.flatMap_append, runSteps_append]
  simp only [List.flatMap_cons, List.flatMap_nil, List.append_nil]
  rfl

/-- After one event more, a chunk lives if it has just been allocated, or if it lived before and was
not freed. -/
theorem lives_snoc {event : StoreEvent} :
    Lives chunk (events ++ [event]) since ↔
      (event = ⟨.allocate, .ok (.allocated chunk)⟩ ∧ since = []) ∨
        ∃ earlier, since = earlier ++ [event] ∧ Lives chunk events earlier ∧
          ∀ chunks, event = ⟨.free chunks, .ok .freed⟩ → chunk ∉ chunks := by
  unfold Lives
  constructor
  -- a window that reaches to the last event either starts with it or goes one event further than
  -- before
  · rintro ⟨⟨before, hsplit⟩, hfree⟩
    rcases List.eq_nil_or_concat since with rfl | ⟨earlier, last, rfl⟩
    · have hlast := List.append_inj_right' hsplit rfl
      exact .inl ⟨List.singleton_inj.mp hlast, rfl⟩
    · rw [List.concat_eq_append, ← List.cons_append, ← List.append_assoc] at hsplit
      have hfirst := List.append_inj_left' hsplit rfl
      have hlast := List.singleton_inj.mp (List.append_inj_right' hsplit rfl)
      rw [List.concat_eq_append] at hfree ⊢
      subst hlast
      refine .inr ⟨earlier, rfl, ⟨⟨before, hfirst⟩, fun chunks hmem => ?_⟩, fun chunks heq => ?_⟩
      · exact hfree chunks (List.mem_append_left _ hmem)
      · exact hfree chunks (List.mem_append_right _ (by rw [heq]; exact List.mem_singleton_self _))
  · rintro (⟨rfl, rfl⟩ | ⟨earlier, rfl, ⟨⟨before, rfl⟩, hfree⟩, hlast⟩)
    · exact ⟨⟨events, rfl⟩, fun chunks hmem => nomatch hmem⟩
    · refine ⟨⟨before, by simp⟩, fun chunks hmem => ?_⟩
      rcases List.mem_append.mp hmem with hearlier | heq
      · exact hfree chunks hearlier
      · exact hlast chunks (List.mem_singleton.mp heq).symm

theorem visits_append (chunk : ChunkId) (events later : List StoreEvent) :
    visits chunk (events ++ later) = visits chunk events ++ visits chunk later := by
  unfold visits
  exact List.filterMap_append

/-! ## What a history says of a store -/

/-- A history tells what a store holds: the ids that it has handed out rise, a chunk is live if it
lives in the history, and it holds what the visits to it left. -/
structure Tells (events : List StoreEvent) (store : ChunkStore) : Prop where
  sound : store.Sound
  rising : (allocated events).Pairwise fun c d => c.id < d.id
  bounds : ∀ c ∈ allocated events, 0 < c.id ∧ c.id < store.next
  lives : ∀ c, c ∈ store.live ↔ ∃ since, Lives c events since
  holds : ∀ c ∈ store.live, store.content? c = some (replayed (visits c events)).content
  unvisited : ∀ c : ChunkId, store.next ≤ c.id → visits c events = []

theorem tells_empty : Tells [] .empty := by
  refine ⟨sound_empty, .nil, fun c hc => (nomatch hc), fun c => ⟨fun hc => (nomatch hc), ?_⟩,
    fun c hc => (nomatch hc), fun c _ => rfl⟩
  rintro ⟨since, ⟨before, hsplit⟩, -⟩
  simp at hsplit

/-- A chunk has been allocated. -/
theorem Tells.allocate (h : Tells events store) :
    Tells (events ++ [⟨.allocate, .ok (.allocated store.allocate.1)⟩]) store.allocate.2 := by
  have hids : allocated (events ++ [⟨.allocate, .ok (.allocated store.allocate.1)⟩]) =
      allocated events ++ [store.allocate.1] := by
    simp [allocated]
  -- an allocation is no visit, so what every chunk has been through stays as it was
  have hvisits (c : ChunkId) :
      visits c (events ++ [⟨.allocate, .ok (.allocated store.allocate.1)⟩]) = visits c events := by
    rw [visits_append]
    exact List.append_nil _
  have hlive (c : ChunkId) : c ∈ store.allocate.2.live ↔ c ∈ store.live ∨ c = store.allocate.1 := by
    simp [live, ChunkStore.allocate]
  -- the parts: soundness, rising identifiers, their bounds, what is live, its content, and the
  -- unvisited
  refine ⟨(Writes.allocate h.sound []).sound h.sound, ?_, ?_, ?_, ?_, ?_⟩
  · rw [hids, List.pairwise_append]
    refine ⟨h.rising, List.pairwise_singleton _ _, fun c hc d hd => ?_⟩
    rw [List.mem_singleton.mp hd]
    exact (h.bounds c hc).2
  · intro c hc
    show 0 < c.id ∧ c.id < store.next + 1
    rw [hids, List.mem_append, List.mem_singleton] at hc
    rcases hc with hold | rfl
    · have hbounds := h.bounds c hold
      omega
    · exact ⟨h.sound.next_pos, Nat.lt_succ_self _⟩
  · intro c
    rw [hlive, h.lives]
    constructor
    · rintro (⟨since, hsince⟩ | rfl)
      · exact ⟨_, lives_snoc.mpr (.inr ⟨since, rfl, hsince, fun chunks heq => by cases heq⟩)⟩
      · exact ⟨[], lives_snoc.mpr (.inl ⟨rfl, rfl⟩)⟩
    · rintro ⟨since, hsince⟩
      rcases lives_snoc.mp hsince with ⟨heq, -⟩ | ⟨earlier, -, hearlier, -⟩
      · cases heq
        exact .inr rfl
      · exact .inl ⟨earlier, hearlier⟩
  · intro c hc
    rw [content?_allocate h.sound, hvisits]
    rcases (hlive c).mp hc with hold | rfl
    · -- a chunk that was live before is another one
      have hlt := (h.sound.bounds c hold).2
      have hne : c ≠ ⟨store.next⟩ := by
        rintro rfl
        exact Nat.lt_irrefl _ hlt
      rw [if_neg hne, h.holds c hold]
    -- the new chunk is empty, and nothing has visited its identifier yet
    · rw [h.unvisited _ (Nat.le_refl _)]
      exact if_pos rfl
  · intro c hc
    rw [hvisits]
    exact h.unvisited c (Nat.le_of_succ_le hc)

/-- Something else has happened: no id was handed out, of the live chunks those stay that were not
freed, and only live ones were visited. -/
theorem Tells.other {event : StoreEvent} {store' : ChunkStore} (h : Tells events store)
    (hsound : store'.Sound) (hnext : store'.next = store.next) (hids : allocated [event] = [])
    (hlive : ∀ c, c ∈ store'.live ↔
      c ∈ store.live ∧ ∀ chunks, event = ⟨.free chunks, .ok .freed⟩ → c ∉ chunks)
    (hvisits : ∀ c, c ∉ store.live → visits c [event] = [])
    (hholds : ∀ c ∈ store'.live,
      store'.content? c = some (replayed (visits c events ++ visits c [event])).content) :
    Tells (events ++ [event]) store' := by
  have hsame : allocated (events ++ [event]) = allocated events := by
    unfold allocated at hids ⊢
    rw [List.filterMap_append, hids, List.append_nil]
  refine ⟨hsound, by rw [hsame]; exact h.rising, by rw [hsame, hnext]; exact h.bounds, ?_, ?_, ?_⟩
  · intro c
    rw [hlive, h.lives]
    constructor
    · rintro ⟨⟨since, hsince⟩, hkept⟩
      exact ⟨_, lives_snoc.mpr (.inr ⟨since, rfl, hsince, hkept⟩)⟩
    · rintro ⟨since, hsince⟩
      rcases lives_snoc.mp hsince with ⟨rfl, -⟩ | ⟨earlier, -, hearlier, hkept⟩
      · simp [allocated] at hids
      · exact ⟨⟨earlier, hearlier⟩, hkept⟩
  · intro c hc
    rw [visits_append]
    exact hholds c hc
  · intro c hc
    rw [hnext] at hc
    -- chunks that have not been handed out are not live
    have hdead : c ∉ store.live := fun hlive => Nat.not_le_of_lt (h.sound.bounds c hlive).2 hc
    rw [visits_append, h.unvisited c hc, hvisits c hdead]
    rfl

/-- Nothing has happened to the store. -/
theorem Tells.idle {event : StoreEvent} (h : Tells events store) (hids : allocated [event] = [])
    (hfree : ∀ chunks, event ≠ ⟨.free chunks, .ok .freed⟩)
    (hvisits : ∀ c, visits c [event] = []) : Tells (events ++ [event]) store := by
  refine h.other h.sound rfl hids (fun c => ?_) (fun c _ => hvisits c) fun c hc => ?_
  · exact ⟨fun hc => ⟨hc, fun chunks heq => (hfree chunks heq).elim⟩, And.left⟩
  · rw [hvisits, List.append_nil]
    exact h.holds c hc

/-- Some chunks have been freed. -/
theorem Tells.free (h : Tells events store) {chunks : List ChunkId}
    (hfree : store.free chunks = .ok (store.without chunks)) :
    Tells (events ++ [⟨.free chunks, .ok .freed⟩]) (store.without chunks) := by
  refine h.other (h.sound.without chunks) rfl rfl (fun c => ?_) (fun c _ => rfl) fun c hc => ?_
  · rw [mem_live_without]
    constructor
    · rintro ⟨hc, hkept⟩
      refine ⟨hc, fun chunks' heq => ?_⟩
      cases heq
      exact hkept
    · exact fun ⟨hc, hkept⟩ => ⟨hc, hkept chunks rfl⟩
  · obtain ⟨hold, hkept⟩ := mem_live_without.mp hc
    rw [content?_free hfree hkept, h.holds c hold]
    exact congrArg (fun visits => some (replayed visits).content) (List.append_nil _).symm

/-- A live chunk has been visited. -/
theorem Tells.visit {content : Bytes} (h : Tells events store)
    (hcontent : store.content? chunk = some content) (steps : List StreamStep) :
    Tells
      (events ++ [⟨.visit chunk steps, .ok (.visited (runSteps steps (.ofBytes content)).1)⟩])
      (store.close chunk (runSteps steps (.ofBytes content)).2) := by
  have hlive : chunk ∈ store.live := mem_live_iff.mpr (by rw [hcontent]; rfl)
  have hvisits (c : ChunkId) :
      visits c [⟨.visit chunk steps, .ok (.visited (runSteps steps (.ofBytes content)).1)⟩] =
        if chunk = c then [steps] else [] := by
    by_cases heq : chunk = c <;> simp [visits, heq]
  unfold close
  refine h.other ?_ rfl rfl (fun c => ?_) (fun c hc => ?_) fun c hc => ?_
  · exact ((Writes.refl [chunk] store).setContent (.inl List.mem_cons_self) _).sound h.sound
  -- visiting neither allocates nor frees, so only the contents are at stake
  · rw [live_setContent]
    exact ⟨fun hc => ⟨hc, fun chunks heq => by cases heq⟩, And.left⟩
  · rw [hvisits, if_neg]
    rintro rfl
    exact hc hlive
  · rw [live_setContent] at hc
    have hold := h.holds c hc
    rw [content?_setContent, hvisits]
    by_cases heq : c = chunk
    -- the visited chunk has one more visit to replay, every other chunk the same ones
    · subst heq
      rw [hcontent, Option.some.injEq] at hold
      rw [if_pos rfl, if_pos rfl, hcontent, Option.map_some, replayed_snoc, ← hold]
    · rw [if_neg heq, if_neg (Ne.symm heq), List.append_nil, hold]

/-! ## Runs -/

/-- One call more. -/
theorem serve_tells (h : Tells events store) (call : StoreCall) :
    Tells (events ++ [⟨call, (call.serve store).1⟩]) (call.serve store).2 := by
  cases call with
  | allocate => exact h.allocate
  | free chunks =>
    rcases store.free_cases chunks with ⟨-, hfree⟩ | ⟨c, -, -, hfree⟩
    · simp only [serve, hfree]
      exact h.free hfree
    · simp only [serve, hfree]
      exact h.idle rfl (fun chunks heq => by cases heq) fun c => rfl
  | visit chunk steps =>
    cases hcontent : store.content? chunk with
    | some content =>
      simp only [serve, withOpen, open?, hcontent]
      exact h.visit hcontent steps
    | none =>
      -- a chunk that is not live cannot be opened
      simp only [serve, withOpen, open?, hcontent]
      exact h.idle rfl (fun chunks heq => by cases heq) fun c => rfl
  | readAll chunk =>
    refine h.idle ?_ (fun chunks heq => by cases heq) fun c => rfl
    simp only [serve]
    cases store.readAll chunk <;> rfl

/-- Calls one after another, by induction on the run. -/
theorem serveAll_tells (h : Tells events store) (calls : List StoreCall) :
    Tells (events ++ (serveAll store calls).1) (serveAll store calls).2 := by
  induction calls generalizing events store with
  | nil =>
    show Tells (events ++ []) store
    rw [List.append_nil]
    exact h
  | cons call rest ih =>
    have hrest := ih (serve_tells h call)
    rw [List.append_assoc] at hrest
    exact hrest

/-- What happens in a run is what was called for, each call answered by a store. -/
theorem serveAll_events (store : ChunkStore) (calls : List StoreCall) :
    (serveAll store calls).1.map (·.call) = calls ∧
      ∀ event ∈ (serveAll store calls).1, ∃ found, event.answer = (event.call.serve found).1 := by
  induction calls generalizing store with
  | nil => exact ⟨rfl, fun event hevent => nomatch hevent⟩
  | cons call rest ih =>
    obtain ⟨hcalls, hanswers⟩ := ih (call.serve store).2
    refine ⟨congrArg (call :: ·) hcalls, fun event hevent => ?_⟩
    rcases List.mem_cons.mp hevent with rfl | hlater
    · exact ⟨store, rfl⟩
    · exact hanswers event hlater

/-- After any calls to an empty store: every allocation was granted, with an id that is not the null id
and larger than every earlier one; the live chunks are those that were allocated and that no list named
which was freed since then; and a live chunk reads as, and shows to the next visit, what all visits to
it have left on a stream that was empty at first. A chunk that is not live cannot be read or visited. -/
theorem calls_replayed (calls : List StoreCall) :
    let events := (serveAll .empty calls).1
    let store := (serveAll .empty calls).2
    events.map (·.call) = calls ∧
    (∀ event ∈ events, event.call = .allocate → ∃ c, event.answer = .ok (.allocated c)) ∧
    ((allocated events).Pairwise fun c d => c.id < d.id) ∧
    (∀ c ∈ allocated events, c ≠ .null) ∧
    (∀ c, c ∈ store.live ↔ ∃ since, Lives c events since) ∧
    (∀ c ∈ store.live,
      let content := (replayed (visits c events)).content
      ((readAll c).serve store).1 = .ok (.bytes content) ∧
        ∀ steps, ((visit c steps).serve store).1 =
          .ok (.visited (runSteps steps (.ofBytes content)).1)) ∧
    ∀ c, c ∉ store.live →
      ((readAll c).serve store).1 = .error (.chunkNotFound c) ∧
        ∀ steps, ((visit c steps).serve store).1 = .error (.chunkNotFound c) := by
  intro events store
  -- all that follows is read off the invariant `Tells`, which the whole run keeps
  have htells : Tells events store := serveAll_tells tells_empty calls
  obtain ⟨hcalls, hanswers⟩ := serveAll_events .empty calls
  refine ⟨hcalls, ?_, htells.rising, ?_, htells.lives, ?_, ?_⟩
  · intro event hevent hcall
    obtain ⟨found, hanswer⟩ := hanswers event hevent
    rw [hcall] at hanswer
    exact ⟨found.allocate.1, hanswer⟩
  · rintro c hc rfl
    exact Nat.lt_irrefl 0 (htells.bounds _ hc).1
  · intro c hc
    have hcontent := htells.holds c hc
    simp only [serve, ChunkStore.readAll, withOpen, open?, hcontent]
    exact ⟨rfl, fun steps => rfl⟩
  · intro c hc
    have hcontent : store.content? c = none := by
      rw [mem_live_iff] at hc
      simpa using hc
    simp only [serve, ChunkStore.readAll, withOpen, open?, hcontent]
    exact ⟨rfl, fun steps => rfl⟩

end StoreCall

end RecordLayout
