import Mathlib
import RecordLayout.Proofs.Chunk.Balance
import RecordLayout.Proofs.Chunk.Scope

/-!
# Programs over chunks

A program allocates chunks, writes to them and frees some itself. It may do part of this in rollback
scopes and while it fills a chunk, one within the other, and what fails inside may be passed on or
caught. A ledger is kept on the way: which chunks the program has freed itself, and which ones were
allocated in parts that failed.

A scope that fails frees the chunks it has noted in one go. It is refused that if the program has
freed one of them before; then none is freed. The ledger tells where this can be so.

Main results:

* `ChunkStore.Booked.trans`, `ChunkStore.Booked.fail` — what a ledger says about the chunks, one thing
  after another, and where something fails;
* `Program.run_books` — the ledger tells what has become of the chunks of every program;
* `Program.scope_frees` — what is left of a scope.
-/

namespace RecordLayout

open ChunkStore (handedOut mem_handedOut mem_live_without)

/-! ## Programs -/

/-- What has become of chunks on the way. -/
structure Ledger where
  /-- The chunks that were freed by the program itself. -/
  freed : List ChunkId
  /-- What was allocated while a scope ran that failed, or while a chunk was made that could not be
  filled. -/
  failed : List (List ChunkId)

/-- A program that works with chunks. -/
inductive Program : Type → Type 1 where
  | answer {α : Type} (a : α) : Program α
  | giveUp {α : Type} (e : FormatError) : Program α
  | andThen {α β : Type} (first : Program α) (next : α → Program β) : Program β
  /-- Goes on after a failure. -/
  | attempt {α : Type} (body : Program α) : Program (Except FormatError α)
  | scope {α : Type} (body : Program α) : Program α
  | allocate (hint : Nat) (fill : Program Unit) : Program ChunkId
  /-- Has a chunk as the stream for a while. -/
  | inChunk {α : Type} (chunk : ChunkId) (body : Program α) : Program α
  /-- Reads or writes the stream at hand. -/
  | stream {α : Type} (act : StreamM ByteStream α) : Program α
  | free (chunks : List ChunkId) : Program Unit

namespace Ledger

/-- A ledger without entries. -/
def blank : Ledger := ⟨[], []⟩

instance : Append Ledger := ⟨fun l m => ⟨l.freed ++ m.freed, l.failed ++ m.failed⟩⟩

/-- Enters what was allocated by something that failed. -/
def fail (l : Ledger) (made : List ChunkId) : Ledger := { l with failed := l.failed ++ [made] }

/-- Enters chunks that were freed. -/
def free (l : Ledger) (chunks : List ChunkId) : Ledger := { l with freed := l.freed ++ chunks }

/-- Something that failed has allocated the chunk. -/
def Dropped (l : Ledger) (c : ChunkId) : Prop := ∃ made ∈ l.failed, c ∈ made

/-- Something that failed has allocated the chunk, and one of the chunks that it allocated was freed
by the program itself. -/
def Stranded (l : Ledger) (c : ChunkId) : Prop :=
  ∃ made ∈ l.failed, c ∈ made ∧ ∃ d ∈ made, d ∈ l.freed

variable {l m : Ledger} {made : List ChunkId} {c : ChunkId}

@[simp] theorem freed_append : (l ++ m).freed = l.freed ++ m.freed := rfl

@[simp] theorem failed_append : (l ++ m).failed = l.failed ++ m.failed := rfl

@[simp] theorem freed_fail : (l.fail made).freed = l.freed := rfl

@[simp] theorem failed_fail : (l.fail made).failed = l.failed ++ [made] := rfl

@[simp] theorem append_blank (l : Ledger) : l ++ blank = l := by
  show Ledger.mk (l.freed ++ []) (l.failed ++ []) = l
  rw [List.append_nil, List.append_nil]

theorem append_assoc (l m n : Ledger) : l ++ m ++ n = l ++ (m ++ n) := by
  show Ledger.mk (l.freed ++ m.freed ++ n.freed) (l.failed ++ m.failed ++ n.failed) = _
  rw [List.append_assoc, List.append_assoc]
  rfl

theorem free_eq (l : Ledger) (chunks : List ChunkId) : l.free chunks = l ++ blank.free chunks := by
  show Ledger.mk (l.freed ++ chunks) l.failed = Ledger.mk (l.freed ++ ([] ++ chunks)) (l.failed ++ [])
  rw [List.nil_append, List.append_nil]

/-- A failure noted after some entries is noted after all of them. -/
theorem append_fail (l m : Ledger) (made : List ChunkId) : (l ++ m).fail made = l ++ m.fail made := by
  show Ledger.mk (l.freed ++ m.freed) (l.failed ++ m.failed ++ [made]) = _
  rw [List.append_assoc]
  rfl

/-- A chunk is dropped by one of two ledgers when it is dropped by both together. -/
theorem dropped_append : (l ++ m).Dropped c ↔ l.Dropped c ∨ m.Dropped c := by
  simp only [Dropped, failed_append, List.mem_append, or_and_right, exists_or]

/-- A failed frame drops the chunks made in it. -/
theorem dropped_fail : (l.fail made).Dropped c ↔ l.Dropped c ∨ c ∈ made := by
  simp only [Dropped, failed_fail, List.mem_append, List.mem_singleton, or_and_right, exists_or,
    exists_eq_left]

/-- A stranded chunk stays stranded whatever follows. -/
theorem Stranded.append_right (h : l.Stranded c) (m : Ledger) : (l ++ m).Stranded c := by
  obtain ⟨made, hmade, hc, d, hd, hfreed⟩ := h
  exact ⟨made, List.mem_append_left _ hmade, hc, d, hd, List.mem_append_left _ hfreed⟩

/-- A stranded chunk stays stranded whatever went before. -/
theorem Stranded.append_left (h : m.Stranded c) (l : Ledger) : (l ++ m).Stranded c := by
  obtain ⟨made, hmade, hc, d, hd, hfreed⟩ := h
  exact ⟨made, List.mem_append_right _ hmade, hc, d, hd, List.mem_append_right _ hfreed⟩

end Ledger

/-- Enters what the work has allocated if it fails. -/
def Op.noting {α : Type} (act : Op Ledger α) : Op Ledger α := fun s =>
  match act s with
  | .ok a t => .ok a t
  | .error e t =>
    .error e { t with subject := t.subject.fail (handedOut s.space.store t.space.store) }

/-- Does work and answers how it failed, if it does. -/
def Op.attempt {τ α : Type} (act : Op τ α) : Op τ (Except FormatError α) := fun s =>
  match act s with
  | .ok a t => .ok (.ok a) t
  | .error e t => .ok (.error e) t

/-- Runs a program, and keeps the ledger. -/
def Program.run {α : Type} : Program α → Op Ledger α
  | .answer a => pure a
  | .giveUp e => throw e
  | .andThen first next => first.run >>= fun a => (next a).run
  | .attempt body => Op.attempt body.run
  | .scope body => Op.noting (rollback body.run)
  | .allocate hint fill => Op.noting (allocateWith hint fill.run)
  | .inChunk chunk body => withChunk chunk body.run
  | .stream act => Op.stream act
  | .free chunks => do
    Op.space (SpaceM.free chunks)
    Op.modifySubject (·.free chunks)

/-! ## What a ledger says -/

namespace ChunkStore

variable {store store' store'' : ChunkStore} {new more : Ledger} {kept kept' : List ChunkId}
  {c : ChunkId}

/-- The new entries of a ledger tell what has become of the chunks. -/
structure Booked (new : Ledger) (kept : List ChunkId) (store store' : ChunkStore) : Prop where
  sound : store'.Sound
  next_le : store.next ≤ store'.next
  /-- What was allocated is kept in the journal, unless the part that did it has failed. -/
  kept : ∀ c, c ∈ kept ↔ c ∈ handedOut store store' ∧ ¬new.Dropped c
  freed : ∀ c ∈ new.freed, c.id < store'.next
  failed : ∀ made ∈ new.failed, made ⊆ handedOut store store'
  /-- What was there before is gone only if the program has freed it. -/
  old : ∀ c : ChunkId, c.id < store.next → (c ∈ store'.live ↔ c ∈ store.live ∧ c ∉ new.freed)
  /-- What was allocated is gone also if the part that did it has failed. -/
  own : ∀ c ∈ handedOut store store', ¬new.Stranded c →
    (c ∈ store'.live ↔ c ∉ new.freed ∧ ¬new.Dropped c)

namespace Booked

/-- The chunks stay the same. -/
theorem of_same (h : store.Sound) (hlive : store'.live = store.live)
    (hnext : store'.next = store.next) : Booked .blank [] store store' := by
  have hnone : ∀ c, c ∉ handedOut store store' := by
    intro c hc
    rw [mem_handedOut, hnext] at hc
    omega
  refine ⟨⟨hnext ▸ h.next_pos, hlive ▸ h.nodup, ?_⟩, Nat.le_of_eq hnext.symm, fun c => ?_,
    fun c hc => absurd hc List.not_mem_nil, fun made hmade => absurd hmade List.not_mem_nil,
    fun c _ => ?_, fun c hc => absurd hc (hnone c)⟩
  · rw [hlive, hnext]
    exact h.bounds
  · simp [hnone c]
  · simp [hlive, Ledger.blank]

theorem refl (h : store.Sound) : Booked .blank [] store store := of_same h rfl rfl

/-- One thing after another. -/
theorem trans (h : Booked new kept store store') (h' : Booked more kept' store' store'') :
    Booked (new ++ more) (kept ++ kept') store store'' := by
  have hle := h.next_le
  have hle' := h'.next_le
  -- a chunk is of the first part or of the second, by its id
  have hmade : ∀ c, c ∈ handedOut store store'' ↔
      c ∈ handedOut store store' ∨ c ∈ handedOut store' store'' := by
    intro c
    simp only [mem_handedOut]
    omega
  have hapart : ∀ c, c ∈ handedOut store store' → c ∉ handedOut store' store'' := by
    intro c hc hc'
    rw [mem_handedOut] at hc hc'
    omega
  -- so neither part can have dropped what the other one has allocated
  have hfirst : ∀ c ∈ handedOut store store', ¬more.Dropped c := by
    rintro c hc ⟨made, hmem, hdropped⟩
    exact hapart c hc (h'.failed made hmem hdropped)
  have hsecond : ∀ c ∈ handedOut store' store'', ¬new.Dropped c := by
    rintro c hc ⟨made, hmem, hdropped⟩
    exact hapart c (h.failed made hmem hdropped) hc
  refine ⟨h'.sound, hle.trans hle', fun c => ?_, fun c hc => ?_, fun made hmem => ?_,
    fun c hlt => ?_, fun c hc hsafe => ?_⟩
  · rw [List.mem_append, h.kept, h'.kept, hmade, Ledger.dropped_append]
    have hone := hfirst c
    have htwo := hsecond c
    tauto
  · rcases List.mem_append.mp hc with hc | hc
    · exact Nat.lt_of_lt_of_le (h.freed c hc) hle'
    · exact h'.freed c hc
  · rcases List.mem_append.mp hmem with hmem | hmem
    · exact fun c hc => (hmade c).mpr (.inl (h.failed made hmem hc))
    · exact fun c hc => (hmade c).mpr (.inr (h'.failed made hmem hc))
  · rw [h'.old c (by omega), h.old c hlt, Ledger.freed_append, List.mem_append]
    tauto
  · rw [Ledger.freed_append, List.mem_append, Ledger.dropped_append]
    rcases (hmade c).mp hc with hc | hc
    · -- a chunk of the first part is an old one for the second
      have hlive := h.own c hc fun hstranded => hsafe (hstranded.append_right more)
      have hlater := hfirst c hc
      rw [h'.old c (mem_handedOut.mp hc).2, hlive]
      tauto
    · have hlive := h'.own c hc fun hstranded => hsafe (hstranded.append_left new)
      have hearlier := hsecond c hc
      -- the first part has freed only chunks that were there by then
      have hunfreed : c ∉ new.freed := by
        intro hfreed
        have hlt := h.freed c hfreed
        have hge := (mem_handedOut.mp hc).1
        omega
      rw [hlive]
      tauto

/-- A chunk is filled that has just been allocated. -/
theorem filled (hs : store.Sound) (h : Booked new kept store.allocate.2 store') :
    Booked new (kept ++ [⟨store.next⟩]) store store' := by
  have hgains := Gains.allocate hs
  have hle : store.next + 1 ≤ store'.next := h.next_le
  have hmade : ∀ c : ChunkId, c ∈ handedOut store store' ↔
      c = ⟨store.next⟩ ∨ c ∈ handedOut store.allocate.2 store' := by
    intro c
    rw [mem_handedOut, mem_handedOut]
    show _ ↔ _ ∨ store.next + 1 ≤ c.id ∧ _
    obtain ⟨id⟩ := c
    simp only [ChunkId.mk.injEq]
    omega
  -- the chunk itself was there before anything in the filling could fail
  have hnew : ¬new.Dropped ⟨store.next⟩ := by
    rintro ⟨made, hmem, hdropped⟩
    have hge : store.next + 1 ≤ store.next := (mem_handedOut.mp (h.failed made hmem hdropped)).1
    omega
  have hlive : ∀ c : ChunkId, c ∈ store.allocate.2.live ↔ c ∈ store.live ∨ c = ⟨store.next⟩ := by
    intro c
    have hfresh := hgains.new c
    have hkeeps : c ∈ store.live → c ∈ store.allocate.2.live := fun hc => hgains.live.subset hc
    rw [List.mem_singleton] at hfresh
    tauto
  refine ⟨h.sound, by omega, fun c => ?_, h.freed, fun made hmem c hc => ?_, fun c hlt => ?_,
    fun c hc hsafe => ?_⟩
  · rw [List.mem_append, List.mem_singleton, h.kept, hmade]
    by_cases heq : c = ⟨store.next⟩
    · subst heq
      tauto
    · tauto
  · exact (hmade c).mpr (.inr (h.failed made hmem hc))
  · have hne : c ≠ ⟨store.next⟩ := by
      rintro rfl
      exact Nat.lt_irrefl _ hlt
    rw [h.old c (Nat.lt_succ_of_lt hlt), hlive]
    tauto
  · rcases (hmade c).mp hc with rfl | hc
    · rw [h.old _ (Nat.lt_succ_self _), hlive]
      tauto
    · exact h.own c hc hsafe

/-- The program frees live chunks itself. -/
theorem free (h : store.Sound) {chunks : List ChunkId} (hall : ∀ c ∈ chunks, c ∈ store.live) :
    Booked (Ledger.blank.free chunks) [] store (store.without chunks) := by
  -- nothing is allocated meanwhile
  have hnone : ∀ c, c ∉ handedOut store (store.without chunks) := by
    intro c hc
    have hbounds : store.next ≤ c.id ∧ c.id < store.next := mem_handedOut.mp hc
    omega
  exact {
    sound := h.without chunks
    next_le := Nat.le_refl _
    kept := fun c => by simp [hnone c]
    freed := fun c hc => (h.bounds c (hall c hc)).2
    failed := fun made hmade => absurd hmade List.not_mem_nil
    old := fun c _ => mem_live_without
    own := fun c hc => absurd hc (hnone c) }

/-! ### Parts that fail -/

/-- Something fails: its chunks are gone, unless the program has freed some of them itself. -/
theorem fail (h : Booked new kept store store') (hsound : store''.Sound)
    (hnext : store''.next = store'.next)
    (hold : ∀ c : ChunkId, c.id < store.next → (c ∈ store''.live ↔ c ∈ store'.live))
    (hgone : (∀ c ∈ handedOut store store', c ∉ new.freed) →
      ∀ c ∈ handedOut store store', c ∉ store''.live) :
    Booked (new.fail (handedOut store store'')) [] store store'' := by
  have hmade : handedOut store store'' = handedOut store store' := by
    rw [handedOut, handedOut, hnext]
  rw [hmade]
  refine ⟨hsound, hnext ▸ h.next_le, fun c => ?_, hnext ▸ h.freed, ?_, fun c hlt => ?_,
    fun c hc hsafe => ?_⟩
  · rw [hmade, Ledger.dropped_fail]
    simp only [List.not_mem_nil, false_iff]
    tauto
  · rw [hmade]
    intro made hmem
    rcases List.mem_append.mp hmem with hmem | hmem
    · exact h.failed made hmem
    · rw [List.mem_singleton.mp hmem]
      exact fun c hc => hc
  · rw [hold c hlt, h.old c hlt, Ledger.freed_fail]
  · rw [hmade] at hc
    -- a chunk that the program has freed would strand this one
    have hunfreed : ∀ d ∈ handedOut store store', d ∉ new.freed := fun d hd hfreed =>
      hsafe ⟨_, List.mem_append_right _ (List.mem_singleton.mpr rfl), hc, d, hd, hfreed⟩
    rw [Ledger.dropped_fail]
    have hdead := hgone hunfreed c hc
    tauto

/-- As long as the program frees none of them itself, just the chunks that are kept are live. -/
theorem live_iff_kept (h : Booked new kept store store')
    (hunfreed : ∀ c ∈ handedOut store store', c ∉ new.freed) (hc : c ∈ handedOut store store') :
    c ∈ store'.live ↔ c ∈ kept := by
  have hsafe : ¬new.Stranded c := by
    rintro ⟨made, hmade, -, d, hd, hfreed⟩
    exact hunfreed d (h.failed made hmade hd) hfreed
  rw [h.own c hc hsafe, h.kept]
  have hstays := hunfreed c hc
  tauto

/-- Part of what failed had failed before. -/
theorem absorb {part made : List ChunkId} (h : Booked ((new.fail part).fail made) kept store store')
    (hsub : part ⊆ made) : Booked (new.fail made) kept store store' := by
  -- a chunk of the smaller frame is one of the larger, so noting the smaller frame adds nothing
  have hdropped : ∀ c, ((new.fail part).fail made).Dropped c ↔ (new.fail made).Dropped c := by
    intro c
    rw [Ledger.dropped_fail, Ledger.dropped_fail, Ledger.dropped_fail]
    have hmem : c ∈ part → c ∈ made := fun hc => hsub hc
    tauto
  have hstranded : ∀ c, ((new.fail part).fail made).Stranded c → (new.fail made).Stranded c := by
    -- the stranding frame is an earlier one, the smaller one or the larger one itself
    rintro c ⟨some, hsome, hc, d, hd, hfreed⟩
    simp only [Ledger.failed_fail, List.append_assoc, List.mem_append, List.mem_singleton] at hsome
    rcases hsome with hsome | rfl | rfl
    · exact ⟨some, List.mem_append_left _ hsome, hc, d, hd, hfreed⟩
    · exact ⟨made, List.mem_append_right _ (List.mem_singleton.mpr rfl), hsub hc, d, hsub hd, hfreed⟩
    · exact ⟨some, List.mem_append_right _ (List.mem_singleton.mpr rfl), hc, d, hd, hfreed⟩
  refine ⟨h.sound, h.next_le, fun c => ?_, h.freed, fun some hsome => ?_, h.old,
    fun c hc hsafe => ?_⟩
  · rw [h.kept, hdropped]
  · refine h.failed some ?_
    simp only [Ledger.failed_fail, List.append_assoc, List.mem_append, List.mem_singleton] at hsome ⊢
    tauto
  · rw [h.own c hc fun hstrand => hsafe (hstranded c hstrand), hdropped]
    rfl

end Booked

end ChunkStore

/-! ## Open scopes -/

namespace Workspace

variable {w w' w'' : Workspace} {new more : Ledger} {kept kept' : List ChunkId}

/-- A release frees all chunks or, when one of them is gone, none. -/
theorem release_cases (w : Workspace) (chunks : List ChunkId) :
    ((∀ c ∈ chunks, c ∈ w.store.live) ∧ (w.release chunks).store = w.store.without chunks) ∨
      (∃ c ∈ chunks, c ∉ w.store.live) ∧ (w.release chunks).store = w.store := by
  rcases w.store.free_cases chunks with ⟨hall, hfree⟩ | ⟨c, hc, hdead, hfree⟩
  · exact .inl ⟨hall, by rw [release, hfree]; rfl⟩
  · exact .inr ⟨⟨c, hc, hdead⟩, by rw [release, hfree]⟩

/-- Releasing does not touch the journal. -/
@[simp] theorem journal_release (w : Workspace) (chunks : List ChunkId) :
    (w.release chunks).journal = w.journal := by
  rw [release]
  split <;> rfl

/-- Something fails, and what it has kept is freed in one go. -/
theorem release_booked {store : ChunkStore} (h : store.Booked new kept w.store) :
    store.Booked (new.fail (handedOut store (w.release kept).store)) [] (w.release kept).store := by
  rcases w.release_cases kept with ⟨hlive, hstore⟩ | ⟨⟨d, hd, hdead⟩, hstore⟩
  · rw [hstore]
    refine h.fail (h.sound.without kept) rfl (fun c hlt => ?_) fun hunfreed c hc => ?_
    · rw [mem_live_without]
      have hout : c ∉ kept := by
        intro hc
        have hge := (mem_handedOut.mp ((h.kept c).mp hc).1).1
        omega
      tauto
    · rw [mem_live_without, h.live_iff_kept hunfreed hc]
      tauto
  · rw [hstore]
    refine h.fail h.sound rfl (fun c _ => Iff.rfl) fun hunfreed => ?_
    -- what is kept is live as long as the program has freed none of its own
    exact absurd ((h.live_iff_kept hunfreed ((h.kept d).mp hd).1).mpr hd) hdead

/-- A ledger tells what has become of the chunks, and the innermost open scope has noted what is
kept. -/
structure Booked (new : Ledger) (kept : List ChunkId) (w w' : Workspace) : Prop where
  store : w.store.Booked new kept w'.store
  journal : w'.journal = noted kept w.journal

namespace Booked

/-- What changes neither store nor journal is booked as nothing. -/
theorem of_same (h : w.store.Sound) (hstore : w'.store = w.store) (hjournal : w'.journal = w.journal) :
    Booked .blank [] w w' :=
  ⟨.of_same h (by rw [hstore]) (by rw [hstore]), by rw [hjournal, noted_nil]⟩

/-- Books of consecutive steps are joined. -/
theorem trans (h : Booked new kept w w') (h' : Booked more kept' w' w'') :
    Booked (new ++ more) (kept ++ kept') w w'' :=
  ⟨h.store.trans h'.store, by rw [h'.journal, h.journal, noted_noted]⟩

/-- A scope that is closed after success hands its chunks to the scope around it. -/
theorem keep (h : Booked new kept w.openScope w') : Booked new kept w w'.keepScope := by
  have hjournal : w'.journal = kept :: w.journal := h.journal
  refine ⟨?_, ?_⟩
  · rw [store_keepScope]
    exact h.store
  · simp only [keepScope, hjournal]
    cases w.journal with
    | nil => rfl
    | cons outer rest => rfl

/-- A scope that is closed after a failure frees what it has noted. -/
theorem undo (h : Booked new kept w.openScope w') :
    Booked (new.fail (handedOut w.store w'.undoScope.store)) [] w w'.undoScope := by
  have hjournal : w'.journal = kept :: w.journal := h.journal
  have hstore : w.store.Booked new kept { w' with journal := w.journal : Workspace }.store := h.store
  simp only [undoScope, hjournal]
  exact ⟨release_booked hstore, by rw [journal_release, noted_nil]⟩

/-- What a chunk holds does not matter. -/
theorem setContent (h : Booked new kept w w') (chunk : ChunkId) (content : Bytes) :
    Booked new kept w (w'.setStore (w'.store.setContent chunk content)) := by
  have hlater : w'.store.Booked .blank [] (w'.store.setContent chunk content) :=
    .of_same h.store.sound (ChunkStore.live_setContent chunk content) rfl
  have hboth := h.store.trans hlater
  rw [Ledger.append_blank, List.append_nil] at hboth
  exact ⟨hboth, h.journal⟩

/-! ### Chunks that are filled -/

/-- A request for a chunk is refused. -/
theorem refused (h : w.store.Sound) (hstore : w'.store = w.store) (hjournal : w'.journal = w.journal) :
    Booked (Ledger.blank.fail (handedOut w.store w'.store)) [] w w' := by
  refine ⟨?_, by rw [hjournal, noted_nil]⟩
  rw [hstore]
  exact (ChunkStore.Booked.refl h).fail h rfl (fun c _ => Iff.rfl) fun _ c hc => by
    rw [mem_handedOut] at hc
    omega

/-- A chunk that was filled is noted after what was allocated to fill it. -/
theorem note (h : Booked new kept w' w'') (hs : w.store.Sound)
    (hstore : w'.store = w.store.allocate.2) (hjournal : w'.journal = w.journal) :
    Booked new (kept ++ [⟨w.store.next⟩]) w (w''.note ⟨w.store.next⟩) := by
  have hbooked := h.store
  rw [hstore] at hbooked
  refine ⟨?_, by rw [journal_note, h.journal, hjournal, noted_noted]⟩
  rw [store_note]
  exact hbooked.filled hs

/-- A chunk that could not be filled is freed, after what was allocated to fill it. -/
theorem unfill (h : Booked new kept w'.openScope w'') (hs : w.store.Sound)
    (hstore : w'.store = w.store.allocate.2) (hjournal : w'.journal = w.journal) :
    let back := w''.undoScope.release [⟨w.store.next⟩]
    Booked (new.fail (handedOut w.store back.store)) [] w back := by
  intro back
  -- first the scope is undone in which the chunk was to be filled, then the chunk goes
  have hundone := h.undo
  have hbooked := hundone.store
  rw [hstore] at hbooked
  have hback := release_booked (hbooked.filled hs)
  rw [List.nil_append] at hback
  refine ⟨hback.absorb fun c hc => ?_, ?_⟩
  · -- what the filling allocated was allocated meanwhile
    have hnext : w''.undoScope.store.next ≤ back.store.next := by
      rcases w''.undoScope.release_cases [⟨w.store.next⟩] with ⟨-, hsame⟩ | ⟨-, hsame⟩
      · exact Nat.le_of_eq (congrArg ChunkStore.next hsame).symm
      · exact Nat.le_of_eq (congrArg ChunkStore.next hsame).symm
    rw [mem_handedOut] at hc ⊢
    have hge : w.store.next + 1 ≤ c.id := hc.1
    exact ⟨by omega, Nat.lt_of_lt_of_le hc.2 hnext⟩
  · rw [journal_release, hundone.journal, hjournal, noted_nil]

end Booked

end Workspace

/-! ## Operations with a ledger -/

/-- The new entries in the ledger tell what has become of the chunks. -/
def Scene.Booked (s t : Scene Ledger) : Prop :=
  ∃ new kept, t.subject = s.subject ++ new ∧ s.space.Booked new kept t.space

namespace Scene.Booked

variable {s t u : Scene Ledger}

/-- Neither the chunks nor the ledger change. -/
theorem of_same (h : s.space.store.Sound) (hspace : t.space = s.space)
    (hledger : t.subject = s.subject) : s.Booked t :=
  ⟨.blank, [], by rw [hledger, Ledger.append_blank], .of_same h (by rw [hspace]) (by rw [hspace])⟩

theorem trans (h : s.Booked t) (h' : t.Booked u) : s.Booked u := by
  obtain ⟨new, kept, hledger, hbooked⟩ := h
  obtain ⟨more, kept', hledger', hbooked'⟩ := h'
  refine ⟨new ++ more, kept ++ kept', ?_, hbooked.trans hbooked'⟩
  rw [hledger', hledger, Ledger.append_assoc]

/-- A booked step ends in a sound store. -/
theorem sound (h : s.Booked t) : t.space.store.Sound := by
  obtain ⟨new, kept, -, hbooked⟩ := h
  exact hbooked.store.sound

end Scene.Booked

namespace Op

variable {α β : Type} {s t : Scene Ledger}

/-- Whatever comes of the operation, its entries in the ledger tell what has become of the chunks. -/
def Books (act : Op Ledger α) : Prop :=
  ∀ s : Scene Ledger, s.space.store.Sound → s.Booked (outcome act s).2

namespace Books

/-- An act that books has booked its success. -/
theorem ok {act : Op Ledger α} {a : α} (h : act.Books) (hrun : act s = .ok a t)
    (hs : s.space.store.Sound) : s.Booked t := by
  have hbooked := h s hs
  rwa [outcome_of_ok hrun] at hbooked

/-- An act that books has booked its failure. -/
theorem error {act : Op Ledger α} {e : FormatError} (h : act.Books) (hrun : act s = .error e t)
    (hs : s.space.store.Sound) : s.Booked t := by
  have hbooked := h s hs
  rwa [outcome_of_error hrun] at hbooked

/-- An operation that leaves the chunks and the ledger alone. -/
theorem still {act : Op Ledger α} (hspace : ∀ s, (outcome act s).2.space = s.space)
    (hledger : ∀ s, (outcome act s).2.subject = s.subject) : act.Books :=
  fun s hs => .of_same hs (hspace s) (hledger s)

/-- Acts that book compose. -/
theorem bind {act : Op Ledger α} {next : α → Op Ledger β} (h : act.Books)
    (hnext : ∀ a, (next a).Books) : (act >>= next).Books := by
  intro s hs
  rw [outcome_bind]
  cases hrun : act s with
  | ok a t =>
    have hfirst := h.ok hrun hs
    exact hfirst.trans (hnext a t hfirst.sound)
  | error e t => exact h.error hrun hs

/-- Trying an act books what the act has booked, failed or not. -/
theorem attempt {act : Op Ledger α} (h : act.Books) : (Op.attempt act).Books := by
  intro s hs
  simp only [outcome, Op.attempt]
  cases hrun : act s with
  | ok a t => exact h.ok hrun hs
  | error e t => exact h.error hrun hs

/-- Work within a chunk books what the work does. -/
theorem withChunk {chunk : ChunkId} {act : Op Ledger α} (h : act.Books) :
    (RecordLayout.withChunk chunk act).Books := by
  intro s hs
  simp only [outcome, RecordLayout.withChunk]
  cases s.space.store.open? chunk with
  | error e => exact .of_same hs rfl rfl
  | ok opened =>
    simp only
    cases hrun : act { s with stream := opened } with
    | ok a t =>
      obtain ⟨new, kept, hledger, hbooked⟩ := h.ok hrun hs
      exact ⟨new, kept, hledger, hbooked.setContent _ _⟩
    | error e t =>
      obtain ⟨new, kept, hledger, hbooked⟩ := h.error hrun hs
      exact ⟨new, kept, hledger, hbooked.setContent _ _⟩

/-- A scope keeps what its work has allocated, or frees it. -/
theorem rollback {act : Op Ledger α} (h : act.Books) :
    (noting (RecordLayout.rollback act)).Books := by
  intro s hs
  simp only [outcome, noting, RecordLayout.rollback]
  cases hrun : act { s with space := s.space.openScope } with
  | ok a t =>
    obtain ⟨new, kept, hledger, hbooked⟩ := h.ok hrun hs
    exact ⟨new, kept, hledger, hbooked.keep⟩
  | error e t =>
    obtain ⟨new, kept, hledger, hbooked⟩ := h.error hrun hs
    refine ⟨_, [], ?_, hbooked.undo⟩
    rw [← Ledger.append_fail, ← hledger]

/-- A chunk is filled in a scope of its own, and freed if that fails. -/
theorem allocateWith {hint : Nat} {fill : Op Ledger Unit} (h : fill.Books) :
    (noting (RecordLayout.allocateWith hint fill)).Books := by
  intro s hs
  simp only [outcome, noting, RecordLayout.allocateWith]
  rcases s.space.heap.allocate_cases (hint + s.space.config.slack) with
    ⟨heap, hrefused, hstore⟩ | ⟨heap, hallocated, hstore⟩
  · rw [hrefused]
    refine ⟨_, [], ?_, .refused hs hstore rfl⟩
    rw [← Ledger.append_fail, Ledger.append_blank]
  · rw [hallocated]
    -- the chunk is there when the filling starts, in a scope of its own
    have hsound : heap.store.Sound := by
      rw [hstore]
      exact (ChunkStore.Gains.allocate hs).sound
    have hfill : (RecordLayout.withChunk ⟨s.space.heap.store.next⟩ fill).Books := h.withChunk
    simp only [RecordLayout.rollback]
    cases hrun : RecordLayout.withChunk ⟨s.space.heap.store.next⟩ fill
        { s with space := ({ s.space with heap } : Workspace).openScope } with
    | ok u t =>
      obtain ⟨new, kept, hledger, hbooked⟩ := hfill.ok hrun hsound
      exact ⟨new, _, hledger, hbooked.keep.note hs hstore rfl⟩
    | error e t =>
      obtain ⟨new, kept, hledger, hbooked⟩ := hfill.error hrun hsound
      refine ⟨_, [], ?_, .unfill hbooked hs hstore rfl⟩
      rw [← Ledger.append_fail, ← hledger]
      rfl

/-- Chunks are freed, or nothing happens. -/
theorem free (chunks : List ChunkId) :
    Books (do Op.space (SpaceM.free chunks); Op.modifySubject (·.free chunks)) := by
  intro s hs
  -- an empty list does not reach the store
  by_cases hnone : chunks = []
  · subst hnone
    exact ⟨.blank, [], Ledger.free_eq s.subject [], .of_same hs rfl rfl⟩
  have hsome : chunks.isEmpty = false := by simpa using hnone
  rcases s.space.store.free_cases chunks with ⟨hall, hfree⟩ | ⟨c, hc, hdead, hfree⟩
  · have hrun : SpaceM.free chunks s.space = .ok () (s.space.setStore (s.space.store.without chunks)) := by
      simp [SpaceM.free, hsome, hfree]
    rw [outcome_bind, Op.space, within, Scene.spacePart, hrun]
    exact ⟨_, [], Ledger.free_eq s.subject chunks, .free hs hall, (noted_nil _).symm⟩
  · have hrun : SpaceM.free chunks s.space = .error (.stream (.chunkNotFound c)) s.space := by
      simp [SpaceM.free, hsome, hfree]
    rw [outcome_bind, Op.space, within, Scene.spacePart, hrun]
    exact .of_same hs rfl rfl

end Books

/-- What fails is noted. -/
theorem noting_error {act : Op Ledger α} {e : FormatError} (h : noting act s = .error e t) :
    handedOut s.space.store t.space.store ∈ t.subject.failed := by
  rw [noting] at h
  cases hrun : act s with
  | ok a u =>
    rw [hrun] at h
    cases h
  | error e u =>
    rw [hrun] at h
    cases h
    exact List.mem_append_right _ (List.mem_singleton.mpr rfl)

end Op

/-! ## Runs of programs -/

namespace Program

variable {α : Type}

/-- Whatever a program does, the ledger tells what has become of the chunks. -/
theorem run_books (p : Program α) : p.run.Books := by
  -- by induction on the program, with one rule for each way to make one
  induction p with
  | answer a => exact .still (fun _ => rfl) (fun _ => rfl)
  | giveUp e => exact .still (fun _ => rfl) (fun _ => rfl)
  | andThen first next hfirst hnext => exact hfirst.bind hnext
  | attempt body hbody => exact hbody.attempt
  | scope body hbody => exact hbody.rollback
  | allocate hint fill hfill => exact hfill.allocateWith
  | inChunk chunk body hbody => exact hbody.withChunk
  | stream act =>
    refine .still (fun s => ?_) (fun s => ?_)
    · rw [run, Op.stream, outcome_within]
      rfl
    · rw [run, Op.stream, outcome_within]
      rfl
  | free chunks => exact .free chunks

/-- If a scope fails, nothing that was allocated while it ran is live, unless the program has freed
some of that itself. If it succeeds, what was allocated is live, but for what the program has freed
itself and what was allocated in a part that failed; only where the program has freed chunks in such a
part may others of that part be left. -/
theorem scope_frees (body : Program α) (w : Workspace) (b : ByteStream) (h : w.store.Sound) :
    (∀ e t, (scope body).run ⟨w, b, .blank⟩ = .error e t →
      (∀ c ∈ handedOut w.store t.space.store, c ∉ t.subject.freed) →
        ∀ c ∈ handedOut w.store t.space.store, c ∉ t.space.store.live) ∧
    ∀ a t, (scope body).run ⟨w, b, .blank⟩ = .ok a t →
      ∀ c ∈ handedOut w.store t.space.store, ¬t.subject.Stranded c →
        (c ∈ t.space.store.live ↔ c ∉ t.subject.freed ∧ ¬t.subject.Dropped c) := by
  have hbooks := (scope body).run_books
  refine ⟨fun e t hrun hunfreed c hc => ?_, fun a t hrun => ?_⟩
  · obtain ⟨new, kept, hledger, hbooked⟩ := hbooks.error hrun h
    -- the ledger has no entries but the new ones, and the scope is one of them
    have hledger : t.subject = new := hledger
    have hnoted : handedOut w.store t.space.store ∈ t.subject.failed := Op.noting_error hrun
    rw [hledger] at hunfreed hnoted
    have hkept := hbooked.store.kept c
    have hdropped : new.Dropped c := ⟨_, hnoted, hc⟩
    rw [hbooked.store.live_iff_kept hunfreed hc]
    tauto
  · obtain ⟨new, kept, hledger, hbooked⟩ := hbooks.ok hrun h
    have hledger : t.subject = new := hledger
    rw [hledger]
    exact hbooked.store.own

/-- A program that allocates two chunks, frees some and then fails. -/
def twoThenFail (freed : List ChunkId) : Program Unit :=
  .andThen (.scope (.allocate 1 (.stream (ByteSink.write [1])))) fun _ =>
    .andThen (.allocate 1 (.stream (ByteSink.write [2]))) fun _ =>
      .andThen (.free freed) fun _ => .giveUp (.stream (.corrupt (.abandoned "late")))

/-- What it starts with. -/
def vacant : Workspace := .new .standard none

/-- What is left of it. -/
def twoThenFailed (freed : List ChunkId) : Except FormatError Unit × Scene Ledger :=
  outcome (scope (twoThenFail freed)).run ⟨vacant, .ofBytes [], .blank⟩

/-- Two chunks made and then failed over: neither is live afterwards. -/
theorem scope_frees_two :
    handedOut vacant.store (twoThenFailed []).2.space.store = [⟨1⟩, ⟨2⟩] ∧
      ∀ c ∈ handedOut vacant.store (twoThenFailed []).2.space.store,
        c ∉ (twoThenFailed []).2.space.store.live := by
  have hvacant : vacant.store.Sound := ChunkStore.sound_empty
  have hfails : (twoThenFailed []).1.isOk = false := by decide +kernel
  have hnone : (twoThenFailed []).2.subject.freed = [] := by decide +kernel
  refine ⟨by decide +kernel, ?_⟩
  unfold twoThenFailed at hfails hnone ⊢
  obtain ⟨e, hrun⟩ := error_of_outcome hfails
  have hfrees := (scope_frees _ _ _ hvacant).1 e _ hrun
  -- from here on the run is not looked into
  generalize outcome (scope (twoThenFail [])).run ⟨vacant, .ofBytes [], .blank⟩ = ran at *
  refine hfrees fun c _ => ?_
  rw [hnone]
  exact List.not_mem_nil

/-- A chunk that the program has freed itself keeps the scope from freeing the other one. -/
theorem scope_leaks_of_freed :
    (twoThenFailed [⟨1⟩]).1.isOk = false ∧
      handedOut vacant.store (twoThenFailed [⟨1⟩]).2.space.store = [⟨1⟩, ⟨2⟩] ∧
      (twoThenFailed [⟨1⟩]).2.space.store.live = [⟨2⟩] := by
  decide +kernel

end Program

end RecordLayout
