import Mathlib
import RecordLayout.Proofs.Chunk.Scope

/-!
# Operations that note their chunks

Whatever an operation does, and wherever it fails, the innermost open rollback scope has noted
exactly the chunks that have come to live since: `Op.Tracks`. So a scope whose work fails frees what
the work has allocated and nothing else, however many inner scopes have succeeded before:
`Op.Guards`.

Main results:

* `Op.Tracks.bind`, `Op.Tracks.withChunk`, `Op.Tracks.inTransaction` — the combinators;
* `Op.Tracks.rollback`, `Op.Tracks.allocateWith` — work in a scope of its own.
-/

namespace RecordLayout

/-! ## Operations -/

namespace Op

variable {τ υ α β : Type}

/-- Whatever comes of the operation, the innermost open scope has noted what has come to live. -/
def Tracks (act : Op τ α) : Prop :=
  ∀ s : Scene τ, s.space.store.Sound → ∃ fresh, s.space.Made fresh (outcome act s).2.space

/-- If the operation fails, nothing has come to live. -/
def Guards (act : Op τ α) : Prop :=
  ∀ s : Scene τ, s.space.store.Sound → match act s with
    | .ok _ t => ∃ fresh, s.space.Made fresh t.space
    | .error _ t => s.space.Made [] t.space

/-- Nothing comes to live. -/
def Spares (act : Op τ α) : Prop :=
  ∀ s : Scene τ, s.space.store.Sound → s.space.Made [] (outcome act s).2.space

theorem Guards.tracks {act : Op τ α} (h : act.Guards) : act.Tracks := by
  intro s hs
  have hs := h s hs
  rw [outcome]
  cases hrun : act s with
  | ok a t =>
    rw [hrun] at hs
    exact hs
  | error e t =>
    rw [hrun] at hs
    exact ⟨[], hs⟩

/-- What spares the store tracks no new chunk. -/
theorem Spares.tracks {act : Op τ α} (h : act.Spares) : act.Tracks := fun s hs => ⟨[], h s hs⟩

/-- An operation that leaves the workspace alone. -/
theorem Spares.still {act : Op τ α} (h : ∀ s, (outcome act s).2.space = s.space) : act.Spares :=
  fun s hs => by
    rw [h s]
    exact .refl hs

/-- Idle work on the space spares the store. -/
theorem Spares.space {act : SpaceM α} (h : act.Idle) : Spares (Op.space act : Op τ α) := by
  intro s hs
  rw [Op.space, outcome_within]
  exact .of_rests hs (h s.space)

theorem Spares.throw (e : FormatError) : Spares (MonadExcept.throw e : Op τ α) :=
  still fun _ => rfl

theorem Spares.guards {act : Op τ α} (h : act.Spares) : act.Guards := by
  intro s hs
  have hs := h s hs
  rw [outcome] at hs
  cases hrun : act s with
  | ok a t =>
    rw [hrun] at hs
    exact ⟨[], hs⟩
  | error e t =>
    rw [hrun] at hs
    exact hs

/-- Acts that spare the store compose. -/
theorem Spares.bind {act : Op τ α} {next : α → Op τ β} (h : act.Spares)
    (hnext : ∀ a, (next a).Spares) : (act >>= next).Spares := by
  intro s hs
  have hact := h s hs
  rw [outcome_bind]
  rw [outcome] at hact
  cases hrun : act s with
  | ok a t =>
    rw [hrun] at hact
    exact hact.trans (hnext a t hact.store.sound)
  | error e t =>
    rw [hrun] at hact
    exact hact

namespace Tracks

/-- No chunk is gone that was live before. -/
theorem live_subset {act : Op τ α} (h : act.Tracks) {s : Scene τ} (hs : s.space.store.Sound) :
    s.space.store.live ⊆ (outcome act s).2.space.store.live := by
  obtain ⟨fresh, hmade⟩ := h s hs
  exact hmade.store.live.subset

/-! ### Sequences -/

theorem still {act : Op τ α} (h : ∀ s, (outcome act s).2.space = s.space) : act.Tracks :=
  (Spares.still h).tracks

theorem pure (a : α) : Tracks (Pure.pure a : Op τ α) := still fun _ => rfl

/-- Acts that track their chunks compose. -/
theorem bind {act : Op τ α} {next : α → Op τ β} (h : act.Tracks) (hnext : ∀ a, (next a).Tracks) :
    (act >>= next).Tracks := by
  intro s hs
  obtain ⟨first, hact⟩ := h s hs
  rw [outcome_bind]
  rw [outcome] at hact
  cases hrun : act s with
  | ok a t =>
    rw [hrun] at hact
    obtain ⟨second, hthen⟩ := hnext a t hact.store.sound
    exact ⟨first ++ second, hact.trans hthen⟩
  | error e t =>
    rw [hrun] at hact
    exact ⟨first, hact⟩

/-- Both branches track their chunks, so the choice does. -/
theorem ite {c : Prop} [Decidable c] {x y : Op τ α} (hx : x.Tracks) (hy : y.Tracks) :
    (if c then x else y).Tracks := by
  split
  · exact hx
  · exact hy

/-! ### Parts of a scene -/

/-- Idle work on the space makes no chunk. -/
theorem space {act : SpaceM α} (h : act.Idle) : Tracks (Op.space act : Op τ α) :=
  (Spares.space h).tracks

/-- Work on the stream makes no chunk. -/
theorem stream (act : StreamM ByteStream α) : Tracks (Op.stream act : Op τ α) :=
  still fun s => by rw [Op.stream, outcome_within]; rfl

theorem subject : Tracks (Op.subject : Op τ τ) := still fun _ => rfl

theorem setSubject (x : τ) : Tracks (Op.setSubject x : Op τ Unit) := still fun _ => rfl

theorem modifySubject (f : τ → τ) : Tracks (Op.modifySubject f : Op τ Unit) := still fun _ => rfl

theorem cutHere : Tracks (Op.cutHere : Op τ Unit) := still fun _ => rfl

/-- Work on a part of the subject tracks what the work does. -/
theorem on {p : Part τ υ} {act : Op υ α} (h : act.Tracks) : Tracks (Op.on p act : Op τ α) := by
  intro s hs
  rw [Op.on, outcome_within]
  exact h ⟨s.space, s.stream, p.get s.subject⟩ hs

/-- Naming the field in the error makes no chunk. -/
theorem inField {f : BoundField} {act : Op τ α} (h : act.Tracks) : (Op.inField f act).Tracks := by
  intro s hs
  rw [Op.inField, outcome_failingAs]
  exact h s hs

/-! ### Chunks, transactions and rollback -/

/-- Writing a chunk back makes no chunk. -/
theorem withChunk {chunk : ChunkId} {act : Op τ α} (h : act.Tracks) :
    (RecordLayout.withChunk chunk act).Tracks := by
  intro s hs
  simp only [outcome, RecordLayout.withChunk]
  cases s.space.store.open? chunk with
  | error e => exact ⟨[], .refl hs⟩
  | ok opened =>
    -- the content is written back after success and failure alike
    obtain ⟨fresh, hmade⟩ := h { s with stream := opened } hs
    rw [outcome] at hmade
    refine ⟨fresh, ?_⟩
    simp only
    cases hrun : act { s with stream := opened } with
    | ok a t =>
      rw [hrun] at hmade
      exact hmade.setContent _ _
    | error e t =>
      rw [hrun] at hmade
      exact hmade.setContent _ _

/-- A transaction makes the chunks of its act, applied or dropped. -/
theorem inTransaction {act : Op τ α} (h : act.Tracks) : (RecordLayout.inTransaction act).Tracks := by
  intro s hs
  obtain ⟨fresh, hmade⟩ := h { s with stream := s.stream.begin } hs
  rw [outcome] at hmade
  refine ⟨fresh, ?_⟩
  simp only [outcome, RecordLayout.inTransaction]
  cases hrun : act { s with stream := s.stream.begin } with
  | ok a t =>
    rw [hrun] at hmade
    simp only
    -- the log is replayed on the stream, which makes no chunk
    cases ByteStream.commit t.stream with
    | ok u b => exact hmade
    | error e b => exact hmade
  | error e t =>
    rw [hrun] at hmade
    exact hmade

/-- Work in a scope of its own leaves nothing behind if it fails. -/
theorem rollback {act : Op τ α} (h : act.Tracks) : (RecordLayout.rollback act).Guards := by
  intro s hs
  obtain ⟨fresh, hmade⟩ := h { s with space := s.space.openScope } hs
  rw [outcome] at hmade
  rw [RecordLayout.rollback]
  cases hrun : act { s with space := s.space.openScope } with
  | ok a t =>
    rw [hrun] at hmade
    exact ⟨fresh, hmade.keep⟩
  | error e t =>
    rw [hrun] at hmade
    exact hmade.undo

end Tracks

/-- What guarded work is preceded by allocates nothing. -/
theorem Spares.bind_guards {act : Op τ α} {next : α → Op τ β} (h : act.Spares)
    (hnext : ∀ a, (next a).Guards) : (act >>= next).Guards := by
  intro s hs
  have hact := h s hs
  simp only [Bind.bind, EStateM.bind]
  rw [outcome] at hact
  -- whether the first part fails decides which of its two promises is used
  cases hrun : act s with
  | ok a t =>
    rw [hrun] at hact
    have hthen := hnext a t hact.store.sound
    simp only
    cases hgo : next a t with
    | ok b u =>
      rw [hgo] at hthen
      obtain ⟨fresh, hmade⟩ := hthen
      exact ⟨_, hact.trans hmade⟩
    | error e u =>
      rw [hgo] at hthen
      exact hact.trans hthen
  | error e t =>
    rw [hrun] at hact
    exact hact

/-- Guarded work may be followed by what cannot fail. -/
theorem Guards.bind_sure {act : Op τ α} {next : α → Op τ β} (h : act.Guards)
    (hnext : ∀ a s, ∃ b t, next a s = .ok b t ∧ t.space = s.space) : (act >>= next).Guards := by
  intro s hs
  have hs := h s hs
  simp only [Bind.bind, EStateM.bind]
  cases hrun : act s with
  | ok a t =>
    rw [hrun] at hs
    obtain ⟨fresh, hmade⟩ := hs
    obtain ⟨b, u, hgo, hspace⟩ := hnext a t
    simp only [hgo]
    exact ⟨fresh, hspace ▸ hmade⟩
  | error e t =>
    rw [hrun] at hs
    exact hs

/-- Work within a chunk that fails gives back what the work has made. -/
theorem Guards.withChunk {chunk : ChunkId} {act : Op τ α} (h : act.Guards) :
    (RecordLayout.withChunk chunk act).Guards := by
  intro s hs
  rw [RecordLayout.withChunk]
  cases s.space.store.open? chunk with
  | error e => exact .refl hs
  | ok opened =>
    have hs := h { s with stream := opened } hs
    simp only
    cases hrun : act { s with stream := opened } with
    | ok a t =>
      rw [hrun] at hs
      obtain ⟨fresh, hmade⟩ := hs
      -- writing the content back gives nothing away
      exact ⟨fresh, hmade.setContent _ _⟩
    | error e t =>
      rw [hrun] at hs
      exact hs.setContent _ _

/-- Mending the subject gives nothing back and makes nothing. -/
theorem Guards.onFailure {mend : τ → τ} {act : Op τ α} (h : act.Guards) :
    (Op.onFailure mend act).Guards := by
  intro s hs
  have hs := h s hs
  rw [Op.onFailure]
  cases hrun : act s with
  | ok a t =>
    rw [hrun] at hs
    exact hs
  | error e t =>
    rw [hrun] at hs
    exact hs

/-- A chunk that cannot be filled is freed again, with all that filling it has allocated. -/
theorem Tracks.allocateWith {hint : Nat} {fill : Op τ Unit} (h : fill.Tracks) :
    (RecordLayout.allocateWith hint fill).Guards := by
  intro s hs
  rw [RecordLayout.allocateWith]
  rcases s.space.heap.allocate_cases (hint + s.space.config.slack) with
    ⟨heap, hrefused, hstore⟩ | ⟨heap, hallocated, hstore⟩
  · -- no chunk is handed out
    rw [hrefused]
    have hsound : heap.store.Sound := by
      rw [hstore]
      exact hs
    exact ⟨.of_live_eq hsound (congrArg ChunkStore.live hstore), (noted_nil _).symm⟩
  · -- the chunk is new, and is filled
    rw [hallocated]
    have hgains : s.space.store.Gains [⟨s.space.heap.store.next⟩] heap.store := by
      rw [hstore]
      exact .allocate hs
    generalize (⟨s.space.heap.store.next⟩ : ChunkId) = chunk at hgains ⊢
    have hfilling : (RecordLayout.withChunk chunk fill).Tracks := h.withChunk
    have hfill := hfilling.rollback { s with space := { s.space with heap } } hgains.sound
    simp only
    cases hrun : RecordLayout.rollback (RecordLayout.withChunk chunk fill)
        { s with space := { s.space with heap } } with
    | ok u t =>
      rw [hrun] at hfill
      obtain ⟨fresh, hmade⟩ := hfill
      exact ⟨_, hmade.note chunk hgains rfl⟩
    | error e t =>
      rw [hrun] at hfill
      -- a filling that fails has given its own chunks back; the new chunk is released after it
      have hboth : s.space.store.Gains [chunk] t.space.store := hgains.trans hfill.store
      exact .release hboth (hfill.journal.trans (noted_nil _))

end Op

end RecordLayout
