import Mathlib
import RecordLayout.Proofs.Chunk.Tracks

/-!
# Operations that keep chunks

Whatever comes of an operation, the live chunks hold what they held, but for those on a list:
`Op.Keeps`. A rollback frees only what has come to live since its scope was opened, so it changes
nothing about that.

Main results:

* `Op.Keeps.bind` — one operation after another;
* `Op.Keeps.withChunk` — work on a chunk, which changes that chunk besides;
* `Op.Keeps.rollback`, `Op.Keeps.allocateWith` — work in a scope of its own.
-/

namespace RecordLayout

namespace Op

variable {τ υ α β : Type}

/-- Whatever comes of the operation, live chunks that are not `filled` hold what they held. -/
def Keeps (act : Op τ α) (s : Scene τ) (filled : List ChunkId) : Prop :=
  ∀ c ∈ s.space.store.live, c ∉ filled →
    (outcome act s).2.space.store.content? c = s.space.store.content? c

/-- Where a new chunk of about `hint` bytes is filled, unless it is refused. -/
def inNewChunk? (hint : Nat) (s : Scene τ) : Option (Scene τ) :=
  match s.space.heap.allocate (hint + s.space.config.slack) with
  | (.ok _, heap) => some { s with
      space := { s.space with heap }.openScope, stream := .ofBytes [] }
  | (.error _, _) => none

section

variable {s : Scene τ}

/-- A request for a chunk is refused, or a chunk that was not live is filled from empty on. -/
theorem inNewChunk?_cases (hint : Nat) (hs : s.space.store.Sound) :
    (∃ heap, s.space.heap.allocate (hint + s.space.config.slack) = (.error Allocator.refusal, heap) ∧
      heap.store = s.space.store ∧ inNewChunk? hint s = none) ∨
    ∃ heap, s.space.heap.allocate (hint + s.space.config.slack) = (.ok ⟨s.space.store.next⟩, heap) ∧
      s.space.store.Gains [⟨s.space.store.next⟩] heap.store ∧
      heap.store.content? ⟨s.space.store.next⟩ = some [] ∧
      (∀ c ∈ s.space.store.live, c ≠ ⟨s.space.store.next⟩ ∧
        heap.store.content? c = s.space.store.content? c) ∧
      inNewChunk? hint s = some { s with
        space := { s.space with heap }.openScope, stream := .ofBytes [] } := by
  rcases s.space.heap.allocate_cases (hint + s.space.config.slack) with
    ⟨heap, hrefused, hstore⟩ | ⟨heap, hallocated, hstore⟩
  · exact .inl ⟨heap, hrefused, hstore, by rw [inNewChunk?, hrefused]⟩
  -- the new chunk's identifier is the next one, which no live chunk has
  · have hcontent (c : ChunkId) : heap.store.content? c =
        if c = ⟨s.space.store.next⟩ then some [] else s.space.store.content? c := by
      rw [hstore]
      exact ChunkStore.content?_allocate hs c
    refine .inr ⟨heap, hallocated, hstore ▸ .allocate hs, ?_, fun c hc => ?_, ?_⟩
    · rw [hcontent, if_pos rfl]
    · have hne : c ≠ ⟨s.space.store.next⟩ := by
        rintro rfl
        exact Nat.lt_irrefl _ (hs.bounds _ hc).2
      exact ⟨hne, by rw [hcontent, if_neg hne]⟩
    · rw [inNewChunk?, hallocated]

/-! ### What is left of a scene -/

theorem outcome_withChunk (act : Op τ α) (s : Scene τ) {chunk : ChunkId} {opened : ByteStream}
    (h : s.space.store.open? chunk = .ok opened) :
    ∃ w, (outcome (withChunk chunk act) s).2 =
      ⟨w, s.stream, (outcome act { s with stream := opened }).2.subject⟩ := by
  simp only [outcome, withChunk, h]
  cases act { s with stream := opened } with
  | ok a t => exact ⟨_, rfl⟩
  | error e t => exact ⟨_, rfl⟩

theorem outcome_rollback (act : Op τ α) (s : Scene τ) :
    ∃ w, (outcome (rollback act) s).2 =
      { (outcome act { s with space := s.space.openScope }).2 with space := w } := by
  simp only [outcome, rollback]
  cases act { s with space := s.space.openScope } with
  | ok a t => exact ⟨_, rfl⟩
  | error e t => exact ⟨_, rfl⟩

theorem outcome_allocateWith (hint : Nat) (fill : Op τ Unit) (hs : s.space.store.Sound) :
    match inNewChunk? hint s with
    | none => ∃ w, (outcome (allocateWith hint fill) s).2 = { s with space := w }
    | some t => ∃ w, (outcome (allocateWith hint fill) s).2 =
        ⟨w, s.stream, (outcome fill t).2.subject⟩ := by
  simp only [outcome, allocateWith]
  rcases inNewChunk?_cases hint hs with
    ⟨heap, hrefused, -, hnone⟩ | ⟨heap, hallocated, -, hopened, -, hfill⟩
  · rw [hrefused, hnone]
    exact ⟨_, rfl⟩
  · rw [hallocated, hfill]
    -- the scope around the filling is opened before the chunk is
    obtain ⟨w, hroll⟩ := outcome_rollback (withChunk ⟨s.space.store.next⟩ fill)
      { s with space := { s.space with heap } }
    have hopen : (Workspace.openScope { s.space with heap }).store.open? ⟨s.space.store.next⟩ =
        .ok (.ofBytes []) := open?_ok.mpr ⟨[], hopened, rfl⟩
    obtain ⟨w', hwork⟩ := outcome_withChunk fill
      { s with space := Workspace.openScope { s.space with heap } } hopen
    rw [hwork] at hroll
    simp only
    cases hrun : rollback (withChunk ⟨s.space.store.next⟩ fill)
        { s with space := { s.space with heap } } with
    | ok u t =>
      rw [outcome_of_ok hrun] at hroll
      obtain rfl : t = _ := hroll
      exact ⟨_, rfl⟩
    | error e t =>
      rw [outcome_of_error hrun] at hroll
      obtain rfl : t = _ := hroll
      exact ⟨_, rfl⟩

end

/-! ### Combinators -/

namespace Keeps

variable {act : Op τ α} {s : Scene τ} {filled filled' : List ChunkId}

theorem mono (h : act.Keeps s filled) (hsub : filled ⊆ filled') : act.Keeps s filled' :=
  fun c hc hout => h c hc fun hmem => hout (hsub hmem)

theorem of_store (h : (outcome act s).2.space.store = s.space.store) : act.Keeps s filled :=
  fun _ _ _ => by rw [h]

/-- What comes later finds the chunks alive that were live before. -/
theorem bind {next : α → Op τ β} (htracks : act.Tracks) (hs : s.space.store.Sound)
    (h : act.Keeps s filled)
    (hnext : ∀ a t, act s = .ok a t → t.space.store.Sound → (next a).Keeps t filled) :
    (act >>= next).Keeps s filled := by
  intro c hc hout
  have hact := h c hc hout
  have hlive := htracks.live_subset hs hc
  obtain ⟨fresh, hmade⟩ := htracks s hs
  rw [outcome_bind]
  cases hrun : act s with
  | ok a t =>
    rw [outcome_of_ok hrun] at hact hlive hmade
    exact (hnext a t hrun hmade.store.sound c hlive hout).trans hact
  | error e t =>
    rw [outcome_of_error hrun] at hact
    exact hact

/-! ### Questions about a scene -/

theorem subject_bind {next : τ → Op τ β} (h : (next s.subject).Keeps s filled) :
    (Op.subject >>= next).Keeps s filled := h

theorem config_bind {next : Config → Op τ β} (h : (next s.space.config).Keeps s filled) :
    (Op.config >>= next).Keeps s filled := h

theorem catalog_bind {next : Catalog → Op τ β} (h : (next s.space.catalog).Keeps s filled) :
    (Op.catalog >>= next).Keeps s filled := h

theorem position_bind {next : Nat → Op τ β} (h : (next s.stream.position).Keeps s filled) :
    (Op.position >>= next).Keeps s filled := h

/-! ### Parts of a scene, chunks and scopes -/

theorem on {p : Part υ τ} {s : Scene υ} (h : act.Keeps ⟨s.space, s.stream, p.get s.subject⟩ filled) :
    Keeps (Op.on p act : Op υ α) s filled := by
  intro c hc hout
  rw [Op.on, outcome_within]
  exact h c hc hout

theorem inField {f : BoundField} (h : act.Keeps s filled) : (Op.inField f act).Keeps s filled := by
  intro c hc hout
  rw [Op.inField, outcome_failingAs]
  exact h c hc hout

theorem onFailure {mend : τ → τ} (h : act.Keeps s filled) :
    (Op.onFailure mend act).Keeps s filled := by
  intro c hc hout
  have hact := h c hc hout
  simp only [outcome, Op.onFailure]
  cases hrun : act s with
  | ok a t =>
    rw [outcome_of_ok hrun] at hact
    exact hact
  | error e t =>
    rw [outcome_of_error hrun] at hact
    exact hact

/-- Work on a chunk changes that chunk besides. -/
theorem withChunk {chunk : ChunkId} {content : Bytes}
    (hchunk : s.space.store.content? chunk = some content)
    (h : act.Keeps { s with stream := .ofBytes content } filled) :
    (RecordLayout.withChunk chunk act).Keeps s (chunk :: filled) := by
  intro c hc hout
  rw [List.mem_cons, not_or] at hout
  have hact := h c hc hout.2
  simp only [outcome, RecordLayout.withChunk, open?_ok.mpr ⟨content, hchunk, rfl⟩]
  -- closing the chunk leaves the others as they are
  have hclose (t : Scene τ) :
      (t.space.store.setContent chunk t.stream.content).content? c = t.space.store.content? c := by
    rw [ChunkStore.content?_setContent, if_neg hout.1]
  cases hrun : act { s with stream := .ofBytes content } with
  | ok a t =>
    rw [outcome_of_ok hrun] at hact
    exact (hclose t).trans hact
  | error e t =>
    rw [outcome_of_error hrun] at hact
    exact (hclose t).trans hact

theorem inTransaction (h : act.Keeps { s with stream := s.stream.begin } filled) :
    (RecordLayout.inTransaction act).Keeps s filled := by
  intro c hc hout
  have hact := h c hc hout
  simp only [outcome, RecordLayout.inTransaction]
  cases hrun : act { s with stream := s.stream.begin } with
  | ok a t =>
    rw [outcome_of_ok hrun] at hact
    simp only
    -- the log may be refused on the stream below, but that changes no chunk
    cases ByteStream.commit t.stream with
    | ok u b => exact hact
    | error e b => exact hact
  | error e t =>
    rw [outcome_of_error hrun] at hact
    exact hact

/-- What a scope frees has come to live in it. -/
theorem rollback (htracks : act.Tracks) (hs : s.space.store.Sound)
    (h : act.Keeps { s with space := s.space.openScope } filled) :
    (RecordLayout.rollback act).Keeps s filled := by
  intro c hc hout
  have hact := h c hc hout
  obtain ⟨fresh, hmade⟩ := htracks { s with space := s.space.openScope } hs
  simp only [outcome, RecordLayout.rollback]
  cases hrun : act { s with space := s.space.openScope } with
  | ok a t =>
    rw [outcome_of_ok hrun] at hact
    show t.space.keepScope.store.content? c = _
    rw [Workspace.store_keepScope]
    exact hact
  | error e t =>
    rw [outcome_of_error hrun] at hact hmade
    have hjournal : t.space.journal = fresh :: s.space.journal := hmade.journal
    -- what the frame frees is new, and so not the chunk in question
    have hold : c ∉ fresh := fun hmem => ((hmade.store.new c).mp hmem).2 hc
    show t.space.undoScope.store.content? c = _
    simp only [Workspace.undoScope, hjournal]
    rw [Workspace.content?_release _ hold]
    exact hact

/-- A chunk that is allocated was not live. -/
theorem allocateWith {hint : Nat} {fill : Op τ Unit} (htracks : fill.Tracks)
    (hs : s.space.store.Sound)
    (h : ∀ t, inNewChunk? hint s = some t → t.space.store.Sound → fill.Keeps t filled) :
    (RecordLayout.allocateWith hint fill).Keeps s filled := by
  intro c hc hout
  simp only [outcome, RecordLayout.allocateWith]
  rcases inNewChunk?_cases hint hs with
    ⟨heap, hrefused, hstore, -⟩ | ⟨heap, hallocated, hgains, hopened, hold, hinside⟩
  · rw [hrefused]
    show heap.store.content? c = _
    rw [hstore]
  · rw [hallocated]
    obtain ⟨hne, hsame⟩ := hold c hc
    have hfill := h _ hinside hgains.sound
    -- the scope around the filling is opened before the chunk is
    have hfilling : (RecordLayout.rollback (RecordLayout.withChunk ⟨s.space.store.next⟩ fill)).Keeps
        { s with space := { s.space with heap } } (⟨s.space.store.next⟩ :: filled) :=
      rollback htracks.withChunk hgains.sound (withChunk hopened hfill)
    have hkept := hfilling c (hgains.live.subset hc) (by
      rw [List.mem_cons, not_or]
      exact ⟨hne, hout⟩)
    simp only
    cases hrun : RecordLayout.rollback (RecordLayout.withChunk ⟨s.space.store.next⟩ fill)
        { s with space := { s.space with heap } } with
    | ok u t =>
      rw [outcome_of_ok hrun] at hkept
      show (t.space.note _).store.content? c = _
      rw [Workspace.store_note]
      exact hkept.trans hsame
    | error e t =>
      rw [outcome_of_error hrun] at hkept
      refine (Workspace.content?_release _ ?_).trans (hkept.trans hsame)
      rw [List.mem_singleton]
      exact hne

end Keeps

end Op

end RecordLayout
