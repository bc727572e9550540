import Mathlib
import RecordLayout.Proofs.Codec.Repeated
import RecordLayout.Proofs.Space

/-!
# What is known after a write

Whatever comes of a write, the compiler rests again, no layout and no type id has been forgotten, and
the settings are the same: `Workspace.Advances`. So what stood in chunks before still stands there, if
only the chunks are as they were.

Main results:

* `questionsAdvance` — questions, also those that fail;
* `advances` — every write.
-/

namespace RecordLayout

/-! ## Workspaces that advance -/

/-- If the compiler rests, it rests again, and nothing that was known is forgotten. -/
def Workspace.Advances (w w' : Workspace) : Prop :=
  w.compiler.Resting → w'.compiler.Resting ∧ w.Le w'

namespace Workspace.Advances

variable {w w' w'' : Workspace}

/-- Chunks and rollback scopes are not what is known. -/
theorem of_same (hcompiler : w'.compiler = w.compiler) (htypes : w'.types = w.types)
    (hconfig : w'.config = w.config) : w.Advances w' := by
  intro h
  refine ⟨hcompiler ▸ h, ?_, htypes ▸ .refl _, hconfig⟩
  rw [hcompiler]
  exact .refl _

theorem refl (w : Workspace) : w.Advances w := of_same rfl rfl rfl

/-- Advancing is transitive. -/
theorem trans (h : w.Advances w') (h' : w'.Advances w'') : w.Advances w'' := by
  intro hw
  obtain ⟨hrest, hle⟩ := h hw
  obtain ⟨hrest', hle'⟩ := h' hrest
  exact ⟨hrest', hle.trans hle'⟩

/-- Keeping a frame frees nothing. -/
theorem keepScope (w : Workspace) : w.Advances w.keepScope := by
  rw [Workspace.keepScope]
  split
  · exact of_same rfl rfl rfl
  · exact of_same rfl rfl rfl

/-- Releasing chunks never takes a layout or a type back. -/
theorem release (w : Workspace) (chunks : List ChunkId) : w.Advances (w.release chunks) := by
  rw [Workspace.release]
  split
  · exact of_same rfl rfl rfl
  · exact refl w

/-- Undoing a frame frees its chunks and keeps the layouts and types. -/
theorem undoScope (w : Workspace) : w.Advances w.undoScope := by
  rw [Workspace.undoScope]
  split
  · rename_i inner rest _
    have hclosed : w.Advances { w with journal := rest } := of_same rfl rfl rfl
    exact hclosed.trans (release _ inner)
  · exact refl w

/-- Noting a chunk in the frame changes nothing else. -/
theorem note (w : Workspace) (chunk : ChunkId) : w.Advances (w.note chunk) := by
  rw [Workspace.note]
  split
  · exact of_same rfl rfl rfl
  · exact refl w

end Workspace.Advances

open Workspace

/-! ## Questions -/

/-- Whatever comes of the question, the workspace advances. -/
def SpaceM.Advances {α : Type} (act : SpaceM α) : Prop :=
  ∀ w : Workspace, w.Advances (outcome act w).2

namespace SpaceM.Advances

variable {α β : Type}

theorem pure (a : α) : Advances (Pure.pure a) := fun w => .refl w

theorem throw (e : FormatError) : Advances (MonadExcept.throw e : SpaceM α) := fun w => .refl w

/-- Acts that advance compose. -/
theorem bind {act : SpaceM α} {next : α → SpaceM β} (h : Advances act)
    (hnext : ∀ a, Advances (next a)) : Advances (act >>= next) := by
  intro w
  have hact := h w
  rw [outcome_bind]
  -- a failing first part has advanced too
  cases hrun : act w with
  | ok a w' =>
    rw [outcome_of_ok hrun] at hact
    exact hact.trans (hnext a w')
  | error e w' =>
    rw [outcome_of_error hrun] at hact
    exact hact

/-- Compiling only adds to what is compiled. -/
theorem compile {act : CompileM α} (h : Repeatable Compiler.whole act) :
    Advances (SpaceM.compile act) := by
  intro w hw
  obtain ⟨hlearns, -⟩ := h w.compiler hw
  rw [SpaceM.compile, outcome_within_eq]
  exact ⟨hlearns.resting, hlearns.grows, .refl _, rfl⟩

end SpaceM.Advances

/-- A type gets an id of its own, unless it has one. -/
theorem typeId_advances (v : Value) : (SpaceM.typeId v).Advances := by
  intro w hw
  rw [SpaceM.typeId, outcome_index]
  exact ⟨hw, .refl _, TypeIndex.outcome_idOf_extends _ v _, rfl⟩

/-- Looking a type number up changes nothing. -/
theorem typeOf_advances (id : Nat) : (SpaceM.typeOf id).Advances := by
  intro w
  simp only [outcome, SpaceM.typeOf]
  cases w.types.resolve id with
  | ok type => exact .refl w
  | error e => exact .refl w

/-- Every question advances. -/
theorem questionsAdvance : SpaceM.Modular SpaceM.Advances where
  pure := .pure
  throw := .throw
  bind := .bind
  catalog := fun w => .refl w
  typeId := typeId_advances
  layout id kind := .compile (layout_repeatable id kind)
  openPlacement id := (typeOf_advances id).bind fun type => .compile (placement_repeatable type)
  inlineSize p := .compile (inlineSize_repeatable p)

/-! ## Writing -/

namespace Op

variable {τ υ α β : Type}

/-- Whatever comes of the operation, the workspace advances. -/
def Advances (act : Op τ α) : Prop := ∀ s : Scene τ, s.space.Advances (outcome act s).2.space

namespace Advances

/-- An operation that has nothing to do with the workspace. -/
theorem still {act : Op τ α} (h : ∀ s, (outcome act s).2.space = s.space) : act.Advances := by
  intro s
  rw [h]
  exact .refl _

/-- Acts on a scene that advance compose. -/
theorem bind {act : Op τ α} {next : α → Op τ β} (h : act.Advances)
    (hnext : ∀ a, (next a).Advances) : (act >>= next).Advances := by
  intro s
  have hact := h s
  rw [outcome_bind]
  cases hrun : act s with
  | ok a t =>
    rw [outcome_of_ok hrun] at hact
    exact hact.trans (hnext a t)
  | error e t =>
    rw [outcome_of_error hrun] at hact
    exact hact

/-- Both branches advance, so the choice does. -/
theorem ite {c : Prop} [Decidable c] {x y : Op τ α} (hx : x.Advances) (hy : y.Advances) :
    (if c then x else y).Advances := by
  split
  · exact hx
  · exact hy

theorem pure (a : α) : Advances (Pure.pure a : Op τ α) := still fun _ => rfl

theorem throw (e : FormatError) : Advances (MonadExcept.throw e : Op τ α) := still fun _ => rfl

theorem subject : Advances (Op.subject : Op τ τ) := still fun _ => rfl

theorem cutHere : Advances (Op.cutHere : Op τ Unit) := still fun _ => rfl

/-! ### Parts of a scene -/

/-- Work on the space advances the scene's space by itself. -/
theorem space {act : SpaceM α} (h : act.Advances) : Advances (Op.space act : Op τ α) := by
  intro s
  rw [Op.space, outcome_within]
  exact h s.space

/-- Work on the stream leaves the space where it is. -/
theorem stream (act : StreamM ByteStream α) : Advances (Op.stream act : Op τ α) :=
  still fun s => by rw [Op.stream, outcome_within]; rfl

/-- Working on a part of the subject advances as the work does. -/
theorem on {p : Part τ υ} {act : Op υ α} (h : act.Advances) : Advances (Op.on p act) := by
  intro s
  rw [Op.on, outcome_within]
  exact h ⟨s.space, s.stream, p.get s.subject⟩

/-- Naming the field in the error does not touch the space. -/
theorem inField {f : BoundField} {act : Op τ α} (h : act.Advances) :
    (Op.inField f act).Advances := by
  intro s
  rw [Op.inField, outcome_failingAs]
  exact h s

/-- Mending the subject does not touch the space. -/
theorem onFailure {mend : τ → τ} {act : Op τ α} (h : act.Advances) :
    (Op.onFailure mend act).Advances := by
  intro s
  have hact := h s
  simp only [outcome, Op.onFailure] at hact ⊢
  cases hrun : act s with
  | ok a t =>
    rw [hrun] at hact
    exact hact
  | error e t =>
    rw [hrun] at hact
    exact hact

/-! ### Chunks, transactions and rollback -/

/-- A frame advances whether it is kept or undone. -/
theorem rollback {act : Op τ α} (h : act.Advances) : (RecordLayout.rollback act).Advances := by
  intro s
  have hopen : s.space.Advances s.space.openScope := .of_same rfl rfl rfl
  have hact := hopen.trans (h { s with space := s.space.openScope })
  simp only [outcome, RecordLayout.rollback] at hact ⊢
  cases hrun : act { s with space := s.space.openScope } with
  | ok a t =>
    rw [hrun] at hact
    exact hact.trans (.keepScope _)
  | error e t =>
    rw [hrun] at hact
    exact hact.trans (.undoScope _)

/-- A transaction changes the stream only, so its act decides. -/
theorem inTransaction {act : Op τ α} (h : act.Advances) :
    (RecordLayout.inTransaction act).Advances := by
  intro s
  have hact := h { s with stream := s.stream.begin }
  simp only [outcome, RecordLayout.inTransaction] at hact ⊢
  cases hrun : act { s with stream := s.stream.begin } with
  | ok a t =>
    rw [hrun] at hact
    simp only
    cases ByteStream.commit t.stream with
    | ok u b => exact hact
    | error e b => exact hact
  | error e t =>
    rw [hrun] at hact
    exact hact

/-- Writing the chunk back changes its content and nothing that is compiled. -/
theorem withChunk {chunk : ChunkId} {act : Op τ α} (h : act.Advances) :
    (RecordLayout.withChunk chunk act).Advances := by
  intro s
  simp only [outcome, RecordLayout.withChunk]
  cases s.space.store.open? chunk with
  | error e => exact .refl _
  | ok opened =>
    have hact := h { s with stream := opened }
    rw [outcome] at hact
    simp only
    cases hrun : act { s with stream := opened } with
    | ok a t =>
      rw [hrun] at hact
      -- the store's content is all that has changed since
      exact hact.trans (.of_same rfl rfl rfl)
    | error e t =>
      rw [hrun] at hact
      exact hact.trans (.of_same rfl rfl rfl)

/-- Allocating, filling and noting a chunk advance one after the other. -/
theorem allocateWith {hint : Nat} {fill : Op τ Unit} (h : fill.Advances) :
    (RecordLayout.allocateWith hint fill).Advances := by
  intro s
  simp only [outcome, RecordLayout.allocateWith]
  rcases s.space.heap.allocate (hint + s.space.config.slack) with ⟨result, heap⟩
  have hheap : s.space.Advances { s.space with heap } := .of_same rfl rfl rfl
  -- a failed filling is released again, which still advances
  cases result with
  | error e => exact hheap
  | ok chunk =>
    have hfilling : (RecordLayout.rollback (RecordLayout.withChunk chunk fill)).Advances :=
      h.withChunk.rollback
    have hfill := hheap.trans (hfilling { s with space := { s.space with heap } })
    rw [outcome] at hfill
    simp only
    cases hrun : RecordLayout.rollback (RecordLayout.withChunk chunk fill)
        { s with space := { s.space with heap } } with
    | ok u t =>
      rw [hrun] at hfill
      exact hfill.trans (.note _ _)
    | error e t =>
      rw [hrun] at hfill
      exact hfill.trans (.release _ _)

/-- Storing behind a slot advances as the stored body does. -/
theorem storeBehind {hint : Nat} {body : Op Slot Unit} (h : body.Advances) :
    (RecordLayout.storeBehind hint body).Advances := by
  have hlive (slot : Slot) :
      Advances (Op.space (fun w => .ok (w.store.contains slot.chunk) w) : Op Slot Bool) :=
    still fun _ => rfl
  refine subject.bind fun slot => (hlive slot).bind fun live => ite ?_ ?_
  · exact (h.bind fun _ => cutHere).inTransaction.withChunk.bind fun _ => pure _
  · exact h.allocateWith.bind fun chunk => (still fun _ => rfl).bind fun _ => pure _

/-- Deriving a field may compile and nothing else. -/
theorem deriveField (f : BoundField) : (RecordLayout.deriveField f).Advances := by
  rw [RecordLayout.deriveField]
  split
  · exact pure _
  · exact subject.bind fun r => (space (questionsAdvance.derivedValue f r _)).bind fun v =>
      still fun _ => rfl

/-- Checking how far the cursor moved does not touch the space. -/
theorem movingBy {bytes : Nat} {failure : Nat → FormatError} {act : Op Record Unit}
    (h : act.Advances) : (Op.movingBy bytes failure act).Advances := by
  refine (still fun _ => rfl).bind fun _ => h.bind fun _ => (still fun _ => rfl).bind fun _ => ?_
  split
  · exact throw _
  · exact pure _

/-- Freeing the chunks of a failed act advances. -/
theorem guardingChunks {act : Op Record Unit} (h : act.Advances) :
    (RecordLayout.guardingChunks act).Advances :=
  subject.bind fun _ => h.rollback.onFailure

end Advances

end Op

/-- Every write advances. -/
theorem advances : Op.Modular SpaceM.Advances fun act => act.Advances where
  questions := questionsAdvance
  pure := .pure
  throw := .throw
  bind := .bind
  space := .space
  subject := .subject
  config := .still fun _ => rfl
  movingBy h := .movingBy h
  write _ := .stream _
  writeWord _ _ := .stream _
  on _ := .on
  inField := .inField
  deriveField := .deriveField
  guardingChunks := .guardingChunks
  forgetChunk := .still fun _ => rfl
  storeBehind := .storeBehind

end RecordLayout
