import Mathlib
import RecordLayout.Codec.Partial

/-!
# Questions as programs

A write asks the workspace for layouts, placements, ids, sizes and checks. All these questions are put
together from a few that look into the workspace themselves. What holds of those and stays when one
question comes after another holds of every question: such a judgement is `SpaceM.Modular`.

Main results:

* `SpaceM.Modular.recordSize`, `SpaceM.Modular.placedSize` — sizes;
* `SpaceM.Modular.derivedValue` — what derived fields follow from their sources;
* `SpaceM.Modular.checkedSize`, `SpaceM.Modular.checkPlanned` — checks.
-/

namespace RecordLayout

/-- A judgement about questions that follows from judgements about the parts. -/
structure SpaceM.Modular (J : ∀ {α : Type}, SpaceM α → Prop) : Prop where
  pure : ∀ {α : Type} (a : α), J (Pure.pure a)
  throw : ∀ {α : Type} (e : FormatError), J (MonadExcept.throw e : SpaceM α)
  bind : ∀ {α β : Type} {act : SpaceM α} {next : α → SpaceM β}, J act → (∀ a, J (next a)) →
    J (act >>= next)
  catalog : J SpaceM.catalog
  typeId : ∀ value, J (SpaceM.typeId value)
  layout : ∀ id kind, J (SpaceM.layout id kind)
  openPlacement : ∀ id, J (SpaceM.openPlacement id)
  inlineSize : ∀ p : Placement, J (SpaceM.compile (p.inlineSize Compiler.layout))

namespace SpaceM.Modular

variable {J : ∀ {α : Type}, SpaceM α → Prop} (hJ : Modular J) {α : Type}

/-- A choice is judged by its branches. -/
theorem ite {c : Prop} [Decidable c] {x y : SpaceM α} (hx : J x) (hy : J y) :
    J (if c then x else y) := by
  split
  · exact hx
  · exact hy

include hJ

/-- A plain outcome is judged by its two cases. -/
theorem ofExcept (outcome : Except FormatError α) : J (RecordLayout.ofExcept outcome) := by
  cases outcome with
  | ok a => exact hJ.pure a
  | error e => exact hJ.throw e

/-! ## Types and tags -/

/-- A refusal is judged as an error. -/
theorem mismatch (expected : String) (found : Value) : J (@SpaceM.mismatch α expected found) :=
  hJ.bind hJ.catalog fun _ => hJ.throw _

/-- Looking up a tag asks for the catalog only. -/
theorem tagOf (choice : ChoiceId) (r : Record) : J (SpaceM.tagOf choice r) := by
  refine hJ.bind hJ.catalog fun c => ?_
  split
  · exact hJ.pure _
  · exact hJ.throw _

/-- A variant's layout is one lookup and one request. -/
theorem variantLayout (choice : ChoiceId) (tag : Nat) : J (SpaceM.variantLayout choice tag) := by
  refine hJ.bind hJ.catalog fun c => ?_
  split
  · exact hJ.layout _ _
  · exact hJ.throw _

/-! ## Sizes -/

/-- Reading a count asks nothing. -/
theorem countOf (v : Value) : J (RecordLayout.countOf v) := by
  rw [RecordLayout.countOf]
  split
  · exact hJ.pure _
  · exact hJ.mismatch _ _

/-- Reading a width asks nothing. -/
theorem widthIn (r : Record) (slot : Nat) : J (RecordLayout.widthIn r slot) := by
  rw [widthIn.eq_def]
  split
  · exact hJ.pure _
  · exact hJ.mismatch _ _

/-- Reading the items of an array asks nothing. -/
theorem itemsOf (v : Value) : J (RecordLayout.itemsOf v) := by
  rw [itemsOf.eq_def]
  split
  · exact hJ.pure _
  · exact hJ.mismatch _ _

/-- A sum is judged by its summands. -/
theorem sumOf {f : α → SpaceM Nat} (h : ∀ a, J (f a)) (items : List α) :
    J (RecordLayout.sumOf f items) := by
  induction items with
  | nil => exact hJ.pure 0
  | cons a rest ih => exact hJ.bind (h a) fun _ => hJ.bind ih fun _ => hJ.pure _

section

variable {sizeOf : SizeOf} (hsize : ∀ p v, J (sizeOf p v))

include hsize

/-- A field's size asks what its placement asks. -/
theorem fieldSizeWith (r : Record) (f : BoundField) : J (RecordLayout.fieldSizeWith sizeOf r f) := by
  rw [fieldSizeWith.eq_def]
  split
  · exact hJ.bind (hJ.widthIn _ _) fun _ => hJ.pure _
  · exact hJ.bind (hJ.countOf _) fun _ => hJ.pure _
  · exact hJ.bind (hJ.itemsOf _) fun _ => hJ.pure _
  · exact ite (hJ.bind (hJ.inlineSize _) fun _ => hJ.pure _)
      (hJ.bind (hsize _ _) fun _ => hJ.pure _)
  · exact hsize _ _
  · exact hJ.pure _

/-- A term's size asks what its fields ask. -/
theorem termSizeWith (l : Layout) (r : Record) (term : SizeTerm) :
    J (RecordLayout.termSizeWith sizeOf l r term) := by
  rw [termSizeWith.eq_def]
  split
  · exact hJ.bind (hJ.widthIn _ _) fun _ => hJ.pure _
  · split
    · exact hJ.pure _
    · exact hJ.mismatch _ _
  · exact hJ.fieldSizeWith hsize r _

/-- A record's size asks what its terms ask. -/
theorem recordSizeWith (l : Layout) (r : Record) : J (RecordLayout.recordSizeWith sizeOf l r) :=
  hJ.bind (hJ.sumOf (fun term => hJ.termSizeWith hsize l r term) _) fun _ => hJ.pure _

/-- The size of a record in a slot asks for its layout first. -/
theorem innerSize (id : SchemaId) (kind : LayoutKind) (v : Value) :
    J (RecordLayout.innerSize sizeOf id kind v) := by
  refine hJ.bind hJ.catalog fun c => ?_
  split
  · exact ite (hJ.bind (hJ.layout _ _) fun l => hJ.recordSizeWith hsize l _) (hJ.mismatch _ _)
  · exact hJ.mismatch _ _

end

/-- By induction on the depth. The walk goes down only into records that stand inline and into values of
open type. -/
theorem placedSizeWithin (depth : Nat) (p : Placement) (v : Value) :
    J (RecordLayout.placedSizeWithin depth p v) := by
  -- the induction is on the depth, one case for each placement
  induction depth generalizing p v with
  | zero => exact hJ.throw _
  | succ depth ih =>
    cases p with
    | scalar kind => exact hJ.pure _
    | inlineText =>
      rw [placedSizeWithin.eq_def]
      dsimp only
      split
      · exact hJ.pure _
      · exact hJ.pure _
      · exact hJ.mismatch _ _
    | inlineRecord schema => exact hJ.innerSize ih _ _ _
    | fixedRecord schema => exact hJ.innerSize ih _ _ _
    | wrapped wrapper carrier kind =>
      refine hJ.bind hJ.catalog fun c => ?_
      split
      · exact ite (hJ.bind (hJ.layout _ _) fun l => hJ.recordSizeWith ih l _) (hJ.mismatch _ _)
      · exact hJ.mismatch _ _
    | handle schema fixed =>
      cases fixed with
      | true => exact hJ.pure _
      | false =>
        rw [placedSizeWithin.eq_def]
        dsimp only
        split
        · exact hJ.pure _
        · exact hJ.pure _
        · exact hJ.mismatch _ _
    | inlineChoice choice =>
      refine hJ.bind hJ.catalog fun c => ?_
      split
      · exact hJ.pure _
      · refine hJ.bind (hJ.tagOf _ _) fun tag => hJ.bind (hJ.variantLayout _ _) fun l => ?_
        exact hJ.bind (hJ.recordSizeWith ih l _) fun _ => hJ.pure _
      · exact hJ.mismatch _ _
    | inlineOpen =>
      refine hJ.bind (hJ.typeId _) fun id => ite (hJ.pure _) ?_
      exact hJ.bind (hJ.openPlacement _) fun inner => hJ.bind (ih inner _) fun _ => hJ.pure _
    | chunkText => exact hJ.pure _
    | chunkRecord schema => exact hJ.pure _
    | chunkChoice choice => exact hJ.pure _
    | chunkOpen => exact hJ.pure _

/-- A record's size is a question. -/
theorem recordSize (l : Layout) (r : Record) : J (RecordLayout.recordSize l r) :=
  hJ.recordSizeWith (hJ.placedSizeWithin _) l r

/-- A placed value's size is a question. -/
theorem placedSize (p : Placement) (v : Value) : J (RecordLayout.placedSize p v) :=
  hJ.placedSizeWithin _ p v

/-! ## Derived fields -/

/-- Refusing a derived value is judged as an error. -/
theorem disagreement (f : BoundField) (fault : DerivationFault) :
    J (@RecordLayout.disagreement α f fault) :=
  hJ.throw _

/-- Requiring a schema asks nothing. -/
theorem requireSchema (l : Layout) (r : Record) : J (RecordLayout.requireSchema l r) :=
  hJ.bind hJ.catalog fun _ => ite (hJ.pure _) (hJ.throw _)

/-- The largest count is read off the record. -/
theorem largestCount (r : Record) (widest : Nat) (slots : List Nat) :
    J (RecordLayout.largestCount r widest slots) := by
  induction slots generalizing widest with
  | nil => exact hJ.pure _
  | cons slot rest ih => exact hJ.bind (hJ.countOf _) fun _ => ih _

/-- A count's value depends on the width of its field only. -/
theorem countValue (f : BoundField) (n : Nat) : J (RecordLayout.countValue f n) := by
  rw [RecordLayout.countValue]
  split
  · exact hJ.pure _
  · split
    · exact hJ.pure _
    · exact hJ.disagreement _ _

/-- A derived value asks for the sizes of its sources. -/
theorem derivedValue (f : BoundField) (r : Record) (derivation : SlotDerivation) :
    J (RecordLayout.derivedValue f r derivation) := by
  cases derivation with
  | lengthOf array => exact hJ.bind (hJ.itemsOf _) fun _ => hJ.countValue _ _
  | widthOf numbers => exact hJ.bind (hJ.largestCount _ _ _) fun _ => hJ.pure _

/-! ## Checks -/

/-- Checking a width asks for the sizes it has to fit. -/
theorem checkWidth (f : BoundField) (width : Width) (r : Record) (slots : List Nat) :
    J (RecordLayout.checkWidth f width r slots) := by
  induction slots with
  | nil => exact hJ.pure _
  | cons slot rest ih => exact hJ.bind (hJ.countOf _) fun _ => ite ih (hJ.disagreement _ _)

/-- Checking a field asks what its derivation asks. -/
theorem checkField (f : BoundField) (r : Record) : J (RecordLayout.checkField f r) := by
  refine hJ.bind ?_ fun _ => ?_
  · rw [checkDerived]
    split
    · exact hJ.pure _
    · exact hJ.bind (hJ.widthIn _ _) fun _ => hJ.checkWidth _ _ _ _
    · refine hJ.bind (hJ.derivedValue _ _ _) fun _ => ite (hJ.pure _) ?_
      exact hJ.bind hJ.catalog fun _ => hJ.disagreement _ _
  · rw [checkGoverned]
    split
    · refine hJ.bind (hJ.widthIn _ _) fun _ => hJ.bind (hJ.countOf _) fun _ => ?_
      exact ite (hJ.pure _) (hJ.disagreement _ _)
    · exact hJ.pure _

/-- Checking the fields asks what each check asks. -/
theorem checkFields {sizeOf : SizeOf} (hsize : ∀ p v, J (sizeOf p v)) (r : Record)
    (fields : List BoundField) : J (RecordLayout.checkFields sizeOf r fields) := by
  induction fields with
  | nil => exact hJ.pure _
  | cons f rest ih =>
    refine hJ.bind (hJ.checkField _ _) fun _ => hJ.bind (hJ.fieldSizeWith hsize _ _) fun _ => ?_
    exact hJ.bind ih fun _ => hJ.pure _

/-- A checked size is the check and then the size. -/
theorem checkedSize (l : Layout) (r : Record) : J (RecordLayout.checkedSize l r) := by
  have hsizes := hJ.placedSizeWithin r.walkDepth
  refine hJ.bind (hJ.checkFields hsizes _ _) fun measured =>
    hJ.bind (hJ.recordSizeWith hsizes _ _) fun size => ?_
  have hlast : J (do
      RecordLayout.ofExcept (checkRange l (sizeWord size))
      Pure.pure size : SpaceM Nat) :=
    hJ.bind (hJ.ofExcept _) fun _ => hJ.pure _
  exact ite (hJ.bind (hJ.throw _) fun _ => hlast) hlast

/-- Checking a plan's fields asks what each check asks. -/
theorem checkPlanned (plan : Plan) (r : Record) : J (RecordLayout.checkPlanned plan r) := by
  rw [RecordLayout.checkPlanned]
  induction plan.write with
  | nil => exact hJ.pure _
  | cons f rest ih => exact hJ.bind (hJ.checkField _ _) fun _ => ih

end SpaceM.Modular

end RecordLayout
