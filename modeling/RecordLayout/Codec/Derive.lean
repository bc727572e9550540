import RecordLayout.Codec.Size
import RecordLayout.Value.Part
import RecordLayout.Value.Text

/-!
# Derived fields

Before a record is written, derived fields are worked out from their sources, first in the records
that stand inline in its slots and then in the record itself, in canonical order. A check compares
them with their sources without changing anything.

* `deriveRecord` — works out the derived fields of a record;
* `checkField` — compares one field with its sources and its width;
* `checkedSize` — checks a record and returns its size.
-/

namespace RecordLayout

/-! ## One field -/

/-- The failure of a field that disagrees with other fields. -/
def disagreement {α : Type} (f : BoundField) (fault : DerivationFault) : SpaceM α :=
  throw (.derivation f.owner f.name fault)

/-- The kind of scalar that a field holds, if it holds scalars. -/
def Encoding.scalarKind? : Encoding → Option ScalarKind
  | .scalar kind | .placed (.scalar kind) _ => some kind
  | _ => none

/-- A count as the value of a field. -/
def countValue (f : BoundField) (n : Nat) : SpaceM Value :=
  match f.encoding.scalarKind? with
  | none => pure (Value.ofNat n)
  | some kind => match Scalar.ofNat? kind n with
    | some s => pure (.scalar s)
    | none => disagreement f (.countKind n kind)

/-- The largest of the counts in some slots, and of `widest`. -/
def largestCount (r : Record) (widest : Nat) : List Nat → SpaceM Nat
  | [] => pure widest
  | slot :: rest => do
    let n ← countOf (r.slot slot)
    largestCount r (max widest n) rest

/-- What a derived field follows from its sources. -/
def derivedValue (f : BoundField) (r : Record) : SlotDerivation → SpaceM Value
  | .lengthOf array => do
    let items ← itemsOf (r.slot array)
    countValue f items.length
  | .widthOf numbers => do
    let widest ← largestCount r 0 numbers
    pure (.width (Width.fitting widest))

/-- Works out one field if it is derived. -/
def deriveField (f : BoundField) : Op Record Unit :=
  match f.derivation with
  | none => pure ()
  | some derivation => do
    let r ← Op.subject
    let value ← Op.space (derivedValue f r derivation)
    Op.setSubject (r.setSlot f.slot value)

/-- Checks that a width holds the counts in some slots. -/
def checkWidth (f : BoundField) (width : Width) (r : Record) : List Nat → SpaceM Unit
  | [] => pure ()
  | slot :: rest => do
    let n ← countOf (r.slot slot)
    if width.canFit n then checkWidth f width r rest
    else disagreement f (.narrow width n)

/-- Checks a derived field against its sources. -/
def checkDerived (f : BoundField) (r : Record) : SpaceM Unit :=
  match f.derivation with
  | none => pure ()
  | some (.widthOf numbers) => do
    let width ← widthIn r f.slot
    checkWidth f width r numbers
  | some (.lengthOf array) => do
    let expected ← derivedValue f r (.lengthOf array)
    let held := r.slot f.slot
    if held.toNat? = expected.toNat? then pure ()
    else do
      let c ← SpaceM.catalog
      disagreement f (.differs (held.debugText c) (expected.debugText c))

/-- Checks that a number fits the width that governs it. -/
def checkGoverned (f : BoundField) (r : Record) : SpaceM Unit :=
  match f.encoding with
  | .sized governor => do
    let width ← widthIn r governor
    let n ← countOf (r.slot f.slot)
    if width.canFit n then pure () else disagreement f (.tooLarge n width)
  | _ => pure ()

/-- Checks one field. -/
def checkField (f : BoundField) (r : Record) : SpaceM Unit := do
  checkDerived f r
  checkGoverned f r

/-! ## Records -/

/-- A record must be of the schema of the layout. -/
def requireSchema (l : Layout) (r : Record) : SpaceM Unit := do
  let c ← SpaceM.catalog
  if r.schema = l.schema then pure ()
  else throw (.mismatch l.schemaName (c.schemaName r.schema))

/-- A way to work out the derived fields inside a value in its placement. -/
abbrev DeriveIn := Placement → Op Value Unit

/-- Works out the derived fields inside the values of some fields. -/
def deriveInside (deriveIn : DeriveIn) : List BoundField → Op Record Unit
  | [] => pure ()
  | f :: rest => do
    match f.encoding with
    | .placed placement _ => Op.on (RecordOf.valuePart f.slot) (deriveIn placement)
    | _ => pure ()
    deriveInside deriveIn rest

/-- Works out the derived fields of a record, given how to do so inside values. -/
def deriveRecordWith (deriveIn : DeriveIn) (l : Layout) : Op Record Unit := do
  let r ← Op.subject
  Op.space (requireSchema l r)
  deriveInside deriveIn l.fields
  l.fields.forM deriveField

/-- Works out the derived fields of the record inside a value. -/
def deriveInner (deriveIn : DeriveIn) (layout : SpaceM Layout) : Op Value Unit := do
  let l ← Op.space layout
  Op.on Value.recordPart (deriveRecordWith deriveIn l)

/-- Works out the derived fields inside a value in its placement, as far as it stands inline;
values may be nested `depth` deep. -/
def deriveWithin : Nat → DeriveIn
  | 0, _ => throw .exhausted
  | depth + 1, p => do
    let c ← Op.catalog
    let value ← Op.subject
    match p, value with
    | .inlineRecord id, .record _ => deriveInner (deriveWithin depth) (SpaceM.layout id .standard)
    | .fixedRecord id, .record _ => deriveInner (deriveWithin depth) (SpaceM.layout id .fixed)
    | .wrapped _ carrier kind, .wrapped _ _ =>
      deriveInner (deriveWithin depth) (SpaceM.layout carrier kind)
    | .inlineChoice id, .record r => deriveInner (deriveWithin depth) do
        let tag ← SpaceM.tagOf id r
        SpaceM.variantLayout id tag
    | .inlineOpen, .record r =>
      if (c.schema r.schema).isUnmanaged then pure ()
      else deriveInner (deriveWithin depth) (SpaceM.layout r.schema .standard)
    | .inlineOpen, .wrapped wrapper _ =>
      deriveInner (deriveWithin depth) (SpaceM.layout (c.wrapper wrapper).carrier .standard)
    | _, _ => pure ()

/-- Works out the derived fields of a record. -/
def deriveRecord (l : Layout) : Op Record Unit := do
  let r ← Op.subject
  deriveRecordWith (deriveWithin r.walkDepth) l

/-! ## Checked sizes -/

/-- Checks fields and returns the sum of their sizes, given how to measure values. -/
def checkFields (sizeOf : SizeOf) (r : Record) : List BoundField → SpaceM Nat
  | [] => pure 0
  | f :: rest => do
    checkField f r
    let size ← fieldSizeWith sizeOf r f
    let others ← checkFields sizeOf r rest
    pure (size + others)

/-- Checks a size against what is known statically, which is kept in words. -/
def checkRange (l : Layout) (size : Nat) : Except FormatError Unit :=
  match l.size.toWords with
  | .fixed n =>
    if size = n then .ok () else .error (.sizeMismatch l.schemaName .fixedSize n size)
  | range =>
    if range.contains size then .ok ()
    else .error (.sizeMismatch l.schemaName .bounds range.least size)

/-- Checks the fields of a record and that their sizes add up, and returns the size. Sizes are compared
as the words in which they are added up. -/
def checkedSize (l : Layout) (r : Record) : SpaceM Nat := do
  let sizeOf := placedSizeWithin r.walkDepth
  let measured ← checkFields sizeOf r l.fields
  let size ← recordSizeWith sizeOf l r
  if sizeWord measured ≠ sizeWord size then
    throw (.sizeMismatch l.schemaName .fieldSum (sizeWord size) (sizeWord measured))
  ofExcept (checkRange l (sizeWord size))
  pure size

end RecordLayout
