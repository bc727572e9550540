import RecordLayout.Codec.Read

/-!
# Skipping records

Skipping moves past the bytes of a record without building it. Only the fields that decide the size
of later ones are read; fields of fixed size in a row are passed in one step.

* `skipRecord` — past one record;
* `skipField` — past one field, given a record with the fields that decide its size;
* `skipPlaced` — past one value in its placement.
-/

namespace RecordLayout

-- powers are those of numbers themselves, also where an algebra library is loaded
attribute [local instance (high)] instPowNat

section

variable {τ : Type}

/-- The record that holds the fields which decide sizes. -/
def governingRecord (f : BoundField) (governing : Option Record) : Op τ Record :=
  match governing with
  | some r => pure r
  | none => throw (.invalidSchema f.owner (.missingGovernor f.name))

/-- Moves past an inline text. -/
def skipText : Op τ Unit := do
  let n ← readVarint
  passBytes (n - 1)

/-- Moves past one field, given how to move past values. -/
def skipFieldWith (skipIn : Placement → Op τ Unit) (f : BoundField) (governing : Option Record) :
    Op τ Unit := Op.inField f do
  match f.encoding with
  | .sized governor => do
    let r ← governingRecord f governing
    let width ← Op.space (widthIn r governor)
    passBytes width.bytes
  | .varint => do
    let _ ← readVarint
  | .array element governor => do
    let r ← governingRecord f governing
    let count ← Op.space (countOf (r.slot governor))
    if count * element.bytes < 2 ^ (64 : Nat) then passBytes (count * element.bytes)
    else throw (.stream (.corrupt (.arrayLength count)))
  | .placed placement marker => do
    let present ← if marker then readMarker else pure true
    if present then skipIn placement
    else do
      let inline ← Op.compile (placement.inlineSize Compiler.layout)
      passBytes (inline.getD 0)
  | other => passBytes other.ownSize

/-- Follows the steps that skip a record of a layout, given how to read values and how to move past
them. `governing` holds what has been read so far. -/
def followSteps (readIn : ReadIn) (skipIn : Placement → Op τ Unit) (l : Layout) :
    Option Record → List SkipStep → Op τ Unit
  | _, [] => pure ()
  | governing, .run bytes :: rest => do
    passBytes bytes
    followSteps readIn skipIn l governing rest
  | governing, .field place :: rest => do
    skipFieldWith skipIn (l.fields.getD place default) governing
    followSteps readIn skipIn l governing rest
  | governing, .read place :: rest => do
    let c ← Op.catalog
    let r := governing.getD (c.newRecord l.schema)
    let (_, r) ← Op.withSubject r (readFieldWith readIn (l.fields.getD place default))
    followSteps readIn skipIn l (some r) rest

/-- Moves past a record, given how to read values and how to move past them. -/
def skipRecordWith (readIn : ReadIn) (skipIn : Placement → Op τ Unit) (l : Layout) : Op τ Unit :=
  followSteps readIn skipIn l none l.skips

/-- Moves past a record whose layout is still to be found, given how to read values and how to move
past them. -/
def skipInner (readIn : ReadIn) (skipIn : Placement → Op τ Unit) (layout : SpaceM Layout) :
    Op τ Unit := do
  let l ← Op.space layout
  skipRecordWith readIn skipIn l

/-- Moves past a value in its placement; values may be nested `depth` deep. -/
def skipWithin : Nat → Placement → Op τ Unit
  | 0, _ => throw .exhausted
  | depth + 1, p =>
    let inside := skipWithin depth
    let record := skipInner (readWithin depth) inside
    match p with
    | .scalar kind => passBytes kind.bytes
    | .inlineText => skipText
    | .inlineRecord schema => record (SpaceM.layout schema .standard)
    | .fixedRecord schema => record (SpaceM.layout schema .fixed)
    | .wrapped _ carrier kind => record (SpaceM.layout carrier kind)
    | .handle _ fixed => do
      let _ ← readHandleChunk fixed
    | .inlineChoice choice => do
      let tag ← readTag
      if tag = 0 then pure () else record (SpaceM.variantLayout choice tag)
    | .inlineOpen => do
      let id ← readTag
      if id = 0 then pure ()
      else do
        let placement ← Op.space (SpaceM.openPlacement id)
        inside placement
    | .chunkText | .chunkRecord _ => passBytes ChunkId.fixedBytes
    | .chunkChoice _ | .chunkOpen => passBytes Placement.taggedBytes

/-! ## Whole values -/

/-- Moves past a value in its placement. -/
def skipPlaced (p : Placement) : Op τ Unit := do
  let depth ← readDepth
  skipWithin depth p

/-- Moves past one field. -/
def skipField (f : BoundField) (governing : Option Record) : Op τ Unit := do
  let depth ← readDepth
  skipFieldWith (skipWithin depth) f governing

/-- Moves past a record. -/
def skipRecord (l : Layout) : Op τ Unit := do
  let depth ← readDepth
  skipRecordWith (readWithin depth) (skipWithin depth) l

end

end RecordLayout
