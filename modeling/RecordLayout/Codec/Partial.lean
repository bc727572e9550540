import RecordLayout.Codec.Skip

/-!
# Partial access

A plan says which fields of a record to read or to write. A partial read fills these fields and
skips the others; a partial write leaves the bytes of the others as they are. Writing several fields
happens inside a transaction.

* `readPlanned` — reads the fields of a plan into a record;
* `writePlanned` — writes the fields of a plan of a record that ends its stream.
-/

namespace RecordLayout

namespace Layout

/-- The failure of a plan whose fields are not fields of the layout in canonical order. -/
def foreignPlan (l : Layout) : FormatError := .invalidSchema l.schemaName .foreignPlan

end Layout

/-! ## Reading -/

/-- Reads the wanted ones among fields in a row, and moves past the others; values may be nested
`depth` deep. -/
def readWanted (depth : Nat) (l : Layout) : List BoundField → List BoundField → Op Record Unit
  | [], [] => pure ()
  | [], _ :: _ => throw l.foreignPlan
  | f :: fields, wanted => do
    if wanted.head?.any (·.slot == f.slot) then do
      readFieldWith (readWithin depth) f
      readWanted depth l fields wanted.tail
    else do
      let r ← Op.subject
      skipFieldWith (skipWithin depth) f (some r)
      readWanted depth l fields wanted

/-- Reads the fields of a plan into a record of the schema of the layout. -/
def readPlannedHere (l : Layout) (plan : Plan) : Op Record Unit := do
  if plan.fullRead then readInto l
  else do
    let r ← Op.subject
    Op.space (requireSchema l r)
    let depth ← readDepth
    readWanted depth l l.fields plan.read

/-- The layout of the draft of an immutable schema. -/
def draftLayout (l : Layout) : SpaceM Layout :=
  match l.draft with
  | some id => SpaceM.layout id l.kind
  | none => throw (.invalidSchema l.schemaName .notImmutable)

/-- The plan on the layout of the draft that stands for a plan. -/
def planForDraft (l : Layout) (plan : Plan) : SpaceM Plan := do
  let draft ← draftLayout l
  SpaceM.plan (draftPlan l draft plan)

/-- Reads the fields of a plan into a record. A draft takes the fields of an immutable schema
unchecked. -/
def readPlanned (l : Layout) (plan : Plan) : Op Record Unit := do
  let r ← Op.subject
  if l.draft = some r.schema then do
    let draft ← Op.space (draftLayout l)
    let plan ← Op.space (planForDraft l plan)
    readPlannedHere draft plan
  else readPlannedHere l plan

/-! ## Writing -/

/-- Writes the wanted ones among fields in a row and moves past the others, until all wanted ones
are written. Fields that decide sizes and are not wanted are read into `governing`. If the last
field of the layout is written and the size of a record can change, the stream is cut after it.
Stored values may be nested `depth` deep. -/
def writeWanted (depth : Nat) (l : Layout) :
    Option Record → List BoundField → List BoundField → Op Record Unit
  | _, _, [] => pure ()
  | _, [], _ :: _ => throw l.foreignPlan
  | governing, f :: fields, first :: wanted => do
    if first.slot = f.slot then do
      writeField f
      if fields.isEmpty && !l.size.isFixed then Op.cutHere
      writeWanted depth l governing fields wanted
    else if f.governs then do
      let c ← Op.catalog
      let r := governing.getD (c.newRecord l.schema)
      let (_, r) ← Op.withSubject r (readFieldWith (readWithin depth) f)
      writeWanted depth l (some r) fields (first :: wanted)
    else do
      skipFieldWith (skipWithin depth) f governing
      writeWanted depth l governing fields (first :: wanted)

/-- Checks the fields that a plan writes. -/
def checkPlanned (plan : Plan) (r : Record) : SpaceM Unit := plan.write.forM fun f => checkField f r

/-- Writes the fields of a plan. The stream stands at the front of a record that ends it. -/
def writePlanned (l : Layout) (plan : Plan) : Op Record Unit := do
  let r ← Op.subject
  Op.space (requireSchema l r)
  plan.derived.forM deriveField
  let config ← Op.config
  let r ← Op.subject
  if config.validateWrites then Op.space (checkPlanned plan r)
  let depth ← readDepth
  let walk := writeWanted depth l none l.fields plan.write
  guardingChunks (if 1 < plan.write.length then inTransaction walk else walk)

end RecordLayout
