import RecordLayout.Workspace

/-!
# Sizes of records

The size of a record before it is written. Fields that share a governor are counted once per
governor; `fieldSizeWith` measures each field by itself, and a checked write compares the two.

* `recordSize` — the size of a record in a layout;
* `fieldSize` — the size of one field;
* `placedSize` — the size of a value in its placement.
-/

namespace RecordLayout

/-- A way to measure a value in its placement. -/
abbrev SizeOf := Placement → Value → SpaceM Nat

/-! ## Slots that decide sizes -/

/-- The content of a count. -/
def countOf (value : Value) : SpaceM Nat :=
  match value.toNat? with
  | some n => pure n
  | none => SpaceM.mismatch "unsigned number" value

/-- The width in a slot. -/
def widthIn (r : Record) (slot : Nat) : SpaceM Width :=
  match r.slot slot with
  | .width w => pure w
  | other => SpaceM.mismatch "numsize" other

/-- The items of an array field. -/
def itemsOf (value : Value) : SpaceM (List Value) :=
  match value with
  | .list items => pure items
  | other => SpaceM.mismatch "list" other

/-! ## Fields and records -/

/-- The size of an encoded slot whose encoding has a fixed size by itself. -/
def Encoding.ownSize : Encoding → Nat
  | .scalar kind => kind.bytes
  | .ordinal => 1
  | .forced width => width.bytes
  | _ => 0

/-- The size of one field, given how to measure values. -/
def fieldSizeWith (sizeOf : SizeOf) (r : Record) (f : BoundField) : SpaceM Nat :=
  match f.encoding with
  | .sized governor => do
    let width ← widthIn r governor
    pure width.bytes
  | .varint => do
    let n ← countOf (r.slot f.slot)
    pure (Varint.length (UInt64.ofNat n))
  | .array element _ => do
    let items ← itemsOf (r.slot f.slot)
    pure (items.length * element.bytes)
  | .placed placement true =>
    if (r.slot f.slot).isNull then do
      let inline ← SpaceM.compile (placement.inlineSize Compiler.layout)
      pure (1 + inline.getD 0)
    else do
      let size ← sizeOf placement (r.slot f.slot)
      pure (1 + size)
  | .placed placement false => sizeOf placement (r.slot f.slot)
  | other => pure other.ownSize

/-- The value of one term of the size of a record. -/
def termSizeWith (sizeOf : SizeOf) (l : Layout) (r : Record) : SizeTerm → SpaceM Nat
  | .widths governor count => do
    let width ← widthIn r governor
    pure (width.bytes * count)
  | .strides governor stride =>
    match (r.slot governor).toNat? with
    | some n => pure (n * stride)
    | none => SpaceM.mismatch "count" (r.slot governor)
  | .field place => fieldSizeWith sizeOf r (l.fields.getD place default)

/-- The sum of what an operation gives for each of some things. -/
def sumOf {σ ε α : Type} (f : α → EStateM ε σ Nat) : List α → EStateM ε σ Nat
  | [] => pure 0
  | x :: rest => do
    let n ← f x
    let m ← sumOf f rest
    pure (n + m)

/-- The size of a record in a layout, given how to measure values. -/
def recordSizeWith (sizeOf : SizeOf) (l : Layout) (r : Record) : SpaceM Nat := do
  let varying ← sumOf (termSizeWith sizeOf l r) l.terms
  pure (l.fixedPart + varying)

/-! ## Values in their placements -/

/-- The length of an inline text with the number before it. -/
def inlineTextSize (s : String) : Nat :=
  Varint.length (UInt64.ofNat (Utf8.length s + 1)) + Utf8.length s

/-- The size of an inline record, which must be of the given schema. -/
def innerSize (sizeOf : SizeOf) (id : SchemaId) (kind : LayoutKind) (value : Value) :
    SpaceM Nat := do
  let c ← SpaceM.catalog
  match value with
  | .record r =>
    if r.schema = id then do
      let l ← SpaceM.layout id kind
      recordSizeWith sizeOf l r
    else SpaceM.mismatch (c.schemaName id) value
  | _ => SpaceM.mismatch (c.schemaName id) value

/-- The size of a value in its placement; values may be nested `depth` deep. -/
def placedSizeWithin : Nat → SizeOf
  | 0, _, _ => throw .exhausted
  | depth + 1, p, value => match p with
    | .scalar kind => pure kind.bytes
    | .inlineText => match value with
      | .null => pure 1
      | .text s => pure (inlineTextSize s)
      | _ => SpaceM.mismatch "string" value
    | .inlineRecord id => innerSize (placedSizeWithin depth) id .standard value
    | .fixedRecord id => innerSize (placedSizeWithin depth) id .fixed value
    | .wrapped id carrier kind => do
      let c ← SpaceM.catalog
      match value with
      | .wrapped wrapper r =>
        if wrapper = id then do
          let l ← SpaceM.layout carrier kind
          recordSizeWith (placedSizeWithin depth) l r
        else SpaceM.mismatch (c.wrapper id).name value
      | _ => SpaceM.mismatch (c.wrapper id).name value
    | .handle _ true => pure ChunkId.fixedBytes
    | .handle _ false => match value with
      | .null => pure 1
      | .handle h => pure (Varint.length (UInt64.ofNat h.chunk.id))
      | _ => SpaceM.mismatch "handle" value
    | .inlineChoice id => do
      let c ← SpaceM.catalog
      match value with
      | .null => pure 1
      | .record r => do
        let tag ← SpaceM.tagOf id r
        let l ← SpaceM.variantLayout id tag
        let body ← recordSizeWith (placedSizeWithin depth) l r
        pure (Varint.length (UInt64.ofNat tag) + body)
      | _ => SpaceM.mismatch (c.choice id).name value
    | .inlineOpen => do
      let id ← SpaceM.typeId value
      if id = 0 then pure 1
      else do
        let inner ← SpaceM.openPlacement id
        let body ← placedSizeWithin depth inner value
        pure (Varint.length (UInt64.ofNat id) + body)
    | .chunkText | .chunkRecord _ => pure ChunkId.fixedBytes
    | .chunkChoice _ | .chunkOpen => pure Placement.taggedBytes

/-! ## Whole values -/

/-- How deep the walks over a value can go: through the record and, for a value of open type,
through its placement, at each level. -/
def Value.walkDepth (value : Value) : Nat := 2 * value.depth + 2

/-- How deep the walks over a record can go. -/
def RecordOf.walkDepth (r : Record) : Nat := 2 * r.depth + 2

/-- The size of a value in its placement. -/
def placedSize (p : Placement) (value : Value) : SpaceM Nat :=
  placedSizeWithin value.walkDepth p value

/-- The size of a record in a layout. -/
def recordSize (l : Layout) (r : Record) : SpaceM Nat :=
  recordSizeWith (placedSizeWithin r.walkDepth) l r

/-- The size of one field of a record. -/
def fieldSize (f : BoundField) (r : Record) : SpaceM Nat :=
  fieldSizeWith (placedSizeWithin r.walkDepth) r f

end RecordLayout
