import RecordLayout.Layout.Memo
import RecordLayout.Number.SizeRange
import RecordLayout.Number.Varint
import RecordLayout.Schema.Catalog
import RecordLayout.Text.Shape

/-!
# Layouts

A layout is a schema made ready for reading and writing: its fields in canonical order, each with
the encoding of its slot, and what follows from them for skipping, sizing and collecting chunks.

* `Placement` — where a value of a declared type stands: inline, or in a chunk behind a reference;
* `Encoding` — how the slot of a field is encoded;
* `BoundField` — a field with its encoding and its neighbours as slot numbers;
* `Layout` — the fields in canonical order, with `Layout.skips` and `Layout.terms`.
-/

namespace RecordLayout

/-- The name of a layout. -/
abbrev LayoutKey := SchemaId × LayoutKind

/-- Where and how a value of a declared type is stored. -/
inductive Placement where
  /-- A scalar in its native width. -/
  | scalar (kind : ScalarKind)
  /-- The length of the text plus one, then the text; zero is null. -/
  | inlineText
  /-- A reference to a chunk that holds the text. -/
  | chunkText
  /-- A record in its standard layout. -/
  | inlineRecord (schema : SchemaId)
  /-- A record in its fixed layout. -/
  | fixedRecord (schema : SchemaId)
  /-- A reference to a chunk that holds a record in its standard layout. -/
  | chunkRecord (schema : SchemaId)
  /-- The chunk of a handle, of variable or fixed width. -/
  | handle (schema : SchemaId) (fixed : Bool)
  /-- The tag of a variant, then a record in its standard layout; tag zero is null. -/
  | inlineChoice (choice : ChoiceId)
  /-- The tag of a variant, then a reference to a chunk that holds the record. -/
  | chunkChoice (choice : ChoiceId)
  /-- The id of a type, then a value as the flexible rule places it; id zero is null. -/
  | inlineOpen
  /-- The id of a type, then a reference to a chunk that holds the value. -/
  | chunkOpen
  /-- The carrier of a wrapper, in a layout of the given kind. -/
  | wrapped (wrapper : WrapperId) (carrier : SchemaId) (kind : LayoutKind)
  deriving DecidableEq, Repr, Inhabited

namespace Placement

/-- The name of a placement. -/
def name : Placement → String
  | .scalar _ => "Primitive"
  | .inlineText => "InlineString"
  | .chunkText => "FixedReferenceString"
  | .inlineRecord _ => "Instance"
  | .fixedRecord _ => "FixedInstance"
  | .chunkRecord _ => "FixedReferenceInstance"
  | .handle _ _ => "UnmanagedInstance"
  | .inlineChoice _ => "SealedInstance"
  | .chunkChoice _ => "FixedReferenceSealedInstance"
  | .inlineOpen => "UnknownIdObject"
  | .chunkOpen => "UnknownIdReference"
  | .wrapped _ _ _ => "InlineWrapped"

/-- The debug text of a placement. -/
def text (c : Catalog) (p : Placement) : String :=
  let around (inner : String) : String := p.name ++ "(" ++ inner ++ ")"
  match p with
  | .scalar kind => around kind.name
  | .inlineRecord id | .fixedRecord id | .chunkRecord id => around (c.schemaName id)
  | .handle id fixed => around (c.schemaName id ++ ", fixed: " ++ Text.bool fixed)
  | .inlineChoice id | .chunkChoice id => around (c.choice id).name
  | .wrapped id _ _ => around (c.wrapper id).name
  | _ => p.name

/-- Whether the encoding itself can say null. -/
def encodesNull : Placement → Bool
  | .scalar _ | .inlineRecord _ | .fixedRecord _ | .wrapped _ _ _ => false
  | _ => true

/-- The types that a placement refers to. -/
def types : Placement → List TypeKey
  | .inlineRecord id | .fixedRecord id | .chunkRecord id | .handle id _ => [.record id]
  | .inlineChoice id | .chunkChoice id => [.choice id]
  | .wrapped id carrier _ => [.wrapper id, .record carrier]
  | _ => []

/-- The number of bytes of a tag or type id of fixed width with the reference after it. -/
def taggedBytes : Nat := 4 + ChunkId.fixedBytes

end Placement

/-- How the slot of a field is encoded. Governors are given by their slots. -/
inductive Encoding where
  | scalar (kind : ScalarKind)
  /-- The ordinal of a width, in one byte. -/
  | ordinal
  /-- A number as wide as the governor says. -/
  | sized (governor : Nat)
  /-- A number of a width that the layout sets. -/
  | forced (width : Width)
  | varint
  /-- As many scalars as the governor says. -/
  | array (element : ScalarKind) (governor : Nat)
  /-- A value in its placement. A marker byte before it says whether it is present, for
  placements that cannot say null. -/
  | placed (placement : Placement) (marker : Bool)
  deriving DecidableEq, Repr, Inhabited

/-- How a field follows from other slots. -/
inductive SlotDerivation where
  | lengthOf (array : Nat)
  | widthOf (numbers : List Nat)
  deriving DecidableEq, Repr

namespace SlotDerivation

/-- The slots from which a field is derived. -/
def sources : SlotDerivation → List Nat
  | .lengthOf array => [array]
  | .widthOf numbers => numbers

end SlotDerivation

namespace Encoding

/-- The slot whose value decides the size of the field. -/
def governor? : Encoding → Option Nat
  | .sized governor => some governor
  | .array _ governor => some governor
  | _ => none

/-- Whether the layout sets the width of the number. -/
def isForced : Encoding → Bool
  | .forced _ => true
  | _ => false

/-- How an encoding is listed. -/
def text (c : Catalog) : Encoding → String
  | .scalar kind => "Primitive(" ++ kind.name ++ ")"
  | .ordinal => "NumSize"
  | .sized governor => s!"DynNumber({governor})"
  | .forced width => "ForcedNumber(" ++ width.name ++ ")"
  | .varint => "VarInt"
  | .array element governor => s!"Array({element.name},{governor})"
  | .placed placement marker => placement.text c ++ " presence=" ++ Text.bool marker

end Encoding

/-- A field of a layout. -/
structure BoundField where
  /-- The name of the schema that the field belongs to. -/
  owner : String
  name : String
  slot : Nat
  typeName : String
  nullable : Bool
  encoding : Encoding
  /-- What was known of the size when the layout was compiled. -/
  size : SizeRange
  /-- The slots of the fields that must be handled together with this one. -/
  needs : List Nat
  derivation : Option SlotDerivation
  /-- Whether the slot decides the size of another field. -/
  governs : Bool
  deriving DecidableEq, Repr, Inhabited

namespace BoundField

/-- The slot whose value decides the size of the field. -/
def governor? (f : BoundField) : Option Nat := f.encoding.governor?

/-- The debug text of a field. -/
def text (f : BoundField) : String :=
  Text.record "Field" [("name", Text.quoted f.name), ("index", toString f.slot),
    ("type", Text.quoted f.typeName), ("size", f.size.text)]

end BoundField

/-- One step in skipping a record. Fields are given by their places in the layout. -/
inductive SkipStep where
  /-- Moves past fields of fixed size in a row. -/
  | run (bytes : Nat)
  /-- Skips a field by its own encoding. -/
  | field (place : Nat)
  /-- Reads a field that decides the size of a later one. -/
  | read (place : Nat)
  deriving DecidableEq, Repr

/-- A part of the size of a record that depends on its values. -/
inductive SizeTerm where
  /-- So many numbers of the width in a slot. -/
  | widths (governor count : Nat)
  /-- As many strides as the count in a slot says; arrays of one length share it. -/
  | strides (governor stride : Nat)
  /-- A field that is measured by itself, given by its place. -/
  | field (place : Nat)
  deriving DecidableEq, Repr

/-- A schema made ready for reading and writing. -/
structure Layout where
  schema : SchemaId
  schemaName : String
  kind : LayoutKind
  /-- The fields in canonical order. -/
  fields : List BoundField
  size : SizeRange
  /-- The number of bytes that do not depend on the values. -/
  fixedPart : Nat
  terms : List SizeTerm
  skips : List SkipStep
  /-- Whether records may hold references to chunks. -/
  holdsChunks : Bool
  /-- The draft through which records of an immutable schema are decoded. -/
  draft : Option SchemaId
  deriving DecidableEq, Repr, Inhabited

namespace SkipStep

/-- The debug text of a step. -/
def text : SkipStep → String
  | .run bytes => s!"SkipFixed({bytes})"
  | .field place => s!"Skip({place})"
  | .read place => s!"Read({place})"

end SkipStep

/-! ## What follows from the fields -/

/-- The steps that skip fields in a row, given how many bytes of fixed size are still to be passed
and the place of the next field. -/
def skipSteps (run place : Nat) : List BoundField → List SkipStep
  | [] => flush
  | f :: rest =>
    if f.governs then flush ++ .read place :: skipSteps 0 (place + 1) rest
    else match f.size with
      | .fixed n => skipSteps (run + n) (place + 1) rest
      | .between _ _ => flush ++ .field place :: skipSteps 0 (place + 1) rest
where
  /-- The step past the fields of fixed size so far. -/
  flush : List SkipStep := if run = 0 then [] else [.run run]

/-- Adds one number of the width in a slot. -/
def addWidth (governor : Nat) : List SizeTerm → List SizeTerm
  | [] => [.widths governor 1]
  | .widths g count :: rest =>
    if g = governor then .widths g (count + 1) :: rest
    else .widths g count :: addWidth governor rest
  | term :: rest => term :: addWidth governor rest

/-- Adds one array whose length is in a slot. -/
def addStride (governor bytes : Nat) : List SizeTerm → List SizeTerm
  | [] => [.strides governor bytes]
  | .strides g stride :: rest =>
    if g = governor then .strides g (stride + bytes) :: rest
    else .strides g stride :: addStride governor bytes rest
  | term :: rest => term :: addStride governor bytes rest

/-- The fixed part and the terms of the size of fields in a row, added to those of the fields
before them; `place` is the place of the next field. -/
def sizeTerms (fixedPart : Nat) (terms : List SizeTerm) (place : Nat) :
    List BoundField → Nat × List SizeTerm
  | [] => (fixedPart, terms)
  | f :: rest => match f.encoding with
    | .sized governor => sizeTerms fixedPart (addWidth governor terms) (place + 1) rest
    | .array element governor =>
      sizeTerms fixedPart (addStride governor element.bytes terms) (place + 1) rest
    | _ => match f.size with
      | .fixed n => sizeTerms (fixedPart + n) terms (place + 1) rest
      | .between _ _ => sizeTerms fixedPart (terms ++ [.field place]) (place + 1) rest

namespace Layout

/-- The name of the layout. -/
def key (l : Layout) : LayoutKey := (l.schema, l.kind)

/-- The field with a name. -/
def field? (l : Layout) (name : String) : Option BoundField := l.fields.find? (·.name == name)

/-- The place of the field of a slot. -/
def place? (l : Layout) (slot : Nat) : Option Nat := l.fields.findIdx? (·.slot == slot)

/-- The names of the fields in canonical order. -/
def fieldNames (l : Layout) : List String := l.fields.map (·.name)

/-- The fields whose widths the layout sets, in canonical order. -/
def forcedFields (l : Layout) : List BoundField := l.fields.filter (·.encoding.isForced)

/-- The debug text of a layout. -/
def text (l : Layout) : String :=
  Text.record "StructPipe" [("schema", Text.quoted l.schemaName), ("compiler", l.kind.debugText),
    ("fields", Text.quotedList l.fieldNames), ("size", l.size.text)]

/-- The debug text of the steps that skip a record. -/
def skipText (l : Layout) : String := Text.list (l.skips.map SkipStep.text)

end Layout

end RecordLayout
