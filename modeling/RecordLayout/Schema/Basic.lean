import RecordLayout.Error
import RecordLayout.Value.Basic

/-!
# Schemas

A schema is a name, a way in which its records come into being, and a list of fields; slots follow
the order of the list. A field says how its slot is stored and may be derived from other fields
when a record is written.

* `FieldShape.governor?` — the field whose value decides this field's size;
* `FieldDecl.requirements` — the fields that must be handled together with this one;
* `Schema.draft` — the freely constructible schema that an immutable type is decoded into;
* `Schema.blank` — the slots of a new record.
-/

namespace RecordLayout

/-- How the slot of a field is stored. -/
inductive FieldShape where
  | scalar (kind : ScalarKind)
  /-- The ordinal of a width. -/
  | width
  /-- An unsigned number as wide as the field `size` says. -/
  | sized (size : String)
  /-- An unsigned number of variable length. -/
  | varint
  /-- As many scalars as the field `count` says. -/
  | array (element : ScalarKind) (count : String)
  /-- A value of a declared type. -/
  | value (type : ValueType) (rule : PlacementRule)
  deriving DecidableEq, Repr, Inhabited

/-- How a field follows from other fields when a record is written. -/
inductive Derivation where
  /-- The number of elements of an array field. -/
  | lengthOf (array : String)
  /-- The smallest width that holds every one of some number fields. -/
  | widthOf (numbers : List String)
  deriving DecidableEq, Repr

/-- The declaration of a field. -/
structure FieldDecl where
  name : String
  shape : FieldShape
  nullable : Bool
  /-- Fields that must be read and written together with this one. -/
  needs : List String
  derivation : Option Derivation
  deriving DecidableEq, Repr, Inhabited

/-- The last check of an immutable type: it sees the name of the schema and the named slots of a
record, and may complain. -/
abbrev BuildCheck := String → List (String × Value) → Option String

/-- How records of a schema come into being. -/
inductive SchemaKind where
  /-- Freely constructible and read in place. -/
  | managed
  /-- Always in a chunk of its own, behind a handle. -/
  | unmanaged
  /-- Decoded as a draft and then checked. -/
  | immutable (check : BuildCheck)

instance : Inhabited SchemaKind := ⟨.managed⟩

/-- The description of a structured type. -/
structure Schema where
  name : String
  kind : SchemaKind
  fields : List FieldDecl
  deriving Inhabited

namespace FieldShape

/-- The field whose value decides the size of this one. -/
def governor? : FieldShape → Option String
  | .sized size => some size
  | .array _ count => some count
  | _ => none

/-- Whether the slot holds an unsigned count. -/
def isCount : FieldShape → Bool
  | .varint | .sized _ => true
  | .scalar kind | .value (.scalar kind) _ => kind.isInteger
  | _ => false

/-- The value of the slot in a new record. -/
def blank : FieldShape → Value
  | .scalar kind | .value (.scalar kind) _ => .scalar (.zero kind)
  | .width => .width .void
  | .sized _ | .varint => .scalar (.u64 0)
  | .array _ _ => .list []
  | .value _ _ => .null

end FieldShape

namespace Derivation

/-- The fields from which a field is derived. -/
def sources : Derivation → List String
  | .lengthOf array => [array]
  | .widthOf numbers => numbers

end Derivation

namespace FieldDecl

/-- The fields that must be handled together with this one, its governor last. -/
def requirements (f : FieldDecl) : List String := f.needs ++ f.shape.governor?.toList

end FieldDecl

namespace SchemaKind

/-- The debug text of a schema kind. -/
def text : SchemaKind → String
  | .managed => "Managed"
  | .unmanaged => "Unmanaged"
  | .immutable _ => "Immutable"

end SchemaKind

namespace Schema

/-- Whether records live in chunks of their own. -/
def isUnmanaged (s : Schema) : Bool :=
  match s.kind with
  | .unmanaged => true
  | _ => false

/-- Whether records are checked when they are decoded. -/
def isImmutable (s : Schema) : Bool :=
  match s.kind with
  | .immutable _ => true
  | _ => false

/-- The field with a name. -/
def field? (s : Schema) (name : String) : Option FieldDecl := s.fields.find? (·.name == name)

/-- The slot of the field with a name. -/
def slot? (s : Schema) (name : String) : Option Nat := s.fields.findIdx? (·.name == name)

/-- The draft of a schema. -/
def draft (s : Schema) : Schema := ⟨s.name ++ "$Builder", .managed, s.fields⟩

/-- The slots of a new record. -/
def blank (s : Schema) : List Value := s.fields.map (·.shape.blank)

/-- The named slots of a record of the schema. -/
def named (s : Schema) (slots : List Value) : List (String × Value) :=
  (s.fields.map (·.name)).zip slots

/-- Lets the schema check the slots of a record that is described by `described`. -/
def checkBuild (s described : Schema) (slots : List Value) : Except FormatError Unit :=
  match s.kind with
  | .immutable check => match check described.name (described.named slots) with
    | some reason => .error (.buildRejected s.name reason)
    | none => .ok ()
  | _ => .ok ()

end Schema

end RecordLayout
