import RecordLayout.Part
import RecordLayout.Schema.Catalog

/-!
# Ids of runtime types

A value of any type is stored with the id of its type. Ids count from one in the order in which
types are first met; zero stands for null. Scalars and text come first, so that their ids are the
same in every index. Two different types of one name cannot both have an id.

An index is kept in two parts, the types in the order of their ids and the ids by name. Ids are 32-bit
numbers, so an index is full once the last of them is given.

* `TypeIndex.register` — the id of a type, given on first use;
* `TypeIndex.idOf` — the id of the type of a value;
* `TypeIndex.resolve` — the type with an id.
-/

namespace RecordLayout

-- powers are those of numbers themselves, also where an algebra library is loaded
attribute [local instance (high)] instPowNat

/-- The registered types. -/
structure TypeIndex where
  /-- The ids by name. -/
  ids : List (String × Nat)
  /-- The types, in the order of their ids. -/
  types : List ValueType
  deriving Repr, Inhabited

/-- An operation on an index. -/
abbrev IndexM := EStateM FormatError TypeIndex

namespace TypeIndex

/-- The number of registered types. -/
def size (x : TypeIndex) : Nat := x.types.length

/-- An index with one more type, under the next id. -/
def extend (x : TypeIndex) (name : String) (type : ValueType) : TypeIndex :=
  ⟨(name, x.size + 1) :: x.ids, x.types ++ [type]⟩

/-- The types that every index starts with. -/
def builtin : List ValueType := ScalarKind.all.map .scalar ++ [.text]

/-- The index that every store of records starts with. -/
def initial : TypeIndex :=
  builtin.foldl (fun x type => x.extend (Catalog.empty.typeName type) type) ⟨[], []⟩

/-- The type with an id. -/
def resolve (x : TypeIndex) (id : Nat) : Except FormatError ValueType :=
  if id = 0 then .error (.unknownTypeId id)
  else match x.types[id - 1]? with
    | some type => .ok type
    | none => .error (.unknownTypeId id)

/-- The id that the name of a type already has, which must have been given to that type. -/
def sameOrClash (x : TypeIndex) (name : String) (type : ValueType) (id : Nat) :
    Except FormatError Nat := do
  let known ← x.resolve id
  if known.key = type.key then pure id else throw (.invalidSchema name (.nameTaken id))

/-- Gives the next id to a type. -/
def insert (name : String) (type : ValueType) : IndexM Nat := do
  let x ← get
  if x.size + 1 < 2 ^ (32 : Nat) then
    set (x.extend name type)
    pure (x.size + 1)
  else throw .exhausted

/-- The id of a type, which is registered if it is new. -/
def register (c : Catalog) (type : ValueType) : IndexM Nat :=
  if type = .any then throw (.typeMismatch "a concrete type" "any")
  else do
    let type ← ofExcept (c.resolve type)
    let name := c.typeName type
    let x ← get
    match x.ids.lookup name with
    | some id => ofExcept (x.sameOrClash name type id)
    | none => insert name type

/-- The id of the type of a value; zero for null. -/
def idOf (c : Catalog) (value : Value) : IndexM Nat :=
  match value with
  | .null => pure 0
  | .scalar s => register c (.scalar s.kind)
  | .text _ => register c .text
  | .record r => register c (.record r.schema)
  | .handle h => register c (.record h.schema)
  | .wrapped wrapper _ => register c (.wrapper wrapper)
  | .width _ | .list _ => throw (.typeMismatch "a registrable value" (c.valueTypeName value))

/-- Whether a type is registered. -/
def contains (x : TypeIndex) (key : TypeKey) : Bool := x.types.any (·.key == key)

end TypeIndex

end RecordLayout
