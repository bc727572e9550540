import RecordLayout.Reach
import RecordLayout.Schema.Check

/-!
# The catalog of declared types

A catalog holds schemas, wrappers and closed choices under their ids. A schema that refers to
itself is declared in two steps, `Catalog.reserve` and `Catalog.complete`, so that its own fields
can name it by a back reference. A back reference does not keep its schema in use:
`Catalog.retain` marks the schemas that nothing else refers to any more, and following a back
reference to one of those fails.

* `Catalog.addSchema`, `Catalog.addWrapper`, `Catalog.addChoice` — checked declarations;
* `Catalog.schema` — the schema under an id, drafts included;
* `Catalog.resolve` — a type without back references;
* `Catalog.typeName` — the name of a type.
-/

namespace RecordLayout

/-- A schema and whether back references to it can be followed. -/
structure Declared where
  schema : Schema
  inUse : Bool
  deriving Inhabited

/-- A named type around one value, carried by a schema with the one field `value`. -/
structure Wrapper where
  name : String
  inner : ValueType
  carrier : SchemaId
  deriving Repr, Inhabited

/-- A closed choice of schemas. The tag of a variant is its place, counted from one; zero is
null. -/
structure Choice where
  name : String
  variants : List SchemaId
  deriving Repr, Inhabited

/-- All declared types. -/
structure Catalog where
  schemas : List Declared
  wrappers : List Wrapper
  choices : List Choice
  deriving Inhabited

namespace Choice

/-- The tag of a variant. -/
def tagOf? (c : Choice) (schema : SchemaId) : Option Nat :=
  (c.variants.findIdx? (· == schema)).map (· + 1)

/-- The variant with a tag. -/
def variant? (c : Choice) (tag : Nat) : Option SchemaId :=
  if tag = 0 then none else c.variants[tag - 1]?

end Choice

namespace Catalog

/-- A catalog without types. -/
def empty : Catalog := ⟨[], [], []⟩

/-! ## Looking up -/

/-- The drafts of a schema in a row. -/
def draftOf (s : Schema) : Nat → Schema
  | 0 => s
  | n + 1 => (draftOf s n).draft

/-- The schema under an id. -/
def schema (c : Catalog) (id : SchemaId) : Schema :=
  draftOf (c.schemas.getD id.declared default).schema id.draft

/-- The wrapper under an id. -/
def wrapper (c : Catalog) (id : WrapperId) : Wrapper := c.wrappers.getD id.index default

/-- The choice under an id. -/
def choice (c : Catalog) (id : ChoiceId) : Choice := c.choices.getD id.index default

/-- The name of the schema under an id. -/
def schemaName (c : Catalog) (id : SchemaId) : String := (c.schema id).name

/-- The name of a type. -/
def typeName (c : Catalog) : ValueType → String
  | .any => "any"
  | .scalar kind => kind.name
  | .text => "string"
  | .wrapper id => (c.wrapper id).name
  | .choice id => (c.choice id).name
  | .record id => c.schemaName id
  | .back _ name => name

/-- Whether back references to a schema can be followed. -/
def inUse (c : Catalog) (id : SchemaId) : Bool := (c.schemas.getD id.declared default).inUse

/-- Follows a back reference; other types stay as they are. -/
def resolve (c : Catalog) : ValueType → Except FormatError ValueType
  | .back id name =>
    if c.inUse id then .ok (.record id) else .error (.invalidSchema name .outlived)
  | other => .ok other

/-- The schema that a type names, if it names one that can be reached. -/
def schemaOf? (c : Catalog) : ValueType → Option SchemaId
  | .record id => some id
  | .back id _ => if c.inUse id then some id else none
  | _ => none

/-- The name of the type of a field. -/
def shapeName (c : Catalog) : FieldShape → String
  | .scalar kind => kind.name
  | .width => "numsize"
  | .sized _ => "number"
  | .varint => "varint"
  | .array element _ => "[" ++ element.name ++ "]"
  | .value type _ => c.typeName type

/-- A new record of a schema. -/
def newRecord (c : Catalog) (id : SchemaId) : Record :=
  let slots := (c.schema id).blank
  ⟨id, slots, slots.map fun _ => .null⟩

/-- The name of the type of a value. -/
def valueTypeName (c : Catalog) : Value → String
  | .null => "null"
  | .scalar s => s.kind.name
  | .width _ => "numsize"
  | .text _ => "string"
  | .list _ => "list"
  | .record r => c.schemaName r.schema
  | .wrapped wrapper _ => (c.wrapper wrapper).name
  | .handle h => "handle<" ++ c.schemaName h.schema ++ ">"

/-- The value in the slot with a name. -/
def get? (c : Catalog) (r : Record) (field : String) : Option Value :=
  ((c.schema r.schema).slot? field).map r.slot

/-- Replaces the value in the slot with a name. -/
def set (c : Catalog) (r : Record) (field : String) (value : Value) : Except FormatError Record :=
  match (c.schema r.schema).slot? field with
  | some i => .ok (r.setSlot i value)
  | none => .error (.invalidSchema (c.schemaName r.schema) (.noField field))

/-- A value of a wrapper type. -/
def wrap (c : Catalog) (id : WrapperId) (inner : Value) : Value :=
  .wrapped id ((c.newRecord (c.wrapper id).carrier).setSlot 0 inner)

/-! ## Declaring -/

/-- Adds an accepted schema. -/
def declare (c : Catalog) (s : Schema) : SchemaId × Catalog :=
  (⟨c.schemas.length, 0⟩, { c with schemas := c.schemas ++ [⟨s, true⟩] })

/-- Checks and adds a schema. -/
def addSchema (c : Catalog) (s : Schema) : Except FormatError (SchemaId × Catalog) :=
  match s.check with
  | .ok _ => .ok (c.declare s)
  | .error fault => .error (.invalidSchema s.name fault)

/-- Takes an id for a schema that refers to itself. -/
def reserve (c : Catalog) (name : String) : SchemaId × Catalog :=
  (⟨c.schemas.length, 0⟩, { c with schemas := c.schemas ++ [⟨⟨name, .managed, []⟩, false⟩] })

/-- Checks a schema and puts it under an id that was taken for it. -/
def complete (c : Catalog) (id : SchemaId) (s : Schema) : Except FormatError Catalog :=
  match s.check with
  | .ok _ => .ok { c with schemas := c.schemas.set id.declared ⟨s, true⟩ }
  | .error fault => .error (.invalidSchema s.name fault)

/-- The name of the only field of a wrapper's carrier. -/
def valueField : String := "value"

/-- Adds a wrapper around a type, with its carrier. -/
def addWrapper (c : Catalog) (name : String) (inner : ValueType) :
    Except FormatError (WrapperId × Catalog) := do
  let field : FieldDecl := ⟨valueField, .value inner .flexible, false, [], none⟩
  let (carrier, c) ← c.addSchema ⟨name, .managed, [field]⟩
  pure (⟨c.wrappers.length⟩, { c with wrappers := c.wrappers ++ [⟨name, inner, carrier⟩] })

/-- Checks the variants of a choice, given those seen before. -/
def checkVariants (c : Catalog) : List SchemaId → List SchemaId → Except SchemaFault Unit
  | _, [] => .ok ()
  | seen, v :: rest => do
    Schema.demand (!seen.contains v) (.variantTwice (c.schemaName v))
    Schema.demand (!(c.schema v).isUnmanaged) (.unmanagedVariant (c.schemaName v))
    c.checkVariants (v :: seen) rest

/-- Adds a closed choice. -/
def addChoice (c : Catalog) (name : String) (variants : List SchemaId) :
    Except FormatError (ChoiceId × Catalog) :=
  let checked : Except SchemaFault Unit := do
    Schema.demand (!variants.isEmpty) .noVariants
    c.checkVariants [] variants
  match checked with
  | .ok _ => .ok (⟨c.choices.length⟩, { c with choices := c.choices ++ [⟨name, variants⟩] })
  | .error fault => .error (.invalidSchema name fault)

/-! ## Types in use -/

/-- The types that a type refers to in its own declaration; a back reference refers to none. -/
def references (c : Catalog) : TypeKey → List TypeKey
  | .wrapper id =>
    let w := c.wrapper id
    .record w.carrier :: keyOf w.inner
  | .choice id => (c.choice id).variants.map .record
  | .record id => (c.schema id).fields.flatMap fun f => match f.shape with
    | .value type _ => keyOf type
    | _ => []
  | _ => []
where
  /-- What a declared type refers to. -/
  keyOf : ValueType → List TypeKey
    | .back _ _ => []
    | type => [type.key]

/-- The number of declared types. -/
def size (c : Catalog) : Nat := c.schemas.length + c.wrappers.length + c.choices.length

/-- Keeps in use only the schemas that can be reached from some types. -/
def retain (c : Catalog) (roots : List TypeKey) : Catalog :=
  let reached := reach c.references (c.size + roots.length + 1) [] roots
  { c with schemas := c.schemas.mapIdx fun i d =>
      { d with inUse := d.inUse && reached.contains (.record ⟨i, 0⟩) } }

/-! ## Values that stand inside others -/

/-- The schema of the records that stand inline in a field of fixed width, if the field holds
such records. -/
def embedded? (c : Catalog) (f : FieldDecl) : Option SchemaId :=
  match f.shape with
  | .value (.wrapper id) _ => some (c.wrapper id).carrier
  | .value type _ => (c.schemaOf? type).filter fun id => !(c.schema id).isUnmanaged
  | _ => none

/-- The schemas whose records stand inline in the fields of a schema. -/
def embeds (c : Catalog) (id : SchemaId) : List SchemaId :=
  (c.schema id).fields.filterMap c.embedded?

/-- Whether records of a schema would stand inside themselves at a fixed width. -/
def standsInItself (c : Catalog) (id : SchemaId) : Bool :=
  (reach c.embeds (2 * c.size + 2) [] (c.embeds id)).contains id

end Catalog

end RecordLayout
