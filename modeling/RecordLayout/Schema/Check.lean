import RecordLayout.Schema.Basic

/-!
# Well-formed schemas

A schema is accepted if its names are present and distinct and its fields fit together: governors
and sources exist and are of the right shape, and only values that are no scalars may be null. The
first fault in the order of the fields is reported.
-/

namespace RecordLayout
namespace Schema

/-- Stops with a fault unless a condition holds. -/
def demand (condition : Bool) (fault : SchemaFault) : Except SchemaFault Unit :=
  if condition then .ok () else .error fault

/-- Checks that field names are present and new, given the names seen before. -/
def checkNames : List String → List FieldDecl → Except SchemaFault Unit
  | _, [] => .ok ()
  | seen, f :: rest => do
    demand (f.name != "") .emptyFieldName
    demand (!seen.contains f.name) (.duplicateField f.name)
    checkNames (f.name :: seen) rest

/-- Checks that a nullable field can hold null. -/
def checkNullable (f : FieldDecl) : Except SchemaFault Unit :=
  if f.nullable then
    match f.shape with
    | .value (.scalar _) _ => .error (.nullableScalar f.name)
    | .value _ _ => .ok ()
    | _ => .error (.notNullable f.name)
  else .ok ()

/-- Checks that the fields which a field needs are other fields of the schema. -/
def checkNeeds (s : Schema) (f : FieldDecl) : Except SchemaFault Unit :=
  f.needs.forM fun needed => do
    demand (needed != f.name) (.needsItself f.name)
    demand (s.field? needed).isSome (.needsUnknown f.name needed)

/-- Checks that the governor of a field is of the right shape. -/
def checkGovernor (s : Schema) (f : FieldDecl) : Except SchemaFault Unit :=
  match f.shape with
  | .sized size =>
    let fits := match s.field? size with
      | some governor => governor.shape == .width
      | none => false
    demand fits (.sizeField size f.name)
  | .array _ count =>
    let fits := match s.field? count with
      | some governor => governor.shape.isCount && !governor.nullable
      | none => false
    demand fits (.countField count f.name)
  | _ => .ok ()

/-- Checks that one source of a derived width is a number field. -/
def checkNumber (s : Schema) (f : FieldDecl) (source : String) : Except SchemaFault Unit :=
  let fits := match s.field? source with
    | some number => match number.shape with
      | .sized _ | .varint => true
      | _ => false
    | none => false
  demand fits (.notNumber source f.name)

/-- Checks that a derived field and its sources fit together. -/
def checkDerivation (s : Schema) (f : FieldDecl) : Except SchemaFault Unit :=
  match f.derivation with
  | none => .ok ()
  | some (.lengthOf array) => do
    demand f.shape.isCount (.derivedLength f.name)
    let fits := match s.field? array with
      | some source => match source.shape with
        | .array _ count => count == f.name
        | _ => false
      | none => false
    demand fits (.notCountOf f.name array)
  | some (.widthOf numbers) => do
    demand (f.shape == .width) (.derivedWidth f.name)
    demand (!numbers.isEmpty) (.noSources f.name)
    numbers.forM (s.checkNumber f)

/-- Checks a field against the whole schema. -/
def checkField (s : Schema) (f : FieldDecl) : Except SchemaFault Unit := do
  checkNullable f
  s.checkNeeds f
  s.checkGovernor f
  s.checkDerivation f

/-- The first fault of a schema. -/
def check (s : Schema) : Except SchemaFault Unit := do
  demand (s.name != "") .emptySchemaName
  checkNames [] s.fields
  s.fields.forM s.checkField

end Schema
end RecordLayout
