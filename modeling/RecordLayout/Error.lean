import RecordLayout.Schema.Type
import RecordLayout.Stream.Error

/-!
# Failures of record operations

Every way in which declaring types, compiling layouts, and writing, reading or walking records can
fail, as a cause, with one text each.

* `FormatError.message` — the text of a failure;
* `FormatError.root` — the failure below all field contexts;
* `FormatError.inFieldOf` — adds the field to a stream failure; other failures say themselves where
  they arose.
-/

namespace RecordLayout

/-- Why the description of a type, or a request by name, is not valid. -/
inductive SchemaFault where
  | emptySchemaName
  | emptyFieldName
  | duplicateField (field : String)
  | nullableScalar (field : String)
  | notNullable (field : String)
  | needsItself (field : String)
  | needsUnknown (field needed : String)
  | sizeField (size field : String)
  | countField (count field : String)
  | derivedLength (field : String)
  | notCountOf (field array : String)
  | derivedWidth (field : String)
  | noSources (field : String)
  | notNumber (source field : String)
  | noVariants
  | variantTwice (variant : String)
  | unmanagedVariant (variant : String)
  /-- A back reference is used and its schema is no longer in use. -/
  | outlived
  | noField (field : String)
  | unknownField (field : String)
  | noFields
  | foreignField (field : String)
  | missingGovernor (field : String)
  | cycle (fields : List String)
  | widthCount (given needed : Nat)
  | notImmutable
  | foreignPlan
  | nameTaken (id : Nat)
  | settings (fault : String)
  deriving DecidableEq, Repr

/-- Why a schema has no layout of fixed width. -/
inductive LayoutFault where
  | array (field : String)
  | field (field type : String)
  deriving DecidableEq, Repr

/-- How a derived field and its sources disagree. -/
inductive DerivationFault where
  /-- A number is too large for the width that governs it. -/
  | tooLarge (value : Nat) (width : Width)
  /-- An array has another number of elements than its count says. -/
  | itemCount (items count : Nat)
  /-- An array has more elements than the kind of its count can say. -/
  | countKind (count : Nat) (kind : ScalarKind)
  /-- A derived width is too small for a source. -/
  | narrow (width : Width) (value : Nat)
  /-- A derived count differs from the array's length; both as debug text. -/
  | differs (held derived : String)
  deriving DecidableEq, Repr

/-- The sizes that are compared when a write is checked. -/
inductive SizeCheck where
  | fieldSum
  | fixedSize
  | bounds
  | written
  deriving DecidableEq, Repr

/-- What is being compiled when it is asked for again. -/
inductive CompileTarget where
  /-- A schema that would have to stand inside itself at a fixed width. -/
  | inlineCycle (schema : String)
  | layout (schema : SchemaId) (kind : LayoutKind)
  | placement (type : TypeKey) (rule : PlacementRule)
  deriving DecidableEq, Repr

/-- A failure of an operation on types, layouts or records. -/
inductive FormatError where
  /-- The schema has no layout of the requested kind. -/
  | unsupportedLayout (schema : String) (fault : LayoutFault)
  /-- A wrapper has no form of fixed width. -/
  | fixedUnsupported (type : String) (cause : FormatError)
  /-- A compilation asks for itself. -/
  | recursiveCompile (target : CompileTarget)
  /-- A field that must have a value is null. -/
  | nullValue (schema field : String)
  /-- A derived field and its sources disagree. -/
  | derivation (schema field : String) (fault : DerivationFault)
  /-- Two sizes that should agree differ. -/
  | sizeMismatch (schema : String) (check : SizeCheck) (expected actual : Nat)
  /-- A value is not of the type that is expected. -/
  | typeMismatch (expected found : String)
  /-- No type has this id or tag. -/
  | unknownTypeId (id : Nat)
  /-- A number is too large for the width that was chosen for it. -/
  | widthTooSmall (schema field : String) (width : Width) (value : Nat)
  /-- A description or request is not valid. -/
  | invalidSchema (schema : String) (fault : SchemaFault)
  /-- The build check of an immutable type rejects a record. -/
  | buildRejected (schema reason : String)
  /-- A stream or the chunk store fails. -/
  | stream (error : StreamError)
  /-- A stream fails while one field is handled. -/
  | inField (schema field type : String) (cause : FormatError)
  /-- Values or types are nested deeper than was allowed for. -/
  | exhausted
  deriving DecidableEq, Repr

namespace SchemaFault

/-- The text of a schema fault. -/
def message : SchemaFault → String
  | .emptySchemaName => "empty schema name"
  | .emptyFieldName => "empty field name"
  | .duplicateField f => s!"duplicate field {f}"
  | .nullableScalar f => s!"primitive field {f} cannot be nullable"
  | .notNullable f => s!"field {f} cannot be nullable"
  | .needsItself f => s!"field {f} depends on itself"
  | .needsUnknown f needed => s!"field {f} depends on unknown field {needed}"
  | .sizeField size f => s!"size field {size} of {f} must be a numsize field"
  | .countField count f => s!"length field {count} of {f} must be an unsigned count"
  | .derivedLength f => s!"generated length {f} must be a count"
  | .notCountOf f array => s!"{f} must be the length field of array {array}"
  | .derivedWidth f => s!"generated size {f} must be a numsize field"
  | .noSources f => s!"generated size {f} has no sources"
  | .notNumber source f => s!"source {source} of {f} must be a number field"
  | .noVariants => "sealed type without variants"
  | .variantTwice v => s!"variant {v} listed twice"
  | .unmanagedVariant v => s!"variant {v} is unmanaged"
  | .outlived => "recursive reference outlived its schema"
  | .noField f => s!"no field named {f}"
  | .unknownField f => s!"unknown field {f}"
  | .noFields => "empty field set"
  | .foreignField f => s!"field {f} is not part of this pipe"
  | .missingGovernor f => s!"{f} skipped without its governing field"
  | .cycle fields => "dependency cycle among " ++ ", ".intercalate fields
  | .widthCount given needed => s!"{given} widths given for {needed} number fields"
  | .notImmutable => "not an immutable type"
  | .foreignPlan => "ticket fields are not in this pipe's order"
  | .nameTaken id => s!"type name already registered with id {id}"
  | .settings fault => fault

end SchemaFault

namespace LayoutFault

/-- The text of a layout fault. -/
def message : LayoutFault → String
  | .array f => s!"array field {f} has no fixed width"
  | .field f type => s!"field {f} of type {type} has no fixed width"

end LayoutFault

namespace DerivationFault

/-- The text of a derivation fault. -/
def message : DerivationFault → String
  | .tooLarge value width => s!"{value} does not fit {width.name}"
  | .itemCount items count => s!"{items} elements but length field says {count}"
  | .countKind count kind => s!"count {count} does not fit {kind.name}"
  | .narrow width value => s!"{width.name} cannot hold {value}"
  | .differs held derived => s!"holds {held}, array length is {derived}"

end DerivationFault

namespace SizeCheck

/-- What the sizes are of. -/
def what : SizeCheck → String
  | .fieldSum => "sum of field sizes"
  | .fixedSize => "fixed size"
  | .bounds => "size within bounds"
  | .written => "written bytes"

end SizeCheck

/-- The debug text of a schema id. -/
def SchemaId.debugText (id : SchemaId) : String :=
  "SchemaId(" ++ toString (id.declared + id.draft + 1) ++ ")"

/-- The debug text of a layout kind. -/
def LayoutKind.debugText : LayoutKind → String
  | .standard => "Standard"
  | .fixed => "Fixed"
  | .varying widths => "Varying([" ++ ", ".intercalate (widths.map Width.name) ++ "])"

/-- The debug text of the identity of a type. -/
def TypeKey.debugText : TypeKey → String
  | .any => "Any"
  | .scalar kind => "Primitive(" ++ kind.variantName ++ ")"
  | .text => "String"
  | .wrapper id => "Wrapper(" ++ toString id.index ++ ")"
  | .choice id => "Sealed(" ++ toString id.index ++ ")"
  | .record id => "Struct(" ++ id.debugText ++ ")"

/-- The debug text of a placement rule. -/
def PlacementRule.debugText : PlacementRule → String
  | .flexible => "Default"
  | .fixed => "FixedOnly"
  | .varying => "VariableFixed"

namespace CompileTarget

/-- How a compilation is named in a failure. -/
def text : CompileTarget → String
  | .inlineCycle schema => s!"fixed layout of {schema}"
  | .layout id kind => "(" ++ id.debugText ++ ", " ++ kind.debugText ++ ")"
  | .placement type rule => "(" ++ type.debugText ++ ", " ++ rule.debugText ++ ")"

end CompileTarget

namespace FormatError

/-- The failure below all field contexts. -/
def root : FormatError → FormatError
  | .inField _ _ _ cause => cause.root
  | other => other

/-- The text of a failure. -/
def message : FormatError → String
  | .unsupportedLayout schema fault => s!"unsupported layout for {schema}: {fault.message}"
  | .fixedUnsupported type cause => s!"fixed format not supported for {type}: " ++ rootMessage cause
  | .recursiveCompile target => s!"recursive compilation of {target.text}"
  | .nullValue schema field => s!"field {schema}.{field} is not nullable but holds null"
  | .derivation schema field fault =>
    s!"generator invariant violated for {schema}.{field}: {fault.message}"
  | .sizeMismatch schema check expected actual =>
    s!"size mismatch in {schema}: {check.what} is {actual}, expected {expected}"
  | .typeMismatch expected found => s!"type mismatch: expected {expected}, found {found}"
  | .unknownTypeId id => s!"unknown type id {id}"
  | .widthTooSmall schema field width value =>
    s!"value {value} of {schema}.{field} does not fit chosen width {width.name}"
  | .invalidSchema schema fault => s!"invalid schema {schema}: {fault.message}"
  | .buildRejected schema reason => s!"build of {schema} failed: {reason}"
  | .stream error => error.message
  | .inField schema field type cause => s!"{schema}.{field} ({type}): " ++ cause.message
  | .exhausted => "nested too deeply"
where
  /-- The text of the failure below all field contexts. -/
  rootMessage : FormatError → String
    | .inField _ _ _ cause => rootMessage cause
    | other => other.message

/-- Whether a slot that cannot be laid out inline for this reason may hold a reference instead. -/
def isLayout : FormatError → Bool
  | .unsupportedLayout _ _ | .fixedUnsupported _ _ => true
  | _ => false

/-- Whether a compilation asked for itself. -/
def isRecursive : FormatError → Bool
  | .recursiveCompile _ => true
  | _ => false

/-- Adds the field in which a stream failed. -/
def inFieldOf (schema field type : String) : FormatError → FormatError
  | .stream error => .inField schema field type (.stream error)
  | other => other

/-- A value of another type than expected. -/
def mismatch (expected found : String) : FormatError := .typeMismatch expected found

end FormatError

end RecordLayout
