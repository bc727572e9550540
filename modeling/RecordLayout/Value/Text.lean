import RecordLayout.Schema.Catalog
import RecordLayout.Text.Shape

/-!
# Debug text of values

A value is shown as the name of its variant with its content; a record as the name of its schema
with its named slots.
-/

namespace RecordLayout

/-- The debug text of a wrapper type. -/
def Wrapper.debugText (c : Catalog) (w : Wrapper) : String :=
  Text.record "WrapperType" [("name", Text.quoted w.name), ("inner", c.typeName w.inner)]

/-- The debug text of a closed choice. -/
def Choice.debugText (c : Catalog) (choice : Choice) : String :=
  Text.record "SealedType" [("name", Text.quoted choice.name),
    ("variants", Text.quotedList (choice.variants.map c.schemaName))]

/-- The debug text of a handle. -/
def Handle.debugText (c : Catalog) (h : Handle) : String :=
  "Handle<" ++ c.schemaName h.schema ++ ">(" ++ h.chunk.text ++ ")"

mutual

/-- The debug text of a value. -/
def Value.debugText (c : Catalog) : Value → String
  | .null => "Null"
  | .scalar s => s.text
  | .width w => "NumSize(" ++ w.name ++ ")"
  | .text s => "Str(" ++ Text.quoted s ++ ")"
  | .list items => "List(" ++ Text.list (Value.debugTextAll c items) ++ ")"
  | .record r => "Struct(" ++ RecordOf.debugText c r ++ ")"
  | .wrapped wrapper carrier =>
    "Wrapped(" ++ (c.wrapper wrapper).debugText c ++ ", " ++ RecordOf.debugText c carrier ++ ")"
  | .handle h => "Handle(" ++ h.debugText c ++ ")"

/-- The debug texts of some values. -/
def Value.debugTextAll (c : Catalog) : List Value → List String
  | [] => []
  | v :: vs => Value.debugText c v :: Value.debugTextAll c vs

/-- The debug text of a record. -/
def RecordOf.debugText (c : Catalog) : RecordOf Value → String
  | ⟨schema, slots, _⟩ =>
    let s := c.schema schema
    Text.record s.name ((s.fields.map (·.name)).zip (Value.debugTextAll c slots))

end

end RecordLayout
