import RecordLayout.Text.Quoted

/-!
# Debug shapes

The shapes in which structured values are shown: a named record `Name { key: text, … }`, which is
only its name when it has no members, and a bracketed list `[a, b]`.
-/

namespace RecordLayout.Text

/-- A bracketed list. -/
def list (items : List String) : String := "[" ++ ", ".intercalate items ++ "]"

/-- A named record with its members in order. -/
def record (name : String) (members : List (String × String)) : String :=
  if members.isEmpty then name
  else
    let inner := members.map fun (key, text) => key ++ ": " ++ text
    name ++ " \x7b " ++ ", ".intercalate inner ++ " \x7d"

/-- A bracketed list of quoted strings. -/
def quotedList (items : List String) : String := list (items.map quoted)

/-- A truth value. -/
def bool (b : Bool) : String := if b then "true" else "false"

end RecordLayout.Text
