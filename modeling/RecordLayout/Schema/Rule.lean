import RecordLayout.Schema.Basic

/-!
# Build rules

Build checks that can be given as data.
-/

namespace RecordLayout

/-- What the records of an immutable schema must fulfil. -/
inductive BuildRule where
  /-- Every record is accepted. -/
  | accept
  /-- No record is accepted. -/
  | reject (reason : String)
  /-- The field is not null; a record without such a field is accepted. -/
  | present (field : String)
  /-- The field is there, an integer, and at least so large. -/
  | atLeast (field : String) (least : Nat)
  deriving DecidableEq, Repr

namespace BuildRule

/-- The check that a rule stands for. -/
def check : BuildRule → BuildCheck
  | .accept => fun _ _ => none
  | .reject reason => fun _ _ => some reason
  | .present field => fun _ slots => match slots.lookup field with
    | some .null => some s!"{field} is null"
    | _ => none
  | .atLeast field least => fun schema slots =>
    match (slots.lookup field).bind Value.toNat? with
    | some n => if least ≤ n then none else tooSmall field least schema
    | none => tooSmall field least schema
where
  /-- The complaint about a field that is too small. -/
  tooSmall (field : String) (least : Nat) (schema : String) : Option String :=
    some s!"{field} below {least} in {schema}"

end BuildRule

end RecordLayout
