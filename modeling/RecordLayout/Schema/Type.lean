import RecordLayout.Number.Scalar
import RecordLayout.Number.Width

/-!
# Types of values

Declared types are named by ids into a catalog. A schema id also counts drafts: the draft of a
schema has the same fields and is always freely constructible, and decoding an immutable type goes
through its draft.

* `ValueType` — what a value slot is declared to hold;
* `TypeKey` — the identity of a type: a back reference is the same type as the schema it names;
* `PlacementRule` — the constraint on the width of a slot.
-/

namespace RecordLayout

/-- The identity of a schema: a declaration, or a draft of one. -/
structure SchemaId where
  declared : Nat
  draft : Nat
  deriving DecidableEq, Repr, Inhabited

/-- The draft of a schema. -/
def SchemaId.toDraft (id : SchemaId) : SchemaId := { id with draft := id.draft + 1 }

/-- The identity of a wrapper type. -/
structure WrapperId where
  index : Nat
  deriving DecidableEq, Repr, Inhabited

/-- The identity of a closed choice of schemas. -/
structure ChoiceId where
  index : Nat
  deriving DecidableEq, Repr, Inhabited

/-- What a value slot is declared to hold. -/
inductive ValueType where
  /-- Any registered type; which one is recorded beside the value. -/
  | any
  | scalar (kind : ScalarKind)
  | text
  | wrapper (id : WrapperId)
  | choice (id : ChoiceId)
  | record (id : SchemaId)
  /-- A schema as its own fields see it, by id and name. It does not keep the schema in use. -/
  | back (id : SchemaId) (name : String)
  deriving DecidableEq, Repr, Inhabited

/-- The identity of a type. -/
inductive TypeKey where
  | any
  | scalar (kind : ScalarKind)
  | text
  | wrapper (id : WrapperId)
  | choice (id : ChoiceId)
  | record (id : SchemaId)
  deriving DecidableEq, Repr, Inhabited

/-- The identity of a declared type. -/
def ValueType.key : ValueType → TypeKey
  | .any => .any
  | .scalar kind => .scalar kind
  | .text => .text
  | .wrapper id => .wrapper id
  | .choice id => .choice id
  | .record id | .back id _ => .record id

/-- The constraint on the width of a value slot. -/
inductive PlacementRule where
  /-- The smallest form; values of varying size stand inline. -/
  | flexible
  /-- The slot has a fixed width. -/
  | fixed
  /-- The slot has a fixed width in a layout whose number widths are chosen. -/
  | varying
  deriving DecidableEq, Repr, Inhabited

/-- Whether the rule asks for a fixed width. -/
def PlacementRule.isFixed : PlacementRule → Bool
  | .flexible => false
  | .fixed | .varying => true

/-- Which layout of a schema is meant. -/
inductive LayoutKind where
  /-- Every field as declared. -/
  | standard
  /-- Every field of fixed width, numbers at the widest. -/
  | fixed
  /-- Every field of fixed width, numbers at the given widths in the order of the layout. -/
  | varying (widths : List Width)
  deriving DecidableEq, Repr, Inhabited

/-- The rule under which a layout places a value field that asks for `rule`. -/
def LayoutKind.placementRule (kind : LayoutKind) (rule : PlacementRule) : PlacementRule :=
  match kind with
  | .standard => rule
  | .fixed => .fixed
  | .varying _ => .varying

/-- Whether the layout gives every field a fixed width. -/
def LayoutKind.isFixed : LayoutKind → Bool
  | .standard => false
  | .fixed | .varying _ => true

end RecordLayout
