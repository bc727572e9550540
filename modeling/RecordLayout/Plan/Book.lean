import RecordLayout.Plan.Basic

/-!
# Books of plans

Plans are worked out once and kept, per layout: those for one field, those for several, and, for an
immutable schema, those for its draft that stand for a plan of its own. A request for several fields
takes what the requests for each of them take.

* `planField`, `planFields`, `planNames` — the plan of a request;
* `carryOver` — the same request on another layout, by name;
* `draftPlan` — the plan of the draft that stands for a plan.
-/

namespace RecordLayout

/-- The plans that have been worked out for a layout. -/
structure PlanBook where
  one : List (Nat × Plan)
  several : List (List Nat × Plan)
  /-- Plans of the draft, by the slots that the plan they stand for was asked for. -/
  drafts : List (List Nat × Plan)
  deriving Inhabited

/-- The books of all layouts. -/
structure PlanBooks where
  books : List (LayoutKey × PlanBook)
  deriving Inhabited

/-- An operation that may work out plans. -/
abbrev PlanM := EStateM FormatError PlanBooks

namespace PlanBooks

/-- No plan is worked out yet. -/
def empty : PlanBooks := ⟨[]⟩

/-- The book of a layout. -/
def book (b : PlanBooks) (key : LayoutKey) : PlanBook := (b.books.lookup key).getD ⟨[], [], []⟩

/-- Replaces the book of a layout. -/
def setBook (b : PlanBooks) (key : LayoutKey) (book : PlanBook) : PlanBooks :=
  ⟨(key, book) :: b.books.filter fun (k, _) => k != key⟩

end PlanBooks

/-- The book of a layout. -/
def bookOf (l : Layout) : PlanM PlanBook := fun b => .ok (b.book l.key) b

/-- Changes the book of a layout. -/
def changeBook (l : Layout) (change : PlanBook → PlanBook) : PlanM Unit := fun b =>
  .ok () (b.setBook l.key (change (b.book l.key)))

namespace Layout

/-- The failure of a request that the layout cannot answer. -/
def refuse (l : Layout) (fault : SchemaFault) : FormatError :=
  let owner := match l.fields with
    | f :: _ => f.owner
    | [] => ""
  .invalidSchema owner fault

/-- The place of a field, which must be one of the layout's by slot and name. -/
def placeOf (l : Layout) (f : BoundField) : Except FormatError Nat :=
  let found := (l.place? f.slot).filter fun place => match l.at? place with
    | some own => own.name == f.name
    | none => false
  match found with
  | some place => .ok place
  | none => .error (l.refuse (.foreignField f.name))

/-- The field with a name. -/
def fieldNamed (l : Layout) (name : String) : Except FormatError BoundField :=
  match l.field? name with
  | some f => .ok f
  | none => .error (l.refuse (.noField name))

/-- Fields without those whose slot has come before. -/
def distinct (fields : List BoundField) : List BoundField :=
  fields.foldl (fun kept f => if kept.any (·.slot == f.slot) then kept else kept ++ [f]) []

end Layout

/-- The plan for the field at a place. -/
def planPlace (l : Layout) (place : Nat) : PlanM Plan := do
  let book ← bookOf l
  match book.one.lookup place with
  | some plan => pure plan
  | none =>
    let plan := Plan.one l place
    changeBook l fun book => { book with one := (place, plan) :: book.one }
    pure plan

/-- The plan for a field. -/
def planField (l : Layout) (f : BoundField) : PlanM Plan :=
  match l.placeOf f with
  | .ok place => planPlace l place
  | .error e => throw e

/-- The plan for at least two places, given in order. -/
def planPlaces (l : Layout) (places : List Nat) : PlanM Plan := do
  let book ← bookOf l
  match book.several.lookup places with
  | some plan => pure plan
  | none =>
    let plans ← places.mapM (planPlace l)
    let plan := Plan.several l places plans
    changeBook l fun book => { book with several := (places, plan) :: book.several }
    pure plan

/-- The plan for some fields. -/
def planFields (l : Layout) (fields : List BoundField) : PlanM Plan :=
  match fields.mapM l.placeOf with
  | .error e => throw e
  | .ok places =>
    match l.allPlaces.filter places.contains with
    | [] => throw (l.refuse .noFields)
    | [place] => planPlace l place
    | several => planPlaces l several

/-- The plan for the fields with some names. -/
def planNames (l : Layout) (names : List String) : PlanM Plan :=
  match names.mapM l.fieldNamed with
  | .ok fields => planFields l (Layout.distinct fields)
  | .error e => throw e

/-- The plan for the field with a name. -/
def planName (l : Layout) (name : String) : PlanM Plan :=
  match l.fieldNamed name with
  | .ok f => planField l f
  | .error e => throw e

/-- The plan on another layout that answers the same request, by name. -/
def carryOver (plan : Plan) (target : Layout) : PlanM Plan :=
  if plan.fullRead && plan.fullWrite then pure (.full target)
  else planNames target (Plan.names plan.requested)

/-- The plan of the draft that stands for a plan of an immutable schema. -/
def draftPlan (l draft : Layout) (plan : Plan) : PlanM Plan := do
  let book ← bookOf l
  let key := Plan.slots plan.requested
  match book.drafts.lookup key with
  | some found => pure found
  | none =>
    let carried ← carryOver plan draft
    changeBook l fun book => { book with drafts := (key, carried) :: book.drafts }
    pure carried

/-- The debug text of the plans that are kept for a layout. -/
def PlanBook.text (book : PlanBook) (l : Layout) : String :=
  Text.record "DependencyResolver" [("fields", Text.quotedList l.fieldNames),
    ("single", toString book.one.length), ("multi", toString book.several.length)]

end RecordLayout
