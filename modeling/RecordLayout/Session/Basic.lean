import RecordLayout.Workspace

/-!
# Sessions

A session works on one workspace and gives names to types, records and streams. A name for a type
keeps the type in use, and so does a record under a name; back references to a schema work as long
as something keeps it in use.

* `SessionM` — an operation on a session;
* `declareSchema`, `declareRecursive`, `declareChoice`, `declareWrapper` — new types under names;
* `Session.retain` — marks the schemas that nothing keeps in use any more.
-/

namespace RecordLayout

/-- A declared type. -/
inductive Known where
  | schema (id : SchemaId)
  | wrapper (id : WrapperId)
  | choice (id : ChoiceId)
  deriving DecidableEq, Repr

/-- A declared type as the type of a value. -/
def Known.type : Known → ValueType
  | .schema id => .record id
  | .wrapper id => .wrapper id
  | .choice id => .choice id

/-- A workspace with names for types, records and streams. -/
structure Session where
  space : Workspace
  types : List (String × Known)
  /-- The back references to the schemas that were declared as recursive. -/
  selves : List (String × ValueType)
  records : List (String × Record)
  streams : List (String × ByteStream)
  /-- The chunks that the last walk over stored bytes found. -/
  found : List ChunkId
  deriving Inhabited

/-- Why an operation on a session fails. -/
inductive SessionError where
  /-- Nothing of the kind has this name. -/
  | unknown (what name : String)
  | stream (error : StreamError)
  | format (error : FormatError)
  deriving DecidableEq, Repr

/-- An operation on a session. -/
abbrev SessionM := EStateM SessionError Session

/-- Puts an entry under a name, in place of the one that has it. -/
def putEntry {α : Type} (name : String) (entry : α) (entries : List (String × α)) :
    List (String × α) :=
  (name, entry) :: entries.filter fun (other, _) => other != name

namespace Session

/-- A session without names. -/
def new (space : Workspace) : Session := ⟨space, [], [], [], [], []⟩

/-- The workspace of a session. -/
def spacePart : Part Session Workspace := ⟨(·.space), fun w s => { s with space := w }⟩

/-- The declared types. -/
def catalog (s : Session) : Catalog := s.space.catalog

/-- The types that have names, and those of the records that have names. -/
def held (s : Session) : List TypeKey :=
  s.types.map (fun (_, known) => known.type.key) ++ s.records.flatMap fun (_, r) => r.types

/-- Marks the schemas that nothing keeps in use any more. -/
def retain (s : Session) : Session := { s with space := s.space.retain s.held }

end Session

namespace SessionM

/-! ## Looking up -/

/-- Runs an operation on the workspace. -/
def space {α : Type} (act : SpaceM α) : SessionM α :=
  within Session.spacePart (failingAs .format act)

/-- The outcome of a check of types or records. -/
def check {α : Type} (outcome : Except FormatError α) : SessionM α :=
  failingAs .format (ofExcept outcome)

/-- The declared types. -/
def catalog : SessionM Catalog := fun s => .ok s.catalog s

/-- The entry under a name. -/
def entry {α : Type} (what name : String) (entries : Session → List (String × α)) : SessionM α :=
  fun s => match (entries s).lookup name with
    | some found => .ok found s
    | none => .error (.unknown what name) s

/-- The declared type with a name. -/
def known (name : String) : SessionM Known := entry "type" name (·.types)

/-- The back reference to the recursive schema with a name. -/
def self (name : String) : SessionM ValueType := entry "recursive type" name (·.selves)

/-- The schema with a name; the name of a wrapper stands for its carrier. -/
def schema (name : String) : SessionM SchemaId := do
  let found ← known name
  let c ← catalog
  match found with
  | .schema id => pure id
  | .wrapper id => pure (c.wrapper id).carrier
  | .choice _ => throw (.unknown "schema" name)

/-- The wrapper with a name. -/
def wrapper (name : String) : SessionM WrapperId := do
  match ← known name with
  | .wrapper id => pure id
  | _ => throw (.unknown "wrapper" name)

/-- The choice with a name. -/
def choice (name : String) : SessionM ChoiceId := do
  match ← known name with
  | .choice id => pure id
  | _ => throw (.unknown "choice" name)

/-- The record with a name. -/
def record (name : String) : SessionM Record := entry "record" name (·.records)

/-- Gives a record a name. -/
def setRecord (name : String) (r : Record) : SessionM Unit :=
  modify fun s => { s with records := putEntry name r s.records }

/-! ## Declaring types -/

/-- Replaces the declared types. -/
def setCatalog (c : Catalog) : SessionM Unit :=
  modify fun s => { s with space := s.space.setCatalog c }

/-- Gives a declared type a name. -/
def enter (name : String) (known : Known) : SessionM Unit :=
  modify fun s => { s with types := putEntry name known s.types }

/-- Takes the name from a type; says whether there was one. -/
def forget (name : String) : SessionM Bool := fun s =>
  .ok (s.types.lookup name).isSome
    { s with types := s.types.filter fun (other, _) => other != name }

/-- Declares a schema under a name. -/
def declareSchema (name : String) (schema : Schema) : SessionM Unit := do
  let c ← catalog
  let (id, c) ← check (c.addSchema schema)
  setCatalog c
  enter name (.schema id)

/-- Declares a schema whose further fields may refer to it. They are worked out while the schema can
be named but is not there yet. -/
def declareRecursive (name : String) (schema : Schema) (further : SessionM (List FieldDecl)) :
    SessionM Unit := do
  let c ← catalog
  let (id, c) := c.reserve schema.name
  setCatalog c
  modify fun s => { s with selves := putEntry name (.back id schema.name) s.selves }
  let fields ← further
  let c ← catalog
  let c ← check (c.complete id { schema with fields := schema.fields ++ fields })
  setCatalog c
  enter name (.schema id)

/-- Declares a closed choice under a name. -/
def declareChoice (name title : String) (variants : List SchemaId) : SessionM Unit := do
  let c ← catalog
  let (id, c) ← check (c.addChoice title variants)
  setCatalog c
  enter name (.choice id)

/-- Declares a wrapper under a name. -/
def declareWrapper (name title : String) (inner : ValueType) : SessionM Unit := do
  let c ← catalog
  let (id, c) ← check (c.addWrapper title inner)
  setCatalog c
  enter name (.wrapper id)

end SessionM

end RecordLayout
