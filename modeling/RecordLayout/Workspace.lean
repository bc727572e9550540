import RecordLayout.Chunk.Allocator
import RecordLayout.Config
import RecordLayout.Layout.Compile
import RecordLayout.Plan.Book
import RecordLayout.TypeIndex

/-!
# Workspaces and operations

A workspace is everything that outlives one operation: declared types and what was compiled from
them, plans, type ids, chunks and settings. An operation works on a workspace, on a stream and on a
subject of its own, such as a record that is being written or filled; whatever it did before failing
stays done, so that a caller can see how far it came.

* `Op` — operations, and `Op.on` for operations on a part of the subject;
* `withChunk` — works on a chunk as the stream;
* `inTransaction` — holds back the writes to the stream until the work has succeeded;
* `rollback` — frees the chunks that failed work has allocated;
* `allocateWith` — allocates a chunk and fills it.
-/

namespace RecordLayout

/-- Everything that outlives one operation. -/
structure Workspace where
  compiler : Compiler
  plans : PlanBooks
  types : TypeIndex
  heap : Allocator
  config : Config
  /-- The chunks allocated in each open rollback scope, innermost scope first. -/
  journal : List (List ChunkId)
  deriving Inhabited

/-- What an operation works on. -/
structure Scene (τ : Type) where
  space : Workspace
  stream : ByteStream
  subject : τ

/-- An operation on a workspace. -/
abbrev SpaceM := EStateM FormatError Workspace

/-- An operation with a subject. -/
abbrev Op (τ α : Type) := EStateM FormatError (Scene τ) α

namespace Workspace

/-- A workspace with settings, without types and chunks. -/
def new (config : Config) (refused : Option Nat) : Workspace :=
  ⟨.ofCatalog .empty, .empty, .initial, .empty refused, config, []⟩

/-- A workspace with settings that make sense. -/
def ofConfig (config : Config) (refused : Option Nat) : Except FormatError Workspace :=
  match config.fault? with
  | some fault => .error (.invalidSchema "PipeConfig" (.settings fault))
  | none => .ok (.new config refused)

/-- The declared types. -/
def catalog (w : Workspace) : Catalog := w.compiler.catalog

/-- Replaces the declared types. -/
def setCatalog (w : Workspace) (c : Catalog) : Workspace :=
  { w with compiler := { w.compiler with catalog := c } }

/-- The chunk store. -/
def store (w : Workspace) : ChunkStore := w.heap.store

/-- Replaces the chunk store. -/
def setStore (w : Workspace) (store : ChunkStore) : Workspace :=
  { w with heap := { w.heap with store } }

/-- What can be compiled. -/
def compilerPart : Part Workspace Compiler := ⟨(·.compiler), fun c w => { w with compiler := c }⟩

/-- The plans. -/
def plansPart : Part Workspace PlanBooks := ⟨(·.plans), fun p w => { w with plans := p }⟩

/-- The registered types. -/
def typesPart : Part Workspace TypeIndex := ⟨(·.types), fun x w => { w with types := x }⟩

/-- Keeps in use only the schemas that some types refer to, or that the workspace itself does. -/
def retain (w : Workspace) (held : List TypeKey) : Workspace :=
  let roots := held ++ w.compiler.types ++ w.types.types.map (·.key)
  w.setCatalog (w.catalog.retain roots)

/-- The debug text of a workspace. -/
def text (w : Workspace) : String :=
  Text.record "DataProvider" [("chunks", toString w.store.size), ("types", toString w.types.size),
    ("config", w.config.text)]

end Workspace

/-! ## Operations on the workspace -/

namespace SpaceM

/-- The declared types. -/
def catalog : SpaceM Catalog := fun w => .ok w.catalog w

/-- Runs an operation that may compile. -/
def compile {α : Type} (act : CompileM α) : SpaceM α := within Workspace.compilerPart act

/-- Runs an operation that may work out plans. -/
def plan {α : Type} (act : PlanM α) : SpaceM α := within Workspace.plansPart act

/-- The layout of a schema. -/
def layout (id : SchemaId) (kind : LayoutKind) : SpaceM Layout := compile (Compiler.layout id kind)

/-- Runs an operation that may give an id to a type, given the declared types. -/
def index {α : Type} (act : Catalog → IndexM α) : SpaceM α := fun w =>
  within Workspace.typesPart (act w.catalog) w

/-- The id of the type of a value. -/
def typeId (value : Value) : SpaceM Nat := index fun c => TypeIndex.idOf c value

/-- The id of a type. -/
def register (type : ValueType) : SpaceM Nat := index fun c => TypeIndex.register c type

/-- The type with an id. -/
def typeOf (id : Nat) : SpaceM ValueType := fun w =>
  match w.types.resolve id with
  | .ok type => .ok type w
  | .error e => .error e w

/-- The placement of a value that follows the id of its type. -/
def openPlacement (id : Nat) : SpaceM Placement := do
  let type ← typeOf id
  compile (Compiler.placement type .flexible)

/-- The tag of the variant that a record belongs to. -/
def tagOf (choice : ChoiceId) (r : Record) : SpaceM Nat := do
  let c ← catalog
  match (c.choice choice).tagOf? r.schema with
  | some tag => pure tag
  | none => throw (.mismatch (c.choice choice).name (c.schemaName r.schema))

/-- The standard layout of the variant with a tag. -/
def variantLayout (choice : ChoiceId) (tag : Nat) : SpaceM Layout := do
  let c ← catalog
  match (c.choice choice).variant? tag with
  | some id => layout id .standard
  | none => throw (.unknownTypeId tag)

/-- A value of another type than expected. -/
def mismatch {α : Type} (expected : String) (found : Value) : SpaceM α := do
  let c ← catalog
  throw (.mismatch expected (c.valueTypeName found))

/-- Frees chunks; does nothing for an empty list. -/
def free (chunks : List ChunkId) : SpaceM Unit := fun w =>
  if chunks.isEmpty then .ok () w
  else match w.store.free chunks with
    | .ok store => .ok () (w.setStore store)
    | .error e => .error (.stream e) w

end SpaceM

/-! ## Parts of a scene -/

namespace Scene

variable {τ υ : Type}

/-- The workspace of a scene. -/
def spacePart : Part (Scene τ) Workspace := ⟨(·.space), fun w s => { s with space := w }⟩

/-- The stream of a scene. -/
def streamPart : Part (Scene τ) ByteStream := ⟨(·.stream), fun b s => { s with stream := b }⟩

/-- The scene around a part of the subject. -/
def part (p : Part τ υ) : Part (Scene τ) (Scene υ) :=
  ⟨fun s => ⟨s.space, s.stream, p.get s.subject⟩,
   fun t s => ⟨t.space, t.stream, p.set t.subject s.subject⟩⟩

end Scene

namespace Op

variable {τ υ α : Type}

/-- Runs an operation on the workspace. -/
def space (act : SpaceM α) : Op τ α := within Scene.spacePart act

/-- Runs an operation that may compile. -/
def compile (act : CompileM α) : Op τ α := space (SpaceM.compile act)

/-- Runs an operation on the stream. -/
def stream (act : StreamM ByteStream α) : Op τ α :=
  within Scene.streamPart (failingAs FormatError.stream act)

/-- Runs an operation on a part of the subject. -/
def on (p : Part τ υ) (act : Op υ α) : Op τ α := within (Scene.part p) act

/-- Runs an operation on a subject of its own and returns that with the result. -/
def withSubject (subject : υ) (act : Op υ α) : Op τ (α × υ) := fun s =>
  match act ⟨s.space, s.stream, subject⟩ with
  | .ok a t => .ok (a, t.subject) ⟨t.space, t.stream, s.subject⟩
  | .error e t => .error e ⟨t.space, t.stream, s.subject⟩

/-- The subject. -/
def subject : Op τ τ := fun s => .ok s.subject s

/-- Replaces the subject. -/
def setSubject (x : τ) : Op τ Unit := fun s => .ok () { s with subject := x }

/-- Changes the subject. -/
def modifySubject (f : τ → τ) : Op τ Unit := fun s => .ok () { s with subject := f s.subject }

/-- The declared types. -/
def catalog : Op τ Catalog := space SpaceM.catalog

/-- The settings. -/
def config : Op τ Config := fun s => .ok s.space.config s

/-- Where the cursor of the stream stands. -/
def position : Op τ Nat := fun s => .ok s.stream.position s

/-- Moves the cursor of the stream. -/
def setPosition (position : Nat) : Op τ Unit := fun s =>
  .ok () { s with stream := s.stream.setPosition position }

/-- Cuts the stream where the cursor stands. -/
def cutHere : Op τ Unit := fun s =>
  .ok () { s with stream := s.stream.setSize s.stream.position }

/-- Writes bytes to the stream. -/
def write (bytes : Bytes) : Op τ Unit := stream (ByteSink.write bytes)

/-- Adds the field in which a stream failed. -/
def inField (f : BoundField) (act : Op τ α) : Op τ α :=
  failingAs (FormatError.inFieldOf f.owner f.name f.typeName) act

/-- Runs an operation and, if it fails, mends the subject. -/
def onFailure (mend : τ → τ) (act : Op τ α) : Op τ α := fun s =>
  match act s with
  | .ok a s => .ok a s
  | .error e s => .error e { s with subject := mend s.subject }

end Op

/-! ## Chunks, transactions and rollback -/

section

variable {τ α : Type}

/-- Works on a chunk as the stream, with the cursor at its front. -/
def withChunk (chunk : ChunkId) (act : Op τ α) : Op τ α := fun s =>
  match s.space.store.open? chunk with
  | .error e => .error (.stream e) s
  | .ok opened =>
    let close (t : Scene τ) : Scene τ :=
      { t with space := t.space.setStore (t.space.store.close chunk t.stream), stream := s.stream }
    match act { s with stream := opened } with
    | .ok a t => .ok a (close t)
    | .error e t => .error e (close t)

/-- Holds back the writes to the stream until the work has succeeded; failed work leaves the
stream as it was. -/
def inTransaction (act : Op τ α) : Op τ α := fun s =>
  match act { s with stream := s.stream.begin } with
  | .error e t => .error e { t with stream := t.stream.discard }
  | .ok a t => match ByteStream.commit t.stream with
    | .ok _ stream => .ok a { t with stream }
    | .error e stream => .error (.stream e) { t with stream }

/-- Frees chunks as far as that is possible. -/
def Workspace.release (w : Workspace) (chunks : List ChunkId) : Workspace :=
  match w.store.free chunks with
  | .ok store => w.setStore store
  | .error _ => w

/-- Opens a rollback scope. -/
def Workspace.openScope (w : Workspace) : Workspace := { w with journal := [] :: w.journal }

/-- Ends a rollback scope whose work succeeded: its chunks count as the outer scope's. -/
def Workspace.keepScope (w : Workspace) : Workspace :=
  match w.journal with
  | inner :: outer :: rest => { w with journal := (outer ++ inner) :: rest }
  | _ => { w with journal := [] }

/-- Ends a rollback scope whose work failed: its chunks are freed. -/
def Workspace.undoScope (w : Workspace) : Workspace :=
  match w.journal with
  | inner :: rest => { w with journal := rest }.release inner
  | [] => w

/-- Notes a chunk in the innermost rollback scope, if one is open. -/
def Workspace.note (w : Workspace) (chunk : ChunkId) : Workspace :=
  match w.journal with
  | inner :: rest => { w with journal := (inner ++ [chunk]) :: rest }
  | [] => w

/-- Does work; if it fails, the chunks that it allocated are freed. -/
def rollback (act : Op τ α) : Op τ α := fun s =>
  match act { s with space := s.space.openScope } with
  | .ok a t => .ok a { t with space := t.space.keepScope }
  | .error e t => .error e { t with space := t.space.undoScope }

/-- Allocates a chunk that will hold about `hint` bytes and fills it; if that fails, the chunk is
freed again, with all that filling it allocated. -/
def allocateWith (hint : Nat) (fill : Op τ Unit) : Op τ ChunkId := fun s =>
  match s.space.heap.allocate (hint + s.space.config.slack) with
  | (.error e, heap) => .error (.stream e) { s with space := { s.space with heap } }
  | (.ok chunk, heap) =>
    match rollback (withChunk chunk fill) { s with space := { s.space with heap } } with
    | .ok _ t => .ok chunk { t with space := t.space.note chunk }
    | .error e t => .error e { t with space := t.space.release [chunk] }

end

end RecordLayout
