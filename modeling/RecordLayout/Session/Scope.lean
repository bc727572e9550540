import RecordLayout.Session.Access

/-!
# Rollback scopes as data

A rollback scope as a list of steps that allocate chunks, free them, give up, or open a further
scope. A scope that fails frees what it allocated and reports why; the scope around it goes on.

* `Scope.run` — runs a scope and reports what each step did.
-/

namespace RecordLayout

mutual

/-- A step of a rollback scope. -/
inductive ScopeStep where
  /-- Allocates a chunk for some bytes and fills it. -/
  | allocate (content : Bytes)
  /-- Frees a chunk. -/
  | free (chunk : ChunkId)
  /-- Ends the scope with a failure. -/
  | giveUp (reason : String)
  | inner (scope : Scope)

/-- A rollback scope. -/
inductive Scope where
  | mk (steps : List ScopeStep)

end

/-- What a scope reports. -/
inductive ScopeReport where
  /-- A chunk was allocated. -/
  | allocated (chunk : ChunkId)
  /-- The scope failed. -/
  | failed (error : FormatError)
  /-- The reports of an inner scope. -/
  | inner (reports : List ScopeReport)

/-- A failure for a reason of one's own. -/
def giveUp {τ α : Type} (reason : String) : Op τ α :=
  throw (.stream (.corrupt (.abandoned reason)))

/-- Adds a report. -/
def report (r : ScopeReport) : Op (List ScopeReport) Unit := Op.modifySubject (· ++ [r])

/-- Runs a scope and returns its reports. -/
def reporting {τ : Type} (body : Op (List ScopeReport) Unit) : Op τ (List ScopeReport) := fun s =>
  match rollback body ⟨s.space, s.stream, []⟩ with
  | .ok _ t => .ok t.subject ⟨t.space, t.stream, s.subject⟩
  | .error e t => .ok (t.subject ++ [.failed e]) ⟨t.space, t.stream, s.subject⟩

mutual

/-- Runs a scope and returns its reports. -/
def Scope.run {τ : Type} : Scope → Op τ (List ScopeReport)
  | .mk steps => reporting (ScopeStep.runAll steps)

/-- Runs the steps of an open scope. -/
def ScopeStep.runAll : List ScopeStep → Op (List ScopeReport) Unit
  | [] => pure ()
  | step :: rest => do
    step.run
    ScopeStep.runAll rest

/-- Runs one step of an open scope. -/
def ScopeStep.run : ScopeStep → Op (List ScopeReport) Unit
  | .allocate content => do
    let chunk ← allocateWith content.length (Op.write content)
    report (.allocated chunk)
  | .free chunk => Op.space (SpaceM.free [chunk])
  | .giveUp reason => giveUp reason
  | .inner scope => do
    let reports ← scope.run
    report (.inner reports)

end

/-- Allocates a chunk of about `hint` bytes and fills it, or gives up after filling it. -/
def allocateFilled {τ : Type} (hint : Nat) (content : Bytes) (failing : Option String) :
    Op τ ChunkId :=
  allocateWith hint do
    Op.write content
    match failing with
    | some reason => giveUp reason
    | none => pure ()

/-- Replaces what a chunk holds. -/
def overwriteChunk {τ : Type} (chunk : ChunkId) (content : Bytes) : Op τ Unit :=
  withChunk chunk do
    Op.write content
    Op.cutHere

end RecordLayout
