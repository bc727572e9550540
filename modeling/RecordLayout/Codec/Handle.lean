import RecordLayout.Codec.Read

/-!
# Records behind handles

A record of an unmanaged schema lives in a chunk of its own, and other records hold handles to it.

* `storeUnmanaged` — puts a record into a new chunk;
* `loadHandle`, `storeHandle` — read the record behind a handle, and replace it.
-/

namespace RecordLayout

/-- Puts a record of an unmanaged schema into a chunk of its own. -/
def storeUnmanaged : Op Record Handle := do
  let r ← Op.subject
  let c ← Op.catalog
  if (c.schema r.schema).isUnmanaged then do
    let l ← Op.space (SpaceM.layout r.schema .standard)
    let hint ← Op.space (recordSize l r)
    let chunk ← allocateWith hint (writeRecord l)
    pure ⟨r.schema, chunk⟩
  else throw (.mismatch "an unmanaged type" (c.schemaName r.schema))

/-- Reads the record behind a handle. -/
def loadHandle {τ : Type} (h : Handle) : Op τ Record := do
  let l ← Op.space (SpaceM.layout h.schema .standard)
  withChunk h.chunk (readNew l)

/-- Replaces the record behind a handle. -/
def storeHandle (h : Handle) : Op Record Unit := do
  let r ← Op.subject
  let c ← Op.catalog
  if r.schema = h.schema then do
    let l ← Op.space (SpaceM.layout h.schema .standard)
    withChunk h.chunk do
      writeRecord l
      Op.cutHere
  else throw (.mismatch (c.schemaName h.schema) (c.schemaName r.schema))

end RecordLayout
