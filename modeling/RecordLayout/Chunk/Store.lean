import RecordLayout.Stream.Basic

/-!
# The chunk store

A store maps chunk ids to byte strings. Ids are handed out in order, starting at one, and never
twice; a free chunk is gone for good. Freeing checks the whole list before it removes anything, so
that a second free of the same chunk surfaces.

* `ChunkStore.allocate`, `ChunkStore.free`, `ChunkStore.open?`, `ChunkStore.close` — the operations;
* `ChunkStore.content?` — the view: what a chunk holds, if it is live.
-/

namespace RecordLayout

-- sums start from the number zero itself, also where an algebra library is loaded
attribute [local instance (high)] Zero.ofOfNat0

/-- The live chunks in the order of their ids, and counts of what happened so far. -/
structure ChunkStore where
  chunks : List (ChunkId × Bytes)
  next : Nat
  allocations : Nat
  frees : Nat
  deriving Repr, Inhabited

namespace ChunkStore

/-- A store without chunks. -/
def empty : ChunkStore := ⟨[], 1, 0, 0⟩

/-- What a live chunk holds. -/
def content? (store : ChunkStore) (chunk : ChunkId) : Option Bytes := store.chunks.lookup chunk

/-- Whether a chunk is live. -/
def contains (store : ChunkStore) (chunk : ChunkId) : Bool := (store.content? chunk).isSome

/-- The ids of the live chunks, in order. -/
def live (store : ChunkStore) : List ChunkId := store.chunks.map (·.1)

/-- The number of live chunks. -/
def size (store : ChunkStore) : Nat := store.chunks.length

/-- The number of bytes in all live chunks. -/
def totalBytes (store : ChunkStore) : Nat := (store.chunks.map (·.2.length)).sum

/-- Makes a new chunk without bytes. -/
def allocate (store : ChunkStore) : ChunkId × ChunkStore :=
  let chunk : ChunkId := ⟨store.next⟩
  (chunk, { store with
    chunks := store.chunks ++ [(chunk, [])]
    next := store.next + 1
    allocations := store.allocations + 1 })

/-- Removes chunks; fails without removing any if one is not live. -/
def free (store : ChunkStore) (chunks : List ChunkId) : Except StreamError ChunkStore :=
  match chunks.find? fun chunk => !store.contains chunk with
  | some missing => .error (.chunkNotFound missing)
  | none => .ok { store with
      chunks := store.chunks.filter fun (chunk, _) => !chunks.contains chunk
      frees := store.frees + chunks.length }

/-- Sets what a live chunk holds; a chunk that is not live stays so. -/
def setContent (store : ChunkStore) (chunk : ChunkId) (content : Bytes) : ChunkStore :=
  { store with chunks := store.chunks.map fun (c, old) => (c, if c = chunk then content else old) }

/-- Opens a chunk as a stream with the cursor at its front. -/
def open? (store : ChunkStore) (chunk : ChunkId) : Except StreamError ByteStream :=
  match store.content? chunk with
  | some content => .ok (.ofBytes content)
  | none => .error (.chunkNotFound chunk)

/-- Puts back what an opened chunk holds now. -/
def close (store : ChunkStore) (chunk : ChunkId) (stream : ByteStream) : ChunkStore :=
  store.setContent chunk stream.content

/-- All bytes of a chunk. -/
def readAll (store : ChunkStore) (chunk : ChunkId) : Except StreamError Bytes :=
  match store.content? chunk with
  | some content => .ok content
  | none => .error (.chunkNotFound chunk)

/-- Opens a chunk, runs something on its stream and closes it. -/
def withOpen {α : Type} (store : ChunkStore) (chunk : ChunkId)
    (run : ByteStream → α × ByteStream) :
    Except StreamError α × ChunkStore :=
  match store.open? chunk with
  | .error e => (.error e, store)
  | .ok stream =>
    let (answer, stream) := run stream
    (.ok answer, store.close chunk stream)

/-- The debug text of a store. -/
def text (store : ChunkStore) : String :=
  s!"InMemoryChunkStore \x7b chunk_count: {store.size}, allocations: {store.allocations}, "
    ++ s!"frees: {store.frees} \x7d"

end ChunkStore

end RecordLayout
