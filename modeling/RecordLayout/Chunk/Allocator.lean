import RecordLayout.Chunk.Store

/-!
# Allocating chunks

An allocator hands out chunks of a store. It remembers the size that every request asked for, and
may be told to refuse one request, which then uses up no id.
-/

namespace RecordLayout

/-- A chunk store and the requests made to it. -/
structure Allocator where
  store : ChunkStore
  /-- The sizes asked for so far, oldest first. -/
  hints : List Nat
  /-- The number of the request to refuse, counted from one. -/
  refused : Option Nat
  deriving Repr, Inhabited

namespace Allocator

/-- The failure of a request that is refused. -/
def refusal : StreamError := .corrupt (.abandoned "allocation refused")

/-- An allocator over an empty store. -/
def empty (refused : Option Nat) : Allocator := ⟨.empty, [], refused⟩

/-- Asks for a chunk that will hold about `hint` bytes. -/
def allocate (a : Allocator) (hint : Nat) : Except StreamError ChunkId × Allocator :=
  let asked : Allocator := { a with hints := a.hints ++ [hint] }
  if a.refused = some asked.hints.length then (.error refusal, asked)
  else
    let (chunk, store) := a.store.allocate
    (.ok chunk, { asked with store })

end Allocator

end RecordLayout
