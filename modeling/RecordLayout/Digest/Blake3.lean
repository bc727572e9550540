import RecordLayout.Bytes

/-!
# The BLAKE3 hash

Plain BLAKE3 hashing with the default key. Input is cut into chunks of 1024 bytes and chunks into
blocks of 64; the chaining values of the chunks are the leaves of a binary tree whose left subtrees
are complete. The first words of the root's output are the digest.
-/

namespace RecordLayout.Blake3

-- powers are those of numbers themselves, also where an algebra library is loaded
attribute [local instance (high)] instPowNat

/-- The initial chaining value. -/
def iv : List UInt32 :=
  [0x6a09e667, 0xbb67ae85, 0x3c6ef372, 0xa54ff53a, 0x510e527f, 0x9b05688c, 0x1f83d9ab, 0x5be0cd19]

/-- Where each message word of a round comes from in the round before. -/
def permutation : List Nat := [2, 6, 3, 10, 7, 0, 4, 13, 1, 11, 12, 5, 9, 14, 15, 8]

/-- The cells and message words of the eight mixings of a round. -/
def mixings : List (Nat × Nat × Nat × Nat) :=
  [(0, 4, 8, 12), (1, 5, 9, 13), (2, 6, 10, 14), (3, 7, 11, 15),
   (0, 5, 10, 15), (1, 6, 11, 12), (2, 7, 8, 13), (3, 4, 9, 14)]

/-- Rotation to the right. -/
def rotateRight (x : UInt32) (n : UInt32) : UInt32 := (x >>> n) ||| (x <<< (32 - n))

/-- Mixes two message words into four cells. -/
def mix (state : Array UInt32) (cells : Nat × Nat × Nat × Nat) (x y : UInt32) : Array UInt32 :=
  let (ia, ib, ic, id) := cells
  let a := state.getD ia 0 + state.getD ib 0 + x
  let d := rotateRight (state.getD id 0 ^^^ a) 16
  let c := state.getD ic 0 + d
  let b := rotateRight (state.getD ib 0 ^^^ c) 12
  let a := a + b + y
  let d := rotateRight (d ^^^ a) 8
  let c := c + d
  let b := rotateRight (b ^^^ c) 7
  (((state.setIfInBounds ia a).setIfInBounds ib b).setIfInBounds ic c).setIfInBounds id d

/-- One round: every mixing with its two message words. -/
def round (state message : Array UInt32) : Array UInt32 :=
  mixings.zipIdx.foldl (fun state (cells, i) =>
    mix state cells (message.getD (2 * i) 0) (message.getD (2 * i + 1) 0)) state

/-- The message words of the next round. -/
def permute (message : Array UInt32) : Array UInt32 :=
  (permutation.map fun i => message.getD i 0).toArray

/-- Several rounds. -/
def rounds : Nat → Array UInt32 → Array UInt32 → Array UInt32
  | 0, state, _ => state
  | n + 1, state, message => rounds n (round state message) (permute message)

/-- A compression that is still to be run; the last one of a tree is run as the root. -/
structure Node where
  chaining : List UInt32
  block : List UInt32
  counter : Nat
  length : Nat
  flags : Nat

/-- Where a chunk starts. -/
def chunkStart : Nat := 1

/-- Where a chunk ends. -/
def chunkEnd : Nat := 2

/-- A node over two chaining values. -/
def parent : Nat := 4

/-- The last node of all. -/
def root : Nat := 8

/-- Runs a compression with further flags and returns the eight words of its chaining value. -/
def Node.compress (node : Node) (flags : Nat) : List UInt32 :=
  let tail := [UInt32.ofNat node.counter, UInt32.ofNat (node.counter / 2 ^ (32 : Nat)),
    UInt32.ofNat node.length, UInt32.ofNat (node.flags + flags)]
  let state := rounds 7 (node.chaining ++ iv.take 4 ++ tail).toArray node.block.toArray
  (List.range 8).map fun i => state.getD i 0 ^^^ state.getD (i + 8) 0

/-- The sixteen little-endian words of a block, padded with zeros. -/
def blockWords (block : Bytes) : List UInt32 :=
  (List.range 16).map fun i => UInt32.ofNat (leValue ((block.drop (4 * i)).take 4))

/-- The last compression of a chunk; `start` flags its first block. -/
def chunkNode (counter : Nat) : Nat → Nat → List UInt32 → Bytes → Node
  | 0, start, chaining, bytes =>
    ⟨chaining, blockWords bytes, counter, bytes.length, start + chunkEnd⟩
  | blocks + 1, start, chaining, bytes =>
    if bytes.length ≤ 64 then
      ⟨chaining, blockWords bytes, counter, bytes.length, start + chunkEnd⟩
    else
      let node : Node := ⟨chaining, blockWords (bytes.take 64), counter, 64, start⟩
      chunkNode counter blocks 0 (node.compress 0) (bytes.drop 64)

/-- The largest power of two below `n`, for `n` from two on. -/
def halfBelow (n : Nat) : Nat := 2 ^ (n - 1).log2

/-- The last compression of a subtree over chunks that start at `first`. -/
def treeNode : Nat → Nat → Bytes → Node
  | 0, first, bytes => chunkNode first 16 chunkStart iv bytes
  | depth + 1, first, bytes =>
    let chunks := (bytes.length + 1023) / 1024
    if chunks ≤ 1 then chunkNode first 16 chunkStart iv bytes
    else
      let left := halfBelow chunks
      let l := treeNode depth first (bytes.take (1024 * left))
      let r := treeNode depth (first + left) (bytes.drop (1024 * left))
      ⟨iv, l.compress 0 ++ r.compress 0, 0, 64, parent⟩

/-- The digest as eight words. -/
def words (bytes : Bytes) : List UInt32 := (treeNode 64 0 bytes).compress root

/-- The digest of a byte string: 32 bytes. -/
def digest (bytes : Bytes) : Bytes := (words bytes).flatMap fun w => leBytes 4 w.toNat

end RecordLayout.Blake3
