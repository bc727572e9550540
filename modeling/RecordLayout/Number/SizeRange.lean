/-!
# Size ranges

What is known about the size of an encoding before a value is seen: either the exact number of
bytes, or a lower bound and perhaps an upper one. Bounds are kept as they are; a program that adds
them up in 64-bit words has the same bounds as long as these are words, and wraps around, or stops,
if they are not.

* `sizeWord`, `SizeRange.toWords` — sizes and ranges as such words;
* `SizeRange.union` — the range of a value that is one of two encodings;
* `SizeRange.add`, `SizeRange.sum` — the range of encodings in a row.
-/

namespace RecordLayout

-- powers are those of numbers themselves, also where an algebra library is loaded
attribute [local instance (high)] instPowNat

/-- A size as the 64-bit word in which sizes are added up. -/
def sizeWord (n : Nat) : Nat := n % 2 ^ (64 : Nat)

/-- What is known statically about a size in bytes. -/
inductive SizeRange where
  /-- Every value takes exactly `size` bytes. -/
  | fixed (size : Nat)
  /-- A value takes at least `least` bytes, and at most `most` if that bound is known. -/
  | between (least : Nat) (most : Option Nat)
  deriving DecidableEq, Repr, Inhabited

namespace SizeRange

/-- Any size from `least` on. -/
def atLeast (least : Nat) : SizeRange := .between least none

/-- Any size from `least` to `most`; a single size counts as fixed. -/
def bounded (least most : Nat) : SizeRange :=
  if least = most then .fixed least else .between least (some most)

/-- The exact size, if it is known. -/
def fixed? : SizeRange → Option Nat
  | .fixed n => some n
  | .between _ _ => none

/-- Whether the exact size is known. -/
def isFixed : SizeRange → Bool
  | .fixed _ => true
  | .between _ _ => false

/-- The lower bound. -/
def least : SizeRange → Nat
  | .fixed n => n
  | .between n _ => n

/-- The upper bound, if there is one. -/
def most : SizeRange → Option Nat
  | .fixed n => some n
  | .between _ m => m

/-- Whether a size lies in the range. -/
def contains (r : SizeRange) (size : Nat) : Bool :=
  r.least ≤ size && match r.most with
    | some most => size ≤ most
    | none => true

/-- The smallest range that covers both; two equal ranges stay as they are. -/
def union (a b : SizeRange) : SizeRange :=
  if a = b then a
  else .between (min a.least b.least) <| match a.most, b.most with
    | some x, some y => some (max x y)
    | _, _ => none

/-- The range of one encoding followed by another. -/
def add : SizeRange → SizeRange → SizeRange
  | .fixed a, .fixed b => .fixed (a + b)
  | a, b => .between (a.least + b.least) <| match a.most, b.most with
    | some x, some y => some (x + y)
    | _, _ => none

/-- The range of encodings in a row. -/
def sum (ranges : List SizeRange) : SizeRange := ranges.foldl add (.fixed 0)

/-- Whether the bounds are 64-bit words, so that nothing overflowed when they were added up. -/
def inWords (r : SizeRange) : Bool :=
  r.least < 2 ^ (64 : Nat) && match r.most with
    | some most => most < 2 ^ (64 : Nat)
    | none => true

/-- The range with its bounds as 64-bit words. -/
def toWords : SizeRange → SizeRange
  | .fixed n => .fixed (sizeWord n)
  | .between least most => .between (sizeWord least) (most.map sizeWord)

/-- The debug text of a range. -/
def text : SizeRange → String
  | .fixed n => s!"Fixed({n})"
  | .between least (some most) => s!"Unknown({least}..={most})"
  | .between least none => s!"Unknown({least}..)"

end SizeRange

end RecordLayout
