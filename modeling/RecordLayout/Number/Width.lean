/-!
# Widths of sized numbers

A sized number occupies one of eight widths. Seven bytes is not among them: the widths are zero
to six bytes and eight. A width is itself stored as a one-byte ordinal.

* `Width.fitting` — the smallest width that holds a number;
* `Width.check` — refuses a number that is too large;
* `Width.ofOrdinal` — reads a stored ordinal.
-/

namespace RecordLayout

-- powers are those of numbers themselves, also where an algebra library is loaded
attribute [local instance (high)] instPowNat

/-- How many bytes a sized number occupies. -/
inductive Width where
  | void
  | byte
  | short
  | smallInt
  | int
  | bigInt
  | smallLong
  | long
  deriving DecidableEq, Repr, Inhabited

/-- What can be wrong with a stored or given number. -/
inductive NumberError where
  /-- No width has this ordinal. -/
  | invalidOrdinal (ordinal : Nat)
  /-- The number needs a larger width. -/
  | tooLarge (value : Nat) (width : Width)
  /-- A word has the wrong number of bytes. -/
  | invalidLength (expected actual : Nat)
  deriving DecidableEq, Repr

namespace Width

/-- Every width, smallest first. -/
def all : List Width := [.void, .byte, .short, .smallInt, .int, .bigInt, .smallLong, .long]

/-- The largest width. -/
def widest : Width := .long

/-- The number of bytes of a number of this width. -/
def bytes : Width → Nat
  | .void => 0
  | .byte => 1
  | .short => 2
  | .smallInt => 3
  | .int => 4
  | .bigInt => 5
  | .smallLong => 6
  | .long => 8

/-- The largest number of this width. -/
def maxValue : Width → Nat
  | .void => 0
  | .long => 2 ^ (64 : Nat) - 1
  | other => 1 <<< (other.bytes * 8) - 1

/-- Whether a number of this width can hold `value`. -/
def canFit (w : Width) (value : Nat) : Bool := value ≤ w.maxValue

/-- The smallest width that holds `value`; the largest one if none does. -/
def fitting (value : Nat) : Width := (all.find? (·.canFit value)).getD .long

/-- Refuses a number that does not fit. -/
def check (w : Width) (value : Nat) : Except NumberError Unit :=
  if w.canFit value then .ok () else .error (.tooLarge value w)

/-- The stored form of a width: its place in `all`. -/
def ordinal : Width → Nat
  | .void => 0
  | .byte => 1
  | .short => 2
  | .smallInt => 3
  | .int => 4
  | .bigInt => 5
  | .smallLong => 6
  | .long => 7

/-- The width with a stored ordinal. -/
def ofOrdinal (ordinal : Nat) : Except NumberError Width :=
  match all[ordinal]? with
  | some w => .ok w
  | none => .error (.invalidOrdinal ordinal)

/-- The name under which a width is written. -/
def name : Width → String
  | .void => "Void"
  | .byte => "Byte"
  | .short => "Short"
  | .smallInt => "SmallInt"
  | .int => "Int"
  | .bigInt => "BigInt"
  | .smallLong => "SmallLong"
  | .long => "Long"

/-- The width written with a name. -/
def ofName? (name : String) : Option Width := all.find? (·.name == name)

end Width

namespace NumberError

/-- The text of a number error. -/
def message : NumberError → String
  | .invalidOrdinal n => s!"invalid number size ordinal: {n}"
  | .tooLarge value width => s!"value {value} does not fit in {width.name}"
  | .invalidLength expected actual => s!"invalid byte length: expected {expected}, got {actual}"

end NumberError

end RecordLayout
