import RecordLayout.Bytes

/-!
# Variable-length numbers

A 64-bit number is written in groups of seven bits, lowest first, with the high bit of every byte
but the last set. Ten groups are enough, and the tenth may carry one bit only.

* `Varint.encode` — the shortest form of a number;
* `Varint.Decoder.push` — reads a form one byte at a time and accepts padded forms too;
* `Varint.length` — the length of the shortest form, without writing it.
-/

namespace RecordLayout
namespace Varint

-- powers are those of numbers themselves, also where an algebra library is loaded
attribute [local instance (high)] instPowNat

/-- The length of the longest form of a 64-bit number. -/
def maxLength : Nat := 10

/-- The groups of `n`, with at most `more` groups after the first. -/
def groups : Nat → Nat → Bytes
  | 0, n => [UInt8.ofNat n]
  | more + 1, n =>
    if n < 128 then [UInt8.ofNat n] else UInt8.ofNat (n % 128 + 128) :: groups more (n / 128)

/-- The shortest form of a number. -/
def encode (value : UInt64) : Bytes := groups 9 value.toNat

/-- The number of binary digits of `n`; zero has none. -/
def bitLength (n : Nat) : Nat := if n = 0 then 0 else n.log2 + 1

/-- The length of the shortest form of a number. -/
def length (value : UInt64) : Nat := max 1 ((bitLength value.toNat + 6) / 7)

/-- What has been read of a number: its low bits, and how many there are. -/
structure Decoder where
  value : Nat
  shift : Nat
  deriving DecidableEq, Repr, Inhabited

/-- Nothing has been read. -/
def Decoder.start : Decoder := ⟨0, 0⟩

/-- What a byte leads to. -/
inductive Step where
  /-- The number goes on. -/
  | more (decoder : Decoder)
  /-- The byte was the last one. -/
  | done (value : UInt64)
  /-- The number needs more than 64 bits. -/
  | overflow
  deriving DecidableEq, Repr

/-- Takes in the next byte. -/
def Decoder.push (d : Decoder) (byte : UInt8) : Step :=
  let payload := byte.toNat % 128
  let value := d.value + payload * 2 ^ d.shift
  if d.shift = 63 ∧ 1 < payload then .overflow
  else if byte.toNat < 128 then .done (UInt64.ofNat value)
  else if 63 < d.shift + 7 then .overflow
  else .more ⟨value, d.shift + 7⟩

/-- Where the bytes of numbers in a row lead to, one step per byte. After the end of a number, and
after an overflow, the next byte starts a new number. -/
def Decoder.feed : Decoder → Bytes → List Step
  | _, [] => []
  | d, byte :: rest =>
    let step := d.push byte
    let next := match step with
      | .more d => d
      | _ => .start
    step :: next.feed rest

end Varint
end RecordLayout
