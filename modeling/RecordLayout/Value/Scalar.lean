import RecordLayout.Bytes
import RecordLayout.Number.Scalar
import RecordLayout.Stream.Error

/-!
# Scalars

A scalar is a number of one kind. Floats are kept as their bits, so that every bit pattern
survives; only comparison looks at what the bits mean.

* `Scalar.encode`, `Scalar.decode` — the native little-endian form;
* `Scalar.toNat?` — the content as a count;
* `Scalar.same` — equality of numbers, for which zero has no sign and a NaN equals nothing.
-/

namespace RecordLayout

-- powers are those of numbers themselves, also where an algebra library is loaded
attribute [local instance (high)] instPowNat

/-- A number of one scalar kind. -/
inductive Scalar where
  | bool (value : Bool)
  | i8 (value : Int8)
  | i16 (value : Int16)
  | i32 (value : Int32)
  | i64 (value : Int64)
  | u8 (value : UInt8)
  | u16 (value : UInt16)
  | u32 (value : UInt32)
  | u64 (value : UInt64)
  /-- A float of 32 bits. -/
  | f32 (bits : UInt32)
  /-- A float of 64 bits. -/
  | f64 (bits : UInt64)
  deriving DecidableEq, Repr

namespace Scalar

/-- The kind of a scalar. -/
def kind : Scalar → ScalarKind
  | .bool _ => .bool
  | .i8 _ => .i8
  | .i16 _ => .i16
  | .i32 _ => .i32
  | .i64 _ => .i64
  | .u8 _ => .u8
  | .u16 _ => .u16
  | .u32 _ => .u32
  | .u64 _ => .u64
  | .f32 _ => .f32
  | .f64 _ => .f64

/-- The zero of a kind. -/
def zero : ScalarKind → Scalar
  | .bool => .bool false
  | .i8 => .i8 0
  | .i16 => .i16 0
  | .i32 => .i32 0
  | .i64 => .i64 0
  | .u8 => .u8 0
  | .u16 => .u16 0
  | .u32 => .u32 0
  | .u64 => .u64 0
  | .f32 => .f32 0
  | .f64 => .f64 0

/-- The content of a non-negative integer. -/
def toNat? : Scalar → Option Nat
  | .i8 v => if 0 ≤ v.toInt then some v.toInt.toNat else none
  | .i16 v => if 0 ≤ v.toInt then some v.toInt.toNat else none
  | .i32 v => if 0 ≤ v.toInt then some v.toInt.toNat else none
  | .i64 v => if 0 ≤ v.toInt then some v.toInt.toNat else none
  | .u8 v => some v.toNat
  | .u16 v => some v.toNat
  | .u32 v => some v.toNat
  | .u64 v => some v.toNat
  | .bool _ | .f32 _ | .f64 _ => none

/-- The integer of a kind that holds `n`, if the kind can. -/
def ofNat? (kind : ScalarKind) (n : Nat) : Option Scalar :=
  match kind with
  | .i8 => if n < 2 ^ (7 : Nat) then some (.i8 (Int8.ofNat n)) else none
  | .i16 => if n < 2 ^ (15 : Nat) then some (.i16 (Int16.ofNat n)) else none
  | .i32 => if n < 2 ^ (31 : Nat) then some (.i32 (Int32.ofNat n)) else none
  | .i64 => if n < 2 ^ (63 : Nat) then some (.i64 (Int64.ofNat n)) else none
  | .u8 => if n < 2 ^ (8 : Nat) then some (.u8 (UInt8.ofNat n)) else none
  | .u16 => if n < 2 ^ (16 : Nat) then some (.u16 (UInt16.ofNat n)) else none
  | .u32 => if n < 2 ^ (32 : Nat) then some (.u32 (UInt32.ofNat n)) else none
  | .u64 => if n < 2 ^ (64 : Nat) then some (.u64 (UInt64.ofNat n)) else none
  | .bool | .f32 | .f64 => none

/-- The bits of a scalar as an unsigned number. -/
def bits : Scalar → Nat
  | .bool v => v.toNat
  | .i8 v => v.toUInt8.toNat
  | .i16 v => v.toUInt16.toNat
  | .i32 v => v.toUInt32.toNat
  | .i64 v => v.toUInt64.toNat
  | .u8 v => v.toNat
  | .u16 v => v.toNat
  | .u32 v => v.toNat
  | .u64 v => v.toNat
  | .f32 v => v.toNat
  | .f64 v => v.toNat

/-- The scalar of a kind with the given bits. -/
def ofBits (kind : ScalarKind) (bits : Nat) : Except StreamError Scalar :=
  match kind with
  | .bool =>
    if bits = 0 then .ok (.bool false)
    else if bits = 1 then .ok (.bool true)
    else .error (.corrupt (.boolByte bits))
  | .i8 => .ok (.i8 (UInt8.ofNat bits).toInt8)
  | .i16 => .ok (.i16 (UInt16.ofNat bits).toInt16)
  | .i32 => .ok (.i32 (UInt32.ofNat bits).toInt32)
  | .i64 => .ok (.i64 (UInt64.ofNat bits).toInt64)
  | .u8 => .ok (.u8 (UInt8.ofNat bits))
  | .u16 => .ok (.u16 (UInt16.ofNat bits))
  | .u32 => .ok (.u32 (UInt32.ofNat bits))
  | .u64 => .ok (.u64 (UInt64.ofNat bits))
  | .f32 => .ok (.f32 (UInt32.ofNat bits))
  | .f64 => .ok (.f64 (UInt64.ofNat bits))

/-- The native form of a scalar: its bits, lowest byte first. -/
def encode (s : Scalar) : Bytes := leBytes s.kind.bytes s.bits

/-- The scalar of a kind that the bytes hold. -/
def decode (kind : ScalarKind) (bytes : Bytes) : Except StreamError Scalar :=
  ofBits kind (leValue bytes)

/-- Equality of two floats given by their bits, where `infinity` are the bits of positive infinity
and `sign` is the weight of the sign bit. -/
def sameFloat (sign infinity a b : Nat) : Bool :=
  let isNaN (x : Nat) : Bool := infinity < x % sign
  !isNaN a && !isNaN b && (a == b || (a % sign == 0 && b % sign == 0))

/-- Whether two scalars are equal as numbers of one kind. -/
def same : Scalar → Scalar → Bool
  | .f32 a, .f32 b => sameFloat (2 ^ (31 : Nat)) 0x7f800000 a.toNat b.toNat
  | .f64 a, .f64 b => sameFloat (2 ^ (63 : Nat)) 0x7ff0000000000000 a.toNat b.toNat
  | a, b => a == b

/-- The number of an integer or truth value, and the bits of a float, as text. -/
def numberText : Scalar → String
  | .bool v => if v then "true" else "false"
  | .i8 v => toString v.toInt
  | .i16 v => toString v.toInt
  | .i32 v => toString v.toInt
  | .i64 v => toString v.toInt
  | .f32 v => "bits " ++ toString v.toNat
  | .f64 v => "bits " ++ toString v.toNat
  | s => toString s.bits

/-- The debug text of a scalar. -/
def text (s : Scalar) : String := s.kind.variantName ++ "(" ++ s.numberText ++ ")"

end Scalar

end RecordLayout
