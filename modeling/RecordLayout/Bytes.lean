/-!
# Byte strings and little-endian words

Records are byte strings, and every number of a fixed width in them is little-endian. A word of
`n` bytes keeps its value modulo `256 ^ n`:

* `leValue_leBytes` — reading back the `n` low bytes of `v` gives `v % 256 ^ n`;
* `length_leBytes` — a word of `n` bytes has `n` bytes.
-/

namespace RecordLayout

-- powers are those of numbers themselves, also where an algebra library is loaded
attribute [local instance (high)] instPowNat

/-- A finite byte string. -/
abbrev Bytes := List UInt8

/-- The `n` low bytes of `v`, lowest first. -/
def leBytes : Nat → Nat → Bytes
  | 0, _ => []
  | n + 1, v => UInt8.ofNat v :: leBytes n (v / 256)

/-- The number whose base-256 digits are the given bytes, lowest first. -/
def leValue : Bytes → Nat
  | [] => 0
  | b :: rest => b.toNat + 256 * leValue rest

@[simp] theorem length_leBytes (n v : Nat) : (leBytes n v).length = n := by
  induction n generalizing v with
  | zero => rfl
  | succ n ih => simp [leBytes, ih]

theorem leValue_leBytes (n v : Nat) : leValue (leBytes n v) = v % 256 ^ n := by
  induction n generalizing v with
  | zero => simp [leBytes, leValue, Nat.mod_one]
  | succ n ih =>
    simp only [leBytes, leValue, ih, Nat.pow_succ', Nat.mod_mul]
    simp

end RecordLayout
