import RecordLayout.Bytes

/-!
# Text in UTF-8

Text is stored as UTF-8. Decoding accepts well-formed sequences only: no overlong form, no
surrogate, nothing above U+10FFFF. Where it stops it tells how many bytes before were valid, and
either the length of the ill-formed beginning (the longest part of it that starts a well-formed
sequence, and at least one byte) or that the input ended inside a sequence that could go on.
-/

namespace RecordLayout.Utf8

-- powers are those of numbers themselves, also where an algebra library is loaded
attribute [local instance (high)] instPowNat

/-- Why bytes are not text. -/
inductive DecodeError where
  /-- After `valid` bytes come `length` bytes that start no well-formed sequence. -/
  | illFormed (valid length : Nat)
  /-- After `valid` bytes the input ends inside a sequence. -/
  | incomplete (valid : Nat)
  deriving DecidableEq, Repr

/-- The text of a decoding error. -/
def DecodeError.message : DecodeError → String
  | .illFormed valid length => s!"invalid utf-8 sequence of {length} bytes from index {valid}"
  | .incomplete valid => s!"incomplete utf-8 byte sequence from index {valid}"

/-- The bytes that may follow the first byte of a sequence: the range of the second byte, and
how many plain continuation bytes come after it. -/
structure Lead where
  low : Nat
  high : Nat
  more : Nat

/-- What a first byte from `0x80` on calls for, if it can start a sequence. -/
def lead? (b : Nat) : Option Lead :=
  if 0xc2 ≤ b ∧ b ≤ 0xdf then some ⟨0x80, 0xbf, 0⟩
  else if b = 0xe0 then some ⟨0xa0, 0xbf, 1⟩
  else if b = 0xed then some ⟨0x80, 0x9f, 1⟩
  else if 0xe1 ≤ b ∧ b ≤ 0xef then some ⟨0x80, 0xbf, 1⟩
  else if b = 0xf0 then some ⟨0x90, 0xbf, 2⟩
  else if 0xf1 ≤ b ∧ b ≤ 0xf3 then some ⟨0x80, 0xbf, 2⟩
  else if b = 0xf4 then some ⟨0x80, 0x8f, 2⟩
  else none

/-- The bits that the first byte of a sequence of `length` bytes carries. -/
def leadBits (b length : Nat) : Nat := b % 2 ^ (7 - length)

/-- Reads `more` continuation bytes onto the bits read so far. On failure it tells how many of
them were well-formed, or `none` if the input ended. -/
def continuation : Nat → Nat → Bytes → Except (Option Nat) (Nat × Bytes)
  | 0, bits, rest => .ok (bits, rest)
  | _ + 1, _, [] => .error none
  | more + 1, bits, b :: rest =>
    if 0x80 ≤ b.toNat ∧ b.toNat ≤ 0xbf then
      match continuation more (bits * 64 + b.toNat % 64) rest with
      | .error (some n) => .error (some (n + 1))
      | outcome => outcome
    else .error (some 0)

/-- Reads one character, given how many bytes were valid before it. -/
def decodeChar (valid : Nat) : UInt8 → Bytes → Except DecodeError (Char × Bytes)
  | b, rest =>
    if b.toNat < 0x80 then .ok (Char.ofNat b.toNat, rest)
    else match lead? b.toNat with
      | none => .error (.illFormed valid 1)
      | some lead => match rest with
        | [] => .error (.incomplete valid)
        | second :: rest =>
          if lead.low ≤ second.toNat ∧ second.toNat ≤ lead.high then
            let bits := leadBits b.toNat (lead.more + 2) * 64 + second.toNat % 64
            match continuation lead.more bits rest with
            | .ok (code, rest) => .ok (Char.ofNat code, rest)
            | .error (some n) => .error (.illFormed valid (n + 2))
            | .error none => .error (.incomplete valid)
          else .error (.illFormed valid 1)

/-- Decodes characters until the input ends; `fuel` bounds their number. -/
def decodeChars : Nat → Nat → Bytes → Except DecodeError (List Char)
  | 0, _, _ => .ok []
  | _ + 1, _, [] => .ok []
  | fuel + 1, valid, b :: rest =>
    match decodeChar valid b rest with
    | .error e => .error e
    | .ok (c, rest') =>
      match decodeChars fuel (valid + (rest.length + 1 - rest'.length)) rest' with
      | .ok cs => .ok (c :: cs)
      | .error e => .error e

/-- The text that the bytes spell. -/
def decode (bytes : Bytes) : Except DecodeError String :=
  (decodeChars bytes.length 0 bytes).map String.ofList

/-- The bytes that spell a text. -/
def encode (s : String) : Bytes := s.toList.flatMap String.utf8EncodeChar

/-- The number of bytes that spell a text. -/
def length (s : String) : Nat := (encode s).length

end RecordLayout.Utf8
