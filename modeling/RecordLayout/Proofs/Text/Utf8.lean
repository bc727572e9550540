import Mathlib
import RecordLayout.Text.Utf8

/-!
# Text comes back from its bytes

Decoding undoes encoding, character by character: the bytes of a character are well-formed, and
decoding stops right behind them.

Main results:

* `Utf8.decodeChar_encode` — one character, whatever follows it;
* `Utf8.decode_encode` — a whole text.
-/

namespace RecordLayout.Utf8

/-! ## One character -/

theorem toNat_ofNat_of_lt {n : Nat} (h : n < 256) : (UInt8.ofNat n).toNat = n := by
  rw [UInt8.toNat_ofNat']
  omega

/-- A continuation byte adds six bits. -/
theorem continuation_succ {more bits n : Nat} (hn : n < 64) {rest : Bytes} {r : Nat × Bytes}
    (h : continuation more (bits * 64 + n) rest = .ok r) :
    continuation (more + 1) bits (UInt8.ofNat (n + 0x80) :: rest) = .ok r := by
  have hbyte := toNat_ofNat_of_lt (show n + 0x80 < 256 by omega)
  rw [continuation, hbyte, if_pos (by omega), show (n + 0x80) % 64 = n by omega, h]

/-- The code of a character lies below the surrogates or above them. -/
theorem code_cases (c : Char) : c.toNat < 0xd800 ∨ 0xdfff < c.toNat ∧ c.toNat < 0x110000 :=
  c.valid

/-- A sequence of at least two bytes gives the character whose code its bits make up. -/
theorem decodeChar_sequence {valid b0 b1 code : Nat} {lead : Lead} {t rest : Bytes}
    (h0 : 0x80 ≤ b0 ∧ b0 < 256) (hlead : lead? b0 = some lead)
    (h1 : lead.low ≤ b1 + 0x80 ∧ b1 + 0x80 ≤ lead.high) (h64 : b1 < 64)
    (hcont : continuation lead.more (leadBits b0 (lead.more + 2) * 64 + b1) (t ++ rest) =
      .ok (code, rest)) :
    decodeChar valid (UInt8.ofNat b0) (UInt8.ofNat (b1 + 0x80) :: (t ++ rest)) =
      .ok (Char.ofNat code, rest) := by
  have hb0 := toNat_ofNat_of_lt h0.2
  have hb1 := toNat_ofNat_of_lt (show b1 + 0x80 < 256 by omega)
  rw [decodeChar, hb0, if_neg (by omega), hlead]
  simp only [hb1]
  rw [if_pos h1, show (b1 + 0x80) % 64 = b1 by omega, hcont]

/-- The bytes of a character give the character back, and what follows them is left. -/
theorem decodeChar_encode (valid : Nat) (c : Char) (rest : Bytes) :
    ∃ b tail, String.utf8EncodeChar c = b :: tail ∧
      decodeChar valid b (tail ++ rest) = .ok (c, rest) := by
  have hcode := code_cases c
  have hchar : Char.ofNat c.toNat = c := Char.ofNat_toNat c
  simp only [String.utf8EncodeChar]
  rw [show c.val.toNat = c.toNat from rfl]
  generalize c.toNat = v at hcode hchar ⊢
  subst hchar
  split
  · -- one byte
    rename_i h1
    refine ⟨_, _, rfl, ?_⟩
    have hb := toNat_ofNat_of_lt (show v < 256 by omega)
    rw [decodeChar, hb, if_pos (by omega)]
    rfl
  split
  · -- two bytes
    rename_i h1 h2
    refine ⟨_, _, rfl, ?_⟩
    have hlead : lead? (v / 64 % 32 + 0xc0) = some ⟨0x80, 0xbf, 0⟩ := by
      rw [lead?, if_pos (by omega)]
    refine decodeChar_sequence (t := []) ⟨by omega, by omega⟩ hlead
      ⟨by simp only; omega, by simp only; omega⟩ (by omega) ?_
    have hbits : leadBits (v / 64 % 32 + 0xc0) (0 + 2) * 64 + v % 64 = v := by
      rw [leadBits, show 2 ^ (7 - (0 + 2)) = 32 from rfl]
      omega
    rw [hbits]
    rfl
  split
  · -- three bytes; the second one excludes overlong forms and surrogates
    rename_i h1 h2 h3
    refine ⟨_, _, rfl, ?_⟩
    have hbits : leadBits (v / 4096 % 16 + 0xe0) (1 + 2) * 64 + v / 64 % 64 = v / 64 := by
      rw [leadBits, show 2 ^ (7 - (1 + 2)) = 16 from rfl]
      omega
    have hlast : continuation 1 (v / 64) (UInt8.ofNat (v % 64 + 0x80) :: rest) = .ok (v, rest) := by
      refine continuation_succ (by omega) ?_
      rw [continuation, show v / 64 * 64 + v % 64 = v by omega]
    have hlead : ∃ low high, lead? (v / 4096 % 16 + 0xe0) = some ⟨low, high, 1⟩ ∧
        low ≤ v / 64 % 64 + 0x80 ∧ v / 64 % 64 + 0x80 ≤ high := by
      rw [lead?, if_neg (by omega)]
      by_cases h0 : v / 4096 % 16 = 0
      · exact ⟨0xa0, 0xbf, by rw [if_pos (by omega)], by omega, by omega⟩
      · by_cases hd : v / 4096 % 16 = 13
        · exact ⟨0x80, 0x9f, by rw [if_neg (by omega), if_pos (by omega)], by omega, by omega⟩
        · exact ⟨0x80, 0xbf,
            by rw [if_neg (by omega), if_neg (by omega), if_pos (by omega)], by omega, by omega⟩
    obtain ⟨low, high, hlead, hlow, hhigh⟩ := hlead
    refine decodeChar_sequence (t := [_]) ⟨by omega, by omega⟩ hlead ⟨hlow, hhigh⟩ (by omega) ?_
    rw [hbits]
    exact hlast
  · -- four bytes; the second one excludes overlong forms and codes that are too large
    rename_i h1 h2 h3
    refine ⟨_, _, rfl, ?_⟩
    have hbits : leadBits (v / 262144 % 8 + 0xf0) (2 + 2) * 64 + v / 4096 % 64 = v / 4096 := by
      rw [leadBits, show 2 ^ (7 - (2 + 2)) = 8 from rfl]
      omega
    have hlast : continuation 2 (v / 4096)
        (UInt8.ofNat (v / 64 % 64 + 0x80) :: UInt8.ofNat (v % 64 + 0x80) :: rest) =
          .ok (v, rest) := by
      refine continuation_succ (by omega) (continuation_succ (by omega) ?_)
      rw [continuation, show (v / 4096 * 64 + v / 64 % 64) * 64 + v % 64 = v by omega]
    have hlead : ∃ low high, lead? (v / 262144 % 8 + 0xf0) = some ⟨low, high, 2⟩ ∧
        low ≤ v / 4096 % 64 + 0x80 ∧ v / 4096 % 64 + 0x80 ≤ high := by
      rw [lead?, if_neg (by omega), if_neg (by omega), if_neg (by omega), if_neg (by omega)]
      by_cases h0 : v / 262144 % 8 = 0
      · exact ⟨0x90, 0xbf, by rw [if_pos (by omega)], by omega, by omega⟩
      · by_cases h4 : v / 262144 % 8 = 4
        · exact ⟨0x80, 0x8f,
            by rw [if_neg (by omega), if_neg (by omega), if_pos (by omega)], by omega, by omega⟩
        · exact ⟨0x80, 0xbf, by rw [if_neg (by omega), if_pos (by omega)], by omega, by omega⟩
    obtain ⟨low, high, hlead, hlow, hhigh⟩ := hlead
    refine decodeChar_sequence (t := [_, _]) ⟨by omega, by omega⟩ hlead ⟨hlow, hhigh⟩
      (by omega) ?_
    rw [hbits]
    exact hlast

/-! ## Whole texts -/

theorem decodeChars_encode (cs : List Char) (fuel valid : Nat)
    (hfuel : (cs.flatMap String.utf8EncodeChar).length ≤ fuel) :
    decodeChars fuel valid (cs.flatMap String.utf8EncodeChar) = .ok cs := by
  induction cs generalizing fuel valid with
  | nil => cases fuel <;> rfl
  | cons c cs ih =>
    obtain ⟨b, tail, hbytes, hdecode⟩ :=
      decodeChar_encode valid c (cs.flatMap String.utf8EncodeChar)
    rw [List.flatMap_cons, hbytes, List.cons_append] at hfuel ⊢
    simp only [List.length_cons, List.length_append] at hfuel
    cases fuel with
    | zero => omega
    | succ fuel =>
      rw [decodeChars, hdecode]
      simp only
      rw [ih fuel _ (by omega)]

/-- The bytes of a text spell the text. -/
theorem decode_encode (s : String) : decode (encode s) = .ok s := by
  rw [decode, encode, decodeChars_encode _ _ _ (Nat.le_refl _)]
  exact congrArg Except.ok String.ofList_toList

end RecordLayout.Utf8
