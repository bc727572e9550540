import Mathlib
import RecordLayout.Proofs.Number.Width
import RecordLayout.Proofs.Outcome
import RecordLayout.Proofs.Stream.View
import RecordLayout.Value.Scalar

/-!
# Reading what a stream shows

A stream that shows some bytes after its cursor gives exactly these bytes, in whatever pieces they
are asked for, and every number that was written comes back from its bytes.

Main results:

* `take_shows`, `readBytes_shows`, `skip_shows` — bytes that are there can be read and passed;
* `readVarint_shows` — the shortest form of a number reads back as the number;
* `leValue_leBytes_of_lt`, `decode_encode` — so do words and scalars.
-/

namespace RecordLayout

namespace ByteStream

/-! ## Bytes after the cursor -/

/-- The stream with the cursor moved on. -/
def ahead (s : ByteStream) (n : Nat) : ByteStream := s.setPosition (s.position + n)

/-- The stream shows these bytes after its cursor, and perhaps more. -/
structure Shows (s : ByteStream) (b : Bytes) : Prop where
  coherent : s.Coherent
  prefixed : b <+: s.shown.drop s.position

/-- Only the last of two moves of the cursor counts. -/
theorem setPosition_setPosition (s : ByteStream) (p q : Nat) :
    (s.setPosition p).setPosition q = s.setPosition q := by
  induction s with
  | memory content cursor => rfl
  | edited under edits _ => rfl
  | metered left under ih => exact congrArg _ ih
  | piecewise under ih => exact congrArg _ ih

/-- Moving the cursor to where it is changes nothing. -/
theorem setPosition_position (s : ByteStream) : s.setPosition s.position = s := by
  induction s with
  | memory content cursor => rfl
  | edited under edits _ => rfl
  | metered left under ih => exact congrArg _ ih
  | piecewise under ih => exact congrArg _ ih

@[simp] theorem ahead_zero (s : ByteStream) : s.ahead 0 = s := setPosition_position s

/-- Two moves ahead are one move over both distances. -/
@[simp] theorem ahead_ahead (s : ByteStream) (m n : Nat) :
    (s.ahead m).ahead n = s.ahead (m + n) := by
  simp only [ahead, position_setPosition, setPosition_setPosition, Nat.add_assoc]

/-- Moving ahead does not change what is shown. -/
@[simp] theorem shown_ahead (s : ByteStream) (n : Nat) : (s.ahead n).shown = s.shown :=
  shown_setPosition _ _

/-- Moving ahead adds to the cursor. -/
@[simp] theorem position_ahead (s : ByteStream) (n : Nat) :
    (s.ahead n).position = s.position + n :=
  position_setPosition _ _

@[simp] theorem ahead_ofBytes (content : Bytes) (n : Nat) :
    (ofBytes content).ahead n = .memory content n := by
  simp [ahead, ofBytes, setPosition, position]

variable {s : ByteStream} {b c : Bytes}

/-- A fresh stream shows its bytes, and so any beginning of them. -/
theorem shows_ofBytes (b c : Bytes) : (ofBytes (b ++ c)).Shows b :=
  ⟨trivial, ⟨c, rfl⟩⟩

/-- What shows two runs of bytes shows the first. -/
theorem Shows.left (h : s.Shows (b ++ c)) : s.Shows b :=
  ⟨h.coherent, (List.prefix_append b c).trans h.prefixed⟩

/-- Behind the first of two runs the second is shown. -/
theorem Shows.right (h : s.Shows (b ++ c)) : (s.ahead b.length).Shows c := by
  obtain ⟨rest, hrest⟩ := h.prefixed
  refine ⟨coherent_setPosition h.coherent _, rest, ?_⟩
  rw [shown_ahead, position_ahead, ← List.drop_drop, ← hrest, List.append_assoc,
    List.drop_left]

theorem Shows.nil (h : s.Coherent) : s.Shows [] := ⟨h, List.nil_prefix⟩

/-- What is shown from the cursor on remains to be read. -/
theorem Shows.length_le (h : s.Shows b) : b.length ≤ s.remaining := by
  have hle := h.prefixed.length_le
  rw [List.length_drop] at hle
  rwa [remaining_shown h.coherent]

/-! ## Bytes -/

/-- Taking as many bytes as are shown gives these bytes. -/
theorem take_shows (h : s.Shows b) : take b.length s = .ok b (s.ahead b.length) := by
  have hlen := h.length_le
  have hrem := remaining_shown h.coherent
  have hread : s.peek s.position b.length = b := by
    rw [peek_shown h.coherent (by omega)]
    exact (List.prefix_iff_eq_take.mp h.prefixed).symm
  simp only [take, if_pos hlen, hread, ahead]

/-- Reading as many bytes as are shown gives these bytes. -/
theorem read_shows (h : s.Shows b) : ByteSource.read b.length s = .ok b (s.ahead b.length) :=
  take_shows h

/-- A stream shows every beginning of what it shows. -/
theorem shows_take (h : s.Shows b) (n : Nat) : s.Shows (b.take n) :=
  ⟨h.coherent, (List.take_prefix n b).trans h.prefixed⟩

/-- Further ahead the rest is shown. -/
theorem shows_drop (h : s.Shows b) {n : Nat} (hn : n ≤ b.length) :
    (s.ahead n).Shows (b.drop n) := by
  have h' : s.Shows (b.take n ++ b.drop n) := by rwa [List.take_append_drop]
  have hright := h'.right
  rwa [List.length_take, Nat.min_eq_left hn] at hright

/-- Reading piece by piece gives the bytes shown. -/
theorem readInPieces_shows {total : Nat} (start : Nat) (h : s.Shows b)
    (hlen : b.length = total - start) :
    readInPieces take total start s = .ok b (s.ahead b.length) := by
  induction hleft : b.length using Nat.strong_induction_on generalizing s start b with
  | _ left ih =>
    subst hleft
    rw [readInPieces]
    split
    · -- nothing is left to read
      have hnil : b = [] := List.eq_nil_of_length_eq_zero (by omega)
      subst hnil
      simp [pure, EStateM.pure]
    · -- one piece, and then the rest
      have hstep : min (total - start) 65536 ≤ b.length := by omega
      have hpiece : (b.take (min (total - start) 65536)).length = min (total - start) 65536 := by
        rw [List.length_take]
        omega
      have htake := take_shows (shows_take h (min (total - start) 65536))
      rw [hpiece] at htake
      have hrest := ih (b.drop (min (total - start) 65536)).length
        (by rw [List.length_drop]; omega) (start + min (total - start) 65536)
        (shows_drop h hstep) (by rw [List.length_drop]; omega) rfl
      refine bind_ok.mpr ⟨_, _, failingAs_ok.mpr htake, bind_ok.mpr ⟨_, _, hrest, ?_⟩⟩
      rw [pure_ok, List.take_append_drop, ahead_ahead, List.length_drop]
      exact ⟨rfl, by congr 1; omega⟩

/-- Reading a run of bytes gives the bytes shown. -/
theorem readBytes_shows (h : s.Shows b) :
    ByteSource.readBytes b.length s = .ok b (s.ahead b.length) :=
  readInPieces_shows 0 h rfl

/-- Skipping piece by piece moves over the bytes. -/
theorem skipInPieces_shows {n : Nat} (h : s.Coherent) (hn : n ≤ s.remaining) :
    skipInPieces take n s = .ok () (s.ahead n) := by
  induction n using Nat.strong_induction_on generalizing s with
  | _ n ih =>
    rw [skipInPieces]
    split
    · rename_i hzero
      subst hzero
      simp [pure, EStateM.pure]
    · have hrem := remaining_shown h
      have hcoh : (s.ahead (min n 256)).Coherent := coherent_setPosition h _
      have hrest := ih (n - min n 256) (by omega) hcoh (by
        rw [remaining_shown hcoh, shown_ahead, position_ahead]
        omega)
      refine bind_ok.mpr ⟨s.peek s.position (min n 256), s.ahead (min n 256), ?_, ?_⟩
      · rw [take, if_pos (by omega)]
        rfl
      · rw [hrest, ahead_ahead]
        congr 2
        omega

/-- Bytes that are there can be passed, in whichever way the stream skips. -/
theorem skip_shows {n : Nat} (h : s.Shows b) (hn : n = b.length) :
    ByteSource.skip n s = .ok () (s.ahead n) := by
  have hlen := h.length_le
  simp only [ByteSource.skip]
  split
  · exact skipInPieces_shows h.coherent (by omega)
  · rw [advance, if_pos (by omega)]
    rfl

/-- Reading a byte gives the one that is shown. -/
theorem readByte_shows {byte : UInt8} (h : s.Shows [byte]) :
    ByteSource.readByte s = .ok byte (s.ahead 1) := by
  rw [ByteSource.readByte, bind_ok]
  exact ⟨_, _, read_shows h, rfl⟩

end ByteStream

open ByteStream

/-! ## Numbers -/

variable {s : ByteStream}

/-- A number is put together again from its groups: those that were read make up `value`, and the
next one counts `2 ^ shift`. -/
theorem continueVarint_shows (more n value shift : Nat) (hmore : more ≤ 9)
    (hshift : shift = 7 * (9 - more)) (hn : n < 2 ^ (64 - shift))
    (h : s.Shows (Varint.groups more n)) :
    ByteSource.continueVarint (more + 1) ⟨value, shift⟩ s =
      .ok (UInt64.ofNat (value + n * 2 ^ shift)) (s.ahead (Varint.groups more n).length) := by
  induction more generalizing n value shift s with
  | zero =>
    -- the tenth group carries one bit
    obtain rfl : shift = 63 := by omega
    have hbit : n < 2 := by simpa using hn
    have hbyte := readByte_shows h
    have hnat : (UInt8.ofNat n).toNat = n := by
      rw [UInt8.toNat_ofNat']
      omega
    rw [ByteSource.continueVarint, bind_ok]
    refine ⟨_, _, hbyte, ?_⟩
    have hmod : n % 128 = n := Nat.mod_eq_of_lt (by omega)
    simp only [Varint.Decoder.push, hnat, hmod]
    rw [if_neg (by omega), if_pos (by omega)]
    rfl
  | succ more ih =>
    by_cases hsmall : n < 128
    · -- the last group
      simp only [Varint.groups, if_pos hsmall] at h ⊢
      have hbyte := readByte_shows h
      have hnat : (UInt8.ofNat n).toNat = n := by
        rw [UInt8.toNat_ofNat']
        omega
      have hmod : n % 128 = n := Nat.mod_eq_of_lt hsmall
      rw [ByteSource.continueVarint, bind_ok]
      refine ⟨_, _, hbyte, ?_⟩
      simp only [Varint.Decoder.push, hnat, hmod]
      rw [if_neg (by omega), if_pos hsmall]
      rfl
    · -- a group with more to come
      simp only [Varint.groups, if_neg hsmall] at h ⊢
      have hbyte := readByte_shows (h.left (b := [_]))
      have hnat : (UInt8.ofNat (n % 128 + 128)).toNat = n % 128 + 128 := by
        rw [UInt8.toNat_ofNat']
        omega
      have hmod : (n % 128 + 128) % 128 = n % 128 := by omega
      have hpow : 2 ^ (64 - shift) = 128 * 2 ^ (64 - (shift + 7)) := by
        rw [show 64 - shift = 7 + (64 - (shift + 7)) by omega, Nat.pow_add]
      have hrest := ih (n / 128) (value + n % 128 * 2 ^ shift) (shift + 7) (by omega)
        (by omega) (by rw [hpow] at hn; omega) (h.right (b := [_]))
      rw [ByteSource.continueVarint, bind_ok]
      refine ⟨_, _, hbyte, ?_⟩
      simp only [Varint.Decoder.push, hnat, hmod]
      rw [if_neg (by omega), if_neg (by omega), if_neg (by omega)]
      simp only
      rw [show (s.ahead 1) = s.ahead [UInt8.ofNat (n % 128 + 128)].length from rfl, hrest]
      have hsum : value + n % 128 * 2 ^ shift + n / 128 * 2 ^ (shift + 7) =
          value + n * 2 ^ shift := by
        have hsplit : n % 128 * 2 ^ shift + n / 128 * (2 ^ shift * 2 ^ 7) =
            (128 * (n / 128) + n % 128) * 2 ^ shift := by ring
        rw [Nat.pow_add, Nat.add_assoc, hsplit, Nat.div_add_mod]
      rw [hsum, ahead_ahead]
      congr 2
      simp
      omega


/-- The shortest form of a number reads back as the number. -/
theorem ByteStream.readVarint_shows {v : UInt64} (h : s.Shows (Varint.encode v)) :
    ByteSource.readVarint s = .ok v (s.ahead (Varint.encode v).length) := by
  have hread := continueVarint_shows 9 v.toNat 0 0 (by omega) rfl v.toNat_lt h
  rw [show 0 + v.toNat * 2 ^ 0 = v.toNat by omega, UInt64.ofNat_toNat] at hread
  exact hread

/-- A number read from some bytes fits into as many. -/
theorem leValue_lt (b : Bytes) : leValue b < 256 ^ b.length := by
  induction b with
  | nil => simp [leValue]
  | cons byte rest ih =>
    have hbyte := byte.toNat_lt
    rw [leValue, List.length_cons, Nat.pow_succ]
    omega

/-- A word reads back as the number, if it is wide enough. -/
theorem leValue_leBytes_of_lt {n v : Nat} (h : v < 256 ^ n) : leValue (leBytes n v) = v := by
  rw [leValue_leBytes, Nat.mod_eq_of_lt h]

/-! ## Scalars -/

namespace Scalar

/-- A scalar's bits fit into the bytes of its kind. -/
theorem bits_lt (s : Scalar) : s.bits < 256 ^ s.kind.bytes := by
  cases s with
  | bool v => cases v <;> decide
  | i8 v => exact v.toUInt8.toNat_lt
  | i16 v => exact v.toUInt16.toNat_lt
  | i32 v => exact v.toUInt32.toNat_lt
  | i64 v => exact v.toUInt64.toNat_lt
  | u8 v => exact v.toNat_lt
  | u16 v => exact v.toNat_lt
  | u32 v => exact v.toNat_lt
  | u64 v => exact v.toNat_lt
  | f32 v => exact v.toNat_lt
  | f64 v => exact v.toNat_lt

/-- A scalar is given back by its bits. -/
theorem ofBits_bits (s : Scalar) : ofBits s.kind s.bits = .ok s := by
  cases s with
  | bool v => cases v <;> rfl
  | i8 v => simp [ofBits, kind, bits]
  | i16 v => simp [ofBits, kind, bits]
  | i32 v => simp [ofBits, kind, bits]
  | i64 v => simp [ofBits, kind, bits]
  | u8 v => simp [ofBits, kind, bits]
  | u16 v => simp [ofBits, kind, bits]
  | u32 v => simp [ofBits, kind, bits]
  | u64 v => simp [ofBits, kind, bits]
  | f32 v => simp [ofBits, kind, bits]
  | f64 v => simp [ofBits, kind, bits]

/-- A scalar is encoded in the bytes of its kind. -/
@[simp] theorem length_encode (s : Scalar) : s.encode.length = s.kind.bytes := length_leBytes _ _

/-- A scalar, a float with its very bits, comes back from its native form. -/
theorem decode_encode (s : Scalar) : decode s.kind s.encode = .ok s := by
  rw [decode, encode, leValue_leBytes_of_lt s.bits_lt, ofBits_bits]

end Scalar

end RecordLayout
