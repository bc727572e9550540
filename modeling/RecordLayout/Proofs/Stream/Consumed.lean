import Mathlib
import RecordLayout.Proofs.Stream.Reading

/-!
# What reads have consumed

A read that succeeds has passed bytes that the stream showed, and what it gives is what these bytes
spell. So reads are determined by the bytes after the cursor, in both directions: `*_spelled` says
what bytes give, `*_ok` which bytes were there. A number of variable length may be spelled in a
padded form; `Varint.Spells` covers these forms too.

Main results:

* `readVarint_ok`, `readVarint_spelled` — numbers of variable length;
* `readBytes_ok`, `skip_ok` — bytes that were read in pieces or passed.
-/

namespace RecordLayout

namespace Varint

/-- Bytes go on spelling a number after what has been read of it, with at most so many bytes. -/
inductive Decoder.Spells : Nat → Decoder → Bytes → UInt64 → Prop
  | last {more : Nat} {d : Decoder} {byte : UInt8} {v : UInt64} (h : d.push byte = .done v) :
    Spells (more + 1) d [byte] v
  | more {more : Nat} {d next : Decoder} {byte : UInt8} {b : Bytes} {v : UInt64}
    (h : d.push byte = .more next) (rest : Spells more next b v) :
    Spells (more + 1) d (byte :: b) v

/-- Bytes spell a number, in its shortest form or a padded one. -/
def Spells (b : Bytes) (v : UInt64) : Prop := Decoder.Spells maxLength .start b v

end Varint

namespace ByteStream

variable {s s' : ByteStream} {b c : Bytes}

/-- What is shown from the cursor and then from behind it is shown together. -/
theorem Shows.append (h : s.Shows b) (h' : (s.ahead b.length).Shows c) : s.Shows (b ++ c) := by
  obtain ⟨rest, hrest⟩ := h.prefixed
  obtain ⟨more, hmore⟩ := h'.prefixed
  refine ⟨h.coherent, more, ?_⟩
  rw [shown_ahead, position_ahead, ← List.drop_drop, ← hrest, List.drop_left] at hmore
  rw [List.append_assoc, hmore, hrest]

/-- A stream stays coherent as the cursor moves ahead. -/
theorem Shows.ahead (h : s.Shows b) (n : Nat) : (s.ahead n).Coherent :=
  coherent_setPosition h.coherent _

/-! ## Bytes -/

/-- The bytes that can be passed are there. -/
theorem shows_of_le {n : Nat} (h : s.Coherent) (hn : n ≤ s.remaining) :
    ∃ b, s.Shows b ∧ b.length = n := by
  rw [remaining_shown h] at hn
  refine ⟨(s.shown.drop s.position).take n, ⟨h, List.take_prefix _ _⟩, ?_⟩
  rw [List.length_take, List.length_drop]
  omega

/-- Bytes that were taken are the ones shown. -/
theorem take_ok {n : Nat} (h : s.Coherent) (hrun : take n s = .ok b s') :
    s.Shows b ∧ b.length = n ∧ s' = s.ahead n := by
  simp only [take] at hrun
  split at hrun
  · rename_i hn
    cases hrun
    have hrem := remaining_shown h
    have hpeek : s.peek s.position n = (s.shown.drop s.position).take n :=
      peek_shown h (by omega)
    rw [hpeek, List.length_take, List.length_drop]
    exact ⟨⟨h, List.take_prefix _ _⟩, by omega, rfl⟩
  · cases hrun

/-- Bytes that were read are the ones shown. -/
theorem read_ok {n : Nat} (h : s.Coherent) (hrun : ByteSource.read n s = .ok b s') :
    s.Shows b ∧ b.length = n ∧ s' = s.ahead n :=
  take_ok h hrun

/-- Bytes that were read piece by piece are the ones shown. -/
theorem readInPieces_ok {total start : Nat} (h : s.Coherent)
    (hrun : readInPieces take total start s = .ok b s') :
    s.Shows b ∧ b.length = total - start ∧ s' = s.ahead b.length := by
  induction hleft : total - start using Nat.strong_induction_on generalizing s start b s' with
  | _ left ih =>
    rw [readInPieces] at hrun
    split at hrun
    · obtain ⟨rfl, rfl⟩ := pure_ok.mp hrun
      exact ⟨.nil h, by rw [List.length_nil]; omega, by rw [List.length_nil, ahead_zero]⟩
    · obtain ⟨piece, t, htake, hthen⟩ := bind_ok.mp hrun
      obtain ⟨rest, t', hrest, hpure⟩ := bind_ok.mp hthen
      obtain ⟨rfl, rfl⟩ := pure_ok.mp hpure
      obtain ⟨hshows, hlen, rfl⟩ := take_ok h (failingAs_ok.mp htake)
      obtain ⟨hmore, hlen', rfl⟩ := ih _ (by omega) (hshows.ahead _) hrest rfl
      rw [← hlen] at hmore
      refine ⟨hshows.append hmore, by rw [List.length_append]; omega, ?_⟩
      rw [ahead_ahead, List.length_append, hlen]

/-- A run of bytes that was read is the one shown. -/
theorem readBytes_ok {n : Nat} (h : s.Coherent) (hrun : ByteSource.readBytes n s = .ok b s') :
    s.Shows b ∧ b.length = n ∧ s' = s.ahead n := by
  obtain ⟨hshows, hlen, hs'⟩ := readInPieces_ok h hrun
  rw [Nat.sub_zero] at hlen
  exact ⟨hshows, hlen, by rw [hs', hlen]⟩

/-- Bytes that were skipped had been there. -/
theorem skipInPieces_ok {n : Nat} {u : Unit} (h : s.Coherent)
    (hrun : skipInPieces take n s = .ok u s') : n ≤ s.remaining ∧ s' = s.ahead n := by
  induction n using Nat.strong_induction_on generalizing s with
  | _ n ih =>
    rw [skipInPieces] at hrun
    split at hrun
    · rename_i hzero
      obtain ⟨-, rfl⟩ := pure_ok.mp hrun
      exact ⟨by omega, by rw [hzero, ahead_zero]⟩
    · obtain ⟨piece, t, htake, hrest⟩ := bind_ok.mp hrun
      obtain ⟨hshows, hlen, rfl⟩ := take_ok h htake
      have hcoh := hshows.ahead (min n 256)
      obtain ⟨hle, rfl⟩ := ih (n - min n 256) (by omega) hcoh hrest
      have hpiece := hshows.length_le
      rw [remaining_shown hcoh, shown_ahead, position_ahead] at hle
      rw [remaining_shown h] at hpiece ⊢
      refine ⟨by omega, ?_⟩
      rw [ahead_ahead]
      congr 1
      omega

/-- Bytes that were passed were there. -/
theorem skip_ok {n : Nat} {u : Unit} (h : s.Coherent) (hrun : ByteSource.skip n s = .ok u s') :
    ∃ b, s.Shows b ∧ b.length = n ∧ s' = s.ahead n := by
  have hpassed : n ≤ s.remaining ∧ s' = s.ahead n := by
    simp only [ByteSource.skip] at hrun
    split at hrun
    · exact skipInPieces_ok h hrun
    · simp only [advance] at hrun
      split at hrun
      · cases hrun
        exact ⟨‹_›, rfl⟩
      · cases hrun
  obtain ⟨b, hshows, hlen⟩ := shows_of_le h hpassed.1
  exact ⟨b, hshows, hlen, hpassed.2⟩

/-- A byte that was read is the one shown. -/
theorem readByte_ok {byte : UInt8} (h : s.Coherent) (hrun : ByteSource.readByte s = .ok byte s') :
    s.Shows [byte] ∧ s' = s.ahead 1 := by
  obtain ⟨b, t, hread, hpure⟩ := bind_ok.mp hrun
  obtain ⟨rfl, rfl⟩ := pure_ok.mp hpure
  obtain ⟨hshows, hlen, rfl⟩ := read_ok h hread
  obtain ⟨byte, rfl⟩ := List.length_eq_one_iff.mp hlen
  exact ⟨hshows, rfl⟩

/-! ## Words -/

/-- A word is read from the bytes that spell it. -/
theorem readWord_spelled {width : Nat} (hwidth : width ≤ 8) (hlen : b.length = width)
    (h : s.Shows b) :
    ByteSource.readWord width s = .ok (UInt64.ofNat (leValue b)) (s.ahead b.length) := by
  rw [ByteSource.readWord, if_neg (by omega), ← hlen, bind_of_ok (read_shows h)]
  rfl

/-- A number of four bytes is read from the bytes that spell it. -/
theorem readU32_spelled (hlen : b.length = 4) (h : s.Shows b) :
    ByteSource.readU32 s = .ok (leValue b) (s.ahead b.length) := by
  rw [ByteSource.readU32, ← hlen, bind_of_ok (read_shows h)]
  rfl

/-- A number of eight bytes is read from the bytes that spell it. -/
theorem readU64_spelled (hlen : b.length = 8) (h : s.Shows b) :
    ByteSource.readU64 s = .ok (UInt64.ofNat (leValue b)) (s.ahead b.length) := by
  rw [ByteSource.readU64, ← hlen, bind_of_ok (read_shows h)]
  rfl

/-- A number of eight bytes that was read is spelled by the bytes shown. -/
theorem readU64_ok {v : UInt64} (h : s.Coherent) (hrun : ByteSource.readU64 s = .ok v s') :
    ∃ b, s.Shows b ∧ b.length = 8 ∧ v.toNat = leValue b ∧ s' = s.ahead b.length := by
  obtain ⟨b, t, hread, hpure⟩ := bind_ok.mp hrun
  obtain ⟨rfl, rfl⟩ := pure_ok.mp hpure
  obtain ⟨hshows, hlen, rfl⟩ := read_ok h hread
  refine ⟨b, hshows, hlen, ?_, by rw [hlen]⟩
  have hlt := leValue_lt b
  rw [hlen] at hlt
  exact UInt64.toNat_ofNat_of_lt' (Nat.lt_of_lt_of_le hlt (by decide))

/-! ## Numbers of variable length -/

/-- The loop of the varint reader reads what the bytes spell. -/
theorem continueVarint_spelled {more : Nat} {d : Varint.Decoder} {v : UInt64}
    (hspell : d.Spells more b v) (h : s.Shows b) :
    ByteSource.continueVarint more d s = .ok v (s.ahead b.length) := by
  induction hspell generalizing s with
  | last hpush =>
    rw [ByteSource.continueVarint, bind_of_ok (readByte_shows h), hpush]
    rfl
  | @more more d next byte b v hpush rest ih =>
    rw [ByteSource.continueVarint, bind_of_ok (readByte_shows (h.left (b := [byte]))), hpush]
    refine (ih (h.right (b := [byte]))).trans ?_
    rw [ahead_ahead, show [byte].length + b.length = (byte :: b).length from Nat.add_comm _ _]

/-- What the loop of the varint reader reads is spelled by the bytes shown. -/
theorem continueVarint_ok {more : Nat} {d : Varint.Decoder} {v : UInt64} (h : s.Coherent)
    (hrun : ByteSource.continueVarint more d s = .ok v s') :
    ∃ b, d.Spells more b v ∧ s.Shows b ∧ s' = s.ahead b.length := by
  induction more generalizing d s with
  | zero => cases hrun
  | succ more ih =>
    obtain ⟨byte, t, hbyte, hnext⟩ := bind_ok.mp hrun
    obtain ⟨hshows, rfl⟩ := readByte_ok h hbyte
    cases hpush : d.push byte with
    | more next =>
      simp only [hpush] at hnext
      obtain ⟨b, hspell, hmore, rfl⟩ := ih (hshows.ahead 1) hnext
      refine ⟨byte :: b, .more hpush hspell, hshows.append (c := b) hmore, ?_⟩
      rw [ahead_ahead, List.length_cons, Nat.add_comm]
    | done value =>
      simp only [hpush] at hnext
      obtain ⟨rfl, rfl⟩ := pure_ok.mp hnext
      exact ⟨[byte], .last hpush, hshows, rfl⟩
    | overflow =>
      simp only [hpush] at hnext
      cases hnext

/-- A varint is read from the bytes that spell it. -/
theorem readVarint_spelled {v : UInt64} (hspell : Varint.Spells b v) (h : s.Shows b) :
    ByteSource.readVarint s = .ok v (s.ahead b.length) :=
  continueVarint_spelled hspell h

/-- A varint that was read is spelled by the bytes shown. -/
theorem readVarint_ok {v : UInt64} (h : s.Coherent) (hrun : ByteSource.readVarint s = .ok v s') :
    ∃ b, Varint.Spells b v ∧ s.Shows b ∧ s' = s.ahead b.length :=
  continueVarint_ok h hrun

end ByteStream

/-- The shortest form spells the number: it is read back, and only bytes that spell it are. -/
theorem Varint.spells_encode (v : UInt64) : Spells (encode v) v := by
  have hshows : (ByteStream.ofBytes (encode v)).Shows (encode v) := ⟨trivial, List.prefix_rfl⟩
  obtain ⟨b, hspell, hprefix, hend⟩ := ByteStream.readVarint_ok hshows.coherent
    (ByteStream.readVarint_shows hshows)
  rw [ByteStream.ahead_ofBytes, ByteStream.ahead_ofBytes] at hend
  have hlen : (encode v).length = b.length := congrArg ByteStream.position hend
  have hsame : b = encode v := List.IsPrefix.eq_of_length hprefix.prefixed hlen.symm
  rwa [hsame] at hspell

end RecordLayout
