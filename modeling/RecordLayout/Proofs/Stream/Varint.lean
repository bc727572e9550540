import Mathlib
import RecordLayout.Proofs.Stream.Consumed
import RecordLayout.Stream.Adapters

/-!
# The forms of a number of variable length

Bytes denote a number if every byte but the last has its high bit set and the low seven bits of the
bytes are the digits of the number to the base 128, lowest first. This speaks of the bytes only. The
encoder works from the number, the decoder byte by byte, and the length of the shortest form is
computed without either; all three agree on what bytes denote. They meet at the tenth byte, which has
room for one bit of a 64-bit number: there the decoder refuses just what denotes no such number.

Main results:

* `Decoder.spells_iff_denotes` — the decoder takes in the bytes that denote a number, and no others;
* `NeedsDigits.encode`, `NeedsDigits.length` — the shortest form, and its length;
* `readVarint_canonical` — what is read from any bytes, and that the encoder gives the shortest form.
-/

namespace RecordLayout

namespace Varint

/-! ## Digits to the base 128 -/

/-- The number whose digits to the base 128, lowest first, are the low seven bits of the bytes. -/
def worth (b : Bytes) : Nat := ∑ i ∈ Finset.range b.length, (b.getD i 0).toNat % 128 * 128 ^ i

/-- Every byte but the last has its high bit set. -/
def Delimited (b : Bytes) : Prop :=
  ∃ init last, b = init ++ [last] ∧ (∀ byte ∈ init, 128 ≤ byte.toNat) ∧ last.toNat < 128

/-- The bytes are a form of the number, the shortest one or a padded one. -/
structure Denotes (b : Bytes) (v : UInt64) : Prop where
  length_le : b.length ≤ maxLength
  delimited : Delimited b
  worth_eq : worth b = v.toNat

theorem worth_nil : worth [] = 0 := rfl

theorem worth_cons (byte : UInt8) (b : Bytes) :
    worth (byte :: b) = byte.toNat % 128 + 128 * worth b := by
  have hrest : ∀ i ∈ Finset.range b.length,
      ((byte :: b).getD (i + 1) 0).toNat % 128 * 128 ^ (i + 1) =
        128 * ((b.getD i 0).toNat % 128 * 128 ^ i) := by
    intro i _
    rw [List.getD_cons_succ, Nat.pow_succ]
    ring
  unfold worth
  rw [List.length_cons, Finset.sum_range_succ', Finset.sum_congr rfl hrest, ← Finset.mul_sum,
    Nat.add_comm]
  simp

theorem worth_lt (b : Bytes) : worth b < 128 ^ b.length := by
  induction b with
  | nil => exact Nat.zero_lt_one
  | cons byte b ih =>
    rw [worth_cons, List.length_cons, Nat.pow_succ]
    omega

theorem not_delimited_nil : ¬Delimited [] := by
  rintro ⟨init, last, hnil, -, -⟩
  exact absurd hnil.symm (List.append_ne_nil_of_right_ne_nil _ (List.cons_ne_nil _ _))

/-- A byte with a low high bit is the last one, any other goes before more. -/
theorem delimited_cons {byte : UInt8} {b : Bytes} :
    Delimited (byte :: b) ↔ byte.toNat < 128 ∧ b = [] ∨ 128 ≤ byte.toNat ∧ Delimited b := by
  constructor
  · rintro ⟨init, last, heq, hinit, hlast⟩
    cases init with
    | nil =>
      obtain ⟨rfl, rfl⟩ := List.cons.inj heq
      exact Or.inl ⟨hlast, rfl⟩
    | cons first init =>
      obtain ⟨rfl, rfl⟩ := List.cons.inj heq
      refine Or.inr ⟨hinit _ List.mem_cons_self, init, last, rfl, ?_, hlast⟩
      intro byte hbyte
      exact hinit byte (List.mem_cons_of_mem _ hbyte)
  · rintro (⟨hsmall, rfl⟩ | ⟨hlarge, init, last, rfl, hinit, hlast⟩)
    · exact ⟨[], byte, rfl, nofun, hsmall⟩
    · refine ⟨byte :: init, last, rfl, ?_, hlast⟩
      intro other hother
      rcases List.mem_cons.mp hother with rfl | hmem
      · exact hlarge
      · exact hinit other hmem

/-- Two forms of one number are the same if they are equally long. -/
theorem Delimited.unique {b c : Bytes} (hb : Delimited b) (hc : Delimited c)
    (hlen : b.length = c.length) (hworth : worth b = worth c) : b = c := by
  induction b generalizing c with
  | nil => exact absurd hb not_delimited_nil
  | cons byte b ih =>
    cases c with
    | nil => exact absurd hc not_delimited_nil
    | cons other c =>
      rw [worth_cons, worth_cons] at hworth
      rw [List.length_cons, List.length_cons] at hlen
      have hbyte := byte.toNat_lt
      have hother := other.toNat_lt
      -- the high bits agree because both end at the same place
      rcases delimited_cons.mp hb with ⟨hsmall, rfl⟩ | ⟨hlarge, hb⟩
      · obtain rfl : c = [] := List.eq_nil_of_length_eq_zero (by simpa using hlen.symm)
        rcases delimited_cons.mp hc with ⟨hsmall', -⟩ | ⟨-, hc⟩
        · rw [UInt8.toNat_inj.mp (show byte.toNat = other.toNat by omega)]
        · exact absurd hc not_delimited_nil
      · rcases delimited_cons.mp hc with ⟨-, rfl⟩ | ⟨hlarge', hc⟩
        · obtain rfl : b = [] := List.eq_nil_of_length_eq_zero (by simpa using hlen)
          exact absurd hb not_delimited_nil
        · rw [ih hb hc (by omega) (by omega),
            UInt8.toNat_inj.mp (show byte.toNat = other.toNat by omega)]

/-! ## What the decoder takes in -/

/-- A decoder between two bytes: `more` bytes can still come, and those before them have been put
together. -/
structure Decoder.Midway (d : Decoder) (more : Nat) : Prop where
  shift : d.shift + 7 * more = 70
  value : d.value < 2 ^ d.shift

namespace Decoder

variable {d : Decoder} {more : Nat} {byte : UInt8} {b : Bytes} {v : UInt64}

theorem midway_start : start.Midway maxLength := ⟨rfl, Nat.zero_lt_one⟩

theorem Midway.next (h : d.Midway (more + 1)) (byte : UInt8) :
    Midway ⟨d.value + byte.toNat % 128 * 2 ^ d.shift, d.shift + 7⟩ more := by
  have hshift := h.shift
  have hvalue := h.value
  have hdigit : byte.toNat % 128 ≤ 127 := by omega
  have hmul := Nat.mul_le_mul_right (2 ^ d.shift) hdigit
  refine ⟨by show d.shift + 7 + 7 * more = 70; omega, ?_⟩
  show d.value + byte.toNat % 128 * 2 ^ d.shift < 2 ^ (d.shift + 7)
  rw [Nat.pow_add]
  omega

/-- A byte with its high bit set goes before more, unless it is the tenth. -/
theorem push_large (h : d.Midway (more + 1)) (hlarge : 128 ≤ byte.toNat) :
    d.push byte = if more = 0 then .overflow
      else .more ⟨d.value + byte.toNat % 128 * 2 ^ d.shift, d.shift + 7⟩ := by
  have hshift := h.shift
  unfold push
  by_cases hlast : more = 0
  · subst hlast
    have hfull : 63 < d.shift + 7 := by omega
    simp only [if_neg (Nat.not_lt.mpr hlarge), if_pos hfull, ite_self, if_true]
  · have hroom : ¬63 < d.shift + 7 := by omega
    have hearly : ¬(d.shift = 63 ∧ 1 < byte.toNat % 128) := by omega
    simp only [if_neg hearly, if_neg (Nat.not_lt.mpr hlarge), if_neg hroom, if_neg hlast]

/-- A byte with its high bit clear is the last one; it has to fit if it is the tenth. -/
theorem push_small (h : d.Midway (more + 1)) (hsmall : byte.toNat < 128) :
    d.push byte = if d.value + worth [byte] * 2 ^ d.shift < 2 ^ 64
      then .done (UInt64.ofNat (d.value + worth [byte] * 2 ^ d.shift)) else .overflow := by
  have hshift := h.shift
  have hvalue := h.value
  rw [worth_cons, worth_nil, Nat.mul_zero, Nat.add_zero]
  have hmod : byte.toNat % 128 = byte.toNat := Nat.mod_eq_of_lt hsmall
  unfold push
  simp only [hmod, if_pos hsmall]
  by_cases hlast : d.shift = 63
  · -- the tenth byte has room for one bit
    rw [hlast] at hvalue ⊢
    by_cases hbit : 1 < byte.toNat
    · rw [if_pos ⟨rfl, hbit⟩, if_neg (by omega)]
    · rw [if_neg (by omega), if_pos (by omega)]
  · have hle : 2 ^ (d.shift + 7) ≤ 2 ^ 63 := Nat.pow_le_pow_right (by decide) (by omega)
    have hnext : d.value + byte.toNat % 128 * 2 ^ d.shift < 2 ^ (d.shift + 7) := (h.next byte).value
    rw [hmod] at hnext
    rw [if_neg (by omega), if_pos (by omega)]

/-- The number goes on only if more bytes can come. -/
theorem Midway.of_more (h : d.Midway (more + 1)) {next : Decoder}
    (hpush : d.push byte = .more next) : more ≠ 0 ∧ next.Midway more := by
  rcases Nat.lt_or_ge byte.toNat 128 with hsmall | hlarge
  · rw [push_small h hsmall] at hpush
    split at hpush <;> cases hpush
  · rw [push_large h hlarge] at hpush
    split at hpush
    · cases hpush
    · rename_i hmore
      cases hpush
      exact ⟨hmore, h.next byte⟩

/-- Only the tenth byte is refused. -/
theorem Midway.of_overflow (h : d.Midway (more + 1)) (hpush : d.push byte = .overflow) :
    more = 0 := by
  rcases Nat.lt_or_ge byte.toNat 128 with hsmall | hlarge
  · rw [push_small h hsmall] at hpush
    split at hpush
    · cases hpush
    · rename_i hfull
      have hvalue := (h.next byte).value
      rw [worth_cons, worth_nil, Nat.mul_zero, Nat.add_zero] at hfull
      by_contra hmore
      have hshift := h.shift
      have hle : 2 ^ (d.shift + 7) ≤ 2 ^ 63 := Nat.pow_le_pow_right (by decide) (by omega)
      exact hfull (Nat.lt_trans (Nat.lt_of_lt_of_le hvalue hle) (by decide))
  · rw [push_large h hlarge] at hpush
    split at hpush
    · rename_i hlast
      exact hlast
    · cases hpush

/-- The decoder puts the digits together that are still to come, by induction on how many these can
be. -/
theorem spells_iff (h : d.Midway more) :
    d.Spells more b v ↔
      b.length ≤ more ∧ Delimited b ∧ d.value + worth b * 2 ^ d.shift = v.toNat := by
  induction more generalizing d b with
  | zero =>
    constructor
    · intro hspell
      cases hspell
    · rintro ⟨hlen, hdelimited, -⟩
      obtain rfl := List.eq_nil_of_length_eq_zero (Nat.le_zero.mp hlen)
      exact absurd hdelimited not_delimited_nil
  | succ more ih =>
    have hv := v.toNat_lt
    constructor
    · intro hspell
      cases hspell with
      | @last _ _ byte _ hpush =>
        rcases Nat.lt_or_ge byte.toNat 128 with hsmall | hlarge
        · rw [push_small h hsmall] at hpush
          split at hpush
          · rename_i hfits
            cases hpush
            refine ⟨by simp, delimited_cons.mpr (Or.inl ⟨hsmall, rfl⟩), ?_⟩
            rw [UInt64.toNat_ofNat_of_lt' hfits]
          · cases hpush
        · rw [push_large h hlarge] at hpush
          split at hpush <;> cases hpush
      | @more _ _ next byte b _ hpush rest =>
        rcases Nat.lt_or_ge byte.toNat 128 with hsmall | hlarge
        · rw [push_small h hsmall] at hpush
          split at hpush <;> cases hpush
        · rw [push_large h hlarge] at hpush
          split at hpush
          · cases hpush
          · cases hpush
            obtain ⟨hlen, hdelimited, hsum⟩ := (ih (h.next byte)).mp rest
            refine ⟨by simpa using hlen, delimited_cons.mpr (Or.inr ⟨hlarge, hdelimited⟩), ?_⟩
            rw [← hsum, worth_cons, Nat.pow_add]
            ring
    · rintro ⟨hlen, hdelimited, hsum⟩
      cases b with
      | nil => exact absurd hdelimited not_delimited_nil
      | cons byte b =>
        rw [List.length_cons, Nat.add_le_add_iff_right] at hlen
        rcases delimited_cons.mp hdelimited with ⟨hsmall, rfl⟩ | ⟨hlarge, hdelimited⟩
        · refine .last ?_
          rw [push_small h hsmall, hsum, if_pos hv, UInt64.ofNat_toNat]
        · -- there is a byte after this one, so this is not the tenth
          have hmore : more ≠ 0 := by
            rintro rfl
            obtain rfl := List.eq_nil_of_length_eq_zero (Nat.le_zero.mp hlen)
            exact not_delimited_nil hdelimited
          refine .more ((push_large h hlarge).trans (if_neg hmore)) ?_
          refine (ih (h.next byte)).mpr ⟨hlen, hdelimited, ?_⟩
          rw [← hsum, worth_cons, Nat.pow_add]
          ring

/-- The decoder takes in the bytes that denote a number, and no others. -/
theorem spells_iff_denotes : Spells maxLength start b v ↔ Denotes b v := by
  rw [spells_iff midway_start]
  constructor
  · rintro ⟨hlen, hdelimited, hsum⟩
    refine ⟨hlen, hdelimited, ?_⟩
    rw [← hsum]
    show worth b = 0 + worth b * 1
    omega
  · rintro ⟨hlen, hdelimited, hsum⟩
    refine ⟨hlen, hdelimited, ?_⟩
    rw [← hsum]
    show 0 + worth b * 1 = worth b
    omega

end Decoder

/-! ## Reading from bytes -/

section

variable {d : Decoder} {more : Nat} {b rest : Bytes} {v : UInt64}

theorem readByte_cons (byte : UInt8) (b : Bytes) :
    (ByteSource.readByte : StreamM Bytes UInt8) (byte :: b) = .ok byte b := rfl

/-- A number is read from the bytes at the front that spell it. -/
theorem continueVarint_bytes_ok :
    (ByteSource.continueVarint more d : StreamM Bytes UInt64) b = .ok v rest ↔
      ∃ c, b = c ++ rest ∧ d.Spells more c v := by
  induction more generalizing d b with
  | zero =>
    constructor
    · intro hrun
      cases hrun
    · rintro ⟨c, -, hspell⟩
      cases hspell
  | succ more ih =>
    constructor
    · intro hrun
      obtain ⟨byte, t, hbyte, hnext⟩ := bind_ok.mp hrun
      -- what the first byte leads to decides whether more are read
      cases b with
      | nil => cases hbyte
      | cons first b =>
        rw [readByte_cons] at hbyte
        cases hbyte
        cases hpush : d.push byte with
        | more next =>
          simp only [hpush] at hnext
          obtain ⟨c, rfl, hspell⟩ := ih.mp hnext
          exact ⟨byte :: c, rfl, .more hpush hspell⟩
        | done value =>
          simp only [hpush] at hnext
          obtain ⟨rfl, rfl⟩ := pure_ok.mp hnext
          exact ⟨[byte], rfl, .last hpush⟩
        | overflow =>
          simp only [hpush] at hnext
          cases hnext
    · rintro ⟨c, rfl, hspell⟩
      cases hspell with
      | last hpush =>
        refine (bind_of_ok (readByte_cons _ _)).trans ?_
        simp only [hpush]
        rfl
      | more hpush hspell =>
        refine (bind_of_ok (readByte_cons _ _)).trans ?_
        simp only [hpush]
        exact ih.mpr ⟨_, rfl, hspell⟩

/-- With enough bytes there, a number that is not read is found too large at the last of them. -/
theorem continueVarint_bytes_overflow (h : d.Midway (more + 1)) (hlen : more + 1 ≤ b.length)
    (hnone : ∀ c v, c <+: b → ¬d.Spells (more + 1) c v) :
    (ByteSource.continueVarint (more + 1) d : StreamM Bytes UInt64) b =
      .error .varintOverflow (b.drop (more + 1)) := by
  induction more using Nat.strong_induction_on generalizing d b with
  | _ more ih =>
    obtain ⟨byte, b, rfl⟩ := List.exists_cons_of_length_pos (Nat.zero_lt_of_lt hlen)
    rw [List.length_cons, Nat.add_le_add_iff_right] at hlen
    rw [List.drop_succ_cons]
    refine (bind_of_ok (readByte_cons _ _)).trans ?_
    cases hpush : d.push byte with
    | done value => exact absurd (.last hpush) (hnone [byte] value ⟨b, rfl⟩)
    | more next =>
      obtain ⟨hne, hnext⟩ := h.of_more hpush
      obtain ⟨fewer, rfl⟩ := Nat.exists_eq_succ_of_ne_zero hne
      refine ih fewer (Nat.lt_succ_self _) hnext hlen fun c v hc hspell => ?_
      exact hnone (byte :: c) v (List.cons_prefix_cons.mpr ⟨rfl, hc⟩) (.more hpush hspell)
    | overflow =>
      obtain rfl := h.of_overflow hpush
      rfl

/-- The last byte that can come ends the number or is refused, so that no read goes on without one. -/
theorem continueVarint_not_exhausted {σ : Type} [ByteSource σ]
    (hread : ∀ n (s t : σ), ByteSource.read n s ≠ .error .exhausted t) (h : d.Midway (more + 1))
    (s t : σ) : ByteSource.continueVarint (more + 1) d s ≠ .error .exhausted t := by
  induction more using Nat.strong_induction_on generalizing d s with
  | _ more ih =>
    intro hrun
    rcases bind_error.mp hrun with hbyte | ⟨byte, u, -, hgo⟩
    · rcases bind_error.mp hbyte with hfail | ⟨bytes, u, -, hpure⟩
      · exact hread 1 s t hfail
      · cases hpure
    · cases hpush : d.push byte with
      | done value =>
        simp only [hpush] at hgo
        cases hgo
      | more next =>
        simp only [hpush] at hgo
        obtain ⟨hne, hnext⟩ := h.of_more hpush
        obtain ⟨fewer, rfl⟩ := Nat.exists_eq_succ_of_ne_zero hne
        exact ih fewer (Nat.lt_succ_self _) hnext u hgo
      | overflow =>
        simp only [hpush] at hgo
        cases hgo

/-- A number is at an end, or found too large, with the last byte that it can have. -/
theorem readVarint_not_exhausted {σ : Type} [ByteSource σ]
    (hread : ∀ n (s t : σ), ByteSource.read n s ≠ .error .exhausted t) (s t : σ) :
    (ByteSource.readVarint : StreamM σ UInt64) s ≠ .error .exhausted t :=
  continueVarint_not_exhausted hread Decoder.midway_start s t

end

/-! ## The shortest form -/

/-- A number has `k` digits to the base 128; zero has one. -/
structure NeedsDigits (n k : Nat) : Prop where
  pos : 0 < k
  lt : n < 128 ^ k
  le : 1 < k → 128 ^ (k - 1) ≤ n

namespace NeedsDigits

variable {n k m : Nat}

/-- Fewer digits do not do. -/
theorem le_of_lt (h : NeedsDigits n k) (hm : 0 < m) (hlt : n < 128 ^ m) : k ≤ m := by
  by_contra hshort
  have hle := h.le (by omega)
  have hpow : 128 ^ m ≤ 128 ^ (k - 1) := Nat.pow_le_pow_right (by decide) (by omega)
  omega

theorem unique (h : NeedsDigits n k) (h' : NeedsDigits n m) : k = m :=
  Nat.le_antisymm (h.le_of_lt h'.pos h'.lt) (h'.le_of_lt h.pos h.lt)

/-- The encoder writes as many digits as there are. -/
theorem groups {more : Nat} (hn : n < 128 ^ (more + 1)) :
    NeedsDigits n (groups more n).length := by
  induction more generalizing n with
  | zero => exact ⟨Nat.zero_lt_one, hn, fun h => absurd h (Nat.lt_irrefl 1)⟩
  | succ more ih =>
    unfold Varint.groups
    split
    · rename_i hsmall
      exact ⟨Nat.zero_lt_one, by simpa using hsmall, fun h => absurd h (Nat.lt_irrefl 1)⟩
    · rename_i hlarge
      have hdiv : n / 128 < 128 ^ (more + 1) := by
        rw [Nat.pow_succ] at hn
        omega
      obtain ⟨hpos, hlt, hle⟩ := ih hdiv
      rw [List.length_cons]
      generalize (Varint.groups more (n / 128)).length = k at hpos hlt hle ⊢
      have hfloor := Nat.div_mul_le_self n 128
      refine ⟨Nat.succ_pos _, by rw [Nat.pow_succ]; omega, fun _ => ?_⟩
      rw [Nat.add_sub_cancel]
      rcases Nat.lt_or_ge 1 k with hmany | hone
      · -- the digits above the lowest one are those of the quotient
        have hquotient := hle hmany
        obtain ⟨m, rfl⟩ : ∃ m, k = m + 1 := ⟨k - 1, by omega⟩
        rw [Nat.pow_succ]
        rw [Nat.add_sub_cancel] at hquotient
        omega
      · obtain rfl : k = 1 := by omega
        rw [Nat.pow_one]
        omega

/-- The length that is computed from the number of binary digits is the number of digits. -/
theorem length (v : UInt64) : NeedsDigits v.toNat (Varint.length v) := by
  unfold Varint.length bitLength
  generalize v.toNat = n
  split
  · rename_i hzero
    subst hzero
    exact ⟨Nat.zero_lt_one, Nat.zero_lt_one.trans (by decide), fun h => absurd h (by decide)⟩
  · rename_i hne
    have hpow (k : Nat) : 128 ^ k = 2 ^ (7 * k) := by rw [Nat.pow_mul]
    have hbelow : ∀ k, n < 128 ^ k ↔ n.log2 < 7 * k := by
      intro k
      rw [hpow, Nat.log2_lt hne]
    generalize n.log2 = bits at hbelow
    refine ⟨by omega, (hbelow _).mpr (by omega), fun hmany => ?_⟩
    rw [← Nat.not_lt, hbelow]
    omega

theorem encode (v : UInt64) : NeedsDigits v.toNat (Varint.encode v).length := by
  refine groups (Nat.lt_trans v.toNat_lt ?_)
  decide

end NeedsDigits

theorem denotes_encode (v : UInt64) : Denotes (encode v) v :=
  Decoder.spells_iff_denotes.mp (spells_encode v)

/-- Every form of a number is the shortest one or longer. -/
theorem Denotes.shortest {b : Bytes} {v : UInt64} (h : Denotes b v) :
    b = encode v ∨ (encode v).length < b.length := by
  have hencode := denotes_encode v
  have hpos : 0 < b.length := by
    obtain ⟨init, last, rfl, -, -⟩ := h.delimited
    simp
  have hle : (encode v).length ≤ b.length := by
    refine (NeedsDigits.encode v).le_of_lt hpos ?_
    rw [← h.worth_eq]
    exact worth_lt b
  rcases Nat.eq_or_lt_of_le hle with heq | hlt
  · left
    exact h.delimited.unique hencode.delimited heq.symm (h.worth_eq.trans hencode.worth_eq.symm)
  · exact Or.inr hlt

/-- A number is read from any bytes exactly if these start with a form of it, and that form is consumed.
Where ten bytes are there and none of them end a number of 64 bits, they are consumed and the number is
refused. The encoder gives the one shortest form, and the computed length is that of this form. -/
theorem readVarint_canonical :
    (∀ (b rest : Bytes) (v : UInt64),
      (ByteSource.readVarint : StreamM Bytes UInt64) b = .ok v rest ↔
        ∃ c, b = c ++ rest ∧ Denotes c v) ∧
    (∀ b : Bytes, maxLength ≤ b.length → (∀ c v, c <+: b → ¬Denotes c v) →
      (ByteSource.readVarint : StreamM Bytes UInt64) b =
        .error .varintOverflow (b.drop maxLength)) ∧
    ∀ v : UInt64,
      (ByteSource.readVarint : StreamM Bytes UInt64) (encode v) = .ok v [] ∧
      (encode v).length = length v ∧
      ∀ b rest, (ByteSource.readVarint : StreamM Bytes UInt64) b = .ok v rest →
        b = encode v ∨ (encode v).length < b.length := by
  have hread (b rest : Bytes) (v : UInt64) :
      (ByteSource.readVarint : StreamM Bytes UInt64) b = .ok v rest ↔
        ∃ c, b = c ++ rest ∧ Denotes c v := by
    simp only [← Decoder.spells_iff_denotes]
    exact continueVarint_bytes_ok
  refine ⟨hread, fun b hlen hnone => ?_, fun v => ⟨?_, ?_, fun b rest hrun => ?_⟩⟩
  · refine continueVarint_bytes_overflow Decoder.midway_start hlen fun c v hc hspell => ?_
    exact hnone c v hc (Decoder.spells_iff_denotes.mp hspell)
  · exact (hread _ _ _).mpr ⟨encode v, (List.append_nil _).symm, denotes_encode v⟩
  · exact (NeedsDigits.encode v).unique (NeedsDigits.length v)
  · obtain ⟨c, rfl, hc⟩ := (hread _ _ _).mp hrun
    rw [List.length_append]
    rcases hc.shortest with rfl | hlonger
    · -- bytes after the shortest form make the string longer
      rcases List.eq_nil_or_concat rest with rfl | ⟨init, last, rfl⟩
      · exact Or.inl (List.append_nil _)
      · right
        simp
    · right
      omega

end Varint

end RecordLayout
