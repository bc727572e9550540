import Mathlib
import RecordLayout.Proofs.Number.Width
import RecordLayout.Proofs.Stream.Pieces

/-!
# Words that lose nothing

A word of some width keeps the low bytes of a number. What is read back from it is the number modulo a
power of 256, so it is the number itself exactly if the width can hold it. The widths grow from one to the
next, with no width of seven bytes, so there is a smallest one from which a number comes back; it is the
one that is chosen for the number.

Main results:

* `comesBack_mod`, `ComesBack.unique` — what is read back, and that it is nothing else;
* `Width.comesBack_iff_canFit` — when nothing is lost;
* `Width.word_comesBack` — words of all widths.
-/

namespace RecordLayout

-- powers are those of numbers themselves
attribute [local instance (high)] instPowNat

/-- A number that is written as a word of so many bytes is read back as `r`. The same bytes go to every
sink, and wherever they are left in a stream with exact reads, whatever follows, `r` is read and what
follows is left. -/
def ComesBack (width : Nat) (v r : UInt64) : Prop :=
  ∃ word : Bytes,
    (∀ (τ : Type) [ByteSink τ],
      (ByteSink.writeWord width v : StreamM τ Unit) = ByteSink.write word) ∧
    ∀ (σ : Type) [ByteSource σ] (Left : σ → Bytes → Prop),
      ReadsExactly (ByteSource.read : Nat → StreamM σ Bytes) Left →
      ∀ (s : σ) (rest : Bytes), Left s (word ++ rest) →
        ∃ t, (ByteSource.readWord width : StreamM σ UInt64) s = .ok r t ∧ Left t rest

variable {width : Nat} {v r r' : UInt64}

/-- The bytes above the width are lost. -/
theorem comesBack_mod (hwidth : width ≤ 8) (v : UInt64) :
    ComesBack width v (UInt64.ofNat (v.toNat % 256 ^ width)) := by
  refine ⟨leBytes width v.toNat, ?_, ?_⟩
  · intro τ _
    rw [ByteSink.writeWord, if_neg (Nat.not_lt.mpr hwidth)]
  · intro σ _ Left h s rest hs
    -- the word is as long as the width, so reading the width takes the word and nothing of the rest
    have hlen : width ≤ (leBytes width v.toNat ++ rest).length := by
      rw [List.length_append, length_leBytes]
      omega
    obtain ⟨t, hread, ht⟩ := h.enough hs hlen
    rw [List.take_left' (length_leBytes _ _)] at hread
    rw [List.drop_left' (length_leBytes _ _)] at ht
    refine ⟨t, ?_, ht⟩
    rw [ByteSource.readWord, if_neg (Nat.not_lt.mpr hwidth), bind_of_ok hread, leValue_leBytes]
    rfl

/-- A word is read back as one number only: bytes in memory tell which. -/
theorem ComesBack.unique (h : ComesBack width v r) (h' : ComesBack width v r') : r = r' := by
  obtain ⟨word, hwrite, hread⟩ := h
  obtain ⟨word', hwrite', hread'⟩ := h'
  -- written to empty memory, the two words are what is there
  have hsame : (ByteSink.write word : StreamM Bytes Unit) [] = ByteSink.write word' [] := by
    rw [← hwrite Bytes, ← hwrite' Bytes]
  have hword : word = word' := by
    have hok : EStateM.Result.ok (ε := StreamError) () word = .ok () word' := hsame
    cases hok
    rfl
  subst hword
  obtain ⟨t, hrun, -⟩ := hread Bytes (· = ·) Bytes.readsExactly (word ++ []) [] rfl
  obtain ⟨t', hrun', -⟩ := hread' Bytes (· = ·) Bytes.readsExactly (word ++ []) [] rfl
  rw [hrun] at hrun'
  cases hrun'
  rfl

namespace Width

/-- The widths are in the order of their bytes. -/
theorem ordinal_le_iff (w other : Width) : w.ordinal ≤ other.ordinal ↔ w.bytes ≤ other.bytes := by
  cases w <;> cases other <;> decide

theorem comesBack_iff (w : Width) (v r : UInt64) :
    ComesBack w.bytes v r ↔ r = UInt64.ofNat (v.toNat % 256 ^ w.bytes) := by
  constructor
  · intro h
    exact h.unique (comesBack_mod w.bytes_le v)
  · rintro rfl
    exact comesBack_mod w.bytes_le v

/-- A number comes back exactly if it fits: the remainder is less than the power, and is not changed by
being taken as a number of 64 bits. -/
theorem comesBack_iff_canFit (w : Width) (v : UInt64) :
    ComesBack w.bytes v v ↔ w.canFit v.toNat = true := by
  have hv := v.toNat_lt
  have hle := Nat.mod_le v.toNat (256 ^ w.bytes)
  rw [comesBack_iff, canFit_iff]
  constructor
  · intro h
    have hmod : v.toNat = v.toNat % 256 ^ w.bytes := by
      rw [← UInt64.toNat_ofNat_of_lt' (Nat.lt_of_le_of_lt hle hv), ← h]
    rw [hmod]
    exact Nat.mod_lt _ (Nat.pow_pos (by omega))
  · intro h
    rw [Nat.mod_eq_of_lt h, UInt64.ofNat_toNat]

/-- A word of any width gives the number back modulo the power of 256 that the width has bytes, and so
the number itself exactly if it fits. The width that is chosen for a number is the least one to do so. -/
theorem word_comesBack (v : UInt64) (w : Width) :
    (∀ r, ComesBack w.bytes v r ↔ r = UInt64.ofNat (v.toNat % 256 ^ w.bytes)) ∧
    (ComesBack w.bytes v v ↔ w.canFit v.toNat = true) ∧
    ComesBack (fitting v.toNat).bytes v v ∧
    ∀ other : Width, ComesBack other.bytes v v → (fitting v.toNat).ordinal ≤ other.ordinal := by
  refine ⟨comesBack_iff w v, comesBack_iff_canFit w v, ?_, ?_⟩
  · rw [comesBack_iff_canFit]
    exact canFit_fitting v.toNat_lt
  · intro other hback
    rw [ordinal_le_iff]
    exact fitting_bytes_le ((comesBack_iff_canFit other v).mp hback)

end Width

end RecordLayout
