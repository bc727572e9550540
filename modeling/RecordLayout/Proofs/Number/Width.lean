import Mathlib
import RecordLayout.Number.Width

/-!
# What fits a width

A width of so many bytes holds the numbers below that power of 256, and a wider one holds them too. The
widths are tried from the smallest on, so the first one that holds a number is the smallest.

Main results:

* `Width.canFit_iff` — what a width holds;
* `Width.canFit_fitting`, `Width.fitting_bytes_le` — the width that is chosen for a number.
-/

namespace RecordLayout

-- powers are those of numbers themselves
attribute [local instance (high)] instPowNat

namespace Width

theorem bytes_le (w : Width) : w.bytes ≤ 8 := by cases w <;> decide

theorem ofOrdinal_ofNat (w : Width) :
    ofOrdinal (UInt8.ofNat w.ordinal).toNat = .ok w := by cases w <;> rfl

/-- One less than the power of 256, also for the two widths that are not shifted. -/
theorem maxValue_eq (w : Width) : w.maxValue = 256 ^ w.bytes - 1 := by cases w <;> rfl

theorem canFit_iff {w : Width} {n : Nat} : w.canFit n = true ↔ n < 256 ^ w.bytes := by
  have hpos : 0 < 256 ^ w.bytes := Nat.pow_pos (by omega)
  rw [canFit, maxValue_eq, decide_eq_true_eq]
  omega

/-- A wider number holds no less. -/
theorem canFit_of_bytes_le {w other : Width} {n : Nat} (h : w.canFit n = true)
    (hle : w.bytes ≤ other.bytes) : other.canFit n = true := by
  rw [canFit_iff] at h ⊢
  exact Nat.lt_of_lt_of_le h (Nat.pow_le_pow_right (by omega) hle)

theorem canFit_of_le {w : Width} {m n : Nat} (h : w.canFit n = true) (hle : m ≤ n) :
    w.canFit m = true := by
  rw [canFit_iff] at h ⊢
  omega

theorem mem_all (w : Width) : w ∈ all := by cases w <;> decide

/-- A word fits into the width that is chosen for it. -/
theorem canFit_fitting {n : Nat} (h : n < 2 ^ 64) : (fitting n).canFit n = true := by
  unfold fitting
  cases hfound : all.find? (·.canFit n) with
  | some w =>
    have hfits := List.find?_some hfound
    exact hfits
  | none =>
    rw [Option.getD_none, canFit_iff]
    exact h

/-- The chosen width is the smallest one. -/
theorem fitting_bytes_le {n : Nat} {w : Width} (h : w.canFit n = true) :
    (fitting n).bytes ≤ w.bytes := by
  unfold fitting
  cases hfound : all.find? (·.canFit n) with
  | none => exact absurd h (by simpa using List.find?_eq_none.mp hfound w w.mem_all)
  | some found =>
    -- the widths are tried from the smallest on, so one that holds the number is not before this one
    obtain ⟨-, before, after, heq, hbefore⟩ := List.find?_eq_some_iff_append.mp hfound
    have hsorted : all.Pairwise fun a b => a.bytes ≤ b.bytes := by decide
    have hmem := w.mem_all
    rw [heq] at hsorted hmem
    rcases List.mem_append.mp hmem with hearly | hlate
    · have hsmall := hbefore w hearly
      rw [h] at hsmall
      cases hsmall
    · rcases List.mem_cons.mp hlate with rfl | hlater
      · exact Nat.le_refl _
      · exact List.rel_of_pairwise_cons (List.pairwise_append.mp hsorted).2.1 hlater

theorem fitting_bytes_le_iff {n : Nat} (h : n < 2 ^ 64) {w : Width} :
    (fitting n).bytes ≤ w.bytes ↔ w.canFit n = true :=
  ⟨canFit_of_bytes_le (canFit_fitting h), fitting_bytes_le⟩

end Width

end RecordLayout
