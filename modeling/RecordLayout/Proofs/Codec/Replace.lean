import Mathlib
import RecordLayout.Proofs.Codec.Kept

/-!
# Replacing slots

Between two writes the slots of a record are given other values, at any depth. The chunk behind a slot
stays with it; those inside the value that was there are no longer named.

Main results:

* `RecordOf.companions_setSlot_perm` — the chunks of a record of which one slot is replaced;
* `RecordOf.Edited.companions_perm` — what is named after any replacements, and what is no longer;
* `RecordOf.Edited.tidy` — chunks in use stay so.
-/

namespace RecordLayout

/-! ## One slot -/

/-- The chunks of values in a row of which one is replaced. -/
theorem Value.companionsAll_set_perm {values : List Value} (chunks : List ChunkId) {i : Nat}
    (hi : i < values.length) (v : Value) :
    (Value.companionsAll (values.set i v) chunks ++ (values.getD i .null).companions).Perm
      (Value.companionsAll values chunks ++ v.companions) := by
  induction values generalizing chunks i with
  | nil => exact absurd hi (Nat.not_lt_zero i)
  | cons u rest ih =>
    cases i with
    | zero =>
      simp only [List.set_cons_zero, Value.companionsAll, List.getD_cons_zero, List.append_assoc]
      refine List.Perm.append_left _ ?_
      refine (List.perm_append_comm_assoc _ _ _).trans ?_
      refine .trans ?_ (List.perm_append_comm_assoc _ _ _)
      exact List.perm_append_comm.append_left _
    | succ i =>
      simp only [List.set_cons_succ, Value.companionsAll, List.getD_cons_succ, List.append_assoc]
      exact ((ih chunks.tail (Nat.lt_of_succ_lt_succ hi)).append_left _).append_left _

namespace RecordOf

/-- The chunks of a record of which one slot is replaced. -/
theorem companions_setSlot_perm {r : Record} {i : Nat} (hi : i < r.slots.length) (v : Value) :
    ((r.setSlot i v).companions ++ (r.slot i).companions).Perm (r.companions ++ v.companions) := by
  obtain ⟨schema, slots, chunks⟩ := r
  exact Value.companionsAll_set_perm chunks hi v

/-! ## Replacements at any depth -/

/-- One slot of a record, or of a record inside it, has been given another value, which names no chunks
yet. The chunks in `lost` are those inside the value that was there. -/
inductive Replaced : Record → Record → List ChunkId → Prop
  | here {r : Record} {i : Nat} {v : Value} (hi : i < r.slots.length) (hthere : v ≠ .null)
    (hnew : v.companions = []) (hfree : v.HandleFree) :
    Replaced r (r.setSlot i v) (r.slot i).companions
  | inside {r r' : Record} {i : Nat} {lost : List ChunkId} (hi : i < r.slots.length)
    (h : Replaced (r.slot i).innerRecord r' lost) :
    Replaced r (r.setSlot i ((r.slot i).setInnerRecord r')) lost

/-- Any number of slots have been given other values, one after the other. -/
inductive Edited (r : Record) : Record → List ChunkId → Prop
  | refl : Edited r r []
  | step {r' r'' : Record} {lost more : List ChunkId} (h : Edited r r' lost)
    (hnext : Replaced r' r'' more) : Edited r r'' (lost ++ more)

section

variable {r r' : Record} {lost : List ChunkId}

theorem Replaced.slots_pos (h : Replaced r r' lost) : 0 < r.slots.length := by
  cases h with
  | here hi _ _ _ => exact Nat.zero_lt_of_lt hi
  | inside hi _ => exact Nat.zero_lt_of_lt hi

theorem Replaced.schema (h : Replaced r r' lost) : r'.schema = r.schema := by
  cases h <;> rfl

/-- A value in which a slot can be replaced is a record or a wrapped one. -/
theorem Replaced.isRecord {v : Value} (h : Replaced v.innerRecord r' lost) :
    v = .record v.innerRecord ∨ ∃ wrapper, v = .wrapped wrapper v.innerRecord := by
  cases v with
  | record s => exact .inl rfl
  | wrapped wrapper s => exact .inr ⟨wrapper, rfl⟩
  | _ => exact absurd h.slots_pos (Nat.lt_irrefl 0)

theorem Replaced.setInnerRecord_ne_null {v : Value} (h : Replaced v.innerRecord r' lost) :
    v.setInnerRecord r' ≠ .null := by
  rcases h.isRecord with hv | ⟨wrapper, hv⟩ <;> rw [hv] <;> exact nofun

theorem Replaced.innerRecord_setInnerRecord {v : Value} (h : Replaced v.innerRecord r' lost) :
    (v.setInnerRecord r').innerRecord = r' := by
  rcases h.isRecord with hv | ⟨wrapper, hv⟩ <;> rw [hv] <;> rfl

/-- The chunks inside a value in which a slot is replaced. -/
theorem Replaced.companions_value {v : Value} (h : Replaced v.innerRecord r' lost)
    (hperm : v.innerRecord.companions.Perm (r'.companions ++ lost)) :
    v.companions.Perm ((v.setInnerRecord r').companions ++ lost) := by
  rcases h.isRecord with hv | ⟨wrapper, hv⟩ <;> rw [hv] at hperm ⊢ <;> exact hperm

/-- What is no longer named after a replacement is what was lost. -/
theorem Replaced.companions_perm (h : Replaced r r' lost) :
    r.companions.Perm (r'.companions ++ lost) := by
  induction h with
  | @here r i v hi _ hnew _ =>
    have hset := companions_setSlot_perm hi v
    rw [hnew, List.append_nil] at hset
    exact hset.symm
  | @inside r r' i lost hi h ih =>
    have hvalue := h.companions_value ih
    have hset := companions_setSlot_perm hi ((r.slot i).setInnerRecord r')
    -- the chunks of the new value stand on both sides
    refine (List.perm_append_right_iff ((r.slot i).setInnerRecord r').companions).mp ?_
    refine hset.symm.trans ((hvalue.append_left _).trans ?_)
    rw [List.append_assoc]
    exact List.perm_append_comm.append_left _

theorem Replaced.handleFree (h : Replaced r r' lost) (hfree : r.HandleFree) : r'.HandleFree := by
  induction h with
  | here _ _ _ hnew => exact hfree.setSlot hnew _
  | @inside r r' i lost hi h ih =>
    have hvalue := hfree.slot i
    exact hfree.setSlot (hvalue.setInnerRecord (ih hvalue.innerRecord)) i

/-- A value in which a slot is replaced stays tidy if the record inside it does. -/
theorem Replaced.tidy_value {c : Compiler} {p : Placement} {v : Value}
    (h : Replaced v.innerRecord r' lost) (ht : v.Tidy c p)
    (hrecord : ∀ l, v.innerRecord.Tidy c l → r'.Tidy c l) : (v.setInnerRecord r').Tidy c p := by
  have hinner := h.innerRecord_setInnerRecord
  cases ht with
  | bare hnone =>
    have hperm := h.companions_value h.companions_perm
    rw [hnone] at hperm
    exact .bare (List.append_eq_nil_iff.mp hperm.nil_eq.symm).1
  | @record p v key l hkey hl hallows hbacked hinside =>
    have hr := hrecord l ⟨hallows, fun f hf q marker he =>
      ⟨hbacked f hf q marker he, hinside f hf q marker he⟩⟩
    rw [← hinner] at hr
    exact hr.value ((Placement.innerKey?_setInnerRecord h.schema).trans hkey) hl

/-- A slot whose value is replaced by one that is there and names no other chunks. -/
theorem Tidy.setSlot {c : Compiler} {l : Layout} (h : r.Tidy c l) {i : Nat} {v : Value}
    (hi : i < r.slots.length) (hthere : v ≠ .null) (hsub : v.companions ⊆ (r.slot i).companions)
    (hinside : ∀ q, (r.slot i).Tidy c q → v.Tidy c q) : (r.setSlot i v).Tidy c l := by
  rw [setSlot_eq_setSlotAt]
  refine h.setSlotAt ?_ (fun f hf hslot => ?_) fun f hf hslot q marker he => ?_
  · rw [← setSlot_eq_setSlotAt]
    exact slot_setSlot_self hi v
  · subst hslot
    have hallows := h.allows f hf
    refine ⟨fun hplain => ?_, fun hderived => ?_⟩
    · obtain ⟨hown, hnone⟩ := List.append_eq_nil_iff.mp (hallows.plain hplain)
      exact List.append_eq_nil_iff.mpr ⟨hown, List.subset_nil.mp (hnone ▸ hsub)⟩
    · exact List.subset_nil.mp (hallows.derived hderived ▸ hsub)
  · subst hslot
    have hplaced := h.placed f hf q marker he
    exact ⟨hplaced.backed.imp_right fun hbehind => ⟨hbehind.1, hthere⟩, hinside q hplaced.inside⟩

/-- Chunks in use stay so when a slot is replaced. -/
theorem Replaced.tidy (h : Replaced r r' lost) {c : Compiler} {l : Layout} (ht : r.Tidy c l) :
    r'.Tidy c l := by
  induction h generalizing l with
  | here hi hthere hnew _ =>
    exact ht.setSlot hi hthere (by rw [hnew]; exact List.nil_subset _) fun _ _ => .bare hnew
  | @inside r r' i lost hi h ih =>
    refine ht.setSlot hi h.setInnerRecord_ne_null ?_ fun q hq => h.tidy_value hq fun l => ih
    have hperm := h.companions_value h.companions_perm
    exact fun x hx => hperm.symm.subset (List.mem_append_left _ hx)

/-- What is no longer named after any replacements is what was lost. -/
theorem Edited.companions_perm (h : Edited r r' lost) :
    r.companions.Perm (r'.companions ++ lost) := by
  induction h with
  | refl => rw [List.append_nil]
  | @step r' r'' lost more _ hnext ih =>
    refine ih.trans ((hnext.companions_perm.append_right lost).trans ?_)
    rw [List.append_assoc]
    exact List.perm_append_comm.append_left _

/-- Chunks in use stay so when slots are replaced. -/
theorem Edited.tidy (h : Edited r r' lost) {c : Compiler} {l : Layout} (ht : r.Tidy c l) :
    r'.Tidy c l := by
  induction h with
  | refl => exact ht
  | step _ hnext ih => exact hnext.tidy ih

theorem Edited.handleFree (h : Edited r r' lost) (hfree : r.HandleFree) : r'.HandleFree := by
  induction h with
  | refl => exact hfree
  | step _ hnext ih => exact hnext.handleFree ih

end

end RecordOf

end RecordLayout
