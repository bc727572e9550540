import Mathlib
import RecordLayout.Proofs.Value.Built

/-!
# Numbers as they are counted

A slot that is declared as a number may hold an integer of any kind: what is written is its count, in a
width of its own. The counted copy of a value has the count as an unsigned word in each such slot, at all
depths, and is otherwise the same value. In a wrapped value, only a record that the wrapper carries is
looked into.

Main results:

* `RecordOf.slot_counted`, `RecordOf.counted_setSlotAt` — slot by slot;
* `RecordOf.companions_counted`, `RecordOf.depth_counted` — what a counted copy shares with the record;
* `RecordOf.Ready.counted` — well-made records are counted as they are.
-/

namespace RecordLayout

/-- The count of a number as an unsigned word. A number without a count is replaced by something that
has none either. -/
def Value.asCount : Value → Value
  | .scalar s => match s.toNat? with
    | some n => .ofNat n
    | none => .list []
  | v => v

mutual

/-- A copy of a value in which numbers are given as counts. -/
def Value.counted (cat : Catalog) : Value → Value
  | .record r => .record (RecordOf.counted cat r)
  | .wrapped wrapper carrier => .wrapped wrapper
      (if carrier.schema = (cat.wrapper wrapper).carrier then RecordOf.counted cat carrier
        else carrier)
  | v => v

/-- Copies of the values of some fields in which numbers are given as counts. -/
def Value.countedAll (cat : Catalog) : List FieldDecl → List Value → List Value
  | _, [] => []
  | fields, v :: vs =>
    (if fields.head?.any (·.shape.isNumber) then (v.counted cat).asCount else v.counted cat) ::
      Value.countedAll cat fields.tail vs

/-- A copy of a record in which numbers are given as counts. -/
def RecordOf.counted (cat : Catalog) : RecordOf Value → RecordOf Value
  | ⟨schema, slots, chunks⟩ =>
    ⟨schema, Value.countedAll cat (cat.schema schema).fields slots, chunks⟩

end

/-- A copy of the value of a slot that is declared as a number or not. -/
def Value.countedAs (cat : Catalog) (number : Bool) (v : Value) : Value :=
  if number then (v.counted cat).asCount else v.counted cat

/-- Whether a slot of a schema is declared as a number. -/
def Catalog.countsAt (cat : Catalog) (schema : SchemaId) (i : Nat) : Bool :=
  (cat.schema schema).fields[i]?.any (·.shape.isNumber)

section

variable {cat : Catalog} {v : Value} {r : Record}

/-- A number that a scalar stands for is below the limit of the widest kind. -/
theorem Scalar.toNat?_lt {s : Scalar} {n : Nat} (h : s.toNat? = some n) : n < 2 ^ 64 := by
  cases s with
  | i8 x =>
    rw [Scalar.toNat?] at h
    have hlt := x.toInt_lt
    split at h <;> cases h
    omega
  | i16 x =>
    rw [Scalar.toNat?] at h
    have hlt := x.toInt_lt
    split at h <;> cases h
    omega
  | i32 x =>
    rw [Scalar.toNat?] at h
    have hlt := x.toInt_lt
    split at h <;> cases h
    omega
  | i64 x =>
    rw [Scalar.toNat?] at h
    have hlt := x.toInt_lt
    split at h <;> cases h
    omega
  | u8 x =>
    cases h
    exact x.toNat_lt.trans (by decide)
  | u16 x =>
    cases h
    exact x.toNat_lt.trans (by decide)
  | u32 x =>
    cases h
    exact x.toNat_lt.trans (by decide)
  | u64 x =>
    cases h
    exact x.toNat_lt
  | _ => cases h

/-! ## Single values -/

/-- Counting does not change the number. -/
theorem Value.toNat?_asCount (v : Value) : v.asCount.toNat? = v.toNat? := by
  cases v with
  | scalar s =>
    rw [asCount, Value.toNat?]
    cases hs : s.toNat? with
    | some n =>
      show some (UInt64.ofNat n).toNat = some n
      rw [UInt64.toNat_ofNat_of_lt' (Scalar.toNat?_lt hs)]
    | none => rfl
  | _ => rfl

/-- Counting makes nothing null. -/
theorem Value.isNull_asCount (v : Value) : v.asCount.isNull = v.isNull := by
  cases v with
  | scalar s =>
    rw [asCount]
    cases s.toNat? <;> rfl
  | _ => rfl

/-- A count names the same chunks as before, that is none. -/
theorem Value.companions_asCount (v : Value) : v.asCount.companions = v.companions := by
  cases v with
  | scalar s =>
    rw [asCount]
    cases s.toNat? <;> rfl
  | _ => rfl

theorem Value.depth_asCount (v : Value) : v.asCount.depth = v.depth := by
  cases v with
  | scalar s =>
    rw [asCount]
    cases s.toNat? <;> rfl
  | _ => rfl

/-- Counting brings no handle in. -/
theorem Value.HandleFree.asCount (h : v.HandleFree) : v.asCount.HandleFree := by
  cases v with
  | scalar s =>
    rw [Value.asCount]
    cases s.toNat? <;> trivial
  | _ => exact h

/-- A counted copy that is asked for its count. -/
theorem Value.toNat?_countedAs (number : Bool) (v : Value) :
    (v.countedAs cat number).toNat? = v.toNat? := by
  have hcopy : (v.counted cat).toNat? = v.toNat? := by
    cases v <;> rfl
  rw [countedAs]
  split
  · rw [toNat?_asCount, hcopy]
  · exact hcopy

theorem Value.isNull_countedAs (number : Bool) (v : Value) :
    (v.countedAs cat number).isNull = v.isNull := by
  have hcopy : (v.counted cat).isNull = v.isNull := by
    cases v <;> rfl
  rw [countedAs]
  split
  · rw [isNull_asCount, hcopy]
  · exact hcopy

/-! ## Slots -/

/-- A value of a counted record is counted by its field's shape. -/
theorem Value.getElem?_countedAll (fields : List FieldDecl) (values : List Value) (i : Nat) :
    (Value.countedAll cat fields values)[i]? =
      values[i]?.map (Value.countedAs cat (fields[i]?.any (·.shape.isNumber))) := by
  induction values generalizing fields i with
  | nil => rfl
  | cons v rest ih =>
    cases i with
    | zero =>
      rw [countedAll, List.getElem?_cons_zero, List.getElem?_cons_zero, Option.map_some, countedAs,
        List.head?_eq_getElem?]
    | succ i =>
      rw [countedAll, List.getElem?_cons_succ, List.getElem?_cons_succ, ih, List.getElem?_tail]

namespace RecordOf

/-- Counting keeps the schema. -/
@[simp] theorem schema_counted (r : Record) : (r.counted cat).schema = r.schema := by
  cases r
  rfl

/-- Counting keeps the chunks. -/
@[simp] theorem chunks_counted (r : Record) : (r.counted cat).chunks = r.chunks := by
  cases r
  rfl

/-- A slot of a counted record is counted by its field's shape. -/
theorem getElem?_counted (r : Record) (i : Nat) : (r.counted cat).slots[i]? =
    r.slots[i]?.map (Value.countedAs cat (cat.countsAt r.schema i)) := by
  obtain ⟨schema, slots, chunks⟩ := r
  exact Value.getElem?_countedAll _ _ _

/-- Counting keeps the number of slots. -/
@[simp] theorem slots_length_counted (r : Record) :
    (r.counted cat).slots.length = r.slots.length := by
  have hiff (i : Nat) : (r.counted cat).slots.length ≤ i ↔ r.slots.length ≤ i := by
    rw [← List.getElem?_eq_none_iff, getElem?_counted, Option.map_eq_none_iff,
      List.getElem?_eq_none_iff]
  exact Nat.le_antisymm ((hiff _).mpr (Nat.le_refl _)) ((hiff _).mp (Nat.le_refl _))

/-- A slot of a counted copy. -/
theorem slot_counted (r : Record) (i : Nat) :
    (r.counted cat).slot i = (r.slot i).countedAs cat (cat.countsAt r.schema i) := by
  rw [slot, slot, List.getD_eq_getElem?_getD, List.getD_eq_getElem?_getD, getElem?_counted]
  cases r.slots[i]? with
  | some v => rfl
  | none =>
    rw [Option.map_none, Option.getD_none, Value.countedAs]
    split <;> rfl

/-- Setting a value and counting may be swapped. -/
theorem counted_setSlot (r : Record) (i : Nat) (v : Value) : (r.setSlot i v).counted cat =
    (r.counted cat).setSlot i (v.countedAs cat (cat.countsAt r.schema i)) := by
  have hslots : ((r.setSlot i v).counted cat).slots =
      (r.counted cat).slots.set i (v.countedAs cat (cat.countsAt r.schema i)) := by
    refine List.ext_getElem? fun j => ?_
    rw [getElem?_counted, List.getElem?_set, getElem?_counted, slots_length_counted, setSlot,
      List.getElem?_set]
    by_cases hij : i = j
    · subst hij
      rw [if_pos rfl, if_pos rfl]
      split <;> rfl
    · rw [if_neg hij, if_neg hij]
  obtain ⟨schema, slots, chunks⟩ := r
  exact RecordOf.mk.injEq .. |>.mpr ⟨rfl, hslots, rfl⟩

/-- Setting a slot and counting may be swapped. -/
theorem counted_setSlotAt (r : Record) (i : Nat) (slot : Slot) : (r.setSlotAt i slot).counted cat =
    (r.counted cat).setSlotAt i
      ⟨slot.value.countedAs cat (cat.countsAt r.schema i), slot.chunk⟩ := by
  have hset : (r.setSlot i slot.value).counted cat = _ := counted_setSlot r i slot.value
  obtain ⟨schema, slots, chunks⟩ := r
  exact RecordOf.mk.injEq .. |>.mpr ⟨rfl, (RecordOf.mk.inj hset).2.1, rfl⟩

end RecordOf

/-- A slot of a counted copy with the chunk behind it. -/
theorem RecordOf.slotAt_counted (r : Record) (i : Nat) : (r.counted cat).slotAt i =
    ⟨(r.slot i).countedAs cat (cat.countsAt r.schema i), r.chunk i⟩ := by
  rw [slotAt, slot_counted, chunk, chunks_counted]
  rfl

/-- A slot that is not declared as a number. -/
theorem Value.countedAs_false (v : Value) : v.countedAs cat false = v.counted cat := rfl

/-! ## What a copy shares with the value -/

mutual

/-- A counted value names the same chunks. -/
theorem Value.companions_counted (cat : Catalog) :
    ∀ v : Value, (v.counted cat).companions = v.companions
  | .record r => RecordOf.companions_counted cat r
  | .wrapped wrapper carrier => by
    rw [Value.counted, Value.companions, Value.companions]
    split
    · exact RecordOf.companions_counted cat carrier
    · rfl
  | .null | .scalar _ | .width _ | .text _ | .list _ | .handle _ => rfl

/-- Counted values name the same chunks. -/
theorem Value.companionsAll_counted (cat : Catalog) : ∀ (fields : List FieldDecl)
    (values : List Value) (chunks : List ChunkId),
    Value.companionsAll (Value.countedAll cat fields values) chunks =
      Value.companionsAll values chunks
  | _, [], _ => rfl
  | fields, v :: vs, chunks => by
    rw [Value.countedAll, Value.companionsAll, Value.companionsAll,
      Value.companionsAll_counted cat fields.tail vs]
    split
    · rw [Value.companions_asCount, Value.companions_counted cat v]
    · rw [Value.companions_counted cat v]

/-- A counted copy names the same chunks. -/
theorem RecordOf.companions_counted (cat : Catalog) :
    ∀ r : RecordOf Value, (r.counted cat).companions = r.companions
  | ⟨_, slots, chunks⟩ => Value.companionsAll_counted cat _ slots chunks

end

/-- However a value is counted, it names the same chunks. -/
theorem Value.companions_countedAs (number : Bool) (v : Value) :
    (v.countedAs cat number).companions = v.companions := by
  rw [Value.countedAs]
  split
  · rw [Value.companions_asCount, Value.companions_counted]
  · exact Value.companions_counted cat v

mutual

/-- A counted value is as deep as before. -/
theorem Value.depth_counted (cat : Catalog) : ∀ v : Value, (v.counted cat).depth = v.depth
  | .record r => RecordOf.depth_counted cat r
  | .wrapped wrapper carrier => by
    rw [Value.counted, Value.depth, Value.depth]
    split
    · exact RecordOf.depth_counted cat carrier
    · rfl
  | .null | .scalar _ | .width _ | .text _ | .list _ | .handle _ => rfl

/-- Counted values are as deep as before. -/
theorem Value.depthAll_counted (cat : Catalog) : ∀ (fields : List FieldDecl)
    (values : List Value),
    Value.depthAll (Value.countedAll cat fields values) = Value.depthAll values
  | _, [] => rfl
  | fields, v :: vs => by
    rw [Value.countedAll, Value.depthAll, Value.depthAll, Value.depthAll_counted cat fields.tail vs]
    split
    · rw [Value.depth_asCount, Value.depth_counted cat v]
    · rw [Value.depth_counted cat v]

/-- A counted copy is as deep. -/
theorem RecordOf.depth_counted (cat : Catalog) :
    ∀ r : RecordOf Value, (r.counted cat).depth = r.depth
  | ⟨_, slots, _⟩ => congrArg (· + 1) (Value.depthAll_counted cat _ slots)

end

mutual

/-- A value without handles stays without. -/
theorem Value.HandleFree.counted (cat : Catalog) :
    ∀ {v : Value}, v.HandleFree → (v.counted cat).HandleFree
  | .record _, h => RecordOf.HandleFree.counted cat h
  | .wrapped wrapper carrier, h => by
    rw [Value.counted, Value.HandleFree]
    split
    · exact RecordOf.HandleFree.counted cat h
    · exact h
  | .null, _ | .scalar _, _ | .width _, _ | .text _, _ => trivial
  | .list _, h => h
  | .handle _, h => h.elim

/-- Values without handles stay without. -/
theorem Value.HandleFreeAll.counted (cat : Catalog) : ∀ (fields : List FieldDecl)
    {values : List Value}, Value.HandleFreeAll values →
      Value.HandleFreeAll (Value.countedAll cat fields values)
  | _, [], _ => trivial
  | fields, v :: vs, h => by
    rw [Value.countedAll]
    refine ⟨?_, Value.HandleFreeAll.counted cat fields.tail h.2⟩
    split
    · exact (Value.HandleFree.counted cat h.1).asCount
    · exact Value.HandleFree.counted cat h.1

/-- A counted copy has no handles if the record has none. -/
theorem RecordOf.HandleFree.counted (cat : Catalog) :
    ∀ {r : RecordOf Value}, r.HandleFree → (r.counted cat).HandleFree
  | ⟨_, _, _⟩, h => Value.HandleFreeAll.counted cat _ h

end

/-! ## Well-made values -/

/-- An unsigned word is its own count. -/
theorem Value.asCount_u64 (n : UInt64) : (Value.scalar (.u64 n)).asCount = .scalar (.u64 n) :=
  congrArg (fun m => Value.scalar (.u64 m)) (UInt64.ofNat_toNat (x := n))

mutual

/-- A value that is ready has its counts as numbers already. -/
theorem Value.Ready.counted {cat : Catalog} : ∀ {v : Value}, v.Ready cat → v.counted cat = v
  | .record _, h => congrArg Value.record (RecordOf.Ready.counted h)
  | .wrapped wrapper carrier, h => by
    rw [Value.counted]
    split
    · rw [RecordOf.Ready.counted h]
    · rfl
  | .null, _ | .scalar _, _ | .width _, _ | .text _, _ | .list _, _ | .handle _, _ => rfl

/-- Values that are ready have their counts as numbers already. -/
theorem Value.ReadyAll.counted {cat : Catalog} : ∀ {fields : List FieldDecl} {values : List Value},
    Value.ReadyAll cat values →
    (∀ (i : Nat) (f : FieldDecl), fields[i]? = some f → f.shape.isNumber = true →
      ∀ s, values[i]? = some (.scalar s) → ∃ n, s = .u64 n) →
    Value.countedAll cat fields values = values
  | _, [], _, _ => rfl
  | fields, v :: vs, h, hnumbers => by
    have hrest : Value.countedAll cat fields.tail vs = vs :=
      Value.ReadyAll.counted h.2 fun i f hf hnumber s hs =>
        hnumbers (i + 1) f (by rwa [← List.getElem?_tail]) hnumber s hs
    rw [Value.countedAll, hrest, Value.Ready.counted h.1]
    split
    · rename_i hnumber
      obtain ⟨f, hf, hnumber⟩ := (Option.any_eq_true _ _).mp hnumber
      cases v with
      | scalar s =>
        obtain ⟨n, rfl⟩ := hnumbers 0 f (by rwa [← List.head?_eq_getElem?]) hnumber s rfl
        rw [Value.asCount_u64]
      | _ => rfl
    · rfl

/-- Well-made records are counted as they are. -/
theorem RecordOf.Ready.counted {cat : Catalog} :
    ∀ {r : RecordOf Value}, r.Ready cat → r.counted cat = r
  | ⟨_, _, _⟩, ⟨_, _, hnumbers, hall⟩ =>
    RecordOf.mk.injEq .. |>.mpr ⟨rfl, Value.ReadyAll.counted hall hnumbers, rfl⟩

end

/-- So are their counted copies. -/
theorem RecordOf.Ready.counted_ready (h : r.Ready cat) : (r.counted cat).Ready cat := by
  rwa [h.counted]

end

end RecordLayout
