import Mathlib
import RecordLayout.Proofs.Value.Content

/-!
# What readers ask of values

A reader runs the build check of each immutable record that it makes: `Built` says that all of them
pass. `Accepted` says so for every record of the same content, and therefore carries over to what is
read back. A walk over the chunks of a record also enters the chunks behind handles, which the record
does not own: `HandleFree` values have none.

Main results:

* `Value.Accepted.built` — what has the content of an accepted value passes the build checks;
* `Value.handleFree_of_detached` — whether there are handles is a matter of content.
-/

namespace RecordLayout

/-! ## Build checks -/

mutual

/-- Every record in a value passes its build check, as a draft. -/
def Value.Built (cat : Catalog) : Value → Prop
  | .record r => RecordOf.Built cat r
  | .wrapped _ carrier => RecordOf.Built cat carrier
  | _ => True

/-- Every record in some values passes its build check. -/
def Value.BuiltAll (cat : Catalog) : List Value → Prop
  | [] => True
  | v :: vs => v.Built cat ∧ Value.BuiltAll cat vs

/-- A record passes its build check, as a draft, and so do the records inside. -/
def RecordOf.Built (cat : Catalog) : RecordOf Value → Prop
  | ⟨schema, slots, _⟩ =>
    (cat.schema schema).checkBuild (cat.schema schema.toDraft) slots = .ok () ∧
      Value.BuiltAll cat slots

end

theorem Value.builtAll_iff {cat : Catalog} {values : List Value} :
    BuiltAll cat values ↔ ∀ v ∈ values, v.Built cat := by
  induction values with
  | nil => simp [BuiltAll]
  | cons v vs ih => simp [BuiltAll, ih]

namespace RecordOf

variable {cat : Catalog} {r : Record}

theorem built_iff : r.Built cat ↔
    (cat.schema r.schema).checkBuild (cat.schema r.schema.toDraft) r.slots = .ok () ∧
      ∀ v ∈ r.slots, v.Built cat := by
  obtain ⟨schema, slots, chunks⟩ := r
  rw [Built, Value.builtAll_iff]

theorem Built.slot (h : r.Built cat) (i : Nat) : (r.slot i).Built cat := by
  rw [RecordOf.slot, List.getD_eq_getElem?_getD]
  cases hi : r.slots[i]? with
  | none => trivial
  | some v => exact (built_iff.mp h).2 v (List.mem_of_getElem? hi)

end RecordOf

mutual

/-- What has the content of an accepted value passes the build checks. -/
theorem Value.Accepted.built {cat : Catalog} : ∀ {v v' : Value}, v.Accepted cat →
    v'.detached = v.detached → v'.Built cat
  | .record _, .record _, h, hsame => RecordOf.Accepted.built h (Value.record.inj hsame)
  | .wrapped _ _, .wrapped _ _, h, hsame =>
    RecordOf.Accepted.built h (Value.wrapped.inj hsame).2
  | _, .null, _, _ => trivial
  | _, .scalar _, _, _ => trivial
  | _, .width _, _, _ => trivial
  | _, .text _, _, _ => trivial
  | _, .list _, _, _ => trivial
  | _, .handle _, _, _ => trivial

theorem Value.AcceptedAll.built {cat : Catalog} : ∀ {vs vs' : List Value},
    Value.AcceptedAll cat vs → Value.detachedAll vs' = Value.detachedAll vs → Value.BuiltAll cat vs'
  | _, [], _, _ => trivial
  | _ :: _, _ :: _, h, hsame =>
    ⟨Value.Accepted.built h.1 (List.cons.inj hsame).1,
      Value.AcceptedAll.built h.2 (List.cons.inj hsame).2⟩

theorem RecordOf.Accepted.built {cat : Catalog} : ∀ {r r' : RecordOf Value}, r.Accepted cat →
    r'.detached = r.detached → r'.Built cat
  | ⟨schema, slots, chunks⟩, ⟨schema', slots', chunks'⟩, h, hsame => by
    obtain ⟨rfl, hslots, -⟩ := RecordOf.mk.inj hsame
    refine ⟨h.1 slots' ?_, Value.AcceptedAll.built h.2 hslots⟩
    rw [← Value.detachedAll_eq_map, ← Value.detachedAll_eq_map, hslots]

end

/-! ## Handles -/

mutual

/-- There is no handle in a value. -/
def Value.HandleFree : Value → Prop
  | .handle _ => False
  | .list items => Value.HandleFreeAll items
  | .record r => RecordOf.HandleFree r
  | .wrapped _ carrier => RecordOf.HandleFree carrier
  | _ => True

/-- There is no handle in some values. -/
def Value.HandleFreeAll : List Value → Prop
  | [] => True
  | v :: vs => v.HandleFree ∧ Value.HandleFreeAll vs

/-- There is no handle in a record. -/
def RecordOf.HandleFree : RecordOf Value → Prop
  | ⟨_, slots, _⟩ => Value.HandleFreeAll slots

end

theorem Value.handleFreeAll_iff {values : List Value} :
    HandleFreeAll values ↔ ∀ v ∈ values, v.HandleFree := by
  induction values with
  | nil => simp [HandleFreeAll]
  | cons v vs ih => simp [HandleFreeAll, ih]

theorem RecordOf.HandleFree.slot {r : Record} (h : r.HandleFree) (i : Nat) :
    (r.slot i).HandleFree := by
  obtain ⟨schema, slots, chunks⟩ := r
  have hall : ∀ v ∈ slots, v.HandleFree := Value.handleFreeAll_iff.mp h
  rw [RecordOf.slot, List.getD_eq_getElem?_getD]
  cases hi : slots[i]? with
  | none => trivial
  | some v => exact hall v (List.mem_of_getElem? hi)

mutual

/-- Whether there are handles is a matter of content. -/
theorem Value.handleFree_of_detached : ∀ {v v' : Value}, v.HandleFree →
    v'.detached = v.detached → v'.HandleFree
  | .record _, .record _, h, hsame => RecordOf.handleFree_of_detached h (Value.record.inj hsame)
  | .wrapped _ _, .wrapped _ _, h, hsame =>
    RecordOf.handleFree_of_detached h (Value.wrapped.inj hsame).2
  | .list _, .list _, h, hsame => Value.handleFreeAll_of_detached h (Value.list.inj hsame)
  | .handle _, .handle _, h, _ => h
  | _, .null, _, _ => trivial
  | _, .scalar _, _, _ => trivial
  | _, .width _, _, _ => trivial
  | _, .text _, _, _ => trivial

theorem Value.handleFreeAll_of_detached : ∀ {vs vs' : List Value},
    Value.HandleFreeAll vs → Value.detachedAll vs' = Value.detachedAll vs → Value.HandleFreeAll vs'
  | _, [], _, _ => trivial
  | _ :: _, _ :: _, h, hsame =>
    ⟨Value.handleFree_of_detached h.1 (List.cons.inj hsame).1,
      Value.handleFreeAll_of_detached h.2 (List.cons.inj hsame).2⟩

theorem RecordOf.handleFree_of_detached : ∀ {r r' : RecordOf Value}, r.HandleFree →
    r'.detached = r.detached → r'.HandleFree
  | ⟨_, _, _⟩, ⟨_, _, _⟩, h, hsame =>
    Value.handleFreeAll_of_detached h (RecordOf.mk.inj hsame).2.1

end

end RecordLayout
