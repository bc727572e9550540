import Mathlib
import RecordLayout.Proofs.Codec.Frame
import RecordLayout.Proofs.Size.Written
import RecordLayout.Proofs.Value.Counted

/-!
# Chunks in use

A chunk behind a slot is in use if it is there that the value of the slot is kept. A value is tidy
in a placement if all chunks that it names are in use, at all depths: only slots whose placements
keep values behind references have chunks, and only as long as there are values. A record that names
no chunk is tidy, and whatever replaces the value of a slot leaves the chunk behind it in use.

Main results:

* `Value.Tidy.mono` — tidiness does not go with what is learnt;
* `Value.Tidy.inner`, `RecordOf.Tidy.value` — tidy values and the tidy records inside them;
* `RecordOf.Tidy.setSlotAt` — replacing a slot of a tidy record;
* `RecordOf.Tidy.counted` — counted copies of tidy records.
-/

namespace RecordLayout

/-! ## Slots and layouts -/

/-- The layout in which the record inside a value stands, for the placement of the value. -/
def Placement.innerKey? (cat : Catalog) (p : Placement) : Value → Option LayoutKey
  | .record r => some (r.schema, match p with
    | .fixedRecord _ => .fixed
    | _ => .standard)
  | .wrapped wrapper _ => some (match p with
    | .wrapped _ carrier kind => (carrier, kind)
    | _ => ((cat.wrapper wrapper).carrier, .standard))
  | _ => none

/-- The chunk behind a slot is in use: the placement keeps the value in it, and there is one. -/
def Slot.Backed (p : Placement) (slot : Slot) : Prop :=
  slot.chunk = .null ∨ p.isBehind = true ∧ slot.value ≠ .null

/-- What a field allows its slot to name. -/
structure BoundField.Allows (f : BoundField) (slot : Slot) : Prop where
  /-- Only placed values have chunks. -/
  plain : (∀ p marker, f.encoding ≠ .placed p marker) → slot.companions = []
  /-- What is worked out from other fields has none inside. -/
  derived : f.derivation.isSome = true → slot.value.companions = []

/-- All chunks that a value names are in use, for the placement of the value. -/
inductive Value.Tidy (c : Compiler) : Placement → Value → Prop
  | bare {p : Placement} {v : Value} (h : v.companions = []) : Tidy c p v
  | record {p : Placement} {v : Value} {key : LayoutKey} {l : Layout}
    (hkey : p.innerKey? c.catalog v = some key) (hl : c.answer key = some l)
    (hallows : ∀ f ∈ l.fields, f.Allows (v.innerRecord.slotAt f.slot))
    (hbacked : ∀ f ∈ l.fields, ∀ q marker, f.encoding = .placed q marker →
      (v.innerRecord.slotAt f.slot).Backed q)
    (hinside : ∀ f ∈ l.fields, ∀ q marker, f.encoding = .placed q marker →
      Tidy c q (v.innerRecord.slot f.slot)) : Tidy c p v

/-- The chunk behind a slot is in use, and so are those inside its value. -/
structure Slot.Tidy (c : Compiler) (p : Placement) (slot : Slot) : Prop where
  backed : slot.Backed p
  inside : slot.value.Tidy c p

/-- All chunks that a record names are in use in a layout. -/
structure RecordOf.Tidy (c : Compiler) (l : Layout) (r : Record) : Prop where
  allows : ∀ f ∈ l.fields, f.Allows (r.slotAt f.slot)
  placed : ∀ f ∈ l.fields, ∀ q marker, f.encoding = .placed q marker → (r.slotAt f.slot).Tidy c q

section

variable {c c' : Compiler} {p q : Placement} {v : Value} {slot : Slot} {l : Layout} {r : Record}

theorem Slot.backed_of_null (h : slot.chunk = .null) : slot.Backed p := .inl h

/-- A slot that names no chunk. -/
theorem Slot.Tidy.bare (h : slot.companions = []) : slot.Tidy c p := by
  obtain ⟨hown, hinside⟩ := List.append_eq_nil_iff.mp h
  refine ⟨.inl ?_, .bare hinside⟩
  rw [ownChunk] at hown
  split at hown
  · rename_i hnull
    exact ChunkId.isNull_iff.mp hnull
  · cases hown

theorem BoundField.Allows.bare {f : BoundField} (h : slot.companions = []) : f.Allows slot :=
  ⟨fun _ => h, fun _ => (List.append_eq_nil_iff.mp h).2⟩

/-! ## Later compilers -/

/-- A value that is tidy stays so when more has been compiled. -/
theorem Value.Tidy.mono (h : v.Tidy c p) (hgrows : c.Grows c') : v.Tidy c' p := by
  induction h with
  | bare h => exact .bare h
  | record hkey hl hallows hbacked _ ih =>
    rw [← hgrows.catalog] at hkey
    exact .record hkey (hgrows.answer hl) hallows hbacked ih

theorem Slot.Tidy.mono (h : slot.Tidy c p) (hgrows : c.Grows c') : slot.Tidy c' p :=
  ⟨h.backed, h.inside.mono hgrows⟩

theorem RecordOf.Tidy.mono (h : r.Tidy c l) (hgrows : c.Grows c') : r.Tidy c' l :=
  ⟨h.allows, fun f hf q marker he => (h.placed f hf q marker he).mono hgrows⟩

/-! ## Records inside values -/

theorem RecordOf.companions_slotAt (r : Record) (i : Nat) :
    (r.slotAt i).companions ⊆ r.companions :=
  (slotPart_names i).get r

/-- A record that names no chunk. -/
theorem RecordOf.Tidy.bare (h : r.companions = []) : r.Tidy c l := by
  have hslot (i : Nat) : (r.slotAt i).companions = [] :=
    List.subset_nil.mp (h ▸ r.companions_slotAt i)
  exact ⟨fun f _ => .bare (hslot f.slot), fun f _ _ _ _ => .bare (hslot f.slot)⟩

/-- The record inside a tidy value is tidy in its layout. -/
theorem Value.Tidy.inner (h : v.Tidy c p) {key : LayoutKey}
    (hkey : p.innerKey? c.catalog v = some key) (hl : c.answer key = some l) :
    v.innerRecord.Tidy c l := by
  cases h with
  | bare h => exact .bare (List.subset_nil.mp (h ▸ v.companions_innerRecord))
  | record hkey' hl' hallows hbacked hinside =>
    rw [hkey] at hkey'
    obtain rfl := Option.some.inj hkey'
    rw [hl] at hl'
    obtain rfl := Option.some.inj hl'
    exact ⟨hallows, fun f hf q marker he => ⟨hbacked f hf q marker he, hinside f hf q marker he⟩⟩

theorem RecordOf.Tidy.value (h : v.innerRecord.Tidy c l) {key : LayoutKey}
    (hkey : p.innerKey? c.catalog v = some key) (hl : c.answer key = some l) : v.Tidy c p :=
  .record hkey hl h.allows (fun f hf q marker he => (h.placed f hf q marker he).backed)
    fun f hf q marker he => (h.placed f hf q marker he).inside

/-- Values that stand in the same layout are tidy alike. -/
theorem Value.Tidy.congr (h : v.Tidy c p)
    (hkey : q.innerKey? c.catalog v = p.innerKey? c.catalog v) : v.Tidy c q := by
  cases h with
  | bare h => exact .bare h
  | record hkey' hl hallows hbacked hinside =>
    exact .record (hkey.trans hkey') hl hallows hbacked hinside

/-- Another record of the same schema stands in the same layout. -/
theorem Placement.innerKey?_setInnerRecord {cat : Catalog}
    (h : r.schema = v.innerRecord.schema) :
    p.innerKey? cat (v.setInnerRecord r) = p.innerKey? cat v := by
  cases v with
  | record s =>
    have hsame : r.schema = s.schema := h
    simp only [Value.setInnerRecord, Placement.innerKey?, hsame]
  | _ => rfl

/-- The record inside a value of open type stands as its type is placed. -/
theorem Placement.innerKey?_flexible {cat : Catalog} {type : ValueType} (h : v.type? = some type) :
    (Placement.flexible cat type.key).innerKey? cat v = Placement.inlineOpen.innerKey? cat v := by
  cases v with
  | record r =>
    cases h
    show (Placement.flexible cat (.record r.schema)).innerKey? cat _ = _
    rw [Placement.flexible]
    split <;> rfl
  | wrapped wrapper r =>
    cases h
    rfl
  | _ => rfl

/-! ## One slot of a record -/

/-- A slot without its chunk. -/
theorem Slot.Tidy.drop (h : slot.Tidy c p) : Slot.Tidy c p ⟨slot.value, .null⟩ :=
  ⟨backed_of_null rfl, h.inside⟩

theorem BoundField.Allows.drop {f : BoundField} (h : f.Allows slot) :
    f.Allows ⟨slot.value, .null⟩ :=
  ⟨fun hplain => (List.append_eq_nil_iff.mp (h.plain hplain)).2, h.derived⟩

namespace RecordOf

/-- A slot that has been replaced. A record that lists no chunk for the slot does not get one. -/
theorem slotAt_setSlotAt_cases {i : Nat} (h : (r.setSlotAt i slot).slot i = slot.value) :
    (r.setSlotAt i slot).slotAt i = slot ∨ (r.setSlotAt i slot).slotAt i = ⟨slot.value, .null⟩ := by
  rw [slotAt, h]
  by_cases hi : i < r.chunks.length
  · left
    simp [chunk, RecordOf.setSlotAt, hi]
  · right
    rw [chunk, List.getD_eq_default _ _ (by rw [chunks_length_setSlotAt]; omega)]

/-- Replacing a slot of a tidy record. -/
theorem Tidy.setSlotAt (h : r.Tidy c l) {i : Nat}
    (hvalue : (r.setSlotAt i slot).slot i = slot.value)
    (hallows : ∀ f ∈ l.fields, f.slot = i → f.Allows slot)
    (hplaced : ∀ f ∈ l.fields, f.slot = i → ∀ q marker, f.encoding = .placed q marker →
      slot.Tidy c q) : (r.setSlotAt i slot).Tidy c l := by
  refine ⟨fun f hf => ?_, fun f hf q marker he => ?_⟩
  -- the slot set is judged by the hypotheses, every other one as it was
  · by_cases hi : f.slot = i
    · rw [hi]
      rcases slotAt_setSlotAt_cases hvalue with heq | heq
      · rw [heq]
        exact hallows f hf hi
      · rw [heq]
        exact (hallows f hf hi).drop
    · rw [slotAt_setSlotAt_of_ne hi]
      exact h.allows f hf
  · by_cases hi : f.slot = i
    · rw [hi]
      rcases slotAt_setSlotAt_cases hvalue with heq | heq
      · rw [heq]
        exact hplaced f hf hi q marker he
      · rw [heq]
        exact (hplaced f hf hi q marker he).drop
    · rw [slotAt_setSlotAt_of_ne hi]
      exact h.placed f hf q marker he

/-- A record names what it named before if the slot that is replaced does. -/
theorem companions_subset_setSlotAt {i : Nat} (hown : ownChunk (r.chunk i) ⊆ ownChunk slot.chunk)
    (hinside : (r.slot i).companions ⊆ slot.value.companions) :
    r.companions ⊆ (r.setSlotAt i slot).companions := by
  intro x hx
  rw [mem_companions_iff] at hx ⊢
  rcases hx with ⟨hmem, hne⟩ | ⟨v, hv, hmem⟩
  · obtain ⟨j, hj, rfl⟩ := List.mem_iff_getElem.mp hmem
    refine .inl ⟨List.mem_iff_getElem.mpr ⟨j, by rwa [chunks_length_setSlotAt], ?_⟩, hne⟩
    -- a companion is the slot's own chunk or stands inside its value
    by_cases hij : i = j
    · subst hij
      have hchunk : r.chunk i = r.chunks[i] := List.getD_eq_getElem _ _ hj
      obtain ⟨heq, -⟩ := mem_ownChunk.mp (hown (mem_ownChunk.mpr ⟨hchunk.symm, hne⟩))
      simp [RecordOf.setSlotAt, heq]
    · simp [RecordOf.setSlotAt, List.getElem_set_ne hij]
  · obtain ⟨j, hj, rfl⟩ := List.mem_iff_getElem.mp hv
    refine .inr ⟨_, List.getElem_mem (n := j) (by rwa [slots_length_setSlotAt]), ?_⟩
    by_cases hij : i = j
    · subst hij
      have hslot : r.slot i = r.slots[i] := List.getD_eq_getElem _ _ hj
      rw [← hslot] at hmem
      simpa [RecordOf.setSlotAt] using hinside hmem
    · simpa [RecordOf.setSlotAt, List.getElem_set_ne hij] using hmem

end RecordOf

/-! ## Counted copies -/

variable {cat : Catalog}

theorem BoundField.Allows.counted {f : BoundField} {i : Nat} (h : f.Allows (r.slotAt i)) :
    f.Allows ((r.counted cat).slotAt i) := by
  rw [RecordOf.slotAt_counted]
  refine ⟨fun hplain => ?_, fun hderived => ?_⟩
  · rw [Slot.companions, Value.companions_countedAs]
    exact h.plain hplain
  · rw [Value.companions_countedAs]
    exact h.derived hderived

theorem Slot.Backed.counted {i : Nat} (h : (r.slotAt i).Backed q) :
    ((r.counted cat).slotAt i).Backed q := by
  rw [RecordOf.slotAt_counted]
  refine h.imp_right fun ⟨hbehind, hthere⟩ => ⟨hbehind, fun hnull => hthere ?_⟩
  rw [← Value.isNull_iff] at hnull ⊢
  rwa [Value.isNull_countedAs] at hnull

/-- By induction on the tidiness: the record inside is looked into or left as it is. -/
theorem Value.Tidy.countedAs (h : v.Tidy c p) (number : Bool) :
    (v.countedAs cat number).Tidy c p := by
  -- the induction is on what is tidy inside; counting a record copies its numbers and leaves its
  -- chunks
  induction h generalizing number with
  | bare h => exact .bare (by rw [Value.companions_countedAs, h])
  | @record p v key l hkey hl hallows hbacked hinside ih =>
    have hrecord : (v.innerRecord.counted cat).Tidy c l := by
      refine ⟨fun f hf => (hallows f hf).counted, fun f hf q marker he =>
        ⟨(hbacked f hf q marker he).counted, ?_⟩⟩
      rw [RecordOf.slotAt_counted]
      exact ih f hf q marker he _
    cases v with
    | record r =>
      have hcopy : (Value.record r).countedAs cat number = .record (r.counted cat) := by
        cases number <;> rfl
      rw [hcopy]
      refine hrecord.value (v := .record (r.counted cat)) ?_ hl
      rw [← hkey]
      exact Placement.innerKey?_setInnerRecord (v := .record r) (RecordOf.schema_counted r)
    | wrapped wrapper r =>
      have hcopy : (Value.wrapped wrapper r).countedAs cat number = .wrapped wrapper
          (if r.schema = (cat.wrapper wrapper).carrier then r.counted cat else r) := by
        cases number <;> exact Value.counted.eq_def cat (.wrapped wrapper r)
      rw [hcopy]
      -- a wrapped record of a schema that is not the wrapper's carrier is left uncounted
      split
      · exact hrecord.value (v := .wrapped wrapper (r.counted cat)) hkey hl
      · exact .record hkey hl hallows hbacked hinside
    | _ => cases hkey

/-- The counted copy of a tidy record is tidy. -/
theorem RecordOf.Tidy.counted (h : r.Tidy c l) : (r.counted cat).Tidy c l := by
  refine ⟨fun f hf => (h.allows f hf).counted, fun f hf q marker he => ?_⟩
  have hslot := h.placed f hf q marker he
  refine ⟨hslot.backed.counted, ?_⟩
  rw [RecordOf.slotAt_counted]
  exact hslot.inside.countedAs _

end

end RecordLayout
