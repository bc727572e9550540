import Mathlib
import RecordLayout.Proofs.Codec.DeriveKept
import RecordLayout.Proofs.Number.Width

/-!
# Derived fields and their sources

A count follows from an array, a width from the numbers that it must hold. The derived fields of a
record are worked out one after another in canonical order, which need not be the order in which they
follow from each other. A field that is worked out after its sources agrees with them; a width that is
worked out before a count agrees with the count as it was. As counts follow from arrays and from nothing
else, all of them are right after one pass, and the widths are so after another one.

Main results:

* `derivedValue_agrees` — a count is the length of an array, a width is the smallest that holds all numbers;
* `BoundField.Holds.passes`, `BoundField.Holds.fits` — what follows from its sources passes the checks;
* `deriveFields_holds`, `deriveFields_primed` — what a pass leaves;
* `deriveFields_again` — what another pass does to it.
-/

namespace RecordLayout

-- powers are those of numbers themselves
attribute [local instance (high)] instPowNat

/-! ## Counts -/

/-- The integer that holds a number has it as its content. -/
theorem Scalar.toNat?_ofNat? {kind : ScalarKind} {n : Nat} {s : Scalar}
    (h : Scalar.ofNat? kind n = some s) : s.toNat? = some n := by
  rw [ofNat?.eq_def] at h
  cases kind with
  -- a number that fits its kind is not cut off when it is stored, and is therefore read back as it
  -- was
  | bool => cases h
  | f32 => cases h
  | f64 => cases h
  | i8 =>
    obtain ⟨hlt, ⟨⟩⟩ := Option.ite_none_right_eq_some.mp h
    simp [toNat?, Int8.toInt_ofNat_of_lt hlt]
  | i16 =>
    obtain ⟨hlt, ⟨⟩⟩ := Option.ite_none_right_eq_some.mp h
    simp [toNat?, Int16.toInt_ofNat_of_lt hlt]
  | i32 =>
    obtain ⟨hlt, ⟨⟩⟩ := Option.ite_none_right_eq_some.mp h
    simp [toNat?, Int32.toInt_ofNat_of_lt hlt]
  | i64 =>
    obtain ⟨hlt, ⟨⟩⟩ := Option.ite_none_right_eq_some.mp h
    simp [toNat?, Int64.toInt_ofNat_of_lt hlt]
  | u8 =>
    obtain ⟨hlt, ⟨⟩⟩ := Option.ite_none_right_eq_some.mp h
    exact congrArg some (UInt8.toNat_ofNat_of_lt' hlt)
  | u16 =>
    obtain ⟨hlt, ⟨⟩⟩ := Option.ite_none_right_eq_some.mp h
    exact congrArg some (UInt16.toNat_ofNat_of_lt' hlt)
  | u32 =>
    obtain ⟨hlt, ⟨⟩⟩ := Option.ite_none_right_eq_some.mp h
    exact congrArg some (UInt32.toNat_ofNat_of_lt' hlt)
  | u64 =>
    obtain ⟨hlt, ⟨⟩⟩ := Option.ite_none_right_eq_some.mp h
    exact congrArg some (UInt64.toNat_ofNat_of_lt' hlt)

theorem Value.toNat?_lt {v : Value} {n : Nat} (h : v.toNat? = some n) : n < 2 ^ 64 := by
  cases v with
  | scalar s => exact Scalar.toNat?_lt h
  | _ => cases h

/-! ## What follows from sources -/

/-- A derived value agrees with its sources: a count is the number of elements, a width is the
smallest one that holds all numbers. -/
def SlotDerivation.Agrees (r : Record) (v : Value) : SlotDerivation → Prop
  | .lengthOf array => ∃ items, r.slot array = .list items ∧
      (items.length < 2 ^ 64 → v.toNat? = some items.length)
  | .widthOf numbers => ∃ width, v = .width width ∧ ∀ other : Width, width.bytes ≤ other.bytes ↔
      ∀ i ∈ numbers, ∃ n, (r.slot i).toNat? = some n ∧ other.canFit n = true

section

variable {f : BoundField} {r r' : Record} {d : SlotDerivation} {w w' : Workspace} {v : Value}

theorem largestCount_ok {slots : List Nat} {start n : Nat}
    (h : largestCount r start slots w = .ok n w') :
    w' = w ∧ (∀ u, largestCount r start slots u = .ok n u) ∧ start ≤ n ∧
      (∀ i ∈ slots, ∃ m, (r.slot i).toNat? = some m ∧ m ≤ n) ∧
      (n = start ∨ ∃ i ∈ slots, (r.slot i).toNat? = some n) := by
  induction slots generalizing start w with
  | nil =>
    obtain ⟨rfl, rfl⟩ := pure_ok.mp h
    exact ⟨rfl, fun _ => rfl, Nat.le_refl _, fun i hi => absurd hi List.not_mem_nil, .inl rfl⟩
  | cons slot rest ih =>
    rw [largestCount, bind_ok] at h
    obtain ⟨m, w₁, hcount, hrest⟩ := h
    obtain ⟨hm, rfl⟩ := countOf_ok.mp hcount
    obtain ⟨rfl, hagain, hle, hall, hlargest⟩ := ih hrest
    refine ⟨rfl, fun u => ?_, by omega, fun i hi => ?_, ?_⟩
    · rw [largestCount, bind_ok]
      exact ⟨m, u, countOf_ok.mpr ⟨hm, rfl⟩, hagain u⟩
    · rcases List.mem_cons.mp hi with rfl | hi
      · exact ⟨m, hm, by omega⟩
      · exact hall i hi
    · -- the largest is one of the rest, or this one, or what was the largest before
      rcases hlargest with heq | ⟨i, hi, hn⟩
      · by_cases hmax : start ≤ m
        · right
          rw [Nat.max_eq_right hmax] at heq
          exact ⟨slot, List.mem_cons_self, heq ▸ hm⟩
        · left
          rw [Nat.max_eq_left (by omega)] at heq
          exact heq
      · exact .inr ⟨i, List.mem_cons_of_mem _ hi, hn⟩

theorem largestCount_congr {slots : List Nat} {start : Nat}
    (h : ∀ i ∈ slots, r'.slot i = r.slot i) :
    largestCount r' start slots = largestCount r start slots := by
  induction slots generalizing start with
  | nil => rfl
  | cons slot rest ih =>
    rw [largestCount, largestCount, h slot List.mem_cons_self]
    exact bind_congr fun n => ih fun i hi => h i (List.mem_cons_of_mem _ hi)

theorem countValue_ok {n : Nat} (h : countValue f n w = .ok v w') :
    w' = w ∧ (∀ u, countValue f n u = .ok v u) ∧ (∃ m, v.toNat? = some m) ∧
      (n < 2 ^ 64 → v.toNat? = some n) := by
  unfold countValue at h ⊢
  -- a count without a kind of its own is a number of 64 bits, which holds every length
  cases hkind : f.encoding.scalarKind? with
  | none =>
    rw [hkind] at h
    obtain ⟨rfl, rfl⟩ := pure_ok.mp h
    exact ⟨rfl, fun _ => rfl, ⟨_, rfl⟩, fun hlt => congrArg some (UInt64.toNat_ofNat_of_lt' hlt)⟩
  | some kind =>
    simp only [hkind] at h ⊢
    cases hscalar : Scalar.ofNat? kind n with
    | none =>
      rw [hscalar] at h
      exact (disagreement_fails h).elim
    | some x =>
      rw [hscalar] at h
      obtain ⟨rfl, rfl⟩ := pure_ok.mp h
      have hcount := Scalar.toNat?_ofNat? hscalar
      exact ⟨rfl, fun _ => rfl, ⟨n, hcount⟩, fun _ => hcount⟩

/-- What follows from the sources does not depend on the workspace. -/
theorem derivedValue_again (h : derivedValue f r d w = .ok v w') (u : Workspace) :
    derivedValue f r d u = .ok v u := by
  -- both are computed from slots alone, so another space gives the same value
  cases d with
  | lengthOf array =>
    rw [derivedValue, bind_ok] at h
    obtain ⟨items, w₁, hitems, hcount⟩ := h
    obtain ⟨heq, rfl⟩ := itemsOf_ok.mp hitems
    obtain ⟨-, hagain, -⟩ := countValue_ok hcount
    rw [derivedValue, bind_ok]
    exact ⟨items, u, itemsOf_ok.mpr ⟨heq, rfl⟩, hagain u⟩
  | widthOf numbers =>
    rw [derivedValue, bind_ok] at h
    obtain ⟨widest, w₁, hlargest, hpure⟩ := h
    obtain ⟨-, hagain, -⟩ := largestCount_ok hlargest
    obtain ⟨rfl, -⟩ := pure_ok.mp hpure
    rw [derivedValue, bind_ok]
    exact ⟨widest, u, hagain u, rfl⟩

/-- Only the sources matter. -/
theorem derivedValue_congr (h : ∀ i ∈ d.sources, r'.slot i = r.slot i) :
    derivedValue f r' d = derivedValue f r d := by
  cases d with
  | lengthOf array =>
    rw [derivedValue, derivedValue, h array (List.mem_singleton.mpr rfl)]
  | widthOf numbers =>
    have hnumbers : ∀ i ∈ numbers, r'.slot i = r.slot i := h
    rw [derivedValue, derivedValue, largestCount_congr hnumbers]

/-- A count is a number. -/
theorem derivedValue_number {array : Nat} (h : derivedValue f r (.lengthOf array) w = .ok v w') :
    ∃ n, v.toNat? = some n := by
  rw [derivedValue, bind_ok] at h
  obtain ⟨items, w₁, -, hcount⟩ := h
  exact (countValue_ok hcount).2.2.1

/-- A width can be worked out if numbers are all that it follows from. -/
theorem derivedValue_widthOf {numbers : List Nat}
    (h : ∀ i ∈ numbers, ∃ n, (r.slot i).toNat? = some n) :
    ∃ v, ∀ w, derivedValue f r (.widthOf numbers) w = .ok v w := by
  have hlargest (start : Nat) : ∃ n, ∀ w, largestCount r start numbers w = .ok n w := by
    induction numbers generalizing start with
    | nil => exact ⟨start, fun _ => rfl⟩
    | cons slot rest ih =>
      obtain ⟨m, hm⟩ := h slot List.mem_cons_self
      obtain ⟨n, hn⟩ := ih (fun i hi => h i (List.mem_cons_of_mem _ hi)) (max start m)
      refine ⟨n, fun w => ?_⟩
      rw [largestCount, bind_ok]
      exact ⟨m, w, countOf_ok.mpr ⟨hm, rfl⟩, hn w⟩
  obtain ⟨widest, hwidest⟩ := hlargest 0
  refine ⟨.width (Width.fitting widest), fun w => ?_⟩
  rw [derivedValue, bind_ok]
  exact ⟨widest, w, hwidest w, rfl⟩

/-- Numbers are all that a width follows from. -/
theorem derivedValue_numbers {numbers : List Nat}
    (h : derivedValue f r (.widthOf numbers) w = .ok v w') :
    ∀ i ∈ numbers, ∃ n, (r.slot i).toNat? = some n := by
  rw [derivedValue, bind_ok] at h
  obtain ⟨widest, w₁, hlargest, -⟩ := h
  intro i hi
  obtain ⟨n, hn, -⟩ := (largestCount_ok hlargest).2.2.2.1 i hi
  exact ⟨n, hn⟩

theorem derivedValue_agrees (h : derivedValue f r d w = .ok v w') : d.Agrees r v := by
  cases d with
  | lengthOf array =>
    rw [derivedValue, bind_ok] at h
    obtain ⟨items, w₁, hitems, hcount⟩ := h
    obtain ⟨heq, rfl⟩ := itemsOf_ok.mp hitems
    exact ⟨items, heq, (countValue_ok hcount).2.2.2⟩
  | widthOf numbers =>
    rw [derivedValue, bind_ok] at h
    obtain ⟨widest, w₁, hlargest, hpure⟩ := h
    obtain ⟨rfl, -⟩ := pure_ok.mp hpure
    obtain ⟨-, -, -, hall, hwidest⟩ := largestCount_ok hlargest
    -- a number in a slot is a word, and no word is too large for all widths
    have hword : widest < 2 ^ 64 := by
      rcases hwidest with rfl | ⟨i, -, hn⟩
      · decide
      · exact Value.toNat?_lt hn
    refine ⟨_, rfl, fun other => ?_⟩
    rw [Width.fitting_bytes_le_iff hword]
    constructor
    · intro hfit i hi
      obtain ⟨n, hn, hle⟩ := hall i hi
      exact ⟨n, hn, Width.canFit_of_le hfit hle⟩
    · intro hfit
      rcases hwidest with rfl | ⟨i, hi, hn⟩
      · exact Width.canFit_iff.mpr (Nat.pow_pos (by omega))
      · obtain ⟨m, hm, hfits⟩ := hfit i hi
        rw [hn] at hm
        cases hm
        exact hfits

end

/-! ## One field -/

/-- A derived field holds what follows from its sources. -/
def BoundField.Holds (f : BoundField) (r : Record) : Prop :=
  ∀ d, f.derivation = some d → ∀ w, derivedValue f r d w = .ok (r.slot f.slot) w

/-- A derived field can be worked out from its sources. -/
def BoundField.Derivable (f : BoundField) (r : Record) : Prop :=
  ∀ d, f.derivation = some d → ∃ v, ∀ w, derivedValue f r d w = .ok v w

section

variable {f g : BoundField} {r r' : Record} {s s' : Scene Record} {u : Unit} {w : Workspace}

theorem BoundField.Holds.agrees (h : f.Holds r) {d : SlotDerivation} (hd : f.derivation = some d) :
    d.Agrees r (r.slot f.slot) :=
  derivedValue_agrees (h d hd default)

/-- What follows from its sources passes the check against them. -/
theorem BoundField.Holds.passes (h : f.Holds r) (w : Workspace) : checkDerived f r w = .ok () w := by
  unfold checkDerived
  cases hd : f.derivation with
  | none => rfl
  | some d =>
    have hvalue := h d hd w
    cases d with
    | lengthOf array =>
      simp only [bind_ok]
      refine ⟨_, w, hvalue, ?_⟩
      rw [if_pos rfl]
      rfl
    | widthOf numbers =>
      obtain ⟨width, hwidth, hsmallest⟩ := h.agrees hd
      have hall := (hsmallest width).mp (Nat.le_refl _)
      simp only [bind_ok]
      refine ⟨width, w, widthIn_ok.mpr ⟨hwidth, rfl⟩, ?_⟩
      -- each number is checked against the width in turn
      clear hvalue hsmallest hd
      induction numbers with
      | nil => rfl
      | cons slot rest ih =>
        obtain ⟨n, hn, hfits⟩ := hall slot List.mem_cons_self
        rw [checkWidth, bind_ok]
        refine ⟨n, w, countOf_ok.mpr ⟨hn, rfl⟩, ?_⟩
        rw [if_pos hfits]
        exact ih fun i hi => hall i (List.mem_cons_of_mem _ hi)

/-- A number fits the width that follows from it. -/
theorem BoundField.Holds.fits (h : g.Holds r) {numbers : List Nat}
    (hd : g.derivation = some (.widthOf numbers)) (hf : f.slot ∈ numbers)
    (he : f.encoding = .sized g.slot) (w : Workspace) : checkGoverned f r w = .ok () w := by
  obtain ⟨width, hwidth, hsmallest⟩ := h.agrees hd
  obtain ⟨n, hn, hfits⟩ := (hsmallest width).mp (Nat.le_refl _) f.slot hf
  unfold checkGoverned
  simp only [he, bind_ok]
  refine ⟨width, w, widthIn_ok.mpr ⟨hwidth, rfl⟩, n, w, countOf_ok.mpr ⟨hn, rfl⟩, ?_⟩
  rw [if_pos hfits]
  rfl

/-- What becomes of a record if one field is worked out. -/
structure BoundField.Sets (f : BoundField) (r r' : Record) : Prop where
  length : r'.slots.length = r.slots.length
  others : ∀ i, (f.slot = i → f.derivation = none) → r'.slot i = r.slot i
  value : ∀ d, f.derivation = some d → ∀ w, derivedValue f r d w = .ok (r'.slot f.slot) w

theorem deriveField_sets (h : deriveField f s = .ok u s') (hi : f.slot < s.subject.slots.length) :
    f.Sets s.subject s'.subject := by
  unfold deriveField at h
  -- a field without a derivation leaves the record as it is
  cases hd : f.derivation with
  | none =>
    rw [hd] at h
    obtain ⟨-, rfl⟩ := pure_ok.mp h
    exact ⟨rfl, fun _ _ => rfl, fun d hsome => by rw [hd] at hsome; cases hsome⟩
  | some d =>
    simp only [hd, bind_ok, Op.subject_ok, Op.setSubject_ok] at h
    obtain ⟨r, s₁, ⟨rfl, rfl⟩, v, s₂, hderive, rfl⟩ := h
    obtain ⟨w, hvalue, rfl⟩ := Op.space_ok.mp hderive
    refine ⟨RecordOf.slots_length_setSlot _ _ _, fun i hother => ?_, fun e he w => ?_⟩
    · refine RecordOf.slot_setSlot_of_ne (fun heq => ?_) v
      have hnone := hother heq.symm
      rw [hd] at hnone
      cases hnone
    · rw [hd] at he
      cases he
      rw [show (s₁.subject.setSlot f.slot v).slot f.slot = v from RecordOf.slot_setSlot_self hi v]
      exact derivedValue_again hvalue w

end

/-! ## Rows -/

/-- No derived field of the row has the slot. -/
def Underived (fields : List BoundField) (i : Nat) : Prop :=
  ∀ g ∈ fields, g.slot = i → g.derivation = none

section

variable {f g : BoundField} {fields before after : List BoundField} {i : Nat} {r : Record}
  {s s' : Scene Record} {u : Unit}

theorem Underived.sublist (h : Underived fields i) (hsub : before ⊆ fields) : Underived before i :=
  fun g hg => h g (hsub hg)

/-- A field whose slot no other field of the row has. -/
theorem Underived.of_nodup (h : (fields.map (·.slot)).Nodup) (hsub : before ⊆ fields)
    (hg : g ∈ fields) (hout : g ∉ before) : Underived before g.slot := by
  intro k hk heq
  have hsame : k = g := List.inj_on_of_nodup_map h (hsub hk) hg heq
  exact absurd (hsame ▸ hk) hout

/-- Only derived fields change. -/
theorem deriveFields_frame (h : fields.forM deriveField s = .ok u s')
    (hslots : ∀ f ∈ fields, f.slot < s.subject.slots.length) :
    s'.subject.slots.length = s.subject.slots.length ∧
      ∀ i, Underived fields i → s'.subject.slot i = s.subject.slot i := by
  induction fields generalizing s with
  | nil =>
    obtain ⟨-, rfl⟩ := pure_ok.mp h
    exact ⟨rfl, fun _ _ => rfl⟩
  | cons f rest ih =>
    obtain ⟨_, s₁, hfirst, hrest⟩ := bind_ok.mp h
    have hsets := deriveField_sets hfirst (hslots f List.mem_cons_self)
    obtain ⟨hlen, hothers⟩ := ih hrest fun g hg => by
      rw [hsets.length]
      exact hslots g (List.mem_cons_of_mem _ hg)
    refine ⟨hlen.trans hsets.length, fun i hi => ?_⟩
    rw [hothers i (hi.sublist (List.subset_cons_self _ _)), hsets.others i (hi f List.mem_cons_self)]

/-- What derived fields follow from: counts from nothing derived, and widths from no other widths. -/
structure Stratified (fields : List BoundField) : Prop where
  counts : ∀ f ∈ fields, ∀ array, f.derivation = some (.lengthOf array) → Underived fields array
  widths : ∀ f ∈ fields, ∀ numbers, f.derivation = some (.widthOf numbers) →
    ∀ g ∈ fields, g.slot ∈ numbers → ∀ others, g.derivation ≠ some (.widthOf others)

/-- A field that is worked out before a derived field that it follows from. -/
def Early (fields : List BoundField) (f : BoundField) : Prop :=
  ∃ before after, fields = before ++ f :: after ∧ ∃ d, f.derivation = some d ∧
    ∃ g ∈ after, g.slot ∈ d.sources ∧ g.derivation.isSome = true

/-- A row of which another pass makes everything right. -/
structure Primed (fields : List BoundField) (r : Record) : Prop where
  derivable : ∀ f ∈ fields, f.Derivable r
  counts : ∀ f ∈ fields, ∀ array, f.derivation = some (.lengthOf array) → f.Holds r

/-- A pass up to a field, and from there on. -/
theorem deriveFields_split (h : (before ++ f :: after).forM deriveField s = .ok u s')
    (hslots : ∀ g ∈ before ++ f :: after, g.slot < s.subject.slots.length)
    (hnodup : ((before ++ f :: after).map (·.slot)).Nodup) :
    ∃ t u', before.forM deriveField s = .ok u' t ∧ f.Derivable t.subject ∧
      (∀ i, Underived (f :: after) i → s'.subject.slot i = t.subject.slot i) ∧
      ((∀ d, f.derivation = some d → ∀ i ∈ d.sources, s'.subject.slot i = t.subject.slot i) →
        f.Holds s'.subject) := by
  have h : forM (before ++ f :: after) deriveField s = .ok u s' := h
  -- `t` is what the pass has left when it comes to the field
  rw [List.forM_append, bind_ok] at h
  obtain ⟨u', t, hbefore, hrest⟩ := h
  obtain ⟨hlen, -⟩ := deriveFields_frame hbefore fun g hg => hslots g (List.mem_append_left _ hg)
  have hslots' : ∀ g ∈ f :: after, g.slot < t.subject.slots.length := fun g hg => by
    rw [hlen]
    exact hslots g (List.mem_append_right _ hg)
  have hlater := (deriveFields_frame hrest hslots').2
  have hrest : forM (f :: after) deriveField t = .ok u s' := hrest
  rw [List.forM_cons, bind_ok] at hrest
  obtain ⟨_, t', hfield, hafter⟩ := hrest
  have hsets := deriveField_sets hfield (hslots' f List.mem_cons_self)
  refine ⟨t, u', hbefore, fun d hd => ⟨_, hsets.value d hd⟩, hlater, fun hkept d hd w => ?_⟩
  -- the fields after it leave its slot alone
  have hsame : s'.subject.slot f.slot = t'.subject.slot f.slot := by
    obtain ⟨-, hothers⟩ := deriveFields_frame hafter fun g hg => by
      rw [hsets.length]
      exact hslots' g (List.mem_cons_of_mem _ hg)
    have hmem : f ∈ before ++ f :: after := List.mem_append_right _ List.mem_cons_self
    refine hothers f.slot (Underived.of_nodup hnodup ?_ hmem ?_)
    · exact fun g hg => List.mem_append_right _ (List.mem_cons_of_mem _ hg)
    · intro hmem
      rw [List.map_append, List.map_cons, List.nodup_append] at hnodup
      exact (List.nodup_cons.mp hnodup.2.1).1 (List.mem_map_of_mem hmem)
  rw [hsame, derivedValue_congr (hkept d hd)]
  exact hsets.value d hd w

/-- A field that is not worked out before its sources. -/
theorem deriveFields_holds (hstrat : Stratified fields)
    (h : fields.forM deriveField s = .ok u s')
    (hslots : ∀ g ∈ fields, g.slot < s.subject.slots.length)
    (hnodup : (fields.map (·.slot)).Nodup) (hf : f ∈ fields) (hearly : ¬Early fields f) :
    f.Holds s'.subject := by
  obtain ⟨before, after, rfl⟩ := List.append_of_mem hf
  obtain ⟨t, -, -, -, hlater, hholds⟩ := deriveFields_split h hslots hnodup
  -- the sources are not derived from here on, so they stay as the field has found them
  refine hholds fun d hd i hi => hlater i fun g hg hslot => ?_
  subst hslot
  rcases List.mem_cons.mp hg with rfl | hafter
  · -- no field follows from itself
    cases d with
    | lengthOf array =>
      obtain rfl := List.mem_singleton.mp hi
      exact hstrat.counts g hf _ hd g hf rfl
    | widthOf numbers => exact absurd hd (hstrat.widths g hf numbers hd g hf hi numbers)
  · cases hderived : g.derivation with
    | none => rfl
    | some e =>
      exact absurd ⟨before, after, rfl, d, hd, g, hafter, hi, by rw [hderived]; rfl⟩ hearly

theorem Stratified.not_early (h : Stratified fields) (hf : f ∈ fields) {array : Nat}
    (hd : f.derivation = some (.lengthOf array)) : ¬Early fields f := by
  rintro ⟨before, after, rfl, d, hd', g, hg, hslot, hsome⟩
  rw [hd] at hd'
  cases hd'
  have hnone := h.counts f hf array hd g (List.mem_append_right _ (List.mem_cons_of_mem _ hg))
    (List.mem_singleton.mp hslot)
  rw [hnone] at hsome
  cases hsome

theorem BoundField.Holds.derivable (h : f.Holds r) : f.Derivable r := fun d hd => ⟨_, h d hd⟩

/-- All that another pass needs is there after a pass. -/
theorem deriveFields_primed (hstrat : Stratified fields) (h : fields.forM deriveField s = .ok u s')
    (hslots : ∀ g ∈ fields, g.slot < s.subject.slots.length)
    (hnodup : (fields.map (·.slot)).Nodup) : Primed fields s'.subject := by
  have hcounts : ∀ g ∈ fields, ∀ array, g.derivation = some (.lengthOf array) →
      g.Holds s'.subject :=
    fun g hg array hd => deriveFields_holds hstrat h hslots hnodup hg (hstrat.not_early hg hd)
  -- counts are right after a pass, so only widths are left, and these need numbers
  refine ⟨fun f hf d hd => ?_, hcounts⟩
  cases d with
  | lengthOf array => exact (hcounts f hf array hd).derivable _ hd
  | widthOf numbers =>
    refine derivedValue_widthOf fun i hi => ?_
    have hothers := (deriveFields_frame h hslots).2
    by_cases hunderived : Underived fields i
    · -- the number has been there all the time
      rw [hothers i hunderived]
      obtain ⟨before, after, rfl⟩ := List.append_of_mem hf
      obtain ⟨t, _, hbefore, hderivable, -⟩ := deriveFields_split h hslots hnodup
      obtain ⟨v, hv⟩ := hderivable _ hd
      have hsub : before ⊆ before ++ f :: after := List.subset_append_left _ _
      rw [← (deriveFields_frame hbefore fun g hg => hslots g (hsub hg)).2 i
        (hunderived.sublist hsub)]
      exact derivedValue_numbers (hv default) i hi
    · -- the number is a count
      unfold Underived at hunderived
      push Not at hunderived
      obtain ⟨g, hg, rfl, hderived⟩ := hunderived
      obtain ⟨e, he⟩ := Option.ne_none_iff_exists'.mp hderived
      cases e with
      | lengthOf array => exact derivedValue_number (hcounts g hg array he _ he default)
      | widthOf others => exact absurd he (hstrat.widths f hf numbers hd g hg hi others)

/-! ## Another pass -/

/-- Two records have the same sources for the derived fields of a row. -/
def SameSources (fields : List BoundField) (r r' : Record) : Prop :=
  ∀ f ∈ fields, ∀ d, f.derivation = some d → ∀ i ∈ d.sources, r'.slot i = r.slot i

/-- Another pass, or a part of it, changes no sources. -/
theorem deriveFields_runs (hstrat : Stratified fields) {r₀ : Record} (hprimed : Primed fields r₀)
    (hsub : before ⊆ fields) (hslots : ∀ g ∈ fields, g.slot < r.slots.length)
    (hsame : SameSources fields r₀ r) :
    ∃ r', (∀ w t, before.forM deriveField ⟨w, t, r⟩ = .ok () ⟨w, t, r'⟩) ∧
      SameSources fields r₀ r' := by
  induction before generalizing r with
  | nil => exact ⟨r, fun _ _ => rfl, hsame⟩
  | cons f rest ih =>
    obtain ⟨hf, hrest⟩ := List.cons_subset.mp hsub
    cases hd : f.derivation with
    | none =>
      obtain ⟨r', hrun, hsame'⟩ := ih hrest hslots hsame
      refine ⟨r', fun w t => bind_ok.mpr ⟨(), ⟨w, t, r⟩, ?_, hrun w t⟩, hsame'⟩
      rw [deriveField, hd]
      rfl
    | some d =>
      obtain ⟨v, hv⟩ := hprimed.derivable f hf d hd
      have hsame₁ : SameSources fields r₀ (r.setSlot f.slot v) := fun g hg e he i hi => by
        by_cases heq : i = f.slot
        · subst heq
          rw [RecordOf.slot_setSlot_self (hslots f hf)]
          -- the field is a source of another one, so it is a count, and is right already
          cases e with
          | lengthOf array =>
            have hnone := hstrat.counts g hg array he f hf (List.mem_singleton.mp hi)
            rw [hd] at hnone
            cases hnone
          | widthOf numbers =>
            cases d with
            | lengthOf array =>
              have hheld := hprimed.counts f hf array hd _ hd default
              rw [hv default] at hheld
              exact (EStateM.Result.ok.inj hheld).1
            | widthOf others => exact absurd hd (hstrat.widths g hg numbers he f hf hi others)
        · rw [RecordOf.slot_setSlot_of_ne heq]
          exact hsame g hg e he i hi
      obtain ⟨r', hrun, hsame'⟩ := ih hrest (by rwa [RecordOf.slots_length_setSlot]) hsame₁
      refine ⟨r', fun w t => bind_ok.mpr ⟨(), ⟨w, t, r.setSlot f.slot v⟩, ?_, hrun w t⟩, hsame'⟩
      rw [deriveField, hd]
      refine bind_ok.mpr ⟨r, _, rfl, bind_ok.mpr ⟨v, ⟨w, t, r⟩, ?_, rfl⟩⟩
      refine Op.space_ok.mpr ⟨w, ?_, rfl⟩
      rw [derivedValue_congr (hsame f hf d hd)]
      exact hv w

/-- Another pass makes everything right. -/
theorem deriveFields_again (hstrat : Stratified fields) (hprimed : Primed fields r)
    (hslots : ∀ g ∈ fields, g.slot < r.slots.length) (hnodup : (fields.map (·.slot)).Nodup) :
    ∃ r', (∀ w t, fields.forM deriveField ⟨w, t, r⟩ = .ok () ⟨w, t, r'⟩) ∧
      ∀ f ∈ fields, f.Holds r' := by
  have hstart : SameSources fields r r := fun _ _ _ _ _ _ => rfl
  obtain ⟨r', hrun, hsame⟩ :=
    deriveFields_runs hstrat hprimed (List.Subset.refl _) hslots hstart
  refine ⟨r', hrun, fun f hf => ?_⟩
  -- the sources are the same in the middle of the pass as at its end
  obtain ⟨before, after, hfields⟩ := List.append_of_mem hf
  have hdefault := hrun default default
  rw [hfields] at hdefault hnodup
  obtain ⟨t, _, hbefore, -, -, hholds⟩ := deriveFields_split hdefault (hfields ▸ hslots) hnodup
  have hsub : before ⊆ fields := hfields ▸ List.subset_append_left _ _
  obtain ⟨r₁, hrun₁, hsame₁⟩ := deriveFields_runs hstrat hprimed hsub hslots hstart
  rw [hrun₁] at hbefore
  obtain ⟨-, rfl⟩ := EStateM.Result.ok.inj hbefore
  exact hholds fun d hd i hi => (hsame f hf d hd i hi).trans (hsame₁ f hf d hd i hi).symm

/-- A slot that is replaced by what it holds. -/
theorem RecordOf.setSlot_slot (r : Record) (i : Nat) : r.setSlot i (r.slot i) = r := by
  have hsame : r.slots.set i (r.slot i) = r.slots := by
    by_cases hi : i < r.slots.length
    · rw [RecordOf.slot, List.getD_eq_getElem _ _ hi]
      exact List.set_getElem_self hi
    · exact List.set_eq_of_length_le (by omega)
  rw [RecordOf.setSlot, hsame]

/-- If everything is right, a pass changes nothing. -/
theorem deriveFields_fixed (h : ∀ f ∈ fields, f.Holds r) (w : Workspace) (t : ByteStream) :
    fields.forM deriveField ⟨w, t, r⟩ = .ok () ⟨w, t, r⟩ := by
  induction fields with
  | nil => rfl
  | cons f rest ih =>
    refine bind_ok.mpr ⟨(), ⟨w, t, r⟩, ?_, ih fun g hg => h g (List.mem_cons_of_mem _ hg)⟩
    -- a field that holds already has the value that is derived
    cases hd : f.derivation with
    | none =>
      rw [deriveField, hd]
      rfl
    | some d =>
      rw [deriveField, hd]
      refine bind_ok.mpr ⟨r, _, rfl, bind_ok.mpr ⟨r.slot f.slot, ⟨w, t, r⟩, ?_, ?_⟩⟩
      · exact Op.space_ok.mpr ⟨w, h f List.mem_cons_self d hd w, rfl⟩
      · rw [RecordOf.setSlot_slot]
        rfl

end

end RecordLayout
