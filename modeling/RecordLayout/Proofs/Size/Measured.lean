import RecordLayout.Proofs.Size.Takes

/-!
# Sizes that are asked for

The size of a record is asked for before anybody knows whether the record can be written. What the
answer says of a record that may be of any make: it adds up what its fields are worth, where numbers
and arrays are worth what the slots that govern them say, whatever they hold themselves, and it is
the size that is known beforehand, where one is.

Main results:

* `lasting` — a question that has been answered is answered like that ever after;
* `sizeTerms_worth` — the terms of a size are worth what the fields are worth;
* `recordSizeWith_weighed` — the size of a record is the sum of what its fields are worth;
* `placedSizeWithin_foreseen`, `recordSizeWith_foreseen` — a size that is known beforehand is the one
  that is measured.
-/

namespace RecordLayout

/-! ## Answers that have been given -/

/-- Once the question has been answered, it has that answer ever after. -/
def Lasts {α : Type} (act : SpaceM α) : Prop :=
  ∀ w, w.Sound → Learning act w fun a w' => w'.Steady act a

/-- Every question lasts. -/
theorem lasting : SpaceM.Modular Lasts where
  pure a _ hw := .pure hw (.pure a)
  throw _ _ _ := .throw
  bind hact hnext w hw := by
    intro b w' hrun
    obtain ⟨a, w₁, hfirst, hthen⟩ := bind_ok.mp hrun
    obtain ⟨hw₁, hlearns, hsteady⟩ := hact w hw a w₁ hfirst
    obtain ⟨hw', hlearns', hsteady'⟩ := hnext a w₁ hw₁ b w' hthen
    exact ⟨hw', hlearns.trans hlearns', (hsteady.mono hlearns'.toLe).bind hsteady'⟩
  -- what a later space answers is what this one has: layouts, types and placements are never taken
  -- back
  catalog w hw := (catalog_learning hw).mono fun c w' _ _ hc => by
    obtain ⟨rfl, rfl⟩ := hc
    exact w.catalog_steady
  typeId v w hw := (typeId_gives hw v).mono fun id w' _ _ hid => by
    rcases hid with ⟨rfl, rfl⟩ | ⟨type, i, htype, rfl, hgives⟩
    · exact .of_same fun _ _ => rfl
    · exact Workspace.typeId_steady htype hgives
  layout id kind w hw := (layout_learning hw id kind).mono fun _ _ _ _ hl =>
    Workspace.layout_steady hl
  openPlacement id w hw := (openPlacement_learning hw id).mono fun p w' _ hlearns hp => by
    obtain ⟨type, htype, hplace⟩ := hp
    exact Workspace.openPlacement_steady (hlearns.resolve htype) hplace
  inlineSize p w hw := (inlineSize_learning hw p).mono fun size w' hw' _ hsize => by
    obtain ⟨rfl, hset⟩ := hsize
    exact Workspace.inlineSize_steady hw' hset

/-- The sizes of values last. -/
theorem placedSize_lasts (depth : Nat) (p : Placement) (v : Value) :
    Lasts (placedSizeWithin depth p v) :=
  lasting.placedSizeWithin depth p v

/-! ## What fields are worth -/

/-- The bytes of the width in a slot. -/
def RecordOf.widthBytes (r : Record) (slot : Nat) : Nat :=
  match r.slot slot with
  | .width width => width.bytes
  | _ => 0

/-- The count in a slot. -/
def RecordOf.count (r : Record) (slot : Nat) : Nat := (r.slot slot).toNat?.getD 0

/-- What a field is worth in the size of a record: numbers and arrays what their governors say, other
fields what is known of them beforehand, and what they are measured at otherwise. -/
def BoundField.worth (r : Record) (measured : BoundField → Nat) (f : BoundField) : Nat :=
  match f.encoding with
  | .sized governor => r.widthBytes governor
  | .array element governor => r.count governor * element.bytes
  | _ => f.size.fixed?.getD (measured f)

/-- What a term is worth. -/
def SizeTerm.worth (l : Layout) (r : Record) (measured : BoundField → Nat) : SizeTerm → Nat
  | .widths governor count => r.widthBytes governor * count
  | .strides governor stride => r.count governor * stride
  | .field place => measured (l.fields.getD place default)

section

variable {l : Layout} {r : Record} {measured : BoundField → Nat}

theorem addWidth_worth (governor : Nat) (terms : List SizeTerm) :
    ((addWidth governor terms).map (·.worth l r measured)).sum =
      (terms.map (·.worth l r measured)).sum + r.widthBytes governor := by
  induction terms with
  | nil => simp [addWidth, SizeTerm.worth]
  | cons term rest ih =>
    cases term with
    | widths g count =>
      rw [addWidth]
      split
      · rename_i heq
        subst heq
        simp only [List.map_cons, List.sum_cons, SizeTerm.worth]
        ring
      · simp only [List.map_cons, List.sum_cons, ih]
        ring
    | strides g stride =>
      simp only [addWidth, List.map_cons, List.sum_cons, ih]
      ring
    | field place =>
      simp only [addWidth, List.map_cons, List.sum_cons, ih]
      ring

theorem addStride_worth (governor bytes : Nat) (terms : List SizeTerm) :
    ((addStride governor bytes terms).map (·.worth l r measured)).sum =
      (terms.map (·.worth l r measured)).sum + r.count governor * bytes := by
  induction terms with
  | nil => simp [addStride, SizeTerm.worth]
  | cons term rest ih =>
    cases term with
    | strides g stride =>
      rw [addStride]
      split
      · rename_i heq
        subst heq
        simp only [List.map_cons, List.sum_cons, SizeTerm.worth]
        ring
      · simp only [List.map_cons, List.sum_cons, ih]
        ring
    | widths g count =>
      simp only [addStride, List.map_cons, List.sum_cons, ih]
      ring
    | field place =>
      simp only [addStride, List.map_cons, List.sum_cons, ih]
      ring

/-- However fields are grouped, they are worth the same. -/
theorem sizeTerms_worth {before fields : List BoundField} (fixed : Nat) (terms : List SizeTerm)
    (hfields : l.fields = before ++ fields) :
    (sizeTerms fixed terms before.length fields).1 +
        ((sizeTerms fixed terms before.length fields).2.map (·.worth l r measured)).sum =
      fixed + (terms.map (·.worth l r measured)).sum +
        (fields.map (·.worth r measured)).sum := by
  induction fields generalizing before fixed terms with
  | nil => rfl
  | cons f fields ih =>
    have hfields' : l.fields = (before ++ [f]) ++ fields := by rw [hfields]; simp
    have hlength : (before ++ [f]).length = before.length + 1 := List.length_append
    have hrest (fixed' : Nat) (terms' : List SizeTerm) := ih fixed' terms' hfields'
    rw [hlength] at hrest
    rw [sizeTerms, List.map_cons, List.sum_cons]
    split
    · -- a number of governed width goes to the term of its governor
      rename_i governor he
      rw [hrest, addWidth_worth, show f.worth r measured = r.widthBytes governor by
        simp only [BoundField.worth, he]]
      ring
    · -- an array goes to the term of its count
      rename_i element governor he
      rw [hrest, addStride_worth, show f.worth r measured = r.count governor * element.bytes by
        simp only [BoundField.worth, he]]
      ring
    · rename_i hsized harray
      have hworth : f.worth r measured = f.size.fixed?.getD (measured f) := by
        rw [BoundField.worth]
        split
        · rename_i governor he
          exact absurd he (hsized governor)
        · rename_i element governor he
          exact absurd he (harray element governor)
        · rfl
      rw [hworth]
      split
      · -- a fixed size is added to what is fixed
        rename_i n hsize
        rw [hrest, hsize]
        show _ = _ + (n + _)
        ring
      · -- any other field is a term of its own
        rename_i least most hsize
        have hplace : l.fields.getD before.length default = f := by
          rw [hfields, List.getD_eq_getElem?_getD, List.getElem?_append_right (Nat.le_refl _),
            Nat.sub_self]
          rfl
        rw [hrest, hsize, List.map_append, List.sum_append, List.map_singleton, List.sum_singleton,
          SizeTerm.worth, hplace]
        show _ = _ + (measured f + _)
        ring

/-- A layout is worth what its fields are worth. -/
theorem LayoutGood.worth {c : Compiler} {id : SchemaId} {kind : LayoutKind}
    (hl : LayoutGood c id kind l) :
    l.fixedPart + (l.terms.map (·.worth l r measured)).sum =
      (l.fields.map (·.worth r measured)).sum := by
  have hparts := @sizeTerms_worth l r measured [] l.fields 0 [] rfl
  rw [List.length_nil, ← hl.parts] at hparts
  rw [hparts, List.map_nil, List.sum_nil, Nat.zero_add, Nat.zero_add]

/-! ### Counts that are asked for -/

/-- The slot of the count by which a term counts. -/
def SizeTerm.counter? : SizeTerm → Option Nat
  | .strides governor _ => some governor
  | _ => none

theorem counters_addWidth (governor : Nat) (terms : List SizeTerm) :
    (addWidth governor terms).filterMap SizeTerm.counter? =
      terms.filterMap SizeTerm.counter? := by
  induction terms with
  | nil => rfl
  | cons term rest ih =>
    cases term with
    | widths g count =>
      rw [addWidth]
      split
      · rfl
      · simp only [List.filterMap_cons, SizeTerm.counter?, ih]
    | strides g stride => simp only [addWidth, List.filterMap_cons, SizeTerm.counter?, ih]
    | field place => simp only [addWidth, List.filterMap_cons, SizeTerm.counter?, ih]

theorem mem_counters_addStride {g governor bytes : Nat} {terms : List SizeTerm} :
    g ∈ (addStride governor bytes terms).filterMap SizeTerm.counter? ↔
      g = governor ∨ g ∈ terms.filterMap SizeTerm.counter? := by
  induction terms with
  | nil => simp [addStride, SizeTerm.counter?]
  | cons term rest ih =>
    cases term with
    | strides g' stride =>
      rw [addStride]
      split
      · rename_i heq
        subst heq
        simp [SizeTerm.counter?]
      · simp only [List.filterMap_cons, SizeTerm.counter?, List.mem_cons, ih]
        tauto
    | widths g' count => simpa [addStride, SizeTerm.counter?] using ih
    | field place => simpa [addStride, SizeTerm.counter?] using ih

/-- The terms count by the slots that govern arrays. -/
theorem mem_counters_sizeTerms {g fixed place : Nat} {terms : List SizeTerm}
    {fields : List BoundField} :
    g ∈ (sizeTerms fixed terms place fields).2.filterMap SizeTerm.counter? ↔
      g ∈ terms.filterMap SizeTerm.counter? ∨
        ∃ f ∈ fields, ∃ element, f.encoding = .array element g := by
  -- an array's count may already have a term, to which its stride is then added
  induction fields generalizing fixed place terms with
  | nil => simp [sizeTerms]
  | cons f fields ih =>
    rw [sizeTerms]
    split
    · rename_i governor he
      simp [ih, counters_addWidth, he]
    · rename_i element governor he
      have hhere : (∃ element, f.encoding = .array element g) ↔ g = governor := by
        rw [he]
        simp [eq_comm]
      simp only [ih, mem_counters_addStride, List.mem_cons, exists_eq_or_imp, hhere]
      tauto
    · rename_i hsized harray
      have hnone : ¬∃ element, f.encoding = .array element g := by
        rintro ⟨element, he⟩
        exact harray element g he
      split
      · simp [ih, hnone]
      · simp [ih, hnone, SizeTerm.counter?]

end

/-! ## Sums -/

section

variable {w w' : Workspace}

/-- A sum that is answered is the sum of answers that last. -/
theorem sumOf_lasts {α : Type} {ask : α → SpaceM Nat} (hask : ∀ a, Lasts (ask a)) (hs : w.Sound)
    {items : List α} {n : Nat} (h : sumOf ask items w = .ok n w') :
    ∃ sizes, List.Forall₂ (fun a k => w'.Steady (ask a) k) items sizes ∧ n = sizes.sum := by
  induction items generalizing w n with
  | nil =>
    obtain ⟨rfl, rfl⟩ := pure_ok.mp h
    exact ⟨[], .nil, rfl⟩
  | cons a rest ih =>
    rw [sumOf] at h
    obtain ⟨k, w₁, hfirst, hthen⟩ := bind_ok.mp h
    obtain ⟨m, w₂, hrest, hpure⟩ := bind_ok.mp hthen
    obtain ⟨rfl, rfl⟩ := pure_ok.mp hpure
    obtain ⟨hs₁, -, hsteady⟩ := hask a w hs k w₁ hfirst
    obtain ⟨-, hlearns, -⟩ := lasting.sumOf hask rest w₁ hs₁ m w₂ hrest
    obtain ⟨sizes, hall, rfl⟩ := ih hs₁ hrest
    exact ⟨k :: sizes, .cons (hsteady.mono hlearns.toLe) hall, by rw [List.sum_cons]⟩

/-! ## Records -/

variable {sizeOf : SizeOf} {l : Layout} {r : Record} {n : Nat}

/-- The size at which a field is measured, if it can be. -/
def measuredAt (w : Workspace) (sizeOf : SizeOf) (r : Record) (f : BoundField) : Nat :=
  match fieldSizeWith sizeOf r f w with
  | .ok k _ => k
  | .error _ _ => 0

theorem measuredAt_eq (hs : w.Sound) {f : BoundField} {k : Nat}
    (h : w.Steady (fieldSizeWith sizeOf r f) k) : measuredAt w sizeOf r f = k := by
  obtain ⟨v, hrun, -⟩ := h w (.refl w) hs
  rw [measuredAt, hrun]

/-- What the size of a record is made up of. -/
structure Weighed (w : Workspace) (sizeOf : SizeOf) (l : Layout) (r : Record) (n : Nat) : Prop where
  sum : n = (l.fields.map (·.worth r (measuredAt w sizeOf r))).sum
  /-- Arrays are counted by numbers. -/
  counts : ∀ f ∈ l.fields, ∀ element g, f.encoding = .array element g →
    ∃ m, (r.slot g).toNat? = some m

theorem SizeTerm.worth_of_steady (hs : w.Sound) {term : SizeTerm} {k : Nat}
    (h : w.Steady (termSizeWith sizeOf l r term) k) :
    k = term.worth l r (measuredAt w sizeOf r) ∧
      ∀ g, term.counter? = some g → ∃ m, (r.slot g).toNat? = some m := by
  -- a term is worth the bytes it stands for: a width's, a count of strides, or one field's
  cases term with
  | widths g count =>
    obtain ⟨v, hrun, -⟩ := h w (.refl w) hs
    obtain ⟨width, v', hwidth, hpure⟩ := bind_ok.mp hrun
    obtain ⟨hslot, rfl⟩ := widthIn_ok.mp hwidth
    obtain ⟨rfl, -⟩ := pure_ok.mp hpure
    refine ⟨by rw [worth, RecordOf.widthBytes, hslot], ?_⟩
    rintro g' ⟨⟩
  | strides g stride =>
    obtain ⟨v, hrun, -⟩ := h w (.refl w) hs
    cases hm : (r.slot g).toNat? with
    | some m =>
      simp only [termSizeWith, hm] at hrun
      obtain ⟨rfl, -⟩ := pure_ok.mp hrun
      refine ⟨by rw [worth, RecordOf.count, hm, Option.getD_some], ?_⟩
      rintro g' ⟨⟩
      exact ⟨m, hm⟩
    | none =>
      simp only [termSizeWith, hm] at hrun
      exact (mismatch_fails hrun).elim
  | field place =>
    refine ⟨(measuredAt_eq hs h).symm, ?_⟩
    rintro g' ⟨⟩

/-- The size of a record is the sum of what its fields are worth. -/
theorem recordSizeWith_weighed (hsize : ∀ p v, Lasts (sizeOf p v)) (hs : w.Sound)
    (hl : w.Knows l) (h : recordSizeWith sizeOf l r w = .ok n w') : Weighed w' sizeOf l r n := by
  have hgood := hl.good hs
  rw [recordSizeWith] at h
  obtain ⟨varying, w₁, hsum, hpure⟩ := bind_ok.mp h
  obtain ⟨rfl, rfl⟩ := pure_ok.mp hpure
  have hask := lasting.termSizeWith hsize l r
  obtain ⟨hs', -, -⟩ := lasting.sumOf hask _ w hs _ _ hsum
  obtain ⟨sizes, hall, rfl⟩ := sumOf_lasts hask hs hsum
  refine ⟨?_, fun f hf element g he => ?_⟩
  · have hsizes : sizes = l.terms.map (·.worth l r (measuredAt w₁ sizeOf r)) := by
      rw [← List.forall₂_eq_eq_eq, List.forall₂_map_right_iff]
      exact hall.flip.imp fun k term hterm => (SizeTerm.worth_of_steady hs' hterm).1
    rw [← hgood.worth, hsizes]
  · have hmem : g ∈ l.terms.filterMap SizeTerm.counter? := by
      rw [show l.terms = (sizeTerms 0 [] 0 l.fields).2 by rw [← hgood.parts]]
      exact mem_counters_sizeTerms.mpr (Or.inr ⟨f, hf, element, he⟩)
    obtain ⟨term, hterm, hcounter⟩ := List.mem_filterMap.mp hmem
    obtain ⟨i, hi, rfl⟩ := List.getElem_of_mem hterm
    have hsteady := (List.forall₂_iff_get.mp hall).2 i hi (hall.length_eq ▸ hi)
    exact (SizeTerm.worth_of_steady hs' hsteady).2 g hcounter

/-! ## Fixed sizes -/

/-- Where a size is known beforehand, it is the one that is measured. -/
def Foreseen (sizeOf : SizeOf) : Prop :=
  ∀ (p : Placement) (v : Value) (w w' : Workspace) (n m : Nat), w.Sound →
    sizeOf p v w = .ok n w' → p.sizeIn w.compiler = .fixed m → n = m

/-- A range that is the sum of a fixed size and another range is fixed with it. -/
theorem SizeRange.fixed_add {b : SizeRange} {k m : Nat}
    (h : (SizeRange.fixed k).add b = .fixed m) : ∃ j, b = .fixed j ∧ m = k + j := by
  cases b with
  | fixed j =>
    cases h
    exact ⟨j, rfl, rfl⟩
  | between least most => cases h

theorem SizeRange.bounded_ne_fixed {least most m : Nat} (h : least ≠ most) :
    SizeRange.bounded least most ≠ .fixed m := by
  rw [bounded, if_neg h]
  exact SizeRange.noConfusion

/-- An absent or present value takes a fixed number of bytes only if present ones do. -/
theorem Encoding.sizeIn_marked {c : Compiler} {p : Placement} {m : Nat}
    (h : (Encoding.placed p true).sizeIn c = .fixed m) :
    ∃ j, p.sizeIn c = .fixed j ∧ m = 1 + j := by
  obtain ⟨j, hbody, rfl⟩ := SizeRange.fixed_add h
  have hinner : (p.sizeIn c).isFixed = true := by
    by_contra hopen
    rw [if_neg hopen] at hbody
    exact hopen (SizeRange.isFixed_union (by rw [hbody]; rfl)).1
  rw [if_pos hinner] at hbody
  exact ⟨j, hbody, rfl⟩

/-- A fixed size is seen the same way later. -/
theorem Placement.sizeIn_fixed {c c' : Compiler} (h : c.Grows c') {p : Placement} {m : Nat}
    (hfix : p.sizeIn c = .fixed m) : p.sizeIn c' = .fixed m := by
  have hfixes : c.Fixes (.placed p false) := SizeRange.isFixed_iff.mpr ⟨m, hfix⟩
  exact (hfixes.sizeIn h).trans hfix

variable {f : BoundField} {m : Nat}

/-- A field of fixed size is measured at that size. -/
theorem fieldSizeWith_foreseen (hin : Foreseen sizeOf) (hs : w.Sound)
    (h : fieldSizeWith sizeOf r f w = .ok n w') (hfix : f.encoding.sizeIn w.compiler = .fixed m) :
    n = m := by
  cases he : f.encoding with
  | scalar kind =>
    rw [he] at hfix
    cases hfix
    simp only [fieldSizeWith, he, Encoding.ownSize] at h
    exact (pure_ok.mp h).1.symm
  | ordinal =>
    rw [he] at hfix
    cases hfix
    simp only [fieldSizeWith, he, Encoding.ownSize] at h
    exact (pure_ok.mp h).1.symm
  | forced width =>
    rw [he] at hfix
    cases hfix
    simp only [fieldSizeWith, he, Encoding.ownSize] at h
    exact (pure_ok.mp h).1.symm
  | sized g =>
    -- such a number has no fixed size, and neither has the next one
    rw [he] at hfix
    exact absurd hfix (SizeRange.bounded_ne_fixed (by decide))
  | varint =>
    rw [he] at hfix
    exact absurd hfix (SizeRange.bounded_ne_fixed (by decide))
  | array element g =>
    rw [he] at hfix
    cases hfix
  | placed p marker =>
    rw [he] at hfix
    cases marker with
    | false =>
      simp only [fieldSizeWith, he] at h
      exact hin p _ w w' n m hs h hfix
    | true =>
      -- with the marker, an absent value takes as many bytes as one that is there
      obtain ⟨j, hj, rfl⟩ := Encoding.sizeIn_marked hfix
      simp only [fieldSizeWith, he] at h
      rcases ite_ok.mp h with ⟨-, h⟩ | ⟨-, h⟩
      · obtain ⟨size, w₁, hask, hpure⟩ := bind_ok.mp h
        obtain ⟨rfl, -⟩ := pure_ok.mp hpure
        obtain ⟨-, hlearns, rfl, -⟩ := inlineSize_learning hs p _ _ hask
        rw [Placement.sizeIn_fixed hlearns.compiler hj]
        rfl
      · obtain ⟨k, w₁, hsize, hpure⟩ := bind_ok.mp h
        obtain ⟨rfl, -⟩ := pure_ok.mp hpure
        rw [hin p _ w w₁ k j hs hsize hj]

/-- A record in a layout of fixed size is measured at that size. -/
theorem recordSizeWith_foreseen (hsize : ∀ p v, Lasts (sizeOf p v)) (hs : w.Sound)
    (hl : w.Knows l) (h : recordSizeWith sizeOf l r w = .ok n w') (hfix : l.size = .fixed m) :
    n = m := by
  have hgood := hl.good hs
  -- a sum of fixed size has parts of fixed size
  have hall : ∀ f ∈ l.fields, f.size.isFixed = true := fun f hf =>
    SizeRange.isFixed_sum (by rw [← hgood.size, hfix]; rfl) _ (List.mem_map_of_mem hf)
  have hworth : ∀ f ∈ l.fields, f.size.contains (f.worth r (measuredAt w' sizeOf r)) = true := by
    intro f hf
    obtain ⟨decl, hfield⟩ := hgood.fields.declared hf
    have henc := (hfield.sized.isFixed_iff hs.compiler.good).mp (hall f hf)
    obtain ⟨k, hk⟩ := SizeRange.isFixed_iff.mp (hall f hf)
    rw [hk, SizeRange.contains_fixed, BoundField.worth]
    split
    · -- numbers of governed width are of no fixed size, and neither are arrays
      rename_i g he
      rw [he] at henc
      cases henc
    · rename_i element g he
      rw [he] at henc
      cases henc
    · rw [hk]
      rfl
  have hcontains : l.size.contains n = true := by
    rw [(recordSizeWith_weighed hsize hs hl h).sum, hgood.size]
    refine SizeRange.contains_sum ?_
    rw [List.forall₂_map_left_iff, List.forall₂_map_right_iff, List.forall₂_same]
    exact hworth
  rw [hfix, SizeRange.contains_fixed] at hcontains
  exact hcontains

/-- A record whose layout has been asked for. -/
theorem Foreseen.asked (hsize : ∀ p v, Lasts (sizeOf p v)) {key : LayoutKey} {w₁ : Workspace}
    (hlearns : w.Learns w₁) (hs₁ : w₁.Sound) (hl : w₁.compiler.answer key = some l)
    (h : recordSizeWith sizeOf l r w₁ = .ok n w')
    (hfix : (w.compiler.answer key).elim (SizeRange.atLeast 0) (·.size) = .fixed m) : n = m := by
  cases hknown : w.compiler.answer key with
  | none =>
    rw [hknown] at hfix
    cases hfix
  | some l' =>
    rw [hknown] at hfix
    have hlater := hlearns.compiler.answer hknown
    rw [hlater, Option.some.injEq] at hl
    subst hl
    exact recordSizeWith_foreseen hsize hs₁ (hs₁.knows hlater).1 h hfix

/-- The record in a place of fixed size. -/
theorem innerSize_foreseen (hsize : ∀ p v, Lasts (sizeOf p v)) (hs : w.Sound) {id : SchemaId}
    {kind : LayoutKind} {v : Value} (h : innerSize sizeOf id kind v w = .ok n w')
    (hfix : (w.compiler.answer (id, kind)).elim (SizeRange.atLeast 0) (·.size) = .fixed m) :
    n = m := by
  rw [innerSize] at h
  obtain ⟨c, w₁, hcat, h⟩ := bind_ok.mp h
  cases hcat
  cases v with
  | record r =>
    simp only at h
    rcases ite_ok.mp h with ⟨-, h⟩ | ⟨-, h⟩
    · obtain ⟨l, w₁, hask, h⟩ := bind_ok.mp h
      obtain ⟨hs₁, hlearns, hl⟩ := layout_learning hs id kind l w₁ hask
      exact Foreseen.asked hsize hlearns hs₁ hl h hfix
    · exact (mismatch_fails h).elim
  | _ => exact (mismatch_fails h).elim

/-- The value of a choice of fixed size: every variant is as long as the tag that stands for none. -/
theorem choiceSize_foreseen {depth : Nat} (hs : w.Sound) {choice : ChoiceId} {v : Value}
    (h : placedSizeWithin (depth + 1) (.inlineChoice choice) v w = .ok n w')
    (hfix : (Placement.inlineChoice choice).sizeIn w.compiler = .fixed m) : n = m := by
  rw [Placement.sizeIn] at hfix
  obtain ⟨hsame, -, hall⟩ := variantSizeIn_fixed (SizeRange.isFixed_iff.mpr ⟨m, hfix⟩)
  rw [hfix] at hsame
  cases hsame
  obtain ⟨c, w₁, hcat, h⟩ := bind_ok.mp h
  cases hcat
  cases v with
  | null => exact (pure_ok.mp h).1.symm
  | record r =>
    obtain ⟨tag, w₁, hasked, h⟩ := bind_ok.mp h
    obtain ⟨htag, rfl⟩ := tagOf_ok.mp hasked
    obtain ⟨l, w₂, hask, h⟩ := bind_ok.mp h
    obtain ⟨k, w₃, hbody, hpure⟩ := bind_ok.mp h
    obtain ⟨rfl, -⟩ := pure_ok.mp hpure
    obtain ⟨hs₂, hlearns, v, hv, hl⟩ := variantLayout_learning hs choice tag l w₂ hask
    -- tags count the variants from one
    obtain ⟨i, rfl, hvariant⟩ := Choice.variants_of_tagOf? htag
    rw [Choice.variant?, if_neg (Nat.succ_ne_zero i), Nat.add_sub_cancel, hvariant] at hv
    cases hv
    obtain ⟨l', hl', hadd⟩ := hall i _ hvariant
    obtain ⟨j, hj, hone⟩ := SizeRange.fixed_add hadd
    have hk : k = j :=
      Foreseen.asked (placedSize_lasts depth) hlearns hs₂ hl hbody (by rw [hl']; exact hj)
    rw [hk, Nat.add_comm i 1]
    exact hone.symm
  | _ => exact (mismatch_fails h).elim

/-- Whatever is measured in a place of fixed size has that size. -/
theorem placedSizeWithin_foreseen (depth : Nat) : Foreseen (placedSizeWithin depth) := by
  -- a size that is fixed is known before the value is looked at
  cases depth with
  | zero => exact fun p v w w' n m _ h => (throw_ok.mp h).elim
  | succ depth =>
    intro p v w w' n m hs h hfix
    have hlasts := placedSize_lasts depth
    cases p with
    | inlineText => cases hfix
    | inlineOpen => cases hfix
    | inlineRecord id => exact innerSize_foreseen hlasts hs h hfix
    | fixedRecord id => exact innerSize_foreseen hlasts hs h hfix
    | wrapped wrapper carrier kind =>
      obtain ⟨c, w₁, hcat, h⟩ := bind_ok.mp h
      cases hcat
      cases v with
      | wrapped wrapper' r =>
        rcases ite_ok.mp h with ⟨-, h⟩ | ⟨-, h⟩
        · obtain ⟨l, w₁, hask, h⟩ := bind_ok.mp h
          obtain ⟨hs₁, hlearns, hl⟩ := layout_learning hs carrier kind l w₁ hask
          exact Foreseen.asked hlasts hlearns hs₁ hl h hfix
        · exact (mismatch_fails h).elim
      | _ => exact (mismatch_fails h).elim
    | handle id fixed =>
      cases fixed with
      | true =>
        cases hfix
        exact (pure_ok.mp h).1.symm
      | false => exact absurd hfix (SizeRange.bounded_ne_fixed (by decide))
    | inlineChoice choice => exact choiceSize_foreseen hs h hfix
    | _ =>
      cases hfix
      exact (pure_ok.mp h).1.symm

end

end RecordLayout
