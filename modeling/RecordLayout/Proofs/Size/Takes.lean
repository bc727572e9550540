import RecordLayout.Proofs.Codec.Derive
import RecordLayout.Proofs.Size.Ranges
import RecordLayout.Proofs.Size.Types
import RecordLayout.Proofs.Stream.Reading

/-!
# Sizes of values

A value takes a number of bytes in its placement if that is the answer to every later question for
its size, and if it lies in every range that was seen of the placement: `Placement.Takes`. The
questions are asked by walks that know how deep they may go; a value is as deep as its records are
nested, and a value of open type is placed once more at each level: `Placement.reach`.

Main results:

* `FieldTakes.sizeTerms` — fields that share a governor are counted once, and correctly;
* `RecordTakes.of_fields` — the size of a record is the sum of those of its fields;
* `Placement.Takes.choice`, `Placement.Takes.typed` — values with a tag or a type before them.
-/

namespace RecordLayout

/-! ## Depth -/

/-- A value of a list is no deeper than the deepest of them. -/
theorem Value.depth_le_depthAll {v : Value} {values : List Value} (h : v ∈ values) :
    v.depth ≤ Value.depthAll values := by
  induction values with
  | nil => cases h
  | cons first rest ih =>
    rw [Value.depthAll]
    rcases List.mem_cons.mp h with rfl | hmem
    · exact Nat.le_max_left _ _
    · exact (ih hmem).trans (Nat.le_max_right _ _)

/-- What is in a slot is less deep than the record. -/
theorem RecordOf.depth_slot (r : Record) (i : Nat) : (r.slot i).depth + 1 ≤ r.depth := by
  obtain ⟨schema, slots, chunks⟩ := r
  rw [RecordOf.depth]
  by_cases hi : i < slots.length
  · have hmem : RecordOf.slot ⟨schema, slots, chunks⟩ i ∈ slots := by
      rw [RecordOf.slot, List.getD_eq_getElem _ _ hi]
      exact List.getElem_mem hi
    exact Nat.succ_le_succ (Value.depth_le_depthAll hmem)
  · rw [RecordOf.slot_of_length_le (by simpa using hi)]
    exact Nat.succ_le_succ (Nat.zero_le _)

/-! ## Placed values -/

namespace Placement

/-- How deep the walk over a value in its placement may have to go. -/
def reach (p : Placement) (v : Value) : Nat := 2 * v.depth + if p = .inlineOpen then 2 else 1

/-- A placement does not look deeper than the walk through its value. -/
theorem reach_le (p : Placement) (v : Value) : p.reach v ≤ v.walkDepth := by
  rw [reach, Value.walkDepth]
  split <;> omega

/-- Every walk goes at least one step. -/
theorem succ_of_reach {p : Placement} {v : Value} {depth : Nat} (h : p.reach v ≤ depth) :
    ∃ n, depth = n + 1 := by
  refine Nat.exists_eq_succ_of_ne_zero ?_
  rw [reach] at h
  split at h <;> omega

/-- A value takes so many bytes in its placement. -/
structure Takes (w : Workspace) (p : Placement) (v : Value) (k : Nat) : Prop where
  size : ∀ depth, p.reach v ≤ depth → w.Steady (placedSizeWithin depth p v) k
  range : ∀ c, w.compiler.Grows c → (p.sizeIn c).contains k = true

end Placement

/-! ## Fields -/

/-- A field of a record takes so many bytes. -/
structure FieldTakes (w : Workspace) (r : Record) (f : BoundField) (k : Nat) : Prop where
  size : ∀ depth, 2 * (r.slot f.slot).depth + 2 ≤ depth →
    w.Steady (fieldSizeWith (placedSizeWithin depth) r f) k
  range : ∀ c, w.compiler.Grows c → (f.encoding.sizeIn c).contains k = true
  /-- Numbers of one width and arrays of one length are counted together. -/
  width : ∀ g, f.encoding = .sized g → ∃ width, r.slot g = .width width ∧ k = width.bytes
  count : ∀ element g, f.encoding = .array element g →
    ∃ n, (r.slot g).toNat? = some n ∧ k = n * element.bytes

namespace FieldTakes

variable {w w' : Workspace} {r r' : Record} {f : BoundField} {k : Nat}

/-- A field depends on its own slot and on the one that decides its size. -/
theorem transfer (h : FieldTakes w r f k) (hle : w.Le w') (hown : r'.slot f.slot = r.slot f.slot)
    (hgovernor : ∀ g, f.encoding.governor? = some g → r'.slot g = r.slot g) :
    FieldTakes w' r' f k := by
  have hsize (sizeOf : SizeOf) : fieldSizeWith sizeOf r' f = fieldSizeWith sizeOf r f := by
    cases he : f.encoding with
    | sized g => simp only [fieldSizeWith, he, widthIn, hgovernor g (by rw [he]; rfl)]
    | placed p marker => cases marker <;> simp only [fieldSizeWith, he, hown]
    | _ => simp only [fieldSizeWith, he, hown]
  refine ⟨fun depth hdepth => ?_, fun c hc => ?_, fun g he => ?_, fun element g he => ?_⟩
  · rw [hown] at hdepth
    rw [hsize]
    exact (h.size depth hdepth).mono hle
  · exact h.range c (hle.compiler.trans hc)
  · rw [hgovernor g (by rw [he]; rfl)]
    exact h.width g he
  · rw [hgovernor g (by rw [he]; rfl)]
    exact h.count element g he

/-- A slot whose encoding has a fixed size by itself. -/
theorem own (hsize : ∀ sizeOf, fieldSizeWith sizeOf r f = pure k)
    (hrange : ∀ c, f.encoding.sizeIn c = .fixed k) : FieldTakes w r f k := by
  refine ⟨fun depth _ => ?_, fun c _ => ?_, fun g he => ?_, fun element g he => ?_⟩
  · rw [hsize]
    exact .pure k
  · rw [hrange]
    exact SizeRange.contains_fixed.mpr rfl
  · have hfixed := hrange w.compiler
    rw [he] at hfixed
    cases hfixed
  · have hfixed := hrange w.compiler
    rw [he] at hfixed
    cases hfixed

/-- A scalar field takes the bytes of its kind. -/
theorem scalar {kind : ScalarKind} (he : f.encoding = .scalar kind) :
    FieldTakes w r f kind.bytes := by
  refine own (fun sizeOf => ?_) fun c => ?_
  · simp only [fieldSizeWith, he, Encoding.ownSize]
  · rw [he]
    rfl

/-- A choice's ordinal takes one byte. -/
theorem ordinal (he : f.encoding = .ordinal) : FieldTakes w r f 1 := by
  refine own (fun sizeOf => ?_) fun c => ?_
  · simp only [fieldSizeWith, he, Encoding.ownSize]
  · rw [he]
    rfl

/-- A field of forced width takes that width. -/
theorem forced {width : Width} (he : f.encoding = .forced width) :
    FieldTakes w r f width.bytes := by
  refine own (fun sizeOf => ?_) fun c => ?_
  · simp only [fieldSizeWith, he, Encoding.ownSize]
  · rw [he]
    rfl

/-- A field sized by another takes the width found in that other field. -/
theorem sized {g : Nat} {width : Width} (he : f.encoding = .sized g)
    (hwidth : r.slot g = .width width) : FieldTakes w r f width.bytes := by
  refine ⟨fun depth _ => ?_, fun c _ => ?_, fun g' he' => ?_, fun element g' he' => ?_⟩
  · simp only [fieldSizeWith, he]
    exact (Workspace.Steady.of_same fun _ _ => widthIn_ok.mpr ⟨hwidth, rfl⟩).bind (.pure _)
  · rw [he]
    exact SizeRange.contains_bounded (Nat.zero_le _) width.bytes_le
  · rw [he] at he'
    cases he'
    exact ⟨width, hwidth, rfl⟩
  · rw [he] at he'
    cases he'

/-- A varint field takes the length of its number's varint. -/
theorem varint {n : Nat} (he : f.encoding = .varint) (hn : (r.slot f.slot).toNat? = some n) :
    FieldTakes w r f (Varint.length (UInt64.ofNat n)) := by
  refine ⟨fun depth _ => ?_, fun c _ => ?_, fun g he' => ?_, fun element g he' => ?_⟩
  · simp only [fieldSizeWith, he]
    exact (Workspace.Steady.of_same fun _ _ => countOf_ok.mpr ⟨hn, rfl⟩).bind (.pure _)
  · rw [he]
    exact SizeRange.contains_bounded (Varint.length_pos _) (Varint.length_le _)
  · rw [he] at he'
    cases he'
  · rw [he] at he'
    cases he'

/-- An array takes one stride per item, when the counting field holds its length. -/
theorem array {element : ScalarKind} {g : Nat} {items : List Value}
    (he : f.encoding = .array element g) (hitems : r.slot f.slot = .list items)
    (hcount : (r.slot g).toNat? = some items.length) :
    FieldTakes w r f (items.length * element.bytes) := by
  refine ⟨fun depth _ => ?_, fun c _ => ?_, fun g' he' => ?_, fun element' g' he' => ?_⟩
  · simp only [fieldSizeWith, he]
    exact (Workspace.Steady.of_same fun _ _ => itemsOf_ok.mpr ⟨hitems, rfl⟩).bind (.pure _)
  · rw [he]
    exact SizeRange.contains_atLeast (Nat.zero_le _)
  · rw [he] at he'
    cases he'
  · rw [he] at he'
    cases he'
    exact ⟨items.length, hcount, rfl⟩

/-- A slot in a placement, however its size is made up. -/
theorem placed {p : Placement} {marker : Bool} (he : f.encoding = .placed p marker)
    (hsize : ∀ depth, 2 * (r.slot f.slot).depth + 2 ≤ depth →
      w.Steady (fieldSizeWith (placedSizeWithin depth) r f) k)
    (hrange : ∀ c, w.compiler.Grows c → ((Encoding.placed p marker).sizeIn c).contains k = true) :
    FieldTakes w r f k := by
  refine ⟨hsize, fun c hc => ?_, fun g he' => ?_, fun element g he' => ?_⟩
  · rw [he]
    exact hrange c hc
  · rw [he] at he'
    cases he'
  · rw [he] at he'
    cases he'

/-- A field that cannot be null takes what its placement takes. -/
theorem plain {p : Placement} (he : f.encoding = .placed p false)
    (h : p.Takes w (r.slot f.slot) k) : FieldTakes w r f k := by
  refine placed he (fun depth hdepth => ?_) h.range
  simp only [fieldSizeWith, he]
  exact h.size depth ((p.reach_le _).trans hdepth)

/-- A nullable field that is there takes its flag besides. -/
theorem present {p : Placement} (he : f.encoding = .placed p true)
    (hthere : (r.slot f.slot).isNull = false) (h : p.Takes w (r.slot f.slot) k) :
    FieldTakes w r f (1 + k) := by
  refine placed he (fun depth hdepth => ?_) fun c hc => ?_
  · simp only [fieldSizeWith, he, hthere, Bool.false_eq_true, if_false]
    exact (h.size depth ((p.reach_le _).trans hdepth)).bind (.pure _)
  · refine SizeRange.contains_add (SizeRange.contains_fixed.mpr rfl) ?_
    split
    · exact h.range c hc
    · exact (SizeRange.Covers.union_left _ _).contains (h.range c hc)

/-- A null takes as many bytes as a present value would, if that is one number. -/
theorem absent {p : Placement} (hs : w.Sound) (he : f.encoding = .placed p true)
    (hnull : r.slot f.slot = .null) (hset : w.compiler.Settles (p.asks w.catalog)) :
    FieldTakes w r f (1 + (p.sizeIn w.compiler).fixed?.getD 0) := by
  refine placed he (fun depth _ => ?_) fun c hc => ?_
  · simp only [fieldSizeWith, he, hnull, Value.isNull, if_true]
    exact (Workspace.inlineSize_steady hs hset).bind (.pure _)
  · rw [← Compiler.fixed?_sizeIn hs.compiler hc hset]
    refine SizeRange.contains_add (SizeRange.contains_fixed.mpr rfl) ?_
    cases p.sizeIn c with
    | fixed n => exact SizeRange.contains_fixed.mpr rfl
    | between least most =>
      have hnone : (SizeRange.fixed 0).contains 0 = true := SizeRange.contains_fixed.mpr rfl
      exact (SizeRange.Covers.union_right (.between least most) _).contains hnone

/-- A field takes a number of bytes that lies in the range which was seen of it. -/
theorem contains {s : Schema} {kind : LayoutKind} {decl : FieldDecl}
    (h : FieldTakes w r f k) (hgood : FieldGood w.compiler s kind decl f) :
    f.size.contains k = true := by
  have hnow := h.range _ (.refl _)
  rcases hgood.sized with ⟨-, hsize⟩ | ⟨-, -, c₀, hle, hsize⟩
  · rwa [hsize]
  · rw [hsize]
    exact (f.encoding.sizeIn_covers hle).contains hnow

end FieldTakes

/-! ## Records -/

/-- A record takes so many bytes in a layout, and its fields do together. -/
structure RecordTakes (w : Workspace) (l : Layout) (r : Record) (k : Nat) : Prop where
  size : ∀ depth, 2 * r.depth ≤ depth → w.Steady (recordSizeWith (placedSizeWithin depth) l r) k
  fields : ∀ depth, 2 * r.depth ≤ depth →
    w.Steady (sumOf (fieldSizeWith (placedSizeWithin depth) r) l.fields) k
  range : l.size.contains k = true

/-- What a record takes does not change as the space grows. -/
theorem RecordTakes.mono {w w' : Workspace} {l : Layout} {r : Record} {k : Nat}
    (h : RecordTakes w l r k) (hle : w.Le w') : RecordTakes w' l r k :=
  ⟨fun depth hdepth => (h.size depth hdepth).mono hle,
    fun depth hdepth => (h.fields depth hdepth).mono hle, h.range⟩

/-- What a term of the size of a record is worth. -/
inductive TermTakes (w : Workspace) (l : Layout) (r : Record) : SizeTerm → Nat → Prop
  | widths {g count : Nat} {width : Width} (hwidth : r.slot g = .width width) :
    TermTakes w l r (.widths g count) (width.bytes * count)
  | strides {g stride n : Nat} (hn : (r.slot g).toNat? = some n) :
    TermTakes w l r (.strides g stride) (n * stride)
  | field {place k : Nat} (h : FieldTakes w r (l.fields.getD place default) k) :
    TermTakes w l r (.field place) k

/-- What some terms are worth together. -/
def TermsTake (w : Workspace) (l : Layout) (r : Record) (terms : List SizeTerm) (k : Nat) : Prop :=
  ∃ sizes, List.Forall₂ (TermTakes w l r) terms sizes ∧ sizes.sum = k

section

variable {w : Workspace} {l : Layout} {r : Record}

/-- A term's size is answered the same wherever it is asked, with enough depth for its record. -/
theorem TermTakes.steady {term : SizeTerm} {k depth : Nat} (h : TermTakes w l r term k)
    (hdepth : 2 * r.depth ≤ depth) :
    w.Steady (termSizeWith (placedSizeWithin depth) l r term) k := by
  cases h with
  | widths hwidth =>
    exact (Workspace.Steady.of_same fun _ _ => widthIn_ok.mpr ⟨hwidth, rfl⟩).bind (.pure _)
  | strides hn =>
    simp only [termSizeWith, hn]
    exact .pure _
  | @field place k h =>
    refine h.size depth ?_
    have hslot := r.depth_slot (l.fields.getD place default).slot
    omega

/-- The sizes of a term and of those after it add up. -/
theorem TermsTake.cons {term : SizeTerm} {terms : List SizeTerm} {j k : Nat}
    (h : TermTakes w l r term j) (hrest : TermsTake w l r terms k) :
    TermsTake w l r (term :: terms) (j + k) := by
  obtain ⟨sizes, hall, rfl⟩ := hrest
  exact ⟨j :: sizes, .cons h hall, List.sum_cons⟩

/-- The sizes of two runs of terms add up. -/
theorem TermsTake.append {terms terms' : List SizeTerm} {j k : Nat}
    (h : TermsTake w l r terms j) (h' : TermsTake w l r terms' k) :
    TermsTake w l r (terms ++ terms') (j + k) := by
  obtain ⟨sizes, hall, rfl⟩ := h
  obtain ⟨sizes', hall', rfl⟩ := h'
  exact ⟨sizes ++ sizes', List.rel_append hall hall', List.sum_append⟩

/-- One more number of the width in a slot. -/
theorem TermsTake.addWidth {terms : List SizeTerm} {g k : Nat} {width : Width}
    (hwidth : r.slot g = .width width) (h : TermsTake w l r terms k) :
    TermsTake w l r (addWidth g terms) (k + width.bytes) := by
  have hone : TermTakes w l r (.widths g 1) width.bytes := by
    have hterm : TermTakes w l r (.widths g 1) (width.bytes * 1) := .widths hwidth
    rwa [Nat.mul_one] at hterm
  obtain ⟨sizes, hall, rfl⟩ := h
  induction hall with
  | nil =>
    rw [RecordLayout.addWidth, List.sum_nil, Nat.zero_add]
    exact ⟨_, .cons hone .nil, List.sum_singleton⟩
  | @cons term j terms sizes hterm hrest ih =>
    rw [List.sum_cons]
    -- unless this term is that of the slot, the number goes to a later one
    have hlater : TermsTake w l r (term :: RecordLayout.addWidth g terms)
        (j + sizes.sum + width.bytes) := by
      rw [Nat.add_assoc]
      exact .cons hterm ih
    cases hterm with
    | @widths g' count width' hwidth' =>
      rw [RecordLayout.addWidth]
      split
      · rename_i heq
        subst heq
        have hsame : width' = width := by
          rw [hwidth] at hwidth'
          cases hwidth'
          rfl
        subst hsame
        have hmore : TermTakes w l r (.widths g' (count + 1)) (width'.bytes * (count + 1)) :=
          .widths hwidth
        refine (show width'.bytes * (count + 1) + sizes.sum =
          width'.bytes * count + sizes.sum + width'.bytes by ring) ▸ ?_
        exact .cons hmore ⟨sizes, hrest, rfl⟩
      · exact hlater
    | strides hn => exact hlater
    | field h => exact hlater

/-- One more array whose length is in a slot. -/
theorem TermsTake.addStride {terms : List SizeTerm} {g k n bytes : Nat}
    (hn : (r.slot g).toNat? = some n) (h : TermsTake w l r terms k) :
    TermsTake w l r (addStride g bytes terms) (k + n * bytes) := by
  obtain ⟨sizes, hall, rfl⟩ := h
  induction hall with
  | nil =>
    rw [RecordLayout.addStride, List.sum_nil, Nat.zero_add]
    exact ⟨_, .cons (.strides hn) .nil, List.sum_singleton⟩
  | @cons term j terms sizes hterm hrest ih =>
    rw [List.sum_cons]
    -- unless this term is that of the slot, the array goes to a later one
    have hlater : TermsTake w l r (term :: RecordLayout.addStride g bytes terms)
        (j + sizes.sum + n * bytes) := by
      rw [Nat.add_assoc]
      exact .cons hterm ih
    cases hterm with
    | widths hwidth => exact hlater
    | @strides g' stride m hm =>
      rw [RecordLayout.addStride]
      split
      · rename_i heq
        subst heq
        have hsame : m = n := by
          rw [hn] at hm
          exact (Option.some.inj hm).symm
        subst hsame
        have hmore : TermTakes w l r (.strides g' (stride + bytes)) (m * (stride + bytes)) :=
          .strides hn
        refine (show m * (stride + bytes) + sizes.sum = m * stride + sizes.sum + m * bytes by
          ring) ▸ ?_
        exact .cons hmore ⟨sizes, hrest, rfl⟩
      · exact hlater
    | field h => exact hlater

/-- Fields in a row add to the fixed part and to the terms what they take. -/
theorem sizeTerms_take {before fields : List BoundField} {sizes : List Nat} {k : Nat}
    {terms : List SizeTerm} (fixed : Nat) (hfields : l.fields = before ++ fields)
    (h : List.Forall₂ (fun f k => FieldTakes w r f k ∧ f.size.contains k = true) fields sizes)
    (hterms : TermsTake w l r terms k) :
    ∃ m, TermsTake w l r (sizeTerms fixed terms before.length fields).2 m ∧
      (sizeTerms fixed terms before.length fields).1 + m = fixed + k + sizes.sum := by
  induction h generalizing before fixed k terms with
  | nil => exact ⟨k, hterms, rfl⟩
  | @cons f j fields sizes hf hrest ih =>
    obtain ⟨htakes, hcontains⟩ := hf
    have hfields' : l.fields = (before ++ [f]) ++ fields := by rw [hfields]; simp
    have hlength : (before ++ [f]).length = before.length + 1 := List.length_append
    -- however the field was counted, the fields after it are
    have hnext {fixed' k' : Nat} {terms' : List SizeTerm} (hterms' : TermsTake w l r terms' k')
        (hsum : fixed' + k' = fixed + k + j) :
        ∃ m, TermsTake w l r (sizeTerms fixed' terms' (before.length + 1) fields).2 m ∧
          (sizeTerms fixed' terms' (before.length + 1) fields).1 + m =
            fixed + k + (j :: sizes).sum := by
      obtain ⟨m, hm, heq⟩ := ih fixed' hfields' hterms'
      rw [hlength] at hm heq
      refine ⟨m, hm, ?_⟩
      rw [heq, List.sum_cons]
      omega
    rw [sizeTerms]
    split
    · rename_i g he
      obtain ⟨width, hwidth, rfl⟩ := htakes.width g he
      exact hnext (hterms.addWidth hwidth) (by omega)
    · rename_i element g he
      obtain ⟨n, hn, rfl⟩ := htakes.count element g he
      exact hnext (hterms.addStride hn) (by omega)
    · split
      · rename_i n hsize
        rw [hsize, SizeRange.contains_fixed] at hcontains
        exact hnext hterms (by omega)
      · have hplace : l.fields.getD before.length default = f := by
          rw [hfields, List.getD_eq_getElem?_getD, List.getElem?_append_right (Nat.le_refl _),
            Nat.sub_self]
          rfl
        have hterm : TermTakes w l r (.field before.length) j := .field (by rwa [hplace])
        refine hnext (hterms.append ⟨[j], .cons hterm .nil, rfl⟩) ?_
        rw [List.sum_singleton]
        omega

/-- Questions that are each answered steadily have a steady sum. -/
theorem sumOf_steady {α : Type} {ask : α → SpaceM Nat} {items : List α} {sizes : List Nat}
    (h : List.Forall₂ (fun a k => w.Steady (ask a) k) items sizes) :
    w.Steady (sumOf ask items) sizes.sum := by
  induction h with
  | nil => exact .pure 0
  | cons hfirst _ ih => exact hfirst.bind (ih.bind (.pure _))

/-- A record takes what its fields take. -/
theorem RecordTakes.of_fields (hs : w.Sound) (hl : w.Knows l) {sizes : List Nat}
    (h : List.Forall₂ (FieldTakes w r) l.fields sizes) : RecordTakes w l r sizes.sum := by
  have hgood := hl.good hs
  have hcontains : List.Forall₂ (fun f k => FieldTakes w r f k ∧ f.size.contains k = true)
      l.fields sizes := by
    refine List.forall₂_iff_get.mpr ⟨h.length_eq, fun i hi hi' => ?_⟩
    have htakes := (List.forall₂_iff_get.mp h).2 i hi hi'
    obtain ⟨decl, hfield⟩ := hgood.fields.declared (List.get_mem l.fields ⟨i, hi⟩)
    exact ⟨htakes, htakes.contains hfield⟩
  -- the three parts are the layout's terms, its fields one by one, and its range
  refine ⟨fun depth hdepth => ?_, fun depth hdepth => ?_, ?_⟩
  · obtain ⟨m, ⟨worths, hall, rfl⟩, hsum⟩ := sizeTerms_take 0
      (show l.fields = [] ++ l.fields from rfl) hcontains ⟨[], .nil, rfl⟩
    rw [List.length_nil, ← hgood.parts] at hall hsum
    have hsizes : l.fixedPart + worths.sum = sizes.sum := by
      rw [List.sum_nil] at hsum
      omega
    rw [← hsizes]
    -- the fixed part and the terms together stand for the fields' sizes
    exact (sumOf_steady (hall.imp fun term k hterm => hterm.steady hdepth)).bind (.pure _)
  · refine sumOf_steady (h.imp fun f k hf => hf.size depth ?_)
    have hslot := r.depth_slot f.slot
    omega
  · rw [hgood.size]
    refine SizeRange.contains_sum ?_
    rw [List.forall₂_map_left_iff]
    exact hcontains.imp fun f k hf => hf.2

end

/-! ## Values in their placements -/

namespace Placement.Takes

variable {w : Workspace} {p : Placement} {v : Value} {k : Nat}

/-- A value whose size needs no question. -/
theorem flat (hsize : ∀ depth, placedSizeWithin (depth + 1) p v = pure k)
    (hrange : ∀ c, (p.sizeIn c).contains k = true) : p.Takes w v k := by
  refine ⟨fun depth hdepth => ?_, fun c _ => hrange c⟩
  obtain ⟨depth, rfl⟩ := succ_of_reach hdepth
  rw [hsize]
  exact .pure k

/-- A scalar takes the bytes of its kind, whatever the value. -/
theorem scalar (kind : ScalarKind) (v : Value) : (Placement.scalar kind).Takes w v kind.bytes :=
  flat (fun _ => rfl) fun _ => SizeRange.contains_fixed.mpr rfl

/-- An absent inline text takes the single byte of its null length. -/
theorem noText : Placement.inlineText.Takes w .null 1 :=
  flat (fun _ => rfl) fun _ => SizeRange.contains_atLeast (Nat.le_refl 1)

/-- An inline text takes its length prefix and its bytes. -/
theorem text (s : String) : Placement.inlineText.Takes w (.text s) (inlineTextSize s) :=
  flat (fun _ => rfl) fun _ =>
    SizeRange.contains_atLeast (Nat.le_add_right_of_le (Varint.length_pos _))

/-- A fixed handle takes eight bytes, null or not. -/
theorem fixedHandle (id : SchemaId) (v : Value) :
    (Placement.handle id true).Takes w v ChunkId.fixedBytes :=
  flat (fun _ => rfl) fun _ => SizeRange.contains_fixed.mpr rfl

/-- A null handle takes the one byte of the zero varint. -/
theorem noHandle (id : SchemaId) : (Placement.handle id false).Takes w .null 1 :=
  flat (fun _ => rfl) fun _ => SizeRange.contains_bounded (Nat.le_refl 1) (by decide)

/-- A flexible handle takes the varint of its chunk. -/
theorem handle (id : SchemaId) (h : Handle) :
    (Placement.handle id false).Takes w (.handle h) (Varint.length (UInt64.ofNat h.chunk.id)) :=
  flat (fun _ => rfl) fun _ => SizeRange.contains_bounded (Varint.length_pos _) (Varint.length_le _)

/-- An absent inline choice takes the byte of its zero tag. -/
theorem noChoice (choice : ChoiceId) : (Placement.inlineChoice choice).Takes w .null 1 := by
  refine ⟨fun depth hdepth => ?_, fun c _ => ?_⟩
  · obtain ⟨depth, rfl⟩ := succ_of_reach hdepth
    exact (w.catalog_steady).bind (.pure 1)
  · exact variantSizeIn_contains (Nat.le_refl 1) (Or.inl (SizeRange.contains_fixed.mpr rfl))

/-- Any value behind a reference. -/
theorem chunkText (v : Value) : Placement.chunkText.Takes w v ChunkId.fixedBytes :=
  flat (fun _ => rfl) fun _ => SizeRange.contains_fixed.mpr rfl

/-- A record behind a reference takes the reference's bytes. -/
theorem chunkRecord (id : SchemaId) (v : Value) :
    (Placement.chunkRecord id).Takes w v ChunkId.fixedBytes :=
  flat (fun _ => rfl) fun _ => SizeRange.contains_fixed.mpr rfl

/-- A choice behind a reference takes its tag besides. -/
theorem chunkChoice (choice : ChoiceId) (v : Value) :
    (Placement.chunkChoice choice).Takes w v taggedBytes :=
  flat (fun _ => rfl) fun _ => SizeRange.contains_fixed.mpr rfl

/-- An open record behind a reference takes its type number besides. -/
theorem chunkOpen (v : Value) : Placement.chunkOpen.Takes w v taggedBytes :=
  flat (fun _ => rfl) fun _ => SizeRange.contains_fixed.mpr rfl

/-! ### Records in place -/

variable {l : Layout} {r : Record}

/-- A record in a layout that is known takes as much as the layout allows. -/
theorem range_of_known {key : LayoutKey} (hl : w.compiler.answer key = some l)
    (h : RecordTakes w l r k) {c : Compiler} (hc : w.compiler.Grows c) :
    ((c.answer key).elim (SizeRange.atLeast 0) (·.size)).contains k = true := by
  rw [hc.answer hl]
  exact h.range

/-- The size of a record in a slot is answered steadily once its layout is known. -/
theorem innerSize_steady {id : SchemaId} {kind : LayoutKind} {depth : Nat}
    (hl : w.compiler.answer (id, kind) = some l) (hschema : r.schema = id)
    (h : RecordTakes w l r k) (hdepth : 2 * r.depth ≤ depth) :
    w.Steady (innerSize (placedSizeWithin depth) id kind (.record r)) k := by
  refine (w.catalog_steady).bind ?_
  show w.Steady (if r.schema = id then _ else _) k
  rw [if_pos hschema]
  exact (Workspace.layout_steady hl).bind (h.size depth hdepth)

/-- An inline record takes what the record takes in its standard layout. -/
theorem inlineRecord {id : SchemaId} (hl : w.compiler.answer (id, .standard) = some l)
    (hschema : r.schema = id) (h : RecordTakes w l r k) :
    (Placement.inlineRecord id).Takes w (.record r) k := by
  refine ⟨fun depth hdepth => ?_, fun c hc => range_of_known hl h hc⟩
  obtain ⟨depth, rfl⟩ := succ_of_reach hdepth
  exact innerSize_steady hl hschema h (Nat.le_of_succ_le_succ hdepth)

/-- A fixed record takes what the record takes in its fixed layout. -/
theorem fixedRecord {id : SchemaId} (hl : w.compiler.answer (id, .fixed) = some l)
    (hschema : r.schema = id) (h : RecordTakes w l r k) :
    (Placement.fixedRecord id).Takes w (.record r) k := by
  refine ⟨fun depth hdepth => ?_, fun c hc => range_of_known hl h hc⟩
  obtain ⟨depth, rfl⟩ := succ_of_reach hdepth
  exact innerSize_steady hl hschema h (Nat.le_of_succ_le_succ hdepth)

/-- A wrapped value takes what its carrier takes. -/
theorem wrapped {wrapper : WrapperId} {carrier : SchemaId} {kind : LayoutKind}
    (hl : w.compiler.answer (carrier, kind) = some l) (h : RecordTakes w l r k) :
    (Placement.wrapped wrapper carrier kind).Takes w (.wrapped wrapper r) k := by
  refine ⟨fun depth hdepth => ?_, fun c hc => range_of_known hl h hc⟩
  obtain ⟨depth, rfl⟩ := succ_of_reach hdepth
  refine (w.catalog_steady).bind ?_
  show w.Steady (if wrapper = wrapper then _ else _) k
  rw [if_pos rfl]
  exact (Workspace.layout_steady hl).bind (h.size depth (Nat.le_of_succ_le_succ hdepth))

/-- An inline choice takes its tag and the record of the chosen variant. -/
theorem choice {choice : ChoiceId} {tag : Nat}
    (htag : (w.catalog.choice choice).tagOf? r.schema = some tag)
    (hl : w.compiler.answer (r.schema, .standard) = some l) (h : RecordTakes w l r k) :
    (Placement.inlineChoice choice).Takes w (.record r)
      (Varint.length (UInt64.ofNat tag) + k) := by
  obtain ⟨i, rfl, hvariant⟩ := Choice.variants_of_tagOf? htag
  refine ⟨fun depth hdepth => ?_, fun c hc => ?_⟩
  · obtain ⟨depth, rfl⟩ := succ_of_reach hdepth
    have hask : w.Steady (SpaceM.tagOf choice r) (i + 1) :=
      .of_same fun w' hcat => tagOf_ok.mpr ⟨by rw [hcat]; exact htag, rfl⟩
    have hlayout : w.Steady (SpaceM.variantLayout choice (i + 1)) l := by
      refine Workspace.variantLayout_steady ?_ hl
      rw [Choice.variant?, if_neg (Nat.succ_ne_zero i), Nat.add_sub_cancel]
      exact hvariant
    exact (w.catalog_steady).bind (hask.bind (hlayout.bind
      ((h.size depth (Nat.le_of_succ_le_succ hdepth)).bind (.pure _))))
  · have hpos := Varint.length_pos (UInt64.ofNat (i + 1))
    rw [sizeIn, hc.catalog]
    refine variantSizeIn_contains (by omega) (Or.inr ⟨i, r.schema, hvariant, fun l' hl' => ?_⟩)
    rw [hc.answer hl, Option.some.injEq] at hl'
    rw [← hl', Nat.add_comm 1 i]
    exact SizeRange.contains_add (SizeRange.contains_fixed.mpr rfl) h.range

/-! ### Values of open type -/

/-- An absent open record takes the byte of its zero number. -/
theorem noOpen : Placement.inlineOpen.Takes w .null 1 := by
  refine ⟨fun depth hdepth => ?_, fun c _ => SizeRange.contains_atLeast (Nat.le_refl 1)⟩
  obtain ⟨depth, rfl⟩ := succ_of_reach hdepth
  have hask : w.Steady (SpaceM.typeId .null) 0 := .of_same fun _ _ => rfl
  exact hask.bind (.pure 1)

/-- An open record takes its type number and what the placement of that type takes. -/
theorem typed (hs : w.Sound) {type known : ValueType} {i : Nat} (htype : v.type? = some type)
    (hid : w.types.Gives w.catalog type i) (hknown : w.types.resolve (i + 1) = .ok known)
    (hplace : w.compiler.placementAnswer (known.key, .flexible) = some p) (h : p.Takes w v k) :
    Placement.inlineOpen.Takes w v (Varint.length (UInt64.ofNat (i + 1)) + k) := by
  -- the placement that follows an id is not open once more
  have hclosed : p ≠ .inlineOpen := by
    obtain ⟨known', hknown', hkey⟩ := hid.resolve
    rw [hknown] at hknown'
    cases hknown'
    rw [(hs.compiler.good.placements _ _ _ hplace).flexible rfl]
    have hne := (Value.type?_cases htype).1
    rw [← hkey] at hne
    cases hany : known.key with
    | any => exact absurd hany hne
    | record id =>
      rw [Placement.flexible]
      split <;> rintro ⟨⟩
    | _ => rintro ⟨⟩
  refine ⟨fun depth hdepth => ?_, fun c _ => SizeRange.contains_atLeast ?_⟩
  · obtain ⟨depth, rfl⟩ := succ_of_reach hdepth
    have hinner : p.reach v ≤ depth := by
      rw [reach, if_pos rfl] at hdepth
      rw [reach, if_neg hclosed]
      omega
    refine (Workspace.typeId_steady htype hid).bind ?_
    rw [if_neg (Nat.succ_ne_zero i)]
    exact (Workspace.openPlacement_steady hknown hplace).bind
      ((h.size depth hinner).bind (.pure _))
  · exact Nat.le_add_right_of_le (Varint.length_pos _)

end Placement.Takes

end RecordLayout
