import Mathlib
import RecordLayout.Proofs.Layout.Answers

/-!
# Ranges of sizes

A size that lies in the range of an encoding lies in every range that was seen of the encoding when
less was known of the layouts it depends on.

Main results:

* `SizeRange.contains_sum` — encodings in a row;
* `variantSizeIn_contains` — one variant of a choice;
* `Varint.length_encode` — the length of a number is that of its shortest form.
-/

namespace RecordLayout

/-! ## Ranges -/

/-- A size below the word's limit is its own word. -/
theorem sizeWord_of_lt {n : Nat} (h : n < 2 ^ 64) : sizeWord n = n := Nat.mod_eq_of_lt h

namespace SizeRange

variable {a b : SizeRange} {j k n : Nat}

/-- Bounds that are words are kept as they are. -/
theorem toWords_of_inWords (h : a.inWords = true) : a.toWords = a := by
  rw [inWords, Bool.and_eq_true, decide_eq_true_eq] at h
  obtain ⟨hleast, hmost⟩ := h
  cases a with
  | fixed n => rw [toWords, sizeWord_of_lt (show n < 2 ^ 64 from hleast)]
  | between least most =>
    have hword : most.map sizeWord = most := by
      cases most with
      | none => rfl
      | some m => exact congrArg some (sizeWord_of_lt (of_decide_eq_true hmost))
    rw [toWords, sizeWord_of_lt (show least < 2 ^ 64 from hleast), hword]

/-- A range contains what lies between its bounds, where there is an upper one. -/
theorem contains_iff : a.contains k = true ↔ a.least ≤ k ∧ ∀ m, a.most = some m → k ≤ m := by
  rw [contains, Bool.and_eq_true, decide_eq_true_eq]
  cases a.most with
  | none => simp
  | some m => simp

/-- A fixed range contains one size. -/
@[simp] theorem contains_fixed : (fixed n).contains k = true ↔ k = n := by
  rw [contains_iff]
  constructor
  · rintro ⟨hleast, hmost⟩
    exact Nat.le_antisymm (hmost n rfl) hleast
  · rintro rfl
    exact ⟨Nat.le_refl _, fun m hm => Nat.le_of_eq (Option.some.inj hm)⟩

/-- An open range contains everything from its bound on. -/
theorem contains_atLeast (h : n ≤ k) : (atLeast n).contains k = true :=
  contains_iff.mpr ⟨h, fun _ hm => nomatch hm⟩

/-- A bounded range contains what lies between its bounds. -/
theorem contains_bounded {m : Nat} (hn : n ≤ k) (hm : k ≤ m) : (bounded n m).contains k = true := by
  rw [bounded]
  split
  · exact contains_fixed.mpr (by omega)
  · exact contains_iff.mpr ⟨hn, fun _ heq => Option.some.inj heq ▸ hm⟩

/-- The lower bound of a union is the smaller one. -/
theorem least_union (a b : SizeRange) : (a.union b).least = min a.least b.least := by
  rw [union]
  split
  · rename_i heq
    rw [heq, Nat.min_self]
  · rfl

/-- A union has an upper bound if both ranges have one. -/
theorem most_union {m : Nat} : (a.union b).most = some m ↔
    ∃ x y, a.most = some x ∧ b.most = some y ∧ m = max x y := by
  have hboth : (a.union b).most = Option.map₂ max a.most b.most := by
    rw [union]
    split
    · rename_i heq
      rw [heq]
      cases b.most with
      | none => rfl
      | some y => exact congrArg some (Nat.max_self y).symm
    · rcases a with n | ⟨n, _ | x⟩ <;> rcases b with k | ⟨k, _ | y⟩ <;> rfl
  rw [hboth]
  cases a.most with
  | none => simp
  | some x =>
    cases b.most with
    | none => simp
    | some y => simp [eq_comm]

/-- Lower bounds add up. -/
theorem least_add (a b : SizeRange) : (a.add b).least = a.least + b.least := by
  cases a <;> cases b <;> rfl

/-- Upper bounds add up where both exist. -/
theorem most_add {m : Nat} : (a.add b).most = some m ↔
    ∃ x y, a.most = some x ∧ b.most = some y ∧ m = x + y := by
  have hboth : (a.add b).most = Option.map₂ (· + ·) a.most b.most := by
    rcases a with n | ⟨n, _ | x⟩ <;> rcases b with k | ⟨k, _ | y⟩ <;> rfl
  rw [hboth]
  cases a.most with
  | none => simp
  | some x =>
    cases b.most with
    | none => simp
    | some y => simp [eq_comm]

/-- Sizes within two ranges add up to one within their sum. -/
theorem contains_add (ha : a.contains j = true) (hb : b.contains k = true) :
    (a.add b).contains (j + k) = true := by
  obtain ⟨hleast, hmost⟩ := contains_iff.mp ha
  obtain ⟨hleast', hmost'⟩ := contains_iff.mp hb
  refine contains_iff.mpr ⟨?_, fun m hm => ?_⟩
  · rw [least_add]
    exact Nat.add_le_add hleast hleast'
  · obtain ⟨x, y, hx, hy, rfl⟩ := most_add.mp hm
    exact Nat.add_le_add (hmost x hx) (hmost' y hy)

/-- One range leaves as much open as another one, or more. -/
structure Covers (a b : SizeRange) : Prop where
  least : a.least ≤ b.least
  most : ∀ m, a.most = some m → ∃ x, b.most = some x ∧ x ≤ m

namespace Covers

variable {c : SizeRange}

theorem refl (a : SizeRange) : a.Covers a := ⟨Nat.le_refl _, fun m hm => ⟨m, hm, Nat.le_refl m⟩⟩

/-- Covering is transitive. -/
theorem trans (h : a.Covers b) (h' : b.Covers c) : a.Covers c := by
  refine ⟨h.least.trans h'.least, fun m hm => ?_⟩
  obtain ⟨x, hx, hle⟩ := h.most m hm
  obtain ⟨y, hy, hle'⟩ := h'.most x hx
  exact ⟨y, hy, hle'.trans hle⟩

/-- A covering range contains all that the covered one does. -/
theorem contains (h : a.Covers b) (hk : b.contains k = true) : a.contains k = true := by
  obtain ⟨hleast, hmost⟩ := contains_iff.mp hk
  refine contains_iff.mpr ⟨h.least.trans hleast, fun m hm => ?_⟩
  obtain ⟨x, hx, hle⟩ := h.most m hm
  exact (hmost x hx).trans hle

/-- An open range covers whatever starts no lower. -/
theorem atLeast (h : n ≤ b.least) : (atLeast n).Covers b := ⟨h, fun _ hm => nomatch hm⟩

/-- Adding the same range keeps a cover. -/
theorem add (h : a.Covers b) (c : SizeRange) : (c.add a).Covers (c.add b) := by
  refine ⟨?_, fun m hm => ?_⟩
  · rw [least_add, least_add]
    exact Nat.add_le_add_left h.least _
  · obtain ⟨x, y, hx, hy, rfl⟩ := most_add.mp hm
    obtain ⟨z, hz, hle⟩ := h.most y hy
    exact ⟨x + z, most_add.mpr ⟨x, z, hx, hz, rfl⟩, Nat.add_le_add_left hle x⟩

/-- Joining the same range keeps a cover. -/
theorem union (h : a.Covers b) (c : SizeRange) : (a.union c).Covers (b.union c) := by
  refine ⟨?_, fun m hm => ?_⟩
  · rw [least_union, least_union]
    exact min_le_min_right _ h.least
  · obtain ⟨x, y, hx, hy, rfl⟩ := most_union.mp hm
    obtain ⟨z, hz, hle⟩ := h.most x hx
    exact ⟨max z y, most_union.mpr ⟨z, y, hz, hy, rfl⟩, max_le_max_right y hle⟩

/-- A union covers its left part. -/
theorem union_left (a b : SizeRange) : (a.union b).Covers a := by
  refine ⟨?_, fun m hm => ?_⟩
  · rw [least_union]
    exact Nat.min_le_left _ _
  · obtain ⟨x, y, hx, -, rfl⟩ := most_union.mp hm
    exact ⟨x, hx, Nat.le_max_left x y⟩

/-- A union covers its right part. -/
theorem union_right (a b : SizeRange) : (a.union b).Covers b := by
  refine ⟨?_, fun m hm => ?_⟩
  · rw [least_union]
    exact Nat.min_le_right _ _
  · obtain ⟨x, y, -, hy, rfl⟩ := most_union.mp hm
    exact ⟨y, hy, Nat.le_max_right x y⟩

end Covers

/-- Sizes within their ranges add up to one within the ranges' sum. -/
theorem contains_sum {ranges : List SizeRange} {sizes : List Nat}
    (h : List.Forall₂ (fun (r : SizeRange) k => r.contains k = true) ranges sizes) :
    (sum ranges).contains sizes.sum = true := by
  have hgen : ∀ (start : SizeRange) (j : Nat), start.contains j = true →
      (ranges.foldl add start).contains (j + sizes.sum) = true := by
    induction h with
    | nil => exact fun _ _ hj => hj
    | @cons r k ranges sizes hr _ ih =>
      intro start j hj
      have hmore := ih (start.add r) (j + k) (contains_add hj hr)
      rwa [List.foldl_cons, List.sum_cons, ← Nat.add_assoc]
  have hall := hgen (.fixed 0) 0 (contains_fixed.mpr rfl)
  rwa [Nat.zero_add] at hall

/-- A sum of fixed sizes is fixed. -/
theorem isFixed_sum_of_all {ranges : List SizeRange} (h : ∀ r ∈ ranges, r.isFixed = true) :
    (sum ranges).isFixed = true := by
  have hgen : ∀ start : SizeRange, start.isFixed = true →
      (ranges.foldl add start).isFixed = true := by
    induction ranges with
    | nil => exact fun _ hstart => hstart
    | cons r rest ih =>
      intro start hstart
      obtain ⟨n, rfl⟩ := isFixed_iff.mp hstart
      obtain ⟨m, rfl⟩ := isFixed_iff.mp (h r List.mem_cons_self)
      exact ih (fun r' hr' => h r' (List.mem_cons_of_mem _ hr')) (.fixed (n + m)) rfl
  exact hgen _ rfl

end SizeRange

/-! ## Numbers -/

namespace Varint

/-- A number of more than seven bits has seven more than the number without its last group. -/
theorem bitLength_div {n : Nat} (h : 128 ≤ n) : bitLength n = bitLength (n / 128) + 7 := by
  have hpos : n / 128 ≠ 0 := by omega
  rw [bitLength, bitLength, if_neg (by omega), if_neg hpos]
  obtain ⟨hlow, hhigh⟩ := (Nat.log2_eq_iff hpos).mp rfl
  have hlog : n.log2 = (n / 128).log2 + 7 := by
    rw [Nat.log2_eq_iff (by omega)]
    constructor
    · rw [Nat.pow_add]
      omega
    · rw [show (n / 128).log2 + 7 + 1 = (n / 128).log2 + 1 + 7 by omega, Nat.pow_add]
      omega
  omega

/-- A number below a power of two has no more bits than the exponent. -/
theorem bitLength_le {n bits : Nat} (h : n < 2 ^ bits) : bitLength n ≤ bits := by
  rw [bitLength]
  split
  · exact Nat.zero_le _
  · rename_i hne
    exact (Nat.log2_lt hne).mpr h

/-- A varint has one group for every seven bits, and at least one. -/
theorem length_groups {more n : Nat} (h : n < 128 ^ (more + 1)) :
    (groups more n).length = max 1 ((bitLength n + 6) / 7) := by
  have hsmall (hlt : n < 128) : max 1 ((bitLength n + 6) / 7) = 1 := by
    have hbits : bitLength _ ≤ 7 := bitLength_le hlt
    omega
  -- one group is split off at each step, and with it seven bits
  induction more generalizing n with
  | zero =>
    rw [hsmall (by simpa using h)]
    rfl
  | succ more ih =>
    rw [groups]
    split
    · rename_i hlt
      rw [hsmall hlt]
      rfl
    · rename_i hlarge
      have hdiv := bitLength_div (n := n) (by omega)
      have hpos : bitLength (n / 128) ≠ 0 := by
        rw [bitLength, if_neg (by omega)]
        exact Nat.succ_ne_zero _
      have hlt : n / 128 < 128 ^ (more + 1) :=
        Nat.div_lt_of_lt_mul (by rwa [Nat.mul_comm, ← Nat.pow_succ])
      rw [List.length_cons, ih hlt fun hlt => by
        have hbits : bitLength _ ≤ 7 := bitLength_le hlt
        omega]
      omega

/-- The length of a number is that of its shortest form. -/
theorem length_encode (v : UInt64) : (encode v).length = length v :=
  length_groups (Nat.lt_of_lt_of_le v.toNat_lt (by decide))

theorem length_pos (v : UInt64) : 1 ≤ length v := Nat.le_max_left _ _

/-- No varint is longer than ten bytes. -/
theorem length_le (v : UInt64) : length v ≤ maxLength := by
  have hbits := bitLength_le v.toNat_lt
  rw [length, maxLength]
  omega

end Varint

/-! ## Choices -/

/-- The size of a choice covers what it covered before its variants, and every variant. -/
theorem variantSizeIn_contains {answer : SchemaId → Option Layout} {tag k : Nat} {size : SizeRange}
    {variants : List SchemaId} (hk : 1 ≤ k)
    (h : size.contains k = true ∨ ∃ i v, variants[i]? = some v ∧ ∀ l, answer v = some l →
      ((SizeRange.fixed (Varint.length (UInt64.ofNat (tag + i)))).add l.size).contains k = true) :
    (variantSizeIn answer tag size variants).contains k = true := by
  -- the variant in question is found at some place; until then the size only becomes wider
  induction variants generalizing tag size with
  | nil =>
    rcases h with h | ⟨i, v, hv, -⟩
    · exact h
    · cases hv
  | cons v rest ih =>
    rw [variantSizeIn]
    cases hl : answer v with
    | none => exact SizeRange.contains_atLeast hk
    | some l =>
      refine ih ?_
      rcases h with h | ⟨i, w, hw, hcontains⟩
      · exact Or.inl ((SizeRange.Covers.union_left _ _).contains h)
      · cases i with
        | zero =>
          cases hw
          exact Or.inl ((SizeRange.Covers.union_right _ _).contains (hcontains l hl))
        | succ i =>
          refine Or.inr ⟨i, w, hw, fun l' hl' => ?_⟩
          rw [show tag + 1 + i = tag + (i + 1) by omega]
          exact hcontains l' hl'

/-- A choice takes at least the byte of its tag. -/
theorem variantSizeIn_least {answer : SchemaId → Option Layout} {tag : Nat} {size : SizeRange}
    {variants : List SchemaId} (h : 1 ≤ size.least) :
    1 ≤ (variantSizeIn answer tag size variants).least := by
  induction variants generalizing tag size with
  | nil => exact h
  | cons v rest ih =>
    rw [variantSizeIn]
    cases answer v with
    | none => exact Nat.le_refl 1
    | some l =>
      refine ih ?_
      rw [SizeRange.least_union, SizeRange.least_add]
      exact le_min h (Nat.le_add_right_of_le (Varint.length_pos _))

/-- The more variants are laid out, the wider the sizes of the choice. -/
theorem variantSizeIn_covers {answer answer' : SchemaId → Option Layout} {tag : Nat}
    {size : SizeRange} {variants : List SchemaId}
    (hmore : ∀ v l, answer v = some l → answer' v = some l) (h : 1 ≤ size.least) :
    (variantSizeIn answer tag size variants).Covers (variantSizeIn answer' tag size variants) := by
  induction variants generalizing tag size with
  | nil => exact .refl _
  | cons v rest ih =>
    cases hl : answer v with
    | none =>
      rw [variantSizeIn, hl]
      exact .atLeast (variantSizeIn_least h)
    | some l =>
      rw [variantSizeIn, variantSizeIn, hl, hmore v l hl]
      refine ih ?_
      rw [SizeRange.least_union, SizeRange.least_add]
      exact le_min h (Nat.le_add_right_of_le (Varint.length_pos _))

/-- A tag counts the variants from one. -/
theorem Choice.variants_of_tagOf? {c : Choice} {id : SchemaId} {tag : Nat}
    (h : c.tagOf? id = some tag) : ∃ i, tag = i + 1 ∧ c.variants[i]? = some id := by
  obtain ⟨i, hi, rfl⟩ := Option.map_eq_some_iff.mp h
  obtain ⟨hlt, heq, -⟩ := List.findIdx?_eq_some_iff_getElem.mp hi
  refine ⟨i, rfl, ?_⟩
  rw [List.getElem?_eq_getElem hlt, eq_of_beq heq]

/-! ## Less and more knowledge -/

/-- What is seen when less is known covers what is seen later. -/
theorem Placement.sizeIn_covers {c c' : Compiler} (h : c.Grows c') (p : Placement) :
    (p.sizeIn c).Covers (p.sizeIn c') := by
  have hone (key : LayoutKey) : ((c.answer key).elim (SizeRange.atLeast 0) (·.size)).Covers
      ((c'.answer key).elim (SizeRange.atLeast 0) (·.size)) := by
    cases hl : c.answer key with
    | none => exact .atLeast (Nat.zero_le _)
    | some l =>
      rw [h.answer hl]
      exact .refl _
  cases p with
  | inlineRecord id => exact hone _
  | fixedRecord id => exact hone _
  | wrapped wrapper carrier kind => exact hone _
  | inlineChoice choice =>
    rw [sizeIn, sizeIn, h.catalog]
    exact variantSizeIn_covers (fun v l hl => h.answer hl) (Nat.le_refl 1)
  | handle id fixed => cases fixed <;> exact .refl _
  | _ => exact .refl _

/-- A size given before a layout was finished is covered by the one given after. -/
theorem Encoding.sizeIn_covers {c c' : Compiler} (h : c.Grows c') (e : Encoding) :
    (e.sizeIn c).Covers (e.sizeIn c') := by
  cases e with
  | placed p marker =>
    cases marker with
    | false => exact p.sizeIn_covers h
    | true =>
      refine SizeRange.Covers.add ?_ _
      by_cases hfix : c.Fixes (.placed p false)
      · -- a fixed size is seen the same way later
        have hsame : p.sizeIn c' = p.sizeIn c := hfix.sizeIn h
        rw [hsame]
        exact .refl _
      · have hopen : ¬(p.sizeIn c).isFixed = true := hfix
        rw [if_neg hopen]
        split
        · exact (SizeRange.Covers.union_left _ _).trans (p.sizeIn_covers h)
        · exact (p.sizeIn_covers h).union _
  | _ => exact .refl _

end RecordLayout
