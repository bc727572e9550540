import RecordLayout.Proofs.Codec.RoundTrip
import RecordLayout.Proofs.Codec.Sources
import RecordLayout.Proofs.Size.Measured

/-!
# What a check says of a record

A check looks at the fields of a record one by one and compares two sums: what the fields are measured
at, and what they are worth together. Numbers are looked at one by one. Arrays are not: an array is
measured by its elements and worth what its count says, and only the sums are compared, so an array with
too many elements makes up for one with too few. The sums are compared as 64-bit words: a count that
announces 2^64 bytes or more announces fewer in its word, so nothing is said of such counts.

Main results:

* `checkFields_ok` — what every field shows that is looked at by itself;
* `Validated.sums`, `Validated.alone` — what the sums say of arrays, as long as they are words;
* `checkedSize_validates` — a record that passes is `Validated`;
* `checkedSize_not_exact` — arrays of one length can make up for each other.
-/

namespace RecordLayout

/-! ## Arrays -/

namespace BoundField

/-- The bytes of the elements that an array has. -/
def held (r : Record) (f : BoundField) : Nat :=
  match f.encoding, r.slot f.slot with
  | .array element _, .list items => items.length * element.bytes
  | _, _ => 0

/-- The bytes of the elements that the count of an array announces. -/
def announced (r : Record) (f : BoundField) : Nat :=
  match f.encoding with
  | .array element governor => r.count governor * element.bytes
  | _ => 0

/-- An array has as many elements as its count says. -/
def Exact (r : Record) (f : BoundField) : Prop :=
  ∀ element governor, f.encoding = .array element governor →
    ∃ items, r.slot f.slot = .list items ∧ (r.slot governor).toNat? = some items.length

end BoundField

theorem ScalarKind.bytes_pos (kind : ScalarKind) : 0 < kind.bytes := by cases kind <;> decide

/-! ## What a check says -/

/-- What is known of a record that passes its check. -/
structure Validated (l : Layout) (r : Record) : Prop where
  /-- Every number fits the width that its governor holds. -/
  fits : ∀ f ∈ l.fields, ∀ governor, f.encoding = .sized governor →
    ∃ width n, r.slot governor = .width width ∧ (r.slot f.slot).toNat? = some n ∧
      width.canFit n = true
  /-- Every width that is worked out holds all numbers from which it is worked out. -/
  holds : ∀ f ∈ l.fields, ∀ numbers, f.derivation = some (.widthOf numbers) →
    ∃ width, r.slot f.slot = .width width ∧
      ∀ i ∈ numbers, ∃ n, (r.slot i).toNat? = some n ∧ width.canFit n = true
  /-- Every length that is worked out is the number of elements of its array. -/
  lengths : ∀ f ∈ l.fields, ∀ array, f.derivation = some (.lengthOf array) →
    ∃ items, r.slot array = .list items ∧
      (items.length < 2 ^ 64 → (r.slot f.slot).toNat? = some items.length)
  /-- Arrays have elements, and their counts are numbers. -/
  arrays : ∀ f ∈ l.fields, ∀ element governor, f.encoding = .array element governor →
    ∃ items n, r.slot f.slot = .list items ∧ (r.slot governor).toNat? = some n
  /-- Together, the arrays have as many bytes as their counts announce, if both are words. -/
  sums : (l.fields.map (·.held r)).sum < 2 ^ 64 → (l.fields.map (·.announced r)).sum < 2 ^ 64 →
    (l.fields.map (·.held r)).sum = (l.fields.map (·.announced r)).sum
  /-- An array has as many elements as its count says if all other arrays have, and if its own bytes
  and those that are announced are words. -/
  alone : ∀ f ∈ l.fields, f.held r < 2 ^ 64 → f.announced r < 2 ^ 64 →
    (∀ g ∈ l.fields, g ≠ f → g.Exact r) → f.Exact r

section

variable {w w' : Workspace} {l : Layout} {r : Record} {f : BoundField} {u : Unit} {n : Nat}

/-! ### One field -/

theorem checkWidth_ok {width : Width} {slots : List Nat}
    (h : checkWidth f width r slots w = .ok u w') :
    w' = w ∧ ∀ i ∈ slots, ∃ n, (r.slot i).toNat? = some n ∧ width.canFit n = true := by
  induction slots generalizing w with
  | nil => exact ⟨(pure_ok.mp h).2.symm, fun i hi => nomatch hi⟩
  | cons slot rest ih =>
    rw [checkWidth, bind_ok] at h
    obtain ⟨n, w₁, hcount, h⟩ := h
    obtain ⟨hn, rfl⟩ := countOf_ok.mp hcount
    rcases ite_ok.mp h with ⟨hfits, h⟩ | ⟨-, h⟩
    · obtain ⟨rfl, hall⟩ := ih h
      exact ⟨rfl, List.forall_mem_cons.mpr ⟨⟨n, hn, hfits⟩, hall⟩⟩
    · exact (disagreement_fails h).elim

/-- What a field shows that is looked at by itself. -/
structure FieldChecked (r : Record) (f : BoundField) : Prop where
  fits : ∀ governor, f.encoding = .sized governor →
    ∃ width n, r.slot governor = .width width ∧ (r.slot f.slot).toNat? = some n ∧
      width.canFit n = true
  holds : ∀ numbers, f.derivation = some (.widthOf numbers) →
    ∃ width, r.slot f.slot = .width width ∧
      ∀ i ∈ numbers, ∃ n, (r.slot i).toNat? = some n ∧ width.canFit n = true
  lengths : ∀ array, f.derivation = some (.lengthOf array) →
    ∃ items, r.slot array = .list items ∧
      (items.length < 2 ^ 64 → (r.slot f.slot).toNat? = some items.length)

theorem checkDerived_ok (h : checkDerived f r w = .ok u w') :
    (∀ numbers, f.derivation = some (.widthOf numbers) →
      ∃ width, r.slot f.slot = .width width ∧
        ∀ i ∈ numbers, ∃ n, (r.slot i).toNat? = some n ∧ width.canFit n = true) ∧
    ∀ array, f.derivation = some (.lengthOf array) →
      ∃ items, r.slot array = .list items ∧
        (items.length < 2 ^ 64 → (r.slot f.slot).toNat? = some items.length) := by
  unfold checkDerived at h
  -- widths and lengths are checked against what they were derived from, anything else is not
  -- checked
  cases hd : f.derivation with
  | none => exact ⟨nofun, nofun⟩
  | some d =>
    rw [hd] at h
    cases d with
    | widthOf numbers =>
      obtain ⟨width, w₁, hwidth, h⟩ := bind_ok.mp h
      obtain ⟨hslot, rfl⟩ := widthIn_ok.mp hwidth
      refine ⟨?_, nofun⟩
      rintro _ ⟨⟩
      exact ⟨width, hslot, (checkWidth_ok h).2⟩
    | lengthOf array =>
      obtain ⟨expected, w₁, hvalue, h⟩ := bind_ok.mp h
      obtain ⟨items, hitems, hlength⟩ := derivedValue_agrees hvalue
      refine ⟨nofun, ?_⟩
      rintro _ ⟨⟩
      rcases ite_ok.mp h with ⟨hsame, -⟩ | ⟨-, h⟩
      · exact ⟨items, hitems, fun hlt => hsame.trans (hlength hlt)⟩
      · obtain ⟨c, w₂, -, h⟩ := bind_ok.mp h
        exact (disagreement_fails h).elim

theorem checkGoverned_ok (h : checkGoverned f r w = .ok u w') {governor : Nat}
    (he : f.encoding = .sized governor) :
    ∃ width n, r.slot governor = .width width ∧ (r.slot f.slot).toNat? = some n ∧
      width.canFit n = true := by
  unfold checkGoverned at h
  simp only [he] at h
  obtain ⟨width, w₁, hwidth, h⟩ := bind_ok.mp h
  obtain ⟨hslot, rfl⟩ := widthIn_ok.mp hwidth
  obtain ⟨n, w₂, hcount, h⟩ := bind_ok.mp h
  obtain ⟨hn, rfl⟩ := countOf_ok.mp hcount
  rcases ite_ok.mp h with ⟨hfits, -⟩ | ⟨-, h⟩
  · exact ⟨width, n, hslot, hn, hfits⟩
  · exact (disagreement_fails h).elim

theorem checkField_ok (h : checkField f r w = .ok u w') : FieldChecked r f := by
  rw [checkField] at h
  obtain ⟨_, w₁, hderived, hgoverned⟩ := bind_ok.mp h
  obtain ⟨hholds, hlengths⟩ := checkDerived_ok hderived
  exact ⟨fun _ he => checkGoverned_ok hgoverned he, hholds, hlengths⟩

/-! ### Fields in a row -/

/-- What all fields show, and what they are measured at. -/
theorem checkFields_ok {sizeOf : SizeOf} (hsize : ∀ p v, Lasts (sizeOf p v)) (hs : w.Sound)
    {fields : List BoundField} (h : checkFields sizeOf r fields w = .ok n w') :
    ∃ sizes, List.Forall₂ (fun f k => FieldChecked r f ∧
      w'.Steady (fieldSizeWith sizeOf r f) k) fields sizes ∧ n = sizes.sum := by
  induction fields generalizing w n with
  | nil =>
    obtain ⟨rfl, -⟩ := pure_ok.mp h
    exact ⟨[], .nil, rfl⟩
  | cons f rest ih =>
    rw [checkFields] at h
    obtain ⟨_, w₁, hcheck, h⟩ := bind_ok.mp h
    obtain ⟨k, w₂, hfield, h⟩ := bind_ok.mp h
    obtain ⟨m, w₃, hrest, hpure⟩ := bind_ok.mp h
    obtain ⟨rfl, rfl⟩ := pure_ok.mp hpure
    obtain ⟨hs₁, -, -⟩ := lasting.checkField f r w hs _ w₁ hcheck
    obtain ⟨hs₂, -, hsteady⟩ := lasting.fieldSizeWith hsize r f w₁ hs₁ k w₂ hfield
    obtain ⟨-, hlearns, -⟩ := lasting.checkFields hsize r rest w₂ hs₂ m w₃ hrest
    obtain ⟨sizes, hall, rfl⟩ := ih hs₂ hrest
    exact ⟨k :: sizes, .cons ⟨checkField_ok hcheck, hsteady.mono hlearns.toLe⟩ hall,
      List.sum_cons.symm⟩

/-- A field is measured at what it is worth, but for an array, which is measured by its elements and
worth what is announced. -/
theorem measured_add_announced {sizeOf : SizeOf} (hin : Foreseen sizeOf) (hs : w.Sound)
    {s : Schema} {kind : LayoutKind} {decl : FieldDecl}
    (hgood : FieldGood w.compiler s kind decl f) {k : Nat}
    (h : w.Steady (fieldSizeWith sizeOf r f) k) :
    k + f.announced r = f.worth r (measuredAt w sizeOf r) + f.held r := by
  obtain ⟨v, hrun, -⟩ := h w (.refl w) hs
  unfold BoundField.announced BoundField.worth BoundField.held
  split
  · -- an array is worth what is announced, and holds its elements
    rename_i element g he
    simp only [fieldSizeWith, he] at hrun
    obtain ⟨items, w₁, hitems, hpure⟩ := bind_ok.mp hrun
    obtain ⟨hslot, rfl⟩ := itemsOf_ok.mp hitems
    obtain ⟨rfl, -⟩ := pure_ok.mp hpure
    simp only [he, hslot]
    exact Nat.add_comm _ _
  · rename_i hnot
    have hheld : (match f.encoding, r.slot f.slot with
        | .array element _, .list items => items.length * element.bytes
        | _, _ => 0) = 0 := by
      split
      · rename_i element g items he hitems
        exact absurd he (hnot element g)
      · rfl
    rw [hheld, Nat.add_zero, Nat.add_zero]
    split
    · rename_i g he
      simp only [fieldSizeWith, he] at hrun
      obtain ⟨width, w₁, hwidth, hpure⟩ := bind_ok.mp hrun
      obtain ⟨hslot, rfl⟩ := widthIn_ok.mp hwidth
      obtain ⟨rfl, -⟩ := pure_ok.mp hpure
      rw [RecordOf.widthBytes, hslot]
    · rename_i element g he
      exact absurd he (hnot element g)
    · cases hsize : f.size with
      | fixed m =>
        have hseen : f.encoding.sizeIn w.compiler = .fixed m := by
          rw [hgood.sized.eq_sizeIn (by rw [hsize]; rfl), hsize]
        exact fieldSizeWith_foreseen hin hs hrun hseen
      | between least most => exact (measuredAt_eq hs h).symm

/-! ### Sums -/

theorem BoundField.Exact.announced_eq (h : f.Exact r) : f.held r = f.announced r := by
  unfold BoundField.held BoundField.announced
  split
  · rename_i element g items he hitems
    obtain ⟨items', hitems', hcount⟩ := h element g he
    rw [hitems] at hitems'
    cases hitems'
    simp only [he, RecordOf.count, hcount, Option.getD_some]
  · rename_i hnot
    split
    · rename_i element g he
      obtain ⟨items, hitems, -⟩ := h element g he
      exact absurd hitems (hnot element g items he)
    · rfl

/-- Sums that are the same word agree, as words, in the one place that is left if they agree in all
others. -/
theorem sizeWord_of_sums {α : Type} {items : List α} {x y : α → Nat} {a : α}
    (hnodup : items.Nodup) (ha : a ∈ items)
    (hsum : sizeWord (items.map x).sum = sizeWord (items.map y).sum)
    (hothers : ∀ b ∈ items, b ≠ a → x b = y b) : sizeWord (x a) = sizeWord (y a) := by
  obtain ⟨before, after, rfl⟩ := List.append_of_mem ha
  obtain ⟨hnot, -⟩ := List.nodup_cons.mp (List.nodup_middle.mp hnodup)
  have hbefore : before.map x = before.map y := List.map_congr_left fun b hb =>
    hothers b (by simp [hb]) fun heq => hnot (by simp [← heq, hb])
  have hafter : after.map x = after.map y := List.map_congr_left fun b hb =>
    hothers b (by simp [hb]) fun heq => hnot (by simp [← heq, hb])
  simp only [List.map_append, List.map_cons, List.sum_append, List.sum_cons, hbefore, hafter,
    sizeWord] at hsum ⊢
  omega

/-- What balances item by item balances in sum. -/
theorem sums_of_balance {α : Type} {items : List α} {sizes : List Nat} {x y z : α → Nat}
    (h : List.Forall₂ (fun a k => k + x a = y a + z a) items sizes) :
    sizes.sum + (items.map x).sum = (items.map y).sum + (items.map z).sum := by
  induction h with
  | nil => rfl
  | cons hone _ ih =>
    simp only [List.map_cons, List.sum_cons]
    omega

/-- An array that has as many bytes as its count announces has as many elements. -/
theorem BoundField.Exact.of_announced (harray : ∀ element governor,
    f.encoding = .array element governor →
      ∃ items n, r.slot f.slot = .list items ∧ (r.slot governor).toNat? = some n)
    (h : f.held r = f.announced r) : f.Exact r := by
  intro element governor he
  obtain ⟨items, n, hitems, hn⟩ := harray element governor he
  simp only [BoundField.held, BoundField.announced, he, hitems, RecordOf.count, hn,
    Option.getD_some] at h
  obtain rfl := Nat.eq_of_mul_eq_mul_right element.bytes_pos h
  exact ⟨items, hitems, hn⟩

/-- A record that passes its check is validated. -/
theorem checkedSize_validates (hs : w.Sound) (hl : w.Knows l)
    (h : checkedSize l r w = .ok n w') : Validated l r := by
  have hlasts := placedSize_lasts r.walkDepth
  unfold checkedSize at h
  obtain ⟨measured, w₁, hfields, h⟩ := bind_ok.mp h
  obtain ⟨size, w₂, hsize, h⟩ := bind_ok.mp h
  obtain ⟨hs₁, hlearns₁, -⟩ := lasting.checkFields hlasts r l.fields w hs measured w₁ hfields
  have hl₁ := hl.mono hlearns₁.toLe
  obtain ⟨hs₂, hlearns₂, -⟩ := lasting.recordSizeWith hlasts l r w₁ hs₁ size w₂ hsize
  have hgood := (hl₁.mono hlearns₂.toLe).good hs₂
  obtain ⟨sizes, hall, rfl⟩ := checkFields_ok hlasts hs hfields
  have hweighed := recordSizeWith_weighed hlasts hs₁ hl₁ hsize
  -- the check goes on only if both sums are the same word
  have hequal : sizeWord sizes.sum = sizeWord size := by
    by_contra hne
    simp only [if_pos hne] at h
    obtain ⟨_, w₃, hthrow, -⟩ := bind_ok.mp h
    exact throw_ok.mp hthrow
  have hchecked : ∀ f ∈ l.fields, FieldChecked r f ∧
      ∃ k, w₂.Steady (fieldSizeWith (placedSizeWithin r.walkDepth) r f) k := by
    intro f hf
    obtain ⟨i, hi, rfl⟩ := List.getElem_of_mem hf
    obtain ⟨hfield, hsteady⟩ := (List.forall₂_iff_get.mp hall).2 i hi (hall.length_eq ▸ hi)
    exact ⟨hfield, _, hsteady.mono hlearns₂.toLe⟩
  have harrays : ∀ f ∈ l.fields, ∀ element governor, f.encoding = .array element governor →
      ∃ items n, r.slot f.slot = .list items ∧ (r.slot governor).toNat? = some n := by
    intro f hf element governor he
    obtain ⟨n, hn⟩ := hweighed.counts f hf element governor he
    obtain ⟨-, k, hsteady⟩ := hchecked f hf
    obtain ⟨v, hrun, -⟩ := hsteady w₂ (.refl w₂) hs₂
    simp only [fieldSizeWith, he] at hrun
    obtain ⟨items, w₃, hitems, -⟩ := bind_ok.mp hrun
    exact ⟨items, n, (itemsOf_ok.mp hitems).1, hn⟩
  -- what is measured and what is announced make up what is worth and what is held
  have hsums : sizes.sum + (l.fields.map (·.announced r)).sum =
      (l.fields.map (·.worth r (measuredAt w₂ (placedSizeWithin r.walkDepth) r))).sum +
        (l.fields.map (·.held r)).sum := by
    have hbalance : List.Forall₂ (fun f k => k + f.announced r =
        f.worth r (measuredAt w₂ (placedSizeWithin r.walkDepth) r) + f.held r)
        l.fields sizes := by
      refine List.forall₂_iff_get.mpr ⟨hall.length_eq, fun i hi hi' => ?_⟩
      obtain ⟨-, hsteady⟩ := (List.forall₂_iff_get.mp hall).2 i hi hi'
      obtain ⟨decl, hfield⟩ := hgood.fields.declared (List.get_mem l.fields ⟨i, hi⟩)
      exact measured_add_announced (placedSizeWithin_foreseen _) hs₂ hfield
        (hsteady.mono hlearns₂.toLe)
    exact sums_of_balance hbalance
  have htotal : sizeWord (l.fields.map (·.held r)).sum =
      sizeWord (l.fields.map (·.announced r)).sum := by
    rw [hweighed.sum] at hequal
    unfold sizeWord at hequal ⊢
    omega
  refine ⟨fun f hf => (hchecked f hf).1.fits, fun f hf => (hchecked f hf).1.holds,
    fun f hf => (hchecked f hf).1.lengths, harrays, fun hheld hannounced => ?_,
    fun f hf hheld hannounced hothers => ?_⟩
  · rwa [sizeWord_of_lt hheld, sizeWord_of_lt hannounced] at htotal
  · have hword := sizeWord_of_sums (.of_map _ hgood.fields.slots_nodup) hf htotal
      fun g hg hne => (hothers g hg hne).announced_eq
    rw [sizeWord_of_lt hheld, sizeWord_of_lt hannounced] at hword
    exact .of_announced (harrays f hf) hword

end

/-! ## Trays -/

/-- A count that announces 2^64 bytes announces none as a word, so an array without elements passes. -/
example :
    let heaps : Catalog := ⟨[⟨⟨"Heap", .managed, [⟨"count", .scalar .u64, false, [], none⟩,
      ⟨"words", .array .u64 "count", false, [], none⟩]⟩, true⟩], [], []⟩
    let heap : Record := ⟨⟨0, 0⟩, [.scalar (.u64 (2 ^ 61)), .list []], [.null, .null]⟩
    answer? (SpaceM.layout ⟨0, 0⟩ .standard >>= fun l => checkedSize l heap)
      (.fresh heaps .standard none) = some (8 + 2 ^ 64) := by decide +kernel

/-- Bytes after their number, and two more runs of bytes that share a number. The numbers are as wide
as a width says that is worked out. -/
def trays : Catalog :=
  ⟨[⟨⟨"Tray", .managed, [⟨"size", .width, false, [], some (.widthOf ["count", "extra"])⟩,
    ⟨"count", .sized "size", false, [], some (.lengthOf "bytes")⟩,
    ⟨"bytes", .array .u8 "count", false, [], none⟩,
    ⟨"extra", .sized "size", false, [], none⟩,
    ⟨"left", .array .u8 "extra", false, [], none⟩,
    ⟨"right", .array .u8 "extra", false, [], none⟩]⟩, true⟩], [], []⟩

/-- The question for the layout of trays. -/
def askTrays : SpaceM Layout := SpaceM.layout ⟨0, 0⟩ .standard

/-- Their layout. -/
def trayLayout : Layout := (answer? askTrays (.fresh trays .standard none)).getD default

/-- The workspace that has compiled it. -/
def traySpace : Workspace := after askTrays (.fresh trays .standard none)

/-- A tray with one byte and one extra byte on either side, but both extra bytes are on the left. -/
def tray : Record :=
  ⟨⟨0, 0⟩, [.width .byte, .scalar (.u64 1), .list [.scalar (.u8 7)], .scalar (.u64 1),
    .list [.scalar (.u8 1), .scalar (.u8 2)], .list []],
    [.null, .null, .null, .null, .null, .null]⟩

/-- The tray passes its check. -/
theorem tray_runs : (answer? askTrays (.fresh trays .standard none)).isSome = true ∧
    answer? (checkedSize trayLayout tray) traySpace = some 6 ∧
    trayLayout.fields.map (fun f => (f.slot, f.encoding)) = [(0, .ordinal), (1, .sized 0),
      (2, .array .u8 1), (3, .sized 0), (4, .array .u8 3), (5, .array .u8 3)] := by decide +kernel

theorem trays_closed : trays.Closed := by decide

/-- The workspace is sound and knows the layout, and the check succeeds in it. -/
theorem tray_checked : traySpace.Sound ∧ traySpace.Knows trayLayout ∧
    checkedSize trayLayout tray traySpace =
      .ok 6 (after (checkedSize trayLayout tray) traySpace) := by
  obtain ⟨hask, hcheck, -⟩ := tray_runs
  obtain ⟨l, hrun, hl⟩ := runs_to_after hask
  have hlayout : trayLayout = l := by rw [trayLayout, hl, Option.getD_some]
  obtain ⟨hs, -, hknows⟩ := SpaceM.layout_sound (Workspace.sound_fresh trays_closed _ _) hrun
  obtain ⟨n, hsize, hn⟩ := runs_to_after (by rw [hcheck]; rfl)
  rw [hcheck] at hn
  cases hn
  exact ⟨hs, by rw [hlayout]; exact hknows, hsize⟩

theorem checkedSize_validates_tray :
    (∃ n w, checkedSize trayLayout tray traySpace = .ok n w) ∧
      Validated trayLayout tray := by
  obtain ⟨hs, hl, hrun⟩ := tray_checked
  exact ⟨⟨_, _, hrun⟩, checkedSize_validates hs hl hrun⟩

/-- Not every array has as many elements as its count says: where a count is shared, one array may have
too many elements if another one has too few. -/
theorem checkedSize_not_exact :
    ¬∀ (w w' : Workspace) (l : Layout) (r : Record) (n : Nat), w.Sound → w.Knows l →
      checkedSize l r w = .ok n w' → ∀ f ∈ l.fields, f.Exact r := by
  intro hall
  obtain ⟨hs, hl, hrun⟩ := tray_checked
  have hmem : (4, .array .u8 3) ∈ trayLayout.fields.map fun f => (f.slot, f.encoding) := by
    rw [tray_runs.2.2]
    decide
  obtain ⟨f, hf, hsame⟩ := List.mem_map.mp hmem
  obtain ⟨hslot, he⟩ := Prod.mk.inj hsame
  obtain ⟨items, hitems, hcount⟩ := hall _ _ _ _ _ hs hl hrun f hf .u8 3 he
  -- two bytes are announced as one
  rw [hslot, show tray.slot 4 = .list [.scalar (.u8 1), .scalar (.u8 2)] from rfl] at hitems
  cases hitems
  exact absurd hcount (by decide)

end RecordLayout
