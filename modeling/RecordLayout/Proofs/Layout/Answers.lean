import Mathlib
import RecordLayout.Layout.Compile
import RecordLayout.Proofs.Outcome

/-!
# What is known of layouts

A compiler knows the layouts whose compilation has ended. What it knows stays known, and everything
that is asked about sizes and references is a function of it: `Placement.sizeIn`,
`Placement.holdsIn`. A layout that is still being compiled, or whose compilation failed, is `Barred`.

Main results:

* `Memo.find?_insert_self`, `Memo.find?_insert_of_ne` — a memo as a finite map;
* `Memo.outcome_fetch_new`, `Memo.outcome_fetch_done`, `Memo.outcome_fetch_running` — one call of a memo;
* `Encoding.sizeIn_of_grows` — a size whose layouts are all known is never seen differently;
* `Placement.size_spec`, `Placement.holdsChunks_spec` — the questions that compilations ask compute
  these functions.
-/

namespace RecordLayout

/-! ## Memos -/

namespace Memo

variable {κ ε ν : Type} [BEq κ] [LawfulBEq κ]

/-- Taking one key out leaves what is found under the others. -/
theorem lookup_filter_ne {β : Type} {key other : κ} (h : other ≠ key) (slots : List (κ × β)) :
    (slots.filter fun (k, _) => !(k == key)).lookup other = slots.lookup other := by
  induction slots with
  | nil => rfl
  | cons entry rest ih =>
    obtain ⟨k, v⟩ := entry
    by_cases hk : k = key
    · subst hk
      have hne : (other == k) = false := by simpa using h
      rw [List.filter_cons, if_neg (by simp), ih, List.lookup_cons, hne]
    · rw [List.filter_cons, if_pos (by simpa using hk), List.lookup_cons, List.lookup_cons, ih]

/-- What is inserted is found. -/
@[simp] theorem find?_insert_self (m : Memo κ ε ν) (key : κ) (slot : MemoSlot ε ν) :
    (m.insert key slot).find? key = some slot := by
  simp [insert, find?]

/-- Inserting under one key leaves the others. -/
theorem find?_insert_of_ne (m : Memo κ ε ν) {key other : κ} (h : other ≠ key)
    (slot : MemoSlot ε ν) : (m.insert key slot).find? other = m.find? other := by
  have hne : (other == key) = false := by simpa using h
  rw [insert, find?, find?, List.lookup_cons, hne]
  exact lookup_filter_ne h _

section

variable {σ κ ε ν : Type} [BEq κ] {memo : Part σ (Memo κ ε ν)} {busy : ε} {key : κ}
  {compute : EStateM ε σ ν} {s t : σ} {result : Except ε ν}

/-- Nothing is known of the key: the computation runs, and its result is kept. -/
theorem outcome_fetch_new (hnew : (memo.get s).find? key = none)
    (hrun : outcome compute (memo.set ((memo.get s).insert key .running) s) = (result, t)) :
    outcome (fetch memo busy key compute) s =
      (result, memo.set ((memo.get t).insert key (.done result)) t) := by
  unfold outcome at hrun
  unfold outcome fetch
  rw [hnew]
  dsimp only
  split at hrun
  · rename_i v u hcompute
    cases hrun
    rw [hcompute]
  · rename_i e u hcompute
    cases hrun
    rw [hcompute]

/-- The computation of the key has ended: nothing runs. -/
theorem outcome_fetch_done (hdone : (memo.get s).find? key = some (.done result)) :
    outcome (fetch memo busy key compute) s = (result, s) := by
  unfold outcome fetch
  rw [hdone]
  cases result <;> rfl

/-- The computation of the key is running: nothing else runs. -/
theorem outcome_fetch_running (hrunning : (memo.get s).find? key = some .running) :
    outcome (fetch memo busy key compute) s = (.error busy, s) := by
  unfold outcome fetch
  rw [hrunning]

end

end Memo

namespace Compiler

/-! ## Growing knowledge -/

/-- Nothing that was known is forgotten. -/
structure Grows (c c' : Compiler) : Prop where
  catalog : c'.catalog = c.catalog
  layouts : ∀ key result, c.layouts.find? key = some (.done result) →
    c'.layouts.find? key = some (.done result)
  placements : ∀ key result, c.placements.find? key = some (.done result) →
    c'.placements.find? key = some (.done result)

/-- Nothing is forgotten, and the same compilations are running. -/
structure Returns (c c' : Compiler) : Prop extends Grows c c' where
  running : ∀ key, c'.layouts.find? key = some .running ↔ c.layouts.find? key = some .running
  placing : ∀ key,
    c'.placements.find? key = some .running ↔ c.placements.find? key = some .running

theorem Grows.refl (c : Compiler) : c.Grows c := ⟨rfl, fun _ _ h => h, fun _ _ h => h⟩

/-- Growing is transitive. -/
theorem Grows.trans {c d e : Compiler} (hcd : c.Grows d) (hde : d.Grows e) : c.Grows e :=
  ⟨hde.catalog.trans hcd.catalog, fun key result h => hde.layouts key result (hcd.layouts key result h),
    fun key result h => hde.placements key result (hcd.placements key result h)⟩

theorem Returns.refl (c : Compiler) : c.Returns c :=
  ⟨.refl c, fun _ => Iff.rfl, fun _ => Iff.rfl⟩

/-- A request after a request is a request. -/
theorem Returns.trans {c d e : Compiler} (hcd : c.Returns d) (hde : d.Returns e) : c.Returns e :=
  ⟨hcd.toGrows.trans hde.toGrows, fun key => (hde.running key).trans (hcd.running key),
    fun key => (hde.placing key).trans (hcd.placing key)⟩

/-- The layout that is known under a name. -/
def answer (c : Compiler) (key : LayoutKey) : Option Layout :=
  match c.layouts.find? key with
  | some (.done (.ok l)) => some l
  | _ => none

/-- The placement that has been chosen for a type under a rule. -/
def placementAnswer (c : Compiler) (key : TypeKey × PlacementRule) : Option Placement :=
  match c.placements.find? key with
  | some (.done (.ok p)) => some p
  | _ => none

/-- There is no layout under a name, at least as long as the same compilations are running. -/
def Barred (c : Compiler) (key : LayoutKey) : Prop :=
  c.layouts.find? key = some .running ∨ ∃ e, c.layouts.find? key = some (.done (.error e))

/-- A layout is answered exactly when it is compiled and done. -/
theorem answer_eq_some {c : Compiler} {key : LayoutKey} {l : Layout} :
    c.answer key = some l ↔ c.layouts.find? key = some (.done (.ok l)) := by
  simp only [answer]
  constructor
  · intro h
    split at h
    · rename_i hfind
      cases h
      exact hfind
    · cases h
  · intro h
    rw [h]

/-- A placement is answered exactly when it is compiled and done. -/
theorem placementAnswer_eq_some {c : Compiler} {key : TypeKey × PlacementRule} {p : Placement} :
    c.placementAnswer key = some p ↔ c.placements.find? key = some (.done (.ok p)) := by
  simp only [placementAnswer]
  constructor
  · intro h
    split at h
    · rename_i hfind
      cases h
      exact hfind
    · cases h
  · intro h
    rw [h]

/-- A barred key has no layout. -/
theorem Barred.answer {c : Compiler} {key : LayoutKey} (h : c.Barred key) : c.answer key = none := by
  rcases h with h | ⟨e, h⟩ <;> simp [Compiler.answer, h]

namespace Grows

variable {c c' : Compiler} (h : c.Grows c')

include h

/-- An answered layout stays answered as the compiler grows. -/
theorem answer {key : LayoutKey} {l : Layout} (hl : c.answer key = some l) :
    c'.answer key = some l :=
  answer_eq_some.mpr (h.layouts _ _ (answer_eq_some.mp hl))

/-- An answered placement stays answered as the compiler grows. -/
theorem placementAnswer {key : TypeKey × PlacementRule} {p : Placement}
    (hp : c.placementAnswer key = some p) : c'.placementAnswer key = some p :=
  placementAnswer_eq_some.mpr (h.placements _ _ (placementAnswer_eq_some.mp hp))

/-- Once answered, a key is answered the same ever after. -/
theorem answered {key : LayoutKey} (hl : (c.answer key).isSome) : c'.answer key = c.answer key := by
  obtain ⟨l, hl⟩ := Option.isSome_iff_exists.mp hl
  rw [hl, h.answer hl]

end Grows

end Compiler

/-! ## Sizes and references as functions of what is known -/

/-- The size of a tagged variant, given the layouts of the variants. -/
def variantSizeIn (answer : SchemaId → Option Layout) : Nat → SizeRange → List SchemaId → SizeRange
  | _, size, [] => size
  | tag, size, variant :: rest =>
    match answer variant with
    | none => .atLeast 1
    | some l =>
      let tagged := (SizeRange.fixed (Varint.length (UInt64.ofNat tag))).add l.size
      variantSizeIn answer (tag + 1) (size.union tagged) rest

/-- Whether a variant may hold references, given the layouts of the variants. -/
def variantHoldsIn (answer : SchemaId → Option Layout) : List SchemaId → Bool
  | [] => false
  | variant :: rest =>
    match answer variant with
    | none => true
    | some l => l.holdsChunks || variantHoldsIn answer rest

namespace Placement

/-- The layouts on which the size of a placed value depends. -/
def asks (c : Catalog) : Placement → List LayoutKey
  | .inlineRecord id => [(id, .standard)]
  | .fixedRecord id => [(id, .fixed)]
  | .wrapped _ carrier kind => [(carrier, kind)]
  | .inlineChoice id => (c.choice id).variants.map fun v => (v, .standard)
  | _ => []

/-- What is known of the size of a placed value. -/
def sizeIn (c : Compiler) : Placement → SizeRange
  | .scalar kind => .fixed kind.bytes
  | .inlineText | .inlineOpen => .atLeast 1
  | .chunkText | .chunkRecord _ => .fixed ChunkId.fixedBytes
  | .inlineRecord id => (c.answer (id, .standard)).elim (.atLeast 0) (·.size)
  | .fixedRecord id => (c.answer (id, .fixed)).elim (.atLeast 0) (·.size)
  | .wrapped _ carrier kind => (c.answer (carrier, kind)).elim (.atLeast 0) (·.size)
  | .handle _ true => .fixed ChunkId.fixedBytes
  | .handle _ false => .bounded 1 Varint.maxLength
  | .inlineChoice id =>
    variantSizeIn (fun v => c.answer (v, .standard)) 1 (.fixed 1) (c.catalog.choice id).variants
  | .chunkChoice _ | .chunkOpen => .fixed taggedBytes

/-- Whether placed values may hold references, as far as it is known. -/
def holdsIn (c : Compiler) : Placement → Bool
  | .scalar _ | .inlineText => false
  | .inlineRecord id => (c.answer (id, .standard)).elim true (·.holdsChunks)
  | .fixedRecord id => (c.answer (id, .fixed)).elim true (·.holdsChunks)
  | .wrapped _ carrier kind => (c.answer (carrier, kind)).elim true (·.holdsChunks)
  | .inlineChoice id =>
    variantHoldsIn (fun v => c.answer (v, .standard)) (c.catalog.choice id).variants
  | .chunkText | .chunkRecord _ | .handle _ _ | .chunkChoice _ | .inlineOpen | .chunkOpen => true

end Placement

namespace Encoding

/-- The layouts on which the size of an encoded slot depends. -/
def asks (c : Catalog) : Encoding → List LayoutKey
  | .placed placement _ => placement.asks c
  | _ => []

/-- What is known of the size of an encoded slot. -/
def sizeIn (c : Compiler) : Encoding → SizeRange
  | .scalar kind => .fixed kind.bytes
  | .ordinal => .fixed 1
  | .sized _ => .bounded 0 Width.widest.bytes
  | .forced width => .fixed width.bytes
  | .varint => .bounded 1 Varint.maxLength
  | .array _ _ => .atLeast 0
  | .placed placement false => placement.sizeIn c
  | .placed placement true =>
    let inner := placement.sizeIn c
    (SizeRange.fixed 1).add (if inner.isFixed then inner else inner.union (.fixed 0))

/-- Whether an encoded slot may hold references, as far as it is known. -/
def holdsIn (c : Compiler) : Encoding → Bool
  | .placed placement _ => placement.holdsIn c
  | _ => false

end Encoding

/-! ## Fixed sizes -/

namespace SizeRange

/-- A range is fixed when its bounds meet. -/
theorem isFixed_iff {r : SizeRange} : r.isFixed = true ↔ ∃ n, r = .fixed n := by
  cases r with
  | fixed n => simp [isFixed]
  | between n m => simp [isFixed]

/-- A fixed union has two equal fixed parts. -/
theorem isFixed_union {a b : SizeRange} (h : (a.union b).isFixed = true) :
    a.isFixed = true ∧ b = a := by
  rw [union] at h
  split at h
  · rename_i heq
    exact ⟨h, heq.symm⟩
  · cases h

/-- A fixed sum has two fixed parts. -/
theorem isFixed_add {a b : SizeRange} (h : (a.add b).isFixed = true) :
    a.isFixed = true ∧ b.isFixed = true := by
  cases a with
  | fixed n =>
    cases b with
    | fixed m => exact ⟨rfl, rfl⟩
    | between n m => cases h
  | between n m => cases h

/-- A fixed total has fixed parts only. -/
theorem isFixed_foldl_add {ranges : List SizeRange} {start : SizeRange}
    (h : (ranges.foldl add start).isFixed = true) :
    start.isFixed = true ∧ ∀ r ∈ ranges, r.isFixed = true := by
  induction ranges generalizing start with
  | nil => exact ⟨h, by simp⟩
  | cons r rest ih =>
    obtain ⟨hstart, hrest⟩ := ih h
    obtain ⟨ha, hb⟩ := isFixed_add hstart
    refine ⟨ha, fun x hx => ?_⟩
    rcases List.mem_cons.mp hx with rfl | hmem
    · exact hb
    · exact hrest x hmem

/-- A sum is fixed only if everything in it is. -/
theorem isFixed_sum {ranges : List SizeRange} (h : (sum ranges).isFixed = true) :
    ∀ r ∈ ranges, r.isFixed = true :=
  (isFixed_foldl_add h).2

end SizeRange

/-- A fixed size of a choice is the size of each variant with its tag. -/
theorem variantSizeIn_fixed {answer : SchemaId → Option Layout} {tag : Nat} {size : SizeRange}
    {variants : List SchemaId} (h : (variantSizeIn answer tag size variants).isFixed = true) :
    variantSizeIn answer tag size variants = size ∧ size.isFixed = true ∧
      ∀ i v, variants[i]? = some v → ∃ l, answer v = some l ∧
        (SizeRange.fixed (Varint.length (UInt64.ofNat (tag + i)))).add l.size = size := by
  -- once the size of the choice is fixed no variant can widen it, so every union on the way is the
  -- same
  induction variants generalizing tag size with
  | nil => exact ⟨rfl, h, by simp⟩
  | cons v rest ih =>
    rw [variantSizeIn] at h ⊢
    cases hv : answer v with
    | none =>
      rw [hv] at h
      cases h
    | some l =>
      simp only [hv] at h ⊢
      obtain ⟨heq, hfixed, hrest⟩ := ih h
      obtain ⟨hsize, htagged⟩ := SizeRange.isFixed_union hfixed
      have hunion : size.union
          ((SizeRange.fixed (Varint.length (UInt64.ofNat tag))).add l.size) = size := by
        rw [htagged, SizeRange.union, if_pos rfl]
      rw [hunion] at heq hrest ⊢
      refine ⟨heq, hsize, fun i w hi => ?_⟩
      cases i with
      | zero =>
        cases hi
        exact ⟨l, hv, htagged⟩
      | succ i =>
        obtain ⟨l', hl', hadd⟩ := hrest i w hi
        exact ⟨l', hl', by rwa [show tag + (i + 1) = tag + 1 + i by omega]⟩

namespace Placement

/-- A fixed size is known only if all layouts that it depends on are known and fixed. -/
theorem asks_of_fixed {c : Compiler} {p : Placement} (h : (p.sizeIn c).isFixed = true) :
    ∀ key ∈ p.asks c.catalog, ∃ l, c.answer key = some l ∧ l.size.isFixed = true := by
  -- a layout that is missing has an open size, so a fixed size means that it is there
  have hone {key : LayoutKey}
      (hkey : ((c.answer key).elim (SizeRange.atLeast 0) (·.size)).isFixed = true) :
      ∃ l, c.answer key = some l ∧ l.size.isFixed = true := by
    cases hl : c.answer key with
    | none =>
      rw [hl] at hkey
      cases hkey
    | some l =>
      rw [hl] at hkey
      exact ⟨l, rfl, hkey⟩
  cases p with
  | inlineRecord id => simpa [asks] using hone h
  | fixedRecord id => simpa [asks] using hone h
  | wrapped id carrier kind => simpa [asks] using hone h
  | inlineChoice id =>
    intro key hkey
    obtain ⟨v, hv, rfl⟩ := List.mem_map.mp hkey
    obtain ⟨i, hi⟩ := List.mem_iff_getElem?.mp hv
    obtain ⟨-, hfixed, hall⟩ := variantSizeIn_fixed h
    obtain ⟨l, hl, hadd⟩ := hall i v hi
    exact ⟨l, hl, (SizeRange.isFixed_add (hadd ▸ hfixed)).2⟩
  | _ => simp [asks]

/-- Two answers of one size: there is no layout, or there are two of that size. -/
theorem sizes_cases {a b : Option Layout} (h : a.map (·.size) = b.map (·.size)) :
    a = none ∧ b = none ∨ ∃ l l', a = some l ∧ b = some l' ∧ l.size = l'.size := by
  cases b with
  | none => exact Or.inl ⟨Option.map_eq_none_iff.mp h, rfl⟩
  | some l' =>
    obtain ⟨l, hl, hsize⟩ := Option.map_eq_some_iff.mp h
    exact Or.inr ⟨l, l', hl, rfl, hsize⟩

/-- What is known of the size depends on the sizes of the layouts only. -/
theorem sizeIn_of_sizes {c c' : Compiler} (hcat : c'.catalog = c.catalog) {p : Placement}
    (h : ∀ key ∈ p.asks c.catalog, (c'.answer key).map (·.size) = (c.answer key).map (·.size)) :
    p.sizeIn c' = p.sizeIn c := by
  have hone {key : LayoutKey} (hkey : key ∈ p.asks c.catalog) :
      (c'.answer key).elim (SizeRange.atLeast 0) (·.size) =
        (c.answer key).elim (.atLeast 0) (·.size) := by
    rcases sizes_cases (h key hkey) with ⟨hl', hl⟩ | ⟨l', l, hl', hl, hsize⟩
    · rw [hl', hl]
    · rw [hl', hl]
      exact hsize
  cases p with
  | inlineRecord id => exact hone (List.mem_singleton.mpr rfl)
  | fixedRecord id => exact hone (List.mem_singleton.mpr rfl)
  | wrapped id carrier kind => exact hone (List.mem_singleton.mpr rfl)
  | inlineChoice id =>
    simp only [sizeIn, hcat]
    have hall : ∀ v ∈ (c.catalog.choice id).variants,
        (c'.answer (v, .standard)).map (·.size) = (c.answer (v, .standard)).map (·.size) :=
      fun v hv => h _ (List.mem_map.mpr ⟨v, hv, rfl⟩)
    generalize (c.catalog.choice id).variants = variants at hall
    generalize 1 = tag
    generalize SizeRange.fixed _ = size
    induction variants generalizing tag size with
    | nil => rfl
    | cons v rest ih =>
      rw [variantSizeIn, variantSizeIn]
      rcases sizes_cases (hall v List.mem_cons_self) with ⟨hl', hl⟩ | ⟨l', l, hl', hl, hsize⟩
      · -- a variant of no known size ends the sum
        rw [hl', hl]
      · rw [hl', hl]
        dsimp only
        rw [hsize]
        exact ih (fun w hw => hall w (List.mem_cons_of_mem _ hw)) _ _
  | handle id fixed => cases fixed <;> rfl
  | _ => rfl

/-- A placement's size depends only on the layouts it asks for. -/
theorem sizeIn_congr {c c' : Compiler} (hcat : c'.catalog = c.catalog) {p : Placement}
    (h : ∀ key ∈ p.asks c.catalog, c'.answer key = c.answer key) : p.sizeIn c' = p.sizeIn c :=
  sizeIn_of_sizes hcat fun key hkey => by rw [h key hkey]

end Placement

namespace Encoding

/-- An encoding of fixed size has only layouts of fixed size behind it. -/
theorem asks_of_fixed {c : Compiler} {e : Encoding} (h : (e.sizeIn c).isFixed = true) :
    ∀ key ∈ e.asks c.catalog, ∃ l, c.answer key = some l ∧ l.size.isFixed = true := by
  cases e with
  | placed p marker =>
    refine Placement.asks_of_fixed ?_
    cases marker with
    | false => exact h
    | true =>
      have hbody := (SizeRange.isFixed_add h).2
      split at hbody
      · assumption
      · exact (SizeRange.isFixed_union hbody).1
  | _ => simp [asks]

/-- An encoding's size depends only on the sizes of the layouts it asks for. -/
theorem sizeIn_of_sizes {c c' : Compiler} (hcat : c'.catalog = c.catalog) {e : Encoding}
    (h : ∀ key ∈ e.asks c.catalog, (c'.answer key).map (·.size) = (c.answer key).map (·.size)) :
    e.sizeIn c' = e.sizeIn c := by
  cases e with
  | placed p marker => cases marker <;> simp only [sizeIn, Placement.sizeIn_of_sizes hcat h]
  | _ => rfl

/-- An encoding's size depends only on the layouts it asks for. -/
theorem sizeIn_congr {c c' : Compiler} (hcat : c'.catalog = c.catalog) {e : Encoding}
    (h : ∀ key ∈ e.asks c.catalog, c'.answer key = c.answer key) : e.sizeIn c' = e.sizeIn c :=
  sizeIn_of_sizes hcat fun key hkey => by rw [h key hkey]

end Encoding

namespace Compiler

/-! ## Sizes that stay as they are -/

/-- Every slot of an encoding takes the same number of bytes. -/
def Fixes (c : Compiler) (e : Encoding) : Prop := (e.sizeIn c).isFixed = true

/-- A fixed size stays what it is as the compiler grows. -/
theorem Fixes.sizeIn {c c' : Compiler} (h : c.Grows c') {e : Encoding} (hfix : c.Fixes e) :
    e.sizeIn c' = e.sizeIn c := by
  refine Encoding.sizeIn_congr h.catalog fun key hkey => h.answered ?_
  obtain ⟨l, hl, -⟩ := Encoding.asks_of_fixed hfix key hkey
  rw [hl]
  rfl

/-- An encoding of fixed size stays fixed as the compiler grows. -/
theorem Fixes.grows {c c' : Compiler} (h : c.Grows c') {e : Encoding} (hfix : c.Fixes e) :
    c'.Fixes e := by
  rw [Fixes, hfix.sizeIn h]
  exact hfix

/-! ## References that are not there -/

/-- Variants without chunks all have layouts without chunks. -/
theorem variantHoldsIn_false {answer : SchemaId → Option Layout} {variants : List SchemaId}
    (h : variantHoldsIn answer variants = false) :
    ∀ v ∈ variants, ∃ l, answer v = some l ∧ l.holdsChunks = false := by
  induction variants with
  | nil => simp
  | cons v rest ih =>
    rw [variantHoldsIn] at h
    cases hv : answer v with
    | none => simp [hv] at h
    | some l =>
      simp only [hv, Bool.or_eq_false_iff] at h
      intro w hw
      rcases List.mem_cons.mp hw with rfl | hmem
      · exact ⟨l, hv, h.1⟩
      · exact ih h.2 w hmem

/-- Variants whose layouts hold no chunks hold none. -/
theorem variantHoldsIn_of_all {answer : SchemaId → Option Layout} {variants : List SchemaId}
    (h : ∀ v ∈ variants, ∃ l, answer v = some l ∧ l.holdsChunks = false) :
    variantHoldsIn answer variants = false := by
  induction variants with
  | nil => rfl
  | cons v rest ih =>
    obtain ⟨l, hv, hl⟩ := h v List.mem_cons_self
    rw [variantHoldsIn, hv]
    simp only [hl, Bool.false_or]
    exact ih fun w hw => h w (List.mem_cons_of_mem _ hw)

/-- An encoding that holds no references, as far as it is known, never holds any. -/
theorem holdsIn_false {c c' : Compiler} (h : c.Grows c') {e : Encoding}
    (hno : e.holdsIn c = false) : e.holdsIn c' = false := by
  -- a layout that is missing counts as holding chunks
  have hone {key : LayoutKey} (hkey : (c.answer key).elim true (·.holdsChunks) = false) :
      (c'.answer key).elim true (·.holdsChunks) = false := by
    cases hl : c.answer key with
    | none => simp [hl] at hkey
    | some l =>
      rw [h.answer hl]
      rwa [hl] at hkey
  cases e with
  | placed p marker =>
    cases p with
    | inlineRecord id => exact hone hno
    | fixedRecord id => exact hone hno
    | wrapped id carrier kind => exact hone hno
    | inlineChoice id =>
      simp only [Encoding.holdsIn, Placement.holdsIn, h.catalog] at hno ⊢
      refine variantHoldsIn_of_all fun v hv => ?_
      obtain ⟨l, hl, hholds⟩ := variantHoldsIn_false hno v hv
      exact ⟨l, h.answer hl, hholds⟩
    | _ => exact hno
  | _ => rfl

end Compiler

/-! ## Questions that compilations ask -/

/-- In good states, asking for a layout gives what is known of it afterwards, and leads to a good
state. -/
def Answers (good : Compiler → Prop) (layoutOf : LayoutOf) (key : LayoutKey) : Prop :=
  ∀ c, good c → ∃ c', good c' ∧ c.Returns c' ∧
    ((∃ l, layoutOf key.1 key.2 c = .ok l c' ∧ c'.answer key = some l) ∨
      ∃ e, layoutOf key.1 key.2 c = .error e c' ∧ c'.Barred key)

/-- Each of some layouts is known, or one of them is barred. -/
def Compiler.Settles (c : Compiler) (keys : List LayoutKey) : Prop :=
  (∀ key ∈ keys, (c.answer key).isSome) ∨ ∃ key ∈ keys, c.Barred key

section

variable {good : Compiler → Prop} {layoutOf : LayoutOf}

/-- A layout asked for is used if it is answered, and barred otherwise. -/
theorem whenLaidOut_spec {α : Type} {id : SchemaId} {kind : LayoutKind} (use : Layout → α)
    (otherwise : α) (h : Answers good layoutOf (id, kind)) {c : Compiler} (hc : good c) :
    ∃ c', whenLaidOut layoutOf id kind use otherwise c =
        .ok ((c'.answer (id, kind)).elim otherwise use) c' ∧ good c' ∧ c.Returns c' ∧
      ((c'.answer (id, kind)).isSome ∨ c'.Barred (id, kind)) := by
  obtain ⟨c', hc', hret, ⟨l, hrun, hl⟩ | ⟨e, hrun, hbar⟩⟩ := h c hc
  · refine ⟨c', ?_, hc', hret, Or.inl (by rw [hl]; rfl)⟩
    simp only [whenLaidOut, hrun, hl, Option.elim_some]
  · refine ⟨c', ?_, hc', hret, Or.inr hbar⟩
    simp only [whenLaidOut, hrun, hbar.answer, Option.elim_none]

/-- The size of the variants is computed as specified, and settles each variant's layout. -/
theorem variantSize_spec {variants : List SchemaId}
    (h : ∀ v ∈ variants, Answers good layoutOf (v, .standard)) (tag : Nat) (size : SizeRange)
    {c : Compiler} (hc : good c) :
    ∃ c', variantSize layoutOf tag size variants c =
        .ok (variantSizeIn (fun v => c'.answer (v, .standard)) tag size variants) c' ∧
      good c' ∧ c.Returns c' ∧ c'.Settles (variants.map fun v => (v, .standard)) := by
  -- each variant's request may compile more, so the invariant is carried from one to the next
  induction variants generalizing tag size c with
  | nil => exact ⟨c, rfl, hc, .refl c, Or.inl (by simp)⟩
  | cons v rest ih =>
    obtain ⟨c₁, hrun, hc₁, hret, hv⟩ := whenLaidOut_spec (fun l => some l.size) none
      (h v List.mem_cons_self) hc
    rcases hv with hsome | hbar
    · -- the variant is laid out, and the others are asked for
      obtain ⟨l, hl⟩ := Option.isSome_iff_exists.mp hsome
      rw [hl] at hrun
      obtain ⟨c₂, hrest, hc₂, hret₂, hset⟩ := ih (fun w hw => h w (List.mem_cons_of_mem _ hw))
        (tag + 1) (size.union ((SizeRange.fixed (Varint.length (UInt64.ofNat tag))).add l.size)) hc₁
      have hl₂ := hret₂.toGrows.answer hl
      refine ⟨c₂, ?_, hc₂, hret.trans hret₂, ?_⟩
      · rw [variantSize, bind_ok]
        refine ⟨_, _, hrun, ?_⟩
        simp only [Option.elim_some, variantSizeIn, hl₂, hrest]
      · rcases hset with hall | ⟨key, hkey, hkbar⟩
        · refine Or.inl fun key hkey => ?_
          rw [List.map_cons] at hkey
          rcases List.mem_cons.mp hkey with rfl | hmem
          · rw [hl₂]
            rfl
          · exact hall key hmem
        · exact Or.inr ⟨key, List.mem_cons_of_mem _ hkey, hkbar⟩
    · -- it is not, and this ends the questions
      rw [hbar.answer] at hrun
      refine ⟨c₁, ?_, hc₁, hret, Or.inr ⟨_, List.mem_cons_self, hbar⟩⟩
      rw [variantSize, bind_ok]
      refine ⟨_, _, hrun, ?_⟩
      simp only [Option.elim_none, variantSizeIn, hbar.answer, pure_ok, and_self]

/-- Whether a variant holds chunks is computed as specified. -/
theorem variantHoldsChunks_spec {variants : List SchemaId}
    (h : ∀ v ∈ variants, Answers good layoutOf (v, .standard)) {c : Compiler} (hc : good c) :
    ∃ c', variantHoldsChunks layoutOf variants c =
        .ok (variantHoldsIn (fun v => c'.answer (v, .standard)) variants) c' ∧
      good c' ∧ c.Returns c' := by
  induction variants generalizing c with
  | nil => exact ⟨c, rfl, hc, .refl c⟩
  | cons v rest ih =>
    obtain ⟨c₁, hrun, hc₁, hret, hv⟩ := whenLaidOut_spec (·.holdsChunks) true
      (h v List.mem_cons_self) hc
    -- the search stops at the first variant that holds chunks, or that has no layout
    rcases hv with hsome | hbar
    · obtain ⟨l, hl⟩ := Option.isSome_iff_exists.mp hsome
      rw [hl, Option.elim_some] at hrun
      cases hholds : l.holdsChunks with
      | true =>
        refine ⟨c₁, ?_, hc₁, hret⟩
        rw [variantHoldsChunks, bind_ok]
        refine ⟨_, _, hrun, ?_⟩
        simp [variantHoldsIn, hl, hholds]
      | false =>
        obtain ⟨c₂, hrest, hc₂, hret₂⟩ := ih (fun w hw => h w (List.mem_cons_of_mem _ hw)) hc₁
        refine ⟨c₂, ?_, hc₂, hret.trans hret₂⟩
        rw [variantHoldsChunks, bind_ok]
        refine ⟨_, _, hrun, ?_⟩
        simp [variantHoldsIn, hret₂.toGrows.answer hl, hholds, hrest]
    · rw [hbar.answer] at hrun
      refine ⟨c₁, ?_, hc₁, hret⟩
      rw [variantHoldsChunks, bind_ok]
      refine ⟨_, _, hrun, ?_⟩
      simp [variantHoldsIn, hbar.answer]

/-- The size of a placed value, as compilations ask for it. -/
theorem Placement.size_spec {c : Compiler} (hc : good c) {p : Placement}
    (h : ∀ key ∈ p.asks c.catalog, Answers good layoutOf key) :
    ∃ c', p.size layoutOf c = .ok (p.sizeIn c') c' ∧ good c' ∧ c.Returns c' ∧
      c'.Settles (p.asks c.catalog) := by
  -- nothing is asked
  have hplain (hnone : p.asks c.catalog = []) (hrun : p.size layoutOf c = .ok (p.sizeIn c) c) :
      ∃ c', p.size layoutOf c = .ok (p.sizeIn c') c' ∧ good c' ∧ c.Returns c' ∧
        c'.Settles (p.asks c.catalog) :=
    ⟨c, hrun, hc, .refl c, Or.inl (by simp [hnone])⟩
  -- one layout is asked for
  have hone {id : SchemaId} {kind : LayoutKind} (hasks : p.asks c.catalog = [(id, kind)])
      (hrun : p.size layoutOf = whenLaidOut layoutOf id kind (·.size) (.atLeast 0))
      (hsize : ∀ c', p.sizeIn c' = (c'.answer (id, kind)).elim (.atLeast 0) (·.size)) :
      ∃ c', p.size layoutOf c = .ok (p.sizeIn c') c' ∧ good c' ∧ c.Returns c' ∧
        c'.Settles (p.asks c.catalog) := by
    obtain ⟨c', hask, hc', hret, hset⟩ := whenLaidOut_spec (·.size) (.atLeast 0)
      (h (id, kind) (by simp [hasks])) hc
    refine ⟨c', by rw [hrun, hask, hsize], hc', hret, ?_⟩
    rw [hasks]
    rcases hset with hsome | hbar
    · exact Or.inl fun key hkey => by rwa [List.mem_singleton.mp hkey]
    · exact Or.inr ⟨_, List.mem_singleton.mpr rfl, hbar⟩
  cases p with
  | inlineRecord id => exact hone rfl rfl fun _ => rfl
  | fixedRecord id => exact hone rfl rfl fun _ => rfl
  | wrapped id carrier kind => exact hone rfl rfl fun _ => rfl
  | inlineChoice id =>
    obtain ⟨c', hrun, hc', hret, hset⟩ := variantSize_spec
      (fun v hv => h (v, .standard) (List.mem_map.mpr ⟨v, hv, rfl⟩)) 1 (.fixed 1) hc
    refine ⟨c', ?_, hc', hret, hset⟩
    simp only [size, sizeIn, hret.catalog]
    rw [bind_ok]
    exact ⟨_, _, rfl, hrun⟩
  | handle id fixed => cases fixed <;> exact hplain rfl rfl
  | _ => exact hplain rfl rfl

/-- Whether placed values may hold references, as compilations ask for it. -/
theorem Placement.holdsChunks_spec {c : Compiler} (hc : good c) {p : Placement}
    (h : ∀ key ∈ p.asks c.catalog, Answers good layoutOf key) :
    ∃ c', p.holdsChunks layoutOf c = .ok (p.holdsIn c') c' ∧ good c' ∧ c.Returns c' := by
  -- a placement without a record in place compiles nothing
  have hplain (hrun : p.holdsChunks layoutOf c = .ok (p.holdsIn c) c) :
      ∃ c', p.holdsChunks layoutOf c = .ok (p.holdsIn c') c' ∧ good c' ∧ c.Returns c' :=
    ⟨c, hrun, hc, .refl c⟩
  have hone {id : SchemaId} {kind : LayoutKind} (hasks : p.asks c.catalog = [(id, kind)])
      (hrun : p.holdsChunks layoutOf = whenLaidOut layoutOf id kind (·.holdsChunks) true)
      (hholds : ∀ c', p.holdsIn c' = (c'.answer (id, kind)).elim true (·.holdsChunks)) :
      ∃ c', p.holdsChunks layoutOf c = .ok (p.holdsIn c') c' ∧ good c' ∧ c.Returns c' := by
    obtain ⟨c', hask, hc', hret, -⟩ := whenLaidOut_spec (·.holdsChunks) true
      (h (id, kind) (by simp [hasks])) hc
    exact ⟨c', by rw [hrun, hask, hholds], hc', hret⟩
  cases p with
  | inlineRecord id => exact hone rfl rfl fun _ => rfl
  | fixedRecord id => exact hone rfl rfl fun _ => rfl
  | wrapped id carrier kind => exact hone rfl rfl fun _ => rfl
  | inlineChoice id =>
    obtain ⟨c', hrun, hc', hret⟩ := variantHoldsChunks_spec
      (fun v hv => h (v, .standard) (List.mem_map.mpr ⟨v, hv, rfl⟩)) hc
    refine ⟨c', ?_, hc', hret⟩
    simp only [holdsChunks, holdsIn, hret.catalog]
    rw [bind_ok]
    exact ⟨_, _, rfl, hrun⟩
  | _ => exact hplain rfl

/-- The size of an encoded slot, as compilations ask for it. -/
theorem Encoding.size_spec {c : Compiler} (hc : good c) {e : Encoding}
    (h : ∀ key ∈ e.asks c.catalog, Answers good layoutOf key) :
    ∃ c', e.size layoutOf c = .ok (e.sizeIn c') c' ∧ good c' ∧ c.Returns c' ∧
      c'.Settles (e.asks c.catalog) := by
  cases e with
  | placed p marker =>
    obtain ⟨c', hrun, hc', hret, hset⟩ := Placement.size_spec hc h
    refine ⟨c', ?_, hc', hret, hset⟩
    cases marker with
    | false => exact hrun
    | true =>
      simp only [size, sizeIn]
      rw [bind_ok]
      exact ⟨_, _, hrun, rfl⟩
  | _ => exact ⟨c, rfl, hc, .refl c, Or.inl (by simp [asks])⟩

/-- Whether an encoded slot may hold references, as compilations ask for it. -/
theorem Encoding.holdsChunks_spec {c : Compiler} (hc : good c) {e : Encoding}
    (h : ∀ key ∈ e.asks c.catalog, Answers good layoutOf key) :
    ∃ c', e.holdsChunks layoutOf c = .ok (e.holdsIn c') c' ∧ good c' ∧ c.Returns c' := by
  cases e with
  | placed p marker => exact Placement.holdsChunks_spec hc h
  | _ => exact ⟨c, rfl, hc, .refl c⟩

end

end RecordLayout
