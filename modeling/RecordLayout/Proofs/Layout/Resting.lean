import Mathlib
import RecordLayout.Proofs.Layout.Sound

/-!
# Compilers at rest

Between requests nothing is being compiled. A request to a good compiler at rest leaves it so, and
an answer that was given once is given ever after: `Compiler.Steady`.

Main results:

* `Compiler.Resting.layout`, `Compiler.Resting.placement`, `Compiler.Resting.inlineSize`,
  `Compiler.Resting.holdsChunks` — the requests;
* `Compiler.layout_steady`, `Compiler.placement_steady`, `Compiler.inlineSize_steady` — answers that
  stay.
-/

namespace RecordLayout

/-! ## Enough depth for every compilation -/

/-- Every layout that compilations ask each other for, if the first one asked for is `top`. -/
def everyLayout (cat : Catalog) (top : LayoutKey) : Finset LayoutKey :=
  insert top (insert (top.1.toDraft, top.2)
    ((Finset.range cat.schemas.length ×ˢ (Finset.range 2 ×ˢ {.standard, .fixed})).image
      fun x => (⟨x.1, x.2.1⟩, x.2.2)))

theorem mem_everyLayout {cat : Catalog} {top key : LayoutKey} :
    key ∈ everyLayout cat top ↔ key = top ∨ key = (top.1.toDraft, top.2) ∨
      cat.HasSchema key.1 ∧ (key.2 = .standard ∨ key.2 = .fixed) := by
  obtain ⟨⟨declared, draft⟩, kind⟩ := key
  simp only [everyLayout, Finset.mem_insert, Finset.mem_image, Finset.mem_product,
    Finset.mem_range, Finset.mem_singleton, Catalog.HasSchema, Prod.exists]
  constructor
  · rintro (h | h | ⟨d, m, k, ⟨hd, hm, hk⟩, heq⟩)
    · exact Or.inl h
    · exact Or.inr (Or.inl h)
    · cases heq
      exact Or.inr (Or.inr ⟨⟨hd, by omega⟩, hk⟩)
  · rintro (h | h | ⟨⟨hd, hm⟩, hk⟩)
    · exact Or.inl h
    · exact Or.inr (Or.inl h)
    · exact Or.inr (Or.inr ⟨declared, draft, kind, ⟨hd, by omega, hk⟩, rfl⟩)

theorem everyLayout_covers (cat : Catalog) (top : LayoutKey) :
    Covers cat (everyLayout cat top) := by
  refine ⟨fun id hid => ⟨?_, ?_⟩, fun id kind hmem himm => ?_⟩
  · exact mem_everyLayout.mpr (Or.inr (Or.inr ⟨hid, Or.inl rfl⟩))
  · exact mem_everyLayout.mpr (Or.inr (Or.inr ⟨hid, Or.inr rfl⟩))
  · have hdraft := Catalog.draft_eq_zero himm
    refine mem_everyLayout.mpr ?_
    rcases mem_everyLayout.mp hmem with h | h | ⟨hid, hk⟩
    · rw [← h]
      exact Or.inr (Or.inl rfl)
    · cases h
      cases hdraft
    · exact Or.inr (Or.inr ⟨⟨hid.1, by rw [SchemaId.toDraft, hdraft]⟩, hk⟩)

theorem card_everyLayout (cat : Catalog) (top : LayoutKey) :
    (everyLayout cat top).card < cat.compileDepth := by
  have hpairs : ((Finset.range cat.schemas.length ×ˢ
      (Finset.range 2 ×ˢ ({.standard, .fixed} : Finset LayoutKind)))).card =
        cat.schemas.length * (2 * 2) := by
    rw [Finset.card_product, Finset.card_product, Finset.card_range, Finset.card_range]
    rfl
  have himage := Finset.card_image_le (s := Finset.range cat.schemas.length ×ˢ
    (Finset.range 2 ×ˢ ({.standard, .fixed} : Finset LayoutKind)))
    (f := fun x => ((⟨x.1, x.2.1⟩, x.2.2) : LayoutKey))
  have hinner := Finset.card_insert_le ((top.1.toDraft, top.2) : LayoutKey)
    ((Finset.range cat.schemas.length ×ˢ (Finset.range 2 ×ˢ {.standard, .fixed})).image
      fun x => ((⟨x.1, x.2.1⟩, x.2.2) : LayoutKey))
  have houter := Finset.card_insert_le top (insert ((top.1.toDraft, top.2) : LayoutKey)
    ((Finset.range cat.schemas.length ×ˢ (Finset.range 2 ×ˢ {.standard, .fixed})).image
      fun x => ((⟨x.1, x.2.1⟩, x.2.2) : LayoutKey)))
  rw [hpairs] at himage
  rw [everyLayout, Catalog.compileDepth, Catalog.size]
  omega

namespace Compiler

/-! ## Nothing is running -/

/-- A good compiler between requests. -/
structure Resting (c : Compiler) : Prop where
  good : c.Good
  running : ∀ key, c.layouts.find? key ≠ some .running
  placing : ∀ key, c.placements.find? key ≠ some .running

/-- Nothing has been compiled yet. -/
theorem resting_ofCatalog {cat : Catalog} (h : cat.Closed) : (ofCatalog cat).Resting := by
  have hnone (key : LayoutKey) : (ofCatalog cat).answer key = none := rfl
  refine ⟨⟨h, fun id kind l hl => ?_, fun key rule p hp => ?_, fun id l hl => ?_⟩, fun key hrun => ?_,
    fun key hrun => ?_⟩
  · cases (hnone (id, kind)).symm.trans hl
  · cases hp
  · cases (hnone (id, .standard)).symm.trans hl
  · cases hrun
  · cases hrun

/-- At any later time, the request has this result. -/
def Steady {α : Type} (c : Compiler) (act : CompileM α) (a : α) : Prop :=
  ∀ c', c.Grows c' → c'.Resting → ∃ c'', act c' = .ok a c'' ∧ c''.Resting ∧ c'.Grows c''

namespace Resting

variable {c c' : Compiler}

theorem returns (h : c.Resting) (hret : c.Returns c') (hgood : c'.Good) : c'.Resting :=
  ⟨hgood, fun key hrun => h.running key ((hret.running key).mp hrun),
    fun key hrun => h.placing key ((hret.placing key).mp hrun)⟩

/-- From outside, any layout may be asked for. -/
theorem within (h : c.Resting) (cur : LayoutKey) :
    Within c.catalog (everyLayout c.catalog cur) c.catalog.compileDepth cur c := by
  refine ⟨rfl, h.good, everyLayout_covers _ _, mem_everyLayout.mpr (Or.inl rfl), ?_,
    fun _ key hrun => absurd hrun (h.running key)⟩
  exact Nat.lt_of_lt_of_le (card_everyLayout _ _) (Nat.le_add_right _ _)

/-- Asking for layouts from outside is as asking for them with enough depth. -/
theorem serves (cat : Catalog) (keys : Finset LayoutKey) (cur : LayoutKey) :
    Serves cat keys cat.compileDepth cur Compiler.layout := by
  intro key hallow c h
  have hsame : Compiler.layout key.1 key.2 c = layoutWithin cat.compileDepth key.1 key.2 c := by
    rw [← h.catalog]
    rfl
  rw [hsame]
  exact layoutWithin_serves cat keys cat.compileDepth cur key hallow c h

theorem answers (key : LayoutKey) : Answers Resting Compiler.layout key := by
  intro c h
  have hallow : Allows c.catalog (everyLayout c.catalog key) key key :=
    ⟨mem_everyLayout.mpr (Or.inl rfl), fun hkind => ⟨hkind, .refl⟩⟩
  obtain ⟨c', hin, hret, hreply⟩ := serves _ _ key key hallow c (h.within key)
  exact ⟨c', h.returns hret hin.good, hret, hreply⟩

/-! ## Requests -/

/-- A layout that was asked for. -/
theorem layout (h : c.Resting) {id : SchemaId} {kind : LayoutKind} {l : Layout}
    (hrun : Compiler.layout id kind c = .ok l c') :
    c'.Resting ∧ c.Grows c' ∧ c'.answer (id, kind) = some l := by
  obtain ⟨d, hrest, hret, ⟨l', hrun', hl⟩ | ⟨e, hrun', -⟩⟩ := answers (id, kind) c h
  · rw [hrun] at hrun'
    cases hrun'
    exact ⟨hrest, hret.toGrows, hl⟩
  · rw [hrun] at hrun'
    cases hrun'

/-- A placement that was asked for. -/
theorem placement (h : c.Resting) {type : ValueType} {rule : PlacementRule}
    (href : rule.isFixed = true → c.catalog.Refers type) {p : Placement}
    (hrun : Compiler.placement type rule c = .ok p c') :
    c'.Resting ∧ c.Grows c' ∧ c'.placementAnswer (type.key, rule) = some p := by
  have hleads := placementWith_leads (serves c.catalog _ (⟨0, 0⟩, .standard))
    (h.within (⟨0, 0⟩, .standard)) href
  obtain ⟨hin, hret, hp⟩ := hleads.ok hrun
  exact ⟨h.returns hret hin.good, hret.toGrows, hp⟩

/-- Sizes that were asked for. -/
theorem inlineSize (h : c.Resting) (p : Placement) :
    ∃ c', p.inlineSize Compiler.layout c = .ok (p.sizeIn c').fixed? c' ∧ c'.Resting ∧
      c.Grows c' ∧ c'.Settles (p.asks c.catalog) := by
  obtain ⟨c', hrun, hrest, hret, hset⟩ := Placement.size_spec h fun key _ => answers key
  refine ⟨c', ?_, hrest, hret.toGrows, hset⟩
  rw [Placement.inlineSize, bind_ok]
  exact ⟨_, _, hrun, rfl⟩

/-- References that were asked for. -/
theorem holdsChunks (h : c.Resting) (e : Encoding) :
    ∃ c', e.holdsChunks Compiler.layout c = .ok (e.holdsIn c') c' ∧ c'.Resting ∧ c.Grows c' := by
  obtain ⟨c', hrun, hrest, hret⟩ := Encoding.holdsChunks_spec h fun key _ => answers key
  exact ⟨c', hrun, hrest, hret.toGrows⟩

end Resting

/-! ## Answers that stay -/

theorem layout_steady {c : Compiler} {id : SchemaId} {kind : LayoutKind} {l : Layout}
    (h : c.answer (id, kind) = some l) : c.Steady (layout id kind) l := by
  intro c' hgrows hrest
  refine ⟨c', ?_, hrest, .refl c'⟩
  have hfind := hgrows.layouts _ _ (answer_eq_some.mp h)
  have hmemo : layoutMemo.get c' = c'.layouts := rfl
  show layoutWithin (4 * c'.catalog.size + 4) id kind c' = .ok l c'
  simp only [layoutWithin, Memo.fetch, hmemo, hfind]

theorem placement_steady {c : Compiler} {type : ValueType} {rule : PlacementRule} {p : Placement}
    (h : c.placementAnswer (type.key, rule) = some p) : c.Steady (placement type rule) p := by
  intro c' hgrows hrest
  refine ⟨c', ?_, hrest, .refl c'⟩
  have hfind := hgrows.placements _ _ (placementAnswer_eq_some.mp h)
  have hmemo : placementMemo.get c' = c'.placements := rfl
  simp only [placement, placementWith, Memo.fetch, hmemo, hfind]

/-- Once the layouts that a size depends on are settled, whether it is fixed does not change. -/
theorem fixed?_sizeIn {c c' : Compiler} (hrest : c.Resting) (hgrows : c.Grows c') {p : Placement}
    (hset : c.Settles (p.asks c.catalog)) : (p.sizeIn c').fixed? = (p.sizeIn c).fixed? := by
  rcases hset with hall | ⟨key, hkey, hrun | ⟨e, hfailed⟩⟩
  · rw [Placement.sizeIn_congr hgrows.catalog fun key hkey => hgrows.answered (hall key hkey)]
  · exact absurd hrun (hrest.running key)
  · -- a layout that failed is missing now and later
    have hnot {d : Compiler} (hcat : d.catalog = c.catalog)
        (hd : d.layouts.find? key = some (.done (.error e))) : (p.sizeIn d).fixed? = none := by
      cases hsize : p.sizeIn d with
      | fixed n =>
        have hfixed : (p.sizeIn d).isFixed = true := by
          rw [hsize]
          rfl
        obtain ⟨l, hl, -⟩ := Placement.asks_of_fixed hfixed key (by rwa [hcat])
        rw [Barred.answer (Or.inr ⟨e, hd⟩)] at hl
        cases hl
      | between n m => rfl
    rw [hnot rfl hfailed, hnot hgrows.catalog (hgrows.layouts _ _ hfailed)]

theorem inlineSize_steady {c : Compiler} (hrest : c.Resting) {p : Placement}
    (hset : c.Settles (p.asks c.catalog)) :
    c.Steady (p.inlineSize layout) (p.sizeIn c).fixed? := by
  intro c' hgrows hrest'
  obtain ⟨c'', hrun, hrest'', hgrows', -⟩ := hrest'.inlineSize p
  refine ⟨c'', ?_, hrest'', hgrows'⟩
  rw [hrun, fixed?_sizeIn hrest (hgrows.trans hgrows') hset]

end Compiler

end RecordLayout
