import Mathlib
import RecordLayout.Proofs.Layout.Conclusive

/-!
# Layouts with chosen widths

A layout of fixed width may take other widths for its numbers than the widest ones. Its compilation
binds and orders the fields as that of the plain layout does, so it succeeds if there is the plain
layout and one width is given for each of its numbers. That no such layout is kept as failed holds
after any requests, as long as the types are in use that are named from its schema.

Main results:

* `layoutWithin_obliging` — compilations of plain layouts leave the others alone;
* `compileLayout_chosen` — the compilation with chosen widths succeeds;
* `Compiler.asked_ready`, `Compiler.Ready.layout_chosen` — so there are these layouts after any
  requests.
-/

namespace RecordLayout

/-- There is a layout of fixed width, and one width is given for each number of it. -/
def Catalog.Chooses (cat : Catalog) (id : SchemaId) (widths : List Width) : Prop :=
  ∃ l, cat.fixedLayout id = .ok l ∧ widths.length = l.forcedFields.length

namespace Compiler

/-- No live layout is kept as failed that there should be with chosen widths. -/
def Obliging (c : Compiler) : Prop :=
  ∀ id widths e, c.catalog.LiveFrom id →
    c.layouts.find? (id, .varying widths) = some (.done (.error e)) → ¬c.catalog.Chooses id widths

variable {c c' : Compiler}

theorem obliging_ofCatalog (cat : Catalog) : (ofCatalog cat).Obliging :=
  fun _ _ _ _ h => by cases h

theorem Obliging.putLayout (h : c.Obliging) {key : LayoutKey} {slot : MemoSlot FormatError Layout}
    (hslot : ∀ widths e, key.2 = .varying widths → slot = .done (.error e) →
      c.catalog.LiveFrom key.1 → ¬c.catalog.Chooses key.1 widths) :
    (c.putLayout key slot).Obliging := by
  intro id widths e hlive hdone
  by_cases heq : (id, LayoutKind.varying widths) = key
  · subst heq
    rw [find?_putLayout_self] at hdone
    exact hslot widths e rfl (Option.some.inj hdone) hlive
  · rw [find?_putLayout_of_ne heq] at hdone
    exact h id widths e hlive hdone

theorem Obliging.putPlacement (h : c.Obliging) {key : TypeKey × PlacementRule}
    {slot : MemoSlot FormatError Placement} : (c.putPlacement key slot).Obliging :=
  h

end Compiler

/-! ## Compilations of plain layouts -/

section

variable {cat : Catalog} {keys : Finset LayoutKey} {depth : Nat} {cur : LayoutKey} {c : Compiler}

theorem LayoutKind.Plain.ne_varying {kind : LayoutKind} (h : kind.Plain) (widths : List Width) :
    kind ≠ .varying widths := by
  rintro rfl
  rcases h with h | h <;> cases h

/-- The layouts that a compilation asks for without choosing widths. -/
structure AsksPlain (cat : Catalog) (keys : Finset LayoutKey) (cur key : LayoutKey) : Prop where
  allows : Allows cat keys cur key
  plain : key.2.Plain

/-- The layouts that the placement of a field asks for are plain. -/
theorem Within.asks_placed {id : SchemaId} {kind : LayoutKind} (h : Within cat keys depth (id, kind) c)
    {f : FieldDecl} (hf : f ∈ (cat.schema id).fields) {type : ValueType} {rule : PlacementRule}
    (hshape : f.shape = .value type rule) {p : Placement}
    (hp : c.placementAnswer (type.key, kind.placementRule rule) = some p) :
    ∀ key ∈ p.asks cat, AsksPlain cat keys (id, kind) key := by
  intro key hkey
  refine ⟨h.allows_placed hf hshape hp key hkey, ?_⟩
  have hcat := h.catalog
  subst hcat
  have hbound : boundEncoding? c (c.catalog.schema id) kind f =
      some (.placed p (f.nullable && !p.encodesNull)) := by
    simp only [boundEncoding?, hshape, hp, Option.map_some]
  obtain ⟨-, ⟨hfixed, -⟩ | ⟨hstandard, -⟩⟩ := h.good.asks hf hbound key hkey
  · exact Or.inr hfixed
  · exact Or.inl hstandard

/-- Asking for a plain layout from within leaves the others as they are. -/
def Spares (cat : Catalog) (keys : Finset LayoutKey) (depth : Nat) : Prop :=
  ∀ cur key c, Allows cat keys cur key → key.2.Plain → Within cat keys depth cur c → c.Obliging →
    (outcome (layoutWithin depth key.1 key.2) c).2.Obliging

/-- A compiler inside the compilation of a layout that has kept no wrong failure. -/
structure Sparing (cat : Catalog) (keys : Finset LayoutKey) (depth : Nat) (cur : LayoutKey)
    (c : Compiler) : Prop extends Within cat keys depth cur c where
  obliging : c.Obliging

theorem Leads.sparing {α : Type} {act : CompileM α} {post : α → Compiler → Prop}
    (h : Leads (Within cat keys depth cur) act c post) (hobliging : (outcome act c).2.Obliging) :
    Leads (Sparing cat keys depth cur) act c post :=
  h.strengthen fun hwithin _ => ⟨hwithin, hobliging⟩

theorem layoutWithin_spares (hspares : Spares cat keys depth) {key : LayoutKey}
    (hask : AsksPlain cat keys cur key) :
    Keeps (Sparing cat keys depth cur) (layoutWithin depth key.1 key.2)
      (layoutWithin depth key.1 key.2) (fun _ => True) fun _ => True := by
  refine fun c h => ⟨?_, fun _ _ _ => trivial⟩
  have hleads := (layoutWithin_serves cat keys depth cur key hask.allows).leads h.toWithin
  exact (hleads.mono fun _ _ _ _ _ => trivial).sparing
    (hspares cur key c hask.allows hask.plain h.toWithin h.obliging)

theorem placementWith_obliging (hspares : Spares cat keys depth) (h : Within cat keys depth cur c)
    (hobliging : c.Obliging) {type : ValueType} (href : cat.Refers type) (rule : PlacementRule) :
    (outcome (placementWith (layoutWithin depth) type rule) c).2.Obliging := by
  have hcat := h.catalog
  subst hcat
  refine placementWith_leaves hobliging (fun _ _ _ => hobliging.putPlacement.putPlacement)
    fun hfind resolved result d hresolve hrun => ?_
  obtain ⟨-, hrefers⟩ := Catalog.resolve_key hresolve
  have hin : Sparing c.catalog keys depth cur (c.putPlacement (type.key, rule) .running) :=
    ⟨h.enterPlacement hfind, hobliging.putPlacement⟩
  -- a layout of fixed width may be asked for from anywhere
  have hask (id : SchemaId) (hid : c.catalog.HasSchema id) :
      Keeps (Sparing c.catalog keys depth cur) (layoutWithin depth id .fixed)
        (layoutWithin depth id .fixed) (fun _ => True) fun _ => True :=
    have hallow : Allows c.catalog keys cur (id, .fixed) :=
      ⟨(h.covers.declared id hid).2, fun hkind => by cases hkind⟩
    layoutWithin_spares hspares ⟨hallow, Or.inr rfl⟩
  have hplace := (Keeps.compatible fun d (hd : Sparing c.catalog keys depth cur d) =>
    hd.catalog).place h.good.closed (fun id hid _ => hask id hid) (hrefers href) rule
  obtain ⟨hd, -⟩ := (hplace _ hin).leads.of_outcome hrun
  exact hd.obliging.putPlacement

/-- A field of a layout is placed. -/
theorem placementWith_spares (hspares : Spares cat keys depth) {id : SchemaId} {kind : LayoutKind}
    (h : Sparing cat keys depth (id, kind) c) {f : FieldDecl} (hf : f ∈ (cat.schema id).fields)
    {type : ValueType} {rule : PlacementRule} (hshape : f.shape = .value type rule) :
    Leads (Sparing cat keys depth (id, kind))
      (placementWith (layoutWithin depth) type (kind.placementRule rule)) c
      fun p _ => ∀ key ∈ p.asks cat, AsksPlain cat keys (id, kind) key := by
  have hcat := h.catalog
  subst hcat
  have href := h.good.closed.refers hf hshape
  refine Leads.sparing ?_ (placementWith_obliging hspares h.toWithin h.obliging href _)
  exact (placementWith_leads (layoutWithin_serves _ _ _ _) h.toWithin fun _ => href).mono
    fun p d hd _ hp => hd.asks_placed hf hshape hp

/-- Every compilation of a plain layout leaves the others as they are. -/
theorem layoutWithin_obliging (cat : Catalog) (keys : Finset LayoutKey) (depth : Nat) :
    Spares cat keys depth := by
  induction depth with
  | zero => exact fun cur key c _ _ h => absurd h.depth_pos (Nat.lt_irrefl 0)
  | succ depth ih =>
    intro cur key c hallow hplain h hobliging
    obtain ⟨id, kind⟩ := key
    -- what is put here is a plain layout, of which nothing is said
    have hleave {d : Compiler} (hd : d.Obliging) (slot : MemoSlot FormatError Layout) :
        (d.putLayout (id, kind) slot).Obliging :=
      hd.putLayout fun widths _ hkind => absurd hkind (hplain.ne_varying widths)
    have hask (t : SchemaId) (kind' : LayoutKind)
        (ht : AsksPlain cat keys (id, kind) (t, kind')) :
        Keeps (Sparing cat keys depth (id, kind)) (layoutWithin depth t kind')
          (layoutWithin depth t kind') (fun _ => True) fun _ => True :=
      layoutWithin_spares ih ht
    have hcompile : Keeps (Sparing cat keys depth (id, kind))
        (compileLayout (layoutWithin depth) id kind) (compileLayout (layoutWithin depth) id kind)
        (fun _ => True) fun _ => True := by
      refine (Keeps.compatible fun d hd => hd.catalog).compileLayout (fun _ _ => trivial) hask
        (fun _ _ => trivial) (fun _ f hf type rule hshape d hd => ?_) fun _ himm d hd => ?_
      · exact ⟨placementWith_spares ih hd hf hshape, fun _ _ _ => trivial⟩
      · have hallow : Allows cat keys (id, kind) (id.toDraft, kind) :=
          ⟨hd.covers.drafts id kind hd.mem himm, fun hstandard => ⟨hstandard, .refl⟩⟩
        exact hask _ _ ⟨hallow, hplain⟩ d hd
    refine layoutWithin_leaves hobliging fun hfind result d hrun => ?_
    obtain ⟨hd, -⟩ :=
      (hcompile _ ⟨h.enter hallow hfind, hleave hobliging _⟩).leads.of_outcome hrun
    exact hleave hd.obliging _

/-! ## Compilations with chosen widths -/

variable {id : SchemaId} {widths : List Width}

/-- A compiler inside the compilation of a layout with chosen widths, which has kept no wrong failure.
-/
structure Choosing (cat : Catalog) (keys : Finset LayoutKey) (depth : Nat) (id : SchemaId)
    (widths : List Width) (c : Compiler) : Prop
    extends Between cat keys depth (id, .varying widths) c where
  obliging : c.Obliging
  draft : (cat.schema id).isImmutable = true →
    c.layouts.find? (id.toDraft, .varying widths) ≠ some .running

theorem Choosing.leads {α : Type} {act : CompileM α} {post : α → Compiler → Prop}
    (h : Choosing cat keys depth id widths c)
    (hleads : Leads (Between cat keys depth (id, .varying widths)) act c post)
    (hobliging : (outcome act c).2.Obliging) :
    Leads (Choosing cat keys depth id widths) act c post :=
  hleads.strengthen fun hbetween hret =>
    ⟨hbetween, hobliging, fun himm => mt (hret.running _).mp (h.draft himm)⟩

theorem Choosing.tells {α : Type} {act : CompileM α} {result : Except FormatError α}
    (h : Choosing cat keys depth id widths c)
    (ht : Tells (Honest cat keys depth (id, .varying widths)) act c result)
    (hobliging : (outcome act c).2.Obliging) :
    Tells (Choosing cat keys depth id widths) act c result := by
  obtain ⟨c', hrun, hgood, hret⟩ := ht
  rw [hrun] at hobliging
  exact ⟨c', hrun, ⟨h.toBetween.returns hret hgood.toWithin hgood.faithful, hobliging,
    fun himm => mt (hret.running _).mp (h.draft himm)⟩, hret⟩

theorem layoutWithin_asked (h : Choosing cat keys depth id widths c) {key : LayoutKey}
    (hask : AsksPlain cat keys (id, .varying widths) key) :
    Leads (Choosing cat keys depth id widths) (layoutWithin depth key.1 key.2) c
      fun _ _ => True :=
  h.leads (layoutWithin_between hask.allows h.toBetween)
    (layoutWithin_obliging cat keys depth _ key c hask.allows hask.plain h.toWithin h.obliging)

/-- The answer for the draft is kept too. -/
theorem layoutWithin_draft (h : Choosing cat keys depth id widths c)
    (himm : (cat.schema id).isImmutable = true)
    (hdraft : (outcome (layoutWithin depth id.toDraft (.varying widths)) c).2.Obliging) :
    Ends (Choosing cat keys depth id widths) (layoutWithin depth id.toDraft (.varying widths)) c
      (fun _ _ => True) fun _ => cat.LiveFrom id.toDraft → ¬cat.Chooses id.toDraft widths := by
  have hallow : Allows cat keys (id, .varying widths) (id.toDraft, .varying widths) :=
    ⟨h.covers.drafts id _ h.mem himm, fun hkind => by cases hkind⟩
  have hleads := h.leads (layoutWithin_between hallow h.toBetween) hdraft
  refine ⟨hleads, fun e d hrun hlive => ?_⟩
  obtain ⟨depth, rfl⟩ : ∃ n, depth = n + 1 := ⟨depth - 1, by have := h.depth_pos; omega⟩
  have hkept := @layoutWithin_kept depth c id.toDraft (.varying widths) (h.draft himm)
  obtain ⟨hd, -⟩ := hleads.error hrun
  rw [outcome_eq_error.mpr hrun] at hkept
  rw [← hd.catalog] at hlive ⊢
  exact hd.obliging _ _ e hlive hkept

/-- Compilations with chosen widths keep no wrong failure of others. -/
theorem compileLayout_choosing (hdraft : (cat.schema id).isImmutable = true →
    ∀ c, Choosing cat keys depth id widths c →
      (outcome (layoutWithin depth id.toDraft (.varying widths)) c).2.Obliging) :
    Keeps (Choosing cat keys depth id widths)
      (compileLayout (layoutWithin depth) id (.varying widths))
      (compileLayout (layoutWithin depth) id (.varying widths)) (fun _ => True) fun _ => True := by
  have hask (t : SchemaId) (kind : LayoutKind)
      (ht : AsksPlain cat keys (id, .varying widths) (t, kind)) :
      Keeps (Choosing cat keys depth id widths) (layoutWithin depth t kind)
        (layoutWithin depth t kind) (fun _ => True) fun _ => True :=
    fun c h => ⟨layoutWithin_asked h ht, fun _ _ _ => trivial⟩
  refine (Keeps.compatible fun c h => h.catalog).compileLayout (fun _ _ => trivial) hask
    (fun _ _ => trivial) (fun _ f hf type rule hshape c h => ?_) fun _ himm c h => ?_
  · have href : cat.Refers type := by
      have hclosed := h.good.closed
      rw [h.catalog] at hclosed
      exact hclosed.refers hf hshape
    refine ⟨h.leads ((placementWith_between (layoutWithin_quiet _ _ _) h.toBetween href).mono
      fun p d hd _ hp => hd.asks_placed hf hshape hp) ?_, fun _ _ _ => trivial⟩
    exact placementWith_obliging (layoutWithin_obliging cat keys depth) h.toWithin h.obliging href _
  · exact (layoutWithin_draft h himm (hdraft himm c h)).imp (fun _ _ _ _ h => h)
      fun _ _ => trivial

/-! ### With the right number of widths -/

theorem forall₂_of_mapM_ok {ε σ α β : Type} {step : α → EStateM ε σ β} {rel : α → β → Prop}
    (h : ∀ a b s t, step a s = .ok b t → rel a b) {items : List α} {out : List β} {s t : σ}
    (hrun : items.mapM step s = .ok out t) : List.Forall₂ rel items out := by
  induction items generalizing s out with
  | nil =>
    rw [List.mapM_nil] at hrun
    obtain ⟨rfl, -⟩ := pure_ok.mp hrun
    exact .nil
  | cons a rest ih =>
    simp only [List.mapM_cons, bind_ok] at hrun
    obtain ⟨b, u, ha, bs, v, hrest, hlast⟩ := hrun
    obtain ⟨rfl, rfl⟩ := pure_ok.mp hlast
    exact .cons (h a b s u ha) (ih hrest)

/-- Completed fields are forced where their bindings are. -/
theorem length_forced {bindings : List Binding} {fields : List BoundField}
    (h : List.Forall₂ (fun b f => f.encoding = b.encoding) bindings fields) (order : List Nat) :
    ((order.map fun slot => fields.getD slot default).filter (·.encoding.isForced)).length =
      (order.filter fun slot => (bindings.getD slot default).encoding.isForced).length := by
  rw [List.filter_map, List.length_map]
  refine congrArg List.length (List.filter_congr fun slot _ => congrArg Encoding.isForced ?_)
  show (fields.getD slot default).encoding = (bindings.getD slot default).encoding
  have hlen := h.length_eq
  by_cases hslot : slot < bindings.length
  · have hfield := hlen ▸ hslot
    rw [List.getD_eq_getElem _ _ hslot, List.getD_eq_getElem _ _ hfield]
    exact (List.forall₂_iff_get.mp h).2 slot hslot hfield
  · rw [List.getD_eq_default fields _ (by omega), List.getD_eq_default bindings _ (by omega)]
    rfl

/-- What the compilation of a layout of fixed width has bound and ordered. -/
theorem compileFields_fixed {layoutOf : LayoutOf} {s : Schema} {fields : List BoundField}
    {c' : Compiler} (hrun : compileFields layoutOf s .fixed c = .ok fields c') :
    ∃ bindings c₁ order c₂, bindFields layoutOf s .fixed 0 s.fields c = .ok bindings c₁ ∧
      canonicalOrder layoutOf s bindings c₁ = .ok order c₂ ∧
      (fields.filter (·.encoding.isForced)).length =
        (order.filter fun slot => (bindings.getD slot default).encoding.isForced).length := by
  simp only [compileFields, bind_ok] at hrun
  obtain ⟨bindings, c₁, hbind, order, c₂, horder, hrest⟩ := hrun
  refine ⟨bindings, c₁, order, c₂, hbind, horder, ?_⟩
  obtain ⟨wide, c₃, hpure, finished, c₄, hfinish, hfields⟩ := hrest
  obtain ⟨rfl, rfl⟩ := pure_ok.mp hpure
  obtain ⟨rfl, rfl⟩ := pure_ok.mp hfields
  refine length_forced (forall₂_of_mapM_ok (fun b f d d' hfield => ?_) hfinish) order
  simp only [finishField, bind_ok] at hfield
  obtain ⟨_, _, -, _, _, -, hlast⟩ := hfield
  obtain ⟨rfl, -⟩ := pure_ok.mp hlast
  rfl

theorem compileLayout_fields {layoutOf : LayoutOf} {kind : LayoutKind} {l : Layout} {c' : Compiler}
    (hflex : (kind.isFixed && c.catalog.standsInItself id) = false)
    (hrun : compileLayout layoutOf id kind c = .ok l c') :
    ∃ d, compileFields layoutOf (c.catalog.schema id) kind c = .ok l.fields d := by
  rw [compileLayout, bind_ok] at hrun
  obtain ⟨cat, d, hcat, hrun⟩ := hrun
  cases hcat
  simp only [hflex] at hrun
  obtain ⟨fields, d, hfields, hrun⟩ := bind_ok.mp hrun
  refine ⟨d, ?_⟩
  -- only the layout kinds differ in what is computed after the fields
  split at hrun
  · obtain ⟨_, _, -, hrun⟩ := bind_ok.mp hrun
    obtain ⟨_, _, -, hrun⟩ := bind_ok.mp hrun
    obtain ⟨_, _, -, hrun⟩ := bind_ok.mp hrun
    obtain ⟨rfl, -⟩ := pure_ok.mp hrun
    exact hfields
  · obtain ⟨_, _, -, hrun⟩ := bind_ok.mp hrun
    obtain ⟨_, _, -, hrun⟩ := bind_ok.mp hrun
    obtain ⟨rfl, -⟩ := pure_ok.mp hrun
    exact hfields

/-- The compilation in which a new compiler has found a layout of fixed width. -/
theorem fixedLayout_compiled (hlive : cat.LiveFrom id) {l : Layout} (h : cat.fixedLayout id = .ok l) :
    cat.standsInItself id = false ∧ ∃ d, compileFields (layoutWithin (4 * cat.size + 3))
      (cat.schema id) .fixed ((Compiler.ofCatalog cat).putLayout (id, .fixed) .running) =
        .ok l.fields d := by
  have hflex : cat.standsInItself id = false := by
    rw [Bool.eq_false_iff, ne_eq, hlive.standsInItself_iff]
    intro hcircle
    rw [hlive.fixedLayout_of_circle hcircle] at h
    cases h
  refine ⟨hflex, ?_⟩
  -- nothing was answered before, so the layout is compiled
  have hcompile := layoutWithin_new (show
    (Compiler.ofCatalog cat).layouts.find? (id, .fixed) = none from rfl)
    (Prod.eta (outcome (compileLayout (layoutWithin (4 * cat.size + 3)) id .fixed)
      ((Compiler.ofCatalog cat).putLayout (id, .fixed) .running))).symm
  rw [Catalog.fixedLayout_eq, hcompile] at h
  have hneither : (LayoutKind.fixed.isFixed && cat.standsInItself id) = false := by
    rw [hflex, Bool.and_false]
  have hrun := outcome_eq_ok.mp (Prod.ext h rfl)
  obtain ⟨d, hfields⟩ := compileLayout_fields
    (c := (Compiler.ofCatalog cat).putLayout (id, .fixed) .running) hneither hrun
  exact ⟨d, hfields⟩

theorem length_forced_of_same {fields fields' : List BoundField}
    (h : List.Forall₂ SameField fields fields') :
    (fields.filter (·.encoding.isForced)).length = (fields'.filter (·.encoding.isForced)).length := by
  induction h with
  | nil => rfl
  | cons hfield _ ih =>
    simp only [List.filter_cons, hfield.encoding]
    split
    · rw [List.length_cons, List.length_cons, ih]
    · exact ih

/-- A draft takes as many widths as its schema. -/
theorem Catalog.Chooses.toDraft (hlive : cat.LiveFrom id) (h : cat.Chooses id widths)
    (himm : (cat.schema id).isImmutable = true) : cat.Chooses id.toDraft widths := by
  obtain ⟨l, hl, hlen⟩ := h
  -- a new compiler that has been asked for the layout knows that of the draft
  have hnew := Compiler.resting_ofCatalog hlive.toClosed
  have hrun := outcome_eq_ok.mp (Prod.ext hl rfl)
  obtain ⟨hret, -, hfaithful⟩ := Compiler.Request.run_keeps (r := .layout id .fixed) rfl hnew
    (Compiler.faithful_ofCatalog cat) trivial
  obtain ⟨hrest, -, hanswer⟩ := hnew.layout hrun
  have hcat : cat = (outcome (Compiler.layout id .fixed) (.ofCatalog cat)).2.catalog :=
    hret.catalog.symm
  have hlayout := hrest.good.layouts id .fixed l hanswer
  have hdraft := hlayout.draft
  rw [← hcat, if_pos himm] at hdraft
  obtain ⟨l', hl'⟩ := Option.isSome_iff_exists.mp hdraft.2
  have hsame : List.Forall₂ SameField l.fields l'.fields :=
    hlayout.fields.draft_agree hrest.good (hrest.good.layouts id.toDraft .fixed l' hl').fields
  refine ⟨l', ?_, ?_⟩
  · have hfixed := hfaithful.layouts id.toDraft _ (hret.catalog.symm ▸ hlive.toDraft)
      (Compiler.answer_eq_some.mp hl')
    rw [hret.catalog] at hfixed
    exact hfixed.symm
  · rw [hlen, Layout.forcedFields, length_forced_of_same hsame, Layout.forcedFields]

/-! ### Bindings and order -/

theorem Choosing.layout (hlive : cat.LiveFrom id) (h : Choosing cat keys depth id widths c) {t : SchemaId}
    (hst : cat.LeansOn id t) :
    Tells (Choosing cat keys depth id widths) (layoutWithin depth t .fixed) c (cat.fixedLayout t) := by
  have hallow : Allows cat keys (id, .varying widths) (t, .fixed) :=
    ⟨(h.covers.declared t (hlive.hasSchema_of_leansOn hst)).2, fun hkind => by cases hkind⟩
  have hahead := hlive.leansOn hst
  exact h.tells (settled hahead keys depth _ c h.toHonest hallow (h.clear hahead))
    (layoutWithin_obliging cat keys depth _ (t, .fixed) c hallow (Or.inr rfl) h.toWithin h.obliging)

theorem Choosing.placement (h : Choosing cat keys depth id widths c) {type : ValueType}
    (hlive : cat.LiveType type.key) (href : cat.Refers type) (rule : PlacementRule) :
    Tells (Choosing cat keys depth id widths)
      (placementWith (layoutWithin depth) type ((LayoutKind.varying widths).placementRule rule)) c
      (cat.fixedPlacement type.key) :=
  h.tells (placementWith_tells hlive h.toHonest rfl href
    (fun t ht => ⟨settled (hlive.held t ht), h.clear (hlive.held t ht)⟩)
    (h.placements _ _ rfl hlive))
    (placementWith_obliging (layoutWithin_obliging cat keys depth) h.toWithin h.obliging href _)

variable {keys' : Finset LayoutKey} {depth' : Nat}

/-- With chosen widths, the answers are those that the plain layout of fixed width is made from. -/
theorem layoutWithin_alike (hlive : cat.LiveFrom id) {t : SchemaId} {kind : LayoutKind}
    (h : AsksFixed cat id (t, kind)) :
    Alike (Choosing cat keys depth id widths) (Underway cat keys' depth' id)
      (layoutWithin depth t kind) (layoutWithin depth' t kind) (fun _ => True) fun _ => True := by
  obtain ⟨rfl, hst⟩ := h
  exact .of_tells (fun c h => h.layout hlive hst)
    (fun c h => h.layout hlive hst (settled (hlive.leansOn hst))) (fun _ _ => trivial)
    fun _ _ => trivial

/-- Fields are bound in the same way, whatever widths are chosen. -/
theorem bindFields_alike (hlive : cat.LiveFrom id) (hflex : cat.standsInItself id = false) :
    Alike (Choosing cat keys depth id widths) (Underway cat keys' depth' id)
      (bindFields (layoutWithin depth) (cat.schema id) (.varying widths) 0 (cat.schema id).fields)
      (bindFields (layoutWithin depth') (cat.schema id) .fixed 0 (cat.schema id).fields)
      (fun bs => ∀ b ∈ bs, ∀ key ∈ b.encoding.asks cat, AsksFixed cat id key) fun _ => True := by
  -- the schema does not stand in itself, so its fields lean on it without a circle
  have hacyclic : ¬Relation.TransGen cat.Embeds id id := fun hcircle => by
    rw [hlive.standsInItself_iff.mpr hcircle] at hflex
    cases hflex
  have hJ : Compatible cat fun act act' post fail => Alike (Choosing cat keys depth id widths)
      (Underway cat keys' depth' id) act act' post fail :=
    Alike.compatible (fun _ h => h.catalog) fun _ h => h.catalog
  have hsame : LayoutKind.fixed.isFixed = (LayoutKind.varying widths).isFixed := rfl
  refine hJ.bindFields (fun _ _ => trivial) (cat.schema id) hsame 0
    (fun _ _ _ ht => layoutWithin_alike hlive ht) fun f hf type rule hshape => ?_
  have href := hlive.refers hf hshape
  have hleans (t : SchemaId) (ht : cat.Holds type.key t) : cat.LeansOn id t :=
    Catalog.leansOn_of_field hacyclic hf hshape ht
  have htype := hlive.liveType hf hshape
  refine .of_tells (fun c h => h.placement htype href rule)
    (fun c h => h.placement htype href hleans (fun t ht => settled (hlive.leansOn ht)) rule)
    (fun p hp key hkey => ?_) fun _ _ => trivial
  obtain ⟨hkind, hholds⟩ := Catalog.fixedPlacement_asks hp key hkey
  exact ⟨hkind, hleans _ hholds⟩

theorem canonicalOrder_alike (hlive : cat.LiveFrom id) {bindings : List Binding}
    (hbindings : ∀ b ∈ bindings, ∀ key ∈ b.encoding.asks cat, AsksFixed cat id key) (s : Schema) :
    Alike (Choosing cat keys depth id widths) (Underway cat keys' depth' id)
      (canonicalOrder (layoutWithin depth) s bindings)
      (canonicalOrder (layoutWithin depth') s bindings) (fun _ => True) fun _ => True :=
  (Alike.compatible (fun _ h => h.catalog) fun _ h => h.catalog).canonicalOrder
    (fun _ _ ht => layoutWithin_alike hlive ht) hbindings s fun _ _ => trivial

theorem layoutWithin_keeps (hlive : cat.LiveFrom id) {t : SchemaId} {kind : LayoutKind}
    (h : AsksFixed cat id (t, kind)) :
    Keeps (Choosing cat keys depth id widths) (layoutWithin depth t kind)
      (layoutWithin depth t kind) (fun _ => True) fun _ => True := by
  intro c hc
  obtain ⟨rfl, hst⟩ := h
  have hallow : Allows cat keys (id, .varying widths) (t, .fixed) :=
    ⟨(hc.covers.declared t (hlive.hasSchema_of_leansOn hst)).2, fun hkind => by cases hkind⟩
  exact ⟨layoutWithin_asked hc ⟨hallow, Or.inr rfl⟩, fun _ _ _ => trivial⟩

/-- What one of two runs has succeeded with, the other one succeeds with. -/
theorem Alike.ends {α : Type} {good good' : Compiler → Prop} {act act' : CompileM α}
    {post : α → Prop} {fail : FormatError → Prop} (h : Alike good good' act act' post fail)
    {c c' d' : Compiler} (hc : good c) (hc' : good' c') {a : α} (hrun : act' c' = .ok a d') :
    good' d' ∧ Ends good act c (fun b _ => b = a ∧ post a) fun _ => False := by
  obtain ⟨result, ⟨d, hact, hd, hret⟩, ⟨e, hact', he, -⟩, hpost, -⟩ := h c c' hc hc'
  rw [outcome_of_ok hrun] at hact'
  cases hact'
  have hact := outcome_eq_ok.mp hact
  refine ⟨he, .of_ok hact hd hret ⟨rfl, hpost a rfl⟩, fun err d hfail => ?_⟩
  rw [hact] at hfail
  cases hfail

/-- With the right number of widths, the fields are completed. -/
theorem compileFields_chosen (hlive : cat.LiveFrom id) (hchooses : cat.Chooses id widths) :
    Keeps (Choosing cat keys depth id widths)
      (compileFields (layoutWithin depth) (cat.schema id) (.varying widths))
      (compileFields (layoutWithin depth) (cat.schema id) (.varying widths))
      (fun fields => ∀ f ∈ fields, ∀ key ∈ f.encoding.asks cat, AsksFixed cat id key)
      fun _ => False := by
  intro c h
  obtain ⟨l, hl, hlen⟩ := hchooses
  obtain ⟨hflex, d, hrun⟩ := fixedLayout_compiled hlive hl
  -- the plain layout is followed step by step: what it has bound and ordered is found again
  obtain ⟨bindings, c₁, order, c₂, hbind, horder, hforced⟩ := compileFields_fixed hrun
  obtain ⟨h₁, hbind⟩ := (bindFields_alike hlive hflex).ends h
    (underway_ofCatalog hlive.toClosed id) hbind
  rw [compileFields]
  refine hbind.bind fun bs d hd _ hbs => ?_
  obtain ⟨rfl, hbs⟩ := hbs
  refine ((canonicalOrder_alike hlive hbs _).ends hd h₁ horder).2.bind fun order' d hd _ ho => ?_
  obtain ⟨rfl, -⟩ := ho
  have hcount : (order'.filter fun slot => (bs.getD slot default).encoding.isForced).length =
      widths.length := by
    rw [← hforced, hlen, Layout.forcedFields]
  have hwidths : assignWidths (cat.schema id) bs order' widths = pure (assigned bs order' widths) :=
    if_pos hcount
  show Ends _ (assignWidths (cat.schema id) bs order' widths >>= _) d _ _
  rw [hwidths, pure_bind]
  exact (Keeps.compatible fun d (hd : Choosing cat keys depth id widths d) =>
    hd.catalog).finishWidened (fun _ _ ht => layoutWithin_keeps hlive ht) _ _ hbs
      (assigned_widens bs order' widths) d hd

/-- With the right number of widths, the layout is compiled. -/
theorem compileLayout_chosen (hlive : cat.LiveFrom id) (hchooses : cat.Chooses id widths)
    (hdraft : (cat.schema id).isImmutable = true → ∀ c, Choosing cat keys depth id widths c →
      (outcome (layoutWithin depth id.toDraft (.varying widths)) c).2.Obliging) :
    Keeps (Choosing cat keys depth id widths)
      (compileLayout (layoutWithin depth) id (.varying widths))
      (compileLayout (layoutWithin depth) id (.varying widths)) (fun _ => True) fun _ => False := by
  have hJ := Keeps.compatible fun d (hd : Choosing cat keys depth id widths d) => hd.catalog
  have hflex : ((LayoutKind.varying widths).isFixed && cat.standsInItself id) = false := by
    obtain ⟨l, hl, -⟩ := hchooses
    rw [(fixedLayout_compiled hlive hl).1, Bool.and_false]
  have hfields : Keeps (Choosing cat keys depth id widths) _ _ _ _ :=
    compileFields_chosen hlive hchooses
  have hdrafted (_ : True) (himm : (cat.schema id).isImmutable = true) :
      Keeps (Choosing cat keys depth id widths) (layoutWithin depth id.toDraft (.varying widths))
        (layoutWithin depth id.toDraft (.varying widths)) (fun _ => True) fun _ => False :=
    fun c h => (layoutWithin_draft h himm (hdraft himm c h)).imp (fun _ _ _ _ h => h)
      fun _ hnot => hnot hlive.toDraft (hchooses.toDraft hlive himm)
  exact hJ.mono (hJ.compileLayout_of_fields (fun _ _ ht => layoutWithin_keeps hlive ht) hflex
    (hJ.mono hfields fun _ h => ⟨trivial, h⟩) hdrafted) fun _ _ => trivial

/-- Asking for a layout with chosen widths keeps no wrong failure. -/
theorem layoutWithin_choosing (hallow : Allows cat keys cur (id, .varying widths))
    (h : Between cat keys depth cur c) (hobliging : c.Obliging)
    (hdraftrun : (cat.schema id).isImmutable = true →
      c.layouts.find? (id.toDraft, .varying widths) ≠ some .running)
    (hdraft : (cat.schema id).isImmutable = true → ∀ depth c, Choosing cat keys depth id widths c →
      (outcome (layoutWithin depth id.toDraft (.varying widths)) c).2.Obliging) :
    (outcome (layoutWithin depth id (.varying widths)) c).2.Obliging := by
  obtain ⟨depth, rfl⟩ : ∃ n, depth = n + 1 := ⟨depth - 1, by have := h.depth_pos; omega⟩
  refine layoutWithin_leaves hobliging fun hfind result d hrun => ?_
  -- the layout is marked as running, its draft is not
  have hne : (id.toDraft, LayoutKind.varying widths) ≠ (id, .varying widths) := fun heq =>
    Nat.succ_ne_self id.draft (congrArg (fun key : LayoutKey => key.1.draft) heq)
  have henter : Choosing cat keys depth id widths (c.putLayout (id, .varying widths) .running) := by
    refine ⟨h.enter (by rintro ⟨⟩) hallow hfind, hobliging.putLayout fun _ _ _ hslot => ?_,
      fun himm => ?_⟩
    · cases hslot
    · rw [Compiler.find?_putLayout_of_ne hne]
      exact hdraftrun himm
  have hkeeps := compileLayout_choosing (fun himm => hdraft himm depth) _ henter
  obtain ⟨hd, -⟩ := hkeeps.leads.of_outcome hrun
  -- a failure is kept only where the compilation fails, so with a wrong number of widths
  refine hd.obliging.putLayout fun widths' e hkind hslot hlive hchooses => ?_
  cases hkind
  cases hslot
  rw [hd.catalog] at hlive hchooses
  have hsucceeds := compileLayout_chosen hlive hchooses (fun himm => hdraft himm depth) _ henter
  exact hsucceeds.fails e _ (outcome_eq_error.mp hrun)

end

/-! ## Requests -/

namespace Compiler

variable {cat : Catalog} {c : Compiler}

/-- A compiler between requests that has kept neither a wrong answer nor a wrong failure. -/
structure Ready (cat : Catalog) (c : Compiler) : Prop where
  catalog : c.catalog = cat
  resting : c.Resting
  faithful : c.Faithful
  obliging : c.Obliging

theorem ready_ofCatalog (hclosed : cat.Closed) : Ready cat (ofCatalog cat) :=
  ⟨rfl, resting_ofCatalog hclosed, faithful_ofCatalog cat, obliging_ofCatalog cat⟩

/-- Whatever layout is asked for, no wrong failure is kept. -/
theorem Ready.layout_obliging (h : Ready cat c) (id : SchemaId) (kind : LayoutKind) :
    (outcome (Compiler.layout id kind) c).2.Obliging := by
  obtain ⟨rfl, hrest, hfaithful, hobliging⟩ := h
  have hallow : Allows c.catalog (everyLayout c.catalog (id, kind)) (id, kind) (id, kind) :=
    ⟨mem_everyLayout.mpr (Or.inl rfl), fun hkind => ⟨hkind, .refl⟩⟩
  have hin := hrest.between hfaithful (id, kind)
  rw [show outcome (Compiler.layout id kind) c =
    outcome (layoutWithin c.catalog.compileDepth id kind) c from by simp only [outcome, layout_eq]]
  cases kind with
  | standard => exact layoutWithin_obliging _ _ _ _ _ c hallow (Or.inl rfl) hin.toWithin hobliging
  | fixed => exact layoutWithin_obliging _ _ _ _ _ c hallow (Or.inr rfl) hin.toWithin hobliging
  | varying widths =>
    -- a draft has no draft of its own
    have hdraft (himm : (c.catalog.schema id).isImmutable = true) (depth : Nat) (d : Compiler)
        (hd : Choosing c.catalog (everyLayout c.catalog (id, .varying widths)) depth id widths d) :
        (outcome (layoutWithin depth id.toDraft (.varying widths)) d).2.Obliging := by
      have hallow' : Allows c.catalog (everyLayout c.catalog (id, .varying widths))
          (id, .varying widths) (id.toDraft, .varying widths) :=
        ⟨hd.covers.drafts id _ hd.mem himm, fun hkind => by cases hkind⟩
      refine layoutWithin_choosing hallow' hd.toBetween hd.obliging (fun himm' => ?_) fun himm' => ?_
      · cases Catalog.draft_eq_zero himm'
      · cases Catalog.draft_eq_zero himm'
    exact layoutWithin_choosing hallow hin hobliging (fun _ => hrest.running _) hdraft

theorem Request.run_ready (h : Ready cat c) {r : Request} (hr : r.Declared cat) :
    Ready cat (r.run c) := by
  obtain ⟨hret, hrest, hfaithful⟩ := Request.run_keeps h.catalog h.resting h.faithful hr
  refine ⟨hret.catalog.trans h.catalog, hrest, hfaithful, ?_⟩
  cases r with
  | layout id kind => exact h.layout_obliging id kind
  | placement type rule =>
    obtain ⟨rfl, hrest, -, hobliging⟩ := h
    have hsame : (Request.placement type rule).run c =
        (outcome (placementWith (layoutWithin c.catalog.compileDepth) type rule) c).2 := by
      simp only [run, outcome, placement_eq]
    rw [hsame]
    exact placementWith_obliging (layoutWithin_obliging _ _ _) (hrest.within (⟨0, 0⟩, .standard))
      hobliging hr rule

/-- After any requests, no wrong failure is kept. -/
theorem asked_ready (hclosed : cat.Closed) {requests : List Request}
    (hrequests : ∀ r ∈ requests, r.Declared cat) : Ready cat (asked cat requests) := by
  induction requests using List.reverseRecOn with
  | nil => exact ready_ofCatalog hclosed
  | append_singleton before r ih =>
    have hbefore := ih fun q hq => hrequests q (List.mem_append_left _ hq)
    rw [asked, List.foldl_concat]
    exact Request.run_ready hbefore
      (hrequests r (List.mem_append_right _ (List.mem_singleton_self r)))

/-- There is the layout with chosen widths if there is the plain one of fixed width and the widths are
as many as its numbers. -/
theorem Ready.layout_chosen {id : SchemaId} (hlive : cat.LiveFrom id) (h : Ready cat c)
    {widths : List Width} (hchooses : cat.Chooses id widths) :
    ∃ l d, Compiler.layout id (.varying widths) c = .ok l d ∧ Ready cat d := by
  have hnext := Request.run_ready (r := .layout id (.varying widths)) h trivial
  cases hrun : Compiler.layout id (.varying widths) c with
  | ok l d =>
    refine ⟨l, d, rfl, ?_⟩
    simpa only [Request.run, outcome_of_ok hrun] using hnext
  | error e d =>
    -- the failure would have been kept
    have hkept := @layoutWithin_kept (4 * c.catalog.size + 3) c id (.varying widths)
      (h.resting.running _)
    have hfail : outcome (layoutWithin (4 * c.catalog.size + 3 + 1) id (.varying widths)) c =
        (.error e, d) := outcome_of_error hrun
    simp only [Request.run, outcome_of_error hrun] at hnext
    rw [hfail] at hkept
    rw [← hnext.catalog] at hlive hchooses
    exact absurd hchooses (hnext.obliging _ _ e hlive hkept)

end Compiler

end RecordLayout
