import Mathlib
import RecordLayout.Proofs.Layout.History
import RecordLayout.Proofs.Layout.Redeclared

/-!
# Results that are final

A compilation that meets itself may fail, or see a size as unknown, only because something is still
being compiled. This cannot happen to a schema whose fields do not lead back to it: whatever is running
when its layout is compiled has led there, so nothing that the compilation asks for is running. What is
kept of such a schema is final: at any later time the same compilation would have the same result.

Main results:

* `Compiler.Towards.not_running` — what the compilation of a free schema asks for is not running;
* `Repeats.compatible` — a step that asks for nothing that is running can be repeated;
* `layoutWithin_conclusive` — what is kept of free schemas is final;
* `Compiler.asked_assured` — after any requests.
-/

namespace RecordLayout

/-! ## Schemas that name each other -/

namespace Catalog

/-- The type of a field of the first schema names the second one. -/
def Mentions (c : Catalog) (d e : Nat) : Prop :=
  ∃ f ∈ (c.schemas.getD d default).schema.fields, ∃ type rule,
    f.shape = .value type rule ∧ e ∈ c.names type.key

/-- The fields of a schema do not refer to it, not even by way of other types. -/
def Free (c : Catalog) (id : SchemaId) : Prop :=
  ¬Relation.TransGen c.Mentions id.declared id.declared

variable {c : Catalog}

/-- A schema mentions the types of its fields. -/
theorem mentions_of_field {id : SchemaId} {f : FieldDecl} (hf : f ∈ (c.schema id).fields)
    {type : ValueType} {rule : PlacementRule} (hshape : f.shape = .value type rule) {e : Nat}
    (he : e ∈ c.names type.key) : c.Mentions id.declared e := by
  rw [fields_schema] at hf
  exact ⟨f, hf, type, rule, hshape, he⟩

/-- A schema that stands in itself refers to itself. -/
theorem Free.not_standsInItself {id : SchemaId} (h : c.Free id) : c.standsInItself id = false := by
  rw [Bool.eq_false_iff]
  intro hin
  -- what is embedded is mentioned
  have hstep {s t : SchemaId} (ht : t ∈ c.embeds s) : c.Mentions s.declared t.declared := by
    obtain ⟨f, hf, hembedded⟩ := List.mem_filterMap.mp ht
    unfold embedded? at hembedded
    split at hembedded
    · rename_i w rule hshape
      cases hembedded
      exact mentions_of_field hf hshape (List.mem_singleton.mpr rfl)
    · rename_i type rule _ hshape
      rw [Option.filter_eq_some_iff] at hembedded
      refine mentions_of_field hf hshape ?_
      have hnamed := hembedded.1
      unfold schemaOf? at hnamed
      split at hnamed
      · cases hnamed
        exact List.mem_singleton.mpr rfl
      · split at hnamed
        · cases hnamed
          exact List.mem_singleton.mpr rfl
        · cases hnamed
      · cases hnamed
    · cases hembedded
  rw [standsInItself, List.contains_iff_mem] at hin
  rcases reach_sound hin with hseen | ⟨first, hfirst, hpath⟩
  · exact List.not_mem_nil hseen
  · refine h (.head' (hstep hfirst) ?_)
    exact hpath.lift SchemaId.declared fun _ _ => hstep

end Catalog

/-- The layouts that a placement depends on are those of schemas that the type names. -/
theorem PlacementGood.names {c : Compiler} {key : TypeKey} {rule : PlacementRule} {p : Placement}
    (h : PlacementGood c key rule p) :
    ∀ k ∈ p.asks c.catalog, k.1.declared ∈ c.catalog.names key := by
  intro k hk
  have hmem : rule.isFixed = true ∨ rule.isFixed = false := by
    cases rule.isFixed <;> simp
  rcases hmem with hrule | hrule
  · -- a fixed rule asks for the layout of what the type holds, if for any
    have hfor := (h.fixed hrule).1
    cases key with
    | wrapper id =>
      obtain rfl : p = _ := hfor
      rw [List.mem_singleton.mp hk]
      exact List.mem_singleton.mpr rfl
    | record id =>
      unfold Placement.FixedFor at hfor
      dsimp only at hfor
      split at hfor
      · subst hfor
        cases hk
      · rcases hfor with rfl | rfl
        · rw [List.mem_singleton.mp hk]
          exact List.mem_singleton.mpr rfl
        · cases hk
    | _ =>
      obtain rfl : p = _ := hfor
      cases hk
  · -- any other rule may ask for those of all variants of a choice
    obtain rfl := h.flexible hrule
    cases key with
    | wrapper id =>
      rw [List.mem_singleton.mp hk]
      exact List.mem_singleton.mpr rfl
    | choice id =>
      obtain ⟨v, hv, rfl⟩ := List.mem_map.mp hk
      exact List.mem_map.mpr ⟨v, hv, rfl⟩
    | record id =>
      unfold Placement.flexible at hk
      dsimp only at hk
      split at hk
      · cases hk
      · rw [List.mem_singleton.mp hk]
        exact List.mem_singleton.mpr rfl
    | _ => cases hk

/-! ## What is running -/

/-- A schema leads to another one, or to its own draft. -/
def Catalog.LeadsTo (c : Catalog) (s id : SchemaId) : Prop :=
  Relation.TransGen c.Mentions s.declared id.declared ∨ s.declared = id.declared ∧ s.draft ≤ id.draft

/-- Whatever is running has led to a schema. -/
structure Compiler.Towards (c : Compiler) (id : SchemaId) : Prop where
  layouts : ∀ s kind, c.layouts.find? (s, kind) = some .running → c.catalog.LeadsTo s id
  placements : ∀ key rule, c.placements.find? (key, rule) = some .running →
    ∃ d ∈ c.catalog.names key, Relation.ReflTransGen c.catalog.Mentions d id.declared

namespace Compiler.Towards

variable {c c' : Compiler} {id t : SchemaId} {kind : LayoutKind}

/-- At rest nothing is being compiled on the way to a layout. -/
theorem of_resting (h : c.Resting) (id : SchemaId) : c.Towards id :=
  ⟨fun _ _ hrun => absurd hrun (h.running _), fun _ _ hrun => absurd hrun (h.placing _)⟩

/-- What is on the way stays so after a request. -/
theorem returns (h : c.Towards id) (hret : c.Returns c') : c'.Towards id := by
  refine ⟨fun s kind hrun => ?_, fun key rule hrun => ?_⟩
  · rw [hret.catalog]
    exact h.layouts s kind ((hret.running _).mp hrun)
  · rw [hret.catalog]
    exact h.placements key rule ((hret.placing _).mp hrun)

/-- One step further. -/
theorem mention (h : c.Towards id) (hm : c.catalog.Mentions id.declared t.declared) :
    c.Towards t := by
  refine ⟨fun s kind hrun => Or.inl ?_, fun key rule hrun => ?_⟩
  · rcases h.layouts s kind hrun with hpath | ⟨hsame, -⟩
    · exact hpath.tail hm
    · rw [hsame]
      exact .single hm
  · obtain ⟨d, hd, hpath⟩ := h.placements key rule hrun
    exact ⟨d, hd, hpath.tail hm⟩

/-- On the way to a layout is on the way to its draft's. -/
theorem toDraft (h : c.Towards id) : c.Towards id.toDraft := by
  refine ⟨fun s kind hrun => ?_, h.placements⟩
  rcases h.layouts s kind hrun with hpath | ⟨hsame, hle⟩
  · exact Or.inl hpath
  · exact Or.inr ⟨hsame, Nat.le_succ_of_le hle⟩

/-- Marking a layout is a step on its own way. -/
theorem enter (h : c.Towards id) : (c.putLayout (id, kind) .running).Towards id := by
  refine ⟨fun s kind' hrun => ?_, h.placements⟩
  by_cases heq : (s, kind') = (id, kind)
  · cases heq
    exact Or.inr ⟨rfl, Nat.le_refl _⟩
  · rw [find?_putLayout_of_ne heq] at hrun
    exact h.layouts s kind' hrun

/-- Marking a placement is a step on the way to what it mentions. -/
theorem enterPlacement (h : c.Towards id) {key : TypeKey} (hkey : id.declared ∈ c.catalog.names key)
    (rule : PlacementRule) : (c.putPlacement (key, rule) .running).Towards id := by
  refine ⟨h.layouts, fun other rule' hrun => ?_⟩
  by_cases heq : (other, rule') = (key, rule)
  · cases heq
    exact ⟨_, hkey, .refl⟩
  · rw [find?_putPlacement_of_ne heq] at hrun
    exact h.placements other rule' hrun

/-- What the fields of a free schema name is not running. -/
theorem not_running (h : c.Towards id) (hfree : c.catalog.Free id)
    (hm : c.catalog.Mentions id.declared t.declared) :
    c.layouts.find? (t, kind) ≠ some .running := by
  intro hrun
  rcases h.layouts t kind hrun with hpath | ⟨hsame, -⟩
  · exact hfree (.head hm hpath)
  · rw [hsame] at hm
    exact hfree (.single hm)

/-- A draft that is free is not being compiled. -/
theorem draft_not_running (h : c.Towards id) (hfree : c.catalog.Free id) :
    c.layouts.find? (id.toDraft, kind) ≠ some .running := by
  intro hrun
  rcases h.layouts _ kind hrun with hpath | ⟨-, hle⟩
  · exact hfree hpath
  · exact Nat.not_succ_le_self _ hle

/-- The types of the fields of a free schema are not being placed. -/
theorem not_placing (h : c.Towards id) (hfree : c.catalog.Free id) {f : FieldDecl}
    (hf : f ∈ (c.catalog.schema id).fields) {type : ValueType} {rule : PlacementRule}
    (hshape : f.shape = .value type rule) (rule' : PlacementRule) :
    c.placements.find? (type.key, rule') ≠ some .running := by
  intro hrun
  obtain ⟨d, hd, hpath⟩ := h.placements _ _ hrun
  exact hfree (.head' (Catalog.mentions_of_field hf hshape hd) hpath)

end Compiler.Towards

/-! ## Steps that can be repeated -/

/-- A step keeps the contract. If nothing is in its way, then at any later time it has the same result
and changes nothing. -/
def Repeats (good : Compiler → Prop) (free : Prop) {α : Type} (act act' : CompileM α)
    (post : α → Prop) (fail : FormatError → Prop) : Prop :=
  ∀ c, good c → Ends good act c (fun a _ => post a) fail ∧
    (free → ∀ c', (outcome act c).2.Grows c' → outcome act' c' = ((outcome act c).1, c'))

/-- Repeating is a judgement. -/
theorem Repeats.compatible {cat : Catalog} {good : Compiler → Prop} {free : Prop}
    (hcat : ∀ c, good c → c.catalog = cat) : Compatible cat (Repeats good free) where
  pure hpost := fun c hc => ⟨⟨.pure hc hpost, fun _ _ hrun => by cases hrun⟩, fun _ _ _ => rfl⟩
  throw hfail := fun c hc =>
    ⟨⟨.throw hc, fun _ _ hrun => by cases hrun; exact hfail⟩, fun _ _ _ => rfl⟩
  followed h hnext hhandle := by
    intro c hc
    obtain ⟨hends, hagain⟩ := h c hc
    refine ⟨hends.followed (fun a d hd _ ha => (hnext a ha d hd).1)
      fun e d hd he => (hhandle e he d hd).1, fun hfree c' hgrows => ?_⟩
    -- the first step is repeated, then what comes after it
    generalize hout : outcome _ c = out at hagain
    obtain ⟨result, d⟩ := out
    cases result with
    | ok a =>
      rw [outcome_followed_ok hout] at hgrows ⊢
      obtain ⟨hd, -, ha⟩ := hends.leads.ok (outcome_eq_ok.mp hout)
      obtain ⟨hthen, hlast⟩ := hnext a ha d hd
      have hfirst := hagain hfree c' ((hthen.leads.of_outcome rfl).2.toGrows.trans hgrows)
      rw [outcome_followed_ok hfirst]
      exact hlast hfree c' hgrows
    | error e =>
      rw [outcome_followed_error hout] at hgrows ⊢
      have hfailed := outcome_eq_error.mp hout
      obtain ⟨hthen, hlast⟩ := hhandle e (hends.fails e d hfailed) d (hends.leads.error hfailed).1
      have hfirst := hagain hfree c' ((hthen.leads.of_outcome rfl).2.toGrows.trans hgrows)
      rw [outcome_followed_error hfirst]
      exact hlast hfree c' hgrows
  catalog := by
    intro fail c hc
    refine ⟨⟨(Leads.theCatalog hc).mono fun a _ _ _ ha => ha.2.trans (hcat c hc),
      fun _ _ hrun => by cases hrun⟩, fun _ c' hgrows => ?_⟩
    show (Except.ok c'.catalog, c') = (Except.ok c.catalog, c')
    rw [show c'.catalog = c.catalog from hgrows.catalog]

/-! ## Final results -/

namespace Compiler

/-- What is kept of free schemas is final. -/
def Conclusive (c : Compiler) : Prop :=
  ∀ id kind result, c.catalog.Free id → c.layouts.find? (id, kind) = some (.done result) →
    ∀ c', c.Grows c' → outcome (compileLayout layout id kind) c' = (result, c')

variable {c c' : Compiler}

theorem conclusive_ofCatalog (cat : Catalog) : (ofCatalog cat).Conclusive :=
  fun _ _ _ _ hdone => by cases hdone

/-- What is kept next must be final. -/
theorem Conclusive.putLayout (h : c.Conclusive) {key : LayoutKey}
    {slot : MemoSlot FormatError Layout} (hopen : c.Open key)
    (hslot : ∀ result, slot = .done result → c.catalog.Free key.1 →
      ∀ c', c.Grows c' → outcome (compileLayout layout key.1 key.2) c' = (result, c')) :
    (c.putLayout key slot).Conclusive := by
  have hgrows : c.Grows (c.putLayout key slot) := grows_putLayout hopen
  intro id kind result hfree hdone c' hc'
  by_cases heq : (id, kind) = key
  · subst heq
    rw [find?_putLayout_self] at hdone
    exact hslot result (Option.some.inj hdone) hfree c' (hgrows.trans hc')
  · rw [find?_putLayout_of_ne heq] at hdone
    exact h id kind result hfree hdone c' (hgrows.trans hc')

/-- A compiler stays conclusive when a placement is put. -/
theorem Conclusive.putPlacement (h : c.Conclusive) {key : TypeKey × PlacementRule}
    {slot : MemoSlot FormatError Placement} (hopen : c.OpenPlacement key) :
    (c.putPlacement key slot).Conclusive :=
  fun id kind result hfree hdone c' hc' =>
    h id kind result hfree hdone c' ((grows_putPlacement hopen).trans hc')

end Compiler

/-! ## Asking -/

section

variable {cat : Catalog} {keys : Finset LayoutKey} {depth : Nat} {cur : LayoutKey} {c : Compiler}

/-- What a layout was asked for with is kept, unless it is being compiled. -/
theorem layoutWithin_kept {id : SchemaId} {kind : LayoutKind}
    (hrun : c.layouts.find? (id, kind) ≠ some .running) :
    (outcome (layoutWithin (depth + 1) id kind) c).2.layouts.find? (id, kind) =
      some (.done (outcome (layoutWithin (depth + 1) id kind) c).1) := by
  cases hfind : c.layouts.find? (id, kind) with
  | some slot =>
    cases slot with
    | running => exact absurd hfind hrun
    | done result =>
      rw [layoutWithin_done hfind]
      exact hfind
  | none =>
    rw [layoutWithin_new hfind rfl]
    exact Compiler.find?_putLayout_self

/-- A layout that was answered is answered the same. -/
theorem layout_done {id : SchemaId} {kind : LayoutKind} {result : Except FormatError Layout}
    (hdone : c.layouts.find? (id, kind) = some (.done result)) :
    outcome (Compiler.layout id kind) c = (result, c) := by
  rw [outcome, Compiler.layout_eq, ← outcome, Catalog.compileDepth]
  exact layoutWithin_done hdone

/-- What a placement was asked for with is kept, unless it is being chosen. -/
theorem placementWith_kept {layoutOf : LayoutOf} {type : ValueType} {rule : PlacementRule}
    (hrun : c.placements.find? (type.key, rule) ≠ some .running) :
    (outcome (placementWith layoutOf type rule) c).2.placements.find? (type.key, rule) =
      some (.done (outcome (placementWith layoutOf type rule) c).1) := by
  -- an answer given before is kept, any other is put
  cases hfind : c.placements.find? (type.key, rule) with
  | some slot =>
    cases slot with
    | running => exact absurd hfind hrun
    | done result =>
      rw [placementWith_done hfind]
      exact hfind
  | none =>
    cases hresolve : c.catalog.resolve type with
    | error e =>
      rw [placementWith_unresolved hfind hresolve]
      exact Compiler.find?_putPlacement_self
    | ok resolved =>
      rw [placementWith_new hfind hresolve rfl]
      exact Compiler.find?_putPlacement_self

/-! ## Compilations keep final results -/

/-- Asking for a layout from within keeps final results. -/
def Concludes (cat : Catalog) (keys : Finset LayoutKey) (depth : Nat) : Prop :=
  ∀ cur key c, Allows cat keys cur key → Within cat keys depth cur c → c.Conclusive →
    c.Towards key.1 → (outcome (layoutWithin depth key.1 key.2) c).2.Conclusive

/-- A compiler inside the compilation of a layout, which has kept final results only. What is running
has led to some schemas. -/
structure Judging (cat : Catalog) (keys : Finset LayoutKey) (depth : Nat) (cur : LayoutKey)
    (next : SchemaId → Prop) (c : Compiler) : Prop extends Within cat keys depth cur c where
  conclusive : c.Conclusive
  towards : ∀ t, next t → c.Towards t

variable {next : SchemaId → Prop}

/-- What leads is judged in a conclusive compiler. -/
theorem Judging.leads {α : Type} {act : CompileM α} {post : α → Compiler → Prop}
    (h : Judging cat keys depth cur next c) (hleads : Leads (Within cat keys depth cur) act c post)
    (hconclusive : (outcome act c).2.Conclusive) :
    Leads (Judging cat keys depth cur next) act c post :=
  hleads.strengthen fun hwithin hret =>
    ⟨hwithin, hconclusive, fun t ht => (h.towards t ht).returns hret⟩

/-- A layout that is not running is asked for from within. -/
theorem layoutWithin_repeats (hconcludes : Concludes cat keys depth) {free : Prop} {key : LayoutKey}
    (hallow : Allows cat keys cur key)
    (htowards : ∀ c, Judging cat keys depth cur next c → c.Towards key.1)
    (hrun : free → ∀ c, Judging cat keys depth cur next c →
      c.layouts.find? key ≠ some .running) :
    Repeats (Judging cat keys depth cur next) free (layoutWithin depth key.1 key.2)
      (Compiler.layout key.1 key.2) (fun _ => True) fun _ => True := by
  intro c h
  refine ⟨⟨h.leads (((layoutWithin_serves cat keys depth cur key hallow).leads h.toWithin).mono
    fun _ _ _ _ _ => trivial) ?_, fun _ _ _ => trivial⟩, fun hfree c' hgrows => ?_⟩
  · exact hconcludes cur key c hallow h.toWithin h.conclusive (htowards c h)
  · obtain ⟨depth, rfl⟩ : ∃ n, depth = n + 1 := ⟨depth - 1, by have := h.depth_pos; omega⟩
    exact layout_done (hgrows.layouts _ _ (layoutWithin_kept (hrun hfree c h)))

/-- A placement's request keeps the compiler conclusive. -/
theorem placementWith_conclusive (hconcludes : Concludes cat keys depth)
    (h : Within cat keys depth cur c) (hconclusive : c.Conclusive) {type : ValueType}
    (href : cat.Refers type) (htowards : ∀ t, t.declared ∈ cat.names type.key → c.Towards t)
    (rule : PlacementRule) :
    (outcome (placementWith (layoutWithin depth) type rule) c).2.Conclusive := by
  have hcat := h.catalog
  subst hcat
  have hstart (hfind : c.placements.find? (type.key, rule) = none) :
      (c.putPlacement (type.key, rule) .running).Conclusive :=
    hconclusive.putPlacement fun r hr => by
      rw [hfind] at hr
      cases hr
  -- whatever is kept of the placement in the end
  have hkeep {d : Compiler} (hd : d.Conclusive)
      (hrun : d.placements.find? (type.key, rule) = some .running)
      (result : Except FormatError Placement) :
      (d.putPlacement (type.key, rule) (.done result)).Conclusive :=
    hd.putPlacement fun r hr => by
      rw [hrun] at hr
      cases hr
  refine placementWith_leaves hconclusive
    (fun hfind e _ => hkeep (hstart hfind) Compiler.find?_putPlacement_self _)
    fun hfind resolved result d hresolve hrun => ?_
  obtain ⟨hkey, hrefers⟩ := Catalog.resolve_key hresolve
  have hin : Judging c.catalog keys depth cur (fun t => t.declared ∈ c.catalog.names type.key)
      (c.putPlacement (type.key, rule) .running) :=
    ⟨h.enterPlacement hfind, hstart hfind, fun t ht => (htowards t ht).enterPlacement ht rule⟩
  have hJ : Compatible c.catalog (Repeats (Judging c.catalog keys depth cur
      fun t => t.declared ∈ c.catalog.names type.key) False) :=
    Repeats.compatible fun d hd => hd.catalog
  have hask (id : SchemaId) (hid : c.catalog.HasSchema id)
      (hname : id.declared ∈ c.catalog.names resolved.key) :
      Repeats (Judging c.catalog keys depth cur fun t => t.declared ∈ c.catalog.names type.key)
        False (layoutWithin depth id .fixed) (Compiler.layout id .fixed) (fun _ => True)
        fun _ => True :=
    layoutWithin_repeats hconcludes
      ⟨(h.covers.declared id hid).2, fun hkind => by cases hkind⟩
      (fun d hd => hd.towards id (hkey ▸ hname)) False.elim
  have hplace := hJ.place h.good.closed hask (hrefers href) rule
  obtain ⟨hd, hret⟩ := (hplace _ hin).1.leads.of_outcome hrun
  exact hkeep hd.conclusive ((hret.placing _).mpr Compiler.find?_putPlacement_self) _

/-- The layouts that the compilation of a layout asks for. -/
structure AsksFor (cat : Catalog) (keys : Finset LayoutKey) (cur key : LayoutKey) : Prop where
  allows : Allows cat keys cur key
  mentions : cat.Mentions cur.1.declared key.1.declared

/-- The compilation of a free schema can be repeated. -/
theorem compileLayout_repeats (hconcludes : Concludes cat keys depth) {id : SchemaId}
    {kind : LayoutKind} : Repeats (Judging cat keys depth (id, kind) (· = id)) (cat.Free id)
      (compileLayout (layoutWithin depth) id kind) (compileLayout Compiler.layout id kind)
      (fun _ => True) fun _ => True := by
  have hask (t : SchemaId) (kind' : LayoutKind) (hasked : AsksFor cat keys (id, kind) (t, kind')) :
      Repeats (Judging cat keys depth (id, kind) (· = id)) (cat.Free id) (layoutWithin depth t kind')
        (Compiler.layout t kind') (fun _ => True) fun _ => True := by
    refine layoutWithin_repeats hconcludes hasked.allows (fun d hd => ?_) fun hfree d hd => ?_
    · have hmention := hasked.mentions
      rw [← hd.catalog] at hmention
      exact (hd.towards id rfl).mention hmention
    · have hmention := hasked.mentions
      rw [← hd.catalog] at hmention hfree
      exact (hd.towards id rfl).not_running hfree hmention
  refine (Repeats.compatible fun d hd => hd.catalog).compileLayout (fun _ _ => trivial) hask
    (fun _ _ => trivial) (fun _ f hf type rule hshape c h => ?_) fun _ himm c h => ?_
  · -- the placements of the fields
    have hcat := h.catalog
    subst hcat
    have href := h.good.closed.refers hf hshape
    refine ⟨⟨h.leads ((placementWith_leads (layoutWithin_serves _ _ _ _) h.toWithin
      fun _ => href).mono fun p d hd _ hp => ?_) ?_, fun _ _ _ => trivial⟩, fun hfree c' hgrows => ?_⟩
    · intro key hkey
      refine ⟨hd.allows_placed hf hshape hp key hkey, ?_⟩
      have hnames := (hd.good.placements _ _ _ hp).names
      rw [hd.catalog] at hnames
      exact Catalog.mentions_of_field hf hshape (hnames key hkey)
    · exact placementWith_conclusive hconcludes h.toWithin h.conclusive href
        (fun t ht => (h.towards id rfl).mention (Catalog.mentions_of_field hf hshape ht)) _
    · have hrun := (h.towards id rfl).not_placing hfree hf hshape (kind.placementRule rule)
      exact placementWith_done (hgrows.placements _ _ (placementWith_kept hrun))
  · -- the layout of the draft
    have hallow : Allows cat keys (id, kind) (id.toDraft, kind) :=
      ⟨h.covers.drafts id kind h.mem himm, fun hkind => ⟨hkind, .refl⟩⟩
    have htowards {d : Compiler} (hd : Judging cat keys depth (id, kind) (· = id) d) :
        d.Towards id := hd.towards id rfl
    refine layoutWithin_repeats hconcludes hallow (fun d hd => (htowards hd).toDraft)
      (fun hfree d hd => ?_) c h
    rw [← hd.catalog] at hfree
    exact (htowards hd).draft_not_running hfree

/-- Every compilation keeps final results of free schemas. -/
theorem layoutWithin_conclusive (cat : Catalog) (keys : Finset LayoutKey) (depth : Nat) :
    Concludes cat keys depth := by
  induction depth with
  | zero => exact fun cur key c _ h => absurd h.depth_pos (Nat.lt_irrefl 0)
  | succ depth ih =>
    intro cur key c hallow h hconclusive htowards
    obtain ⟨id, kind⟩ := key
    have hcat := h.catalog
    subst hcat
    refine layoutWithin_leaves hconclusive fun hfind result d hrun => ?_
    have hopen : c.Open (id, kind) := fun r hr => by
      rw [hfind] at hr
      cases hr
    have hin : Judging c.catalog keys depth (id, kind) (· = id)
        (c.putLayout (id, kind) .running) := by
      refine ⟨h.enter hallow hfind, hconclusive.putLayout hopen fun r hr => ?_, fun t ht => ?_⟩
      · cases hr
      · subst ht
        exact htowards.enter
    obtain ⟨hends, hagain⟩ := compileLayout_repeats ih _ hin
    obtain ⟨hd, hret⟩ := hends.leads.of_outcome hrun
    refine hd.conclusive.putLayout (fun r hr => ?_) fun result hresult hfree => ?_
    · rw [(hret.running _).mpr Compiler.find?_putLayout_self] at hr
      cases hr
    · -- the result that is kept would come out again
      cases hresult
      rw [hd.catalog] at hfree
      rw [hrun] at hagain
      exact hagain hfree

end

/-! ## Requests -/

namespace Compiler

variable {cat : Catalog} {c c' : Compiler}

/-- A compiler between requests that has kept final results only. -/
structure Assured (cat : Catalog) (c : Compiler) : Prop where
  catalog : c.catalog = cat
  resting : c.Resting
  conclusive : c.Conclusive

theorem assured_ofCatalog (hclosed : cat.Closed) : Assured cat (ofCatalog cat) :=
  ⟨rfl, resting_ofCatalog hclosed, conclusive_ofCatalog cat⟩

/-- After a request all results are still final. -/
theorem Request.run_assured (h : Assured cat c) {r : Request} (hr : r.Declared cat) :
    c.Returns (r.run c) ∧ Assured cat (r.run c) := by
  obtain ⟨rfl, hrest, hconclusive⟩ := h
  obtain ⟨hret, hrest'⟩ := Request.run_resting hrest hr
  -- a layout's request runs with the full depth, a placement's asks for layouts itself
  refine ⟨hret, hret.catalog, hrest', ?_⟩
  cases r with
  | layout id kind =>
    have hallow : Allows c.catalog (everyLayout c.catalog (id, kind)) (id, kind) (id, kind) :=
      ⟨mem_everyLayout.mpr (Or.inl rfl), fun hkind => ⟨hkind, .refl⟩⟩
    have hsame : (Request.layout id kind).run c =
        (outcome (layoutWithin c.catalog.compileDepth id kind) c).2 := by
      simp only [run, outcome, layout_eq]
    rw [hsame]
    have hend := layoutWithin_conclusive _ _ _ _ _ c hallow (hrest.within (id, kind)) hconclusive
      (.of_resting hrest id)
    exact hend
  | placement type rule =>
    have hsame : (Request.placement type rule).run c =
        (outcome (placementWith (layoutWithin c.catalog.compileDepth) type rule) c).2 := by
      simp only [run, outcome, placement_eq]
    rw [hsame]
    exact placementWith_conclusive (layoutWithin_conclusive _ _ _) (hrest.within (⟨0, 0⟩, .standard))
      hconclusive hr (fun t _ => .of_resting hrest t) rule

/-- Any run of declared requests keeps the compiler assured. -/
theorem foldl_assured {requests : List Request} (hrequests : ∀ r ∈ requests, r.Declared cat)
    (h : Assured cat c) :
    c.Grows (requests.foldl Request.run c) ∧ Assured cat (requests.foldl Request.run c) := by
  induction requests generalizing c with
  | nil => exact ⟨.refl c, h⟩
  | cons r rest ih =>
    obtain ⟨hret, hrun⟩ := Request.run_assured h (hrequests r List.mem_cons_self)
    obtain ⟨hgrows, hlast⟩ := ih (fun q hq => hrequests q (List.mem_cons_of_mem _ hq)) hrun
    exact ⟨hret.toGrows.trans hgrows, hlast⟩

/-- After any requests, what is kept of free schemas is final. -/
theorem asked_assured (hclosed : cat.Closed) {requests : List Request}
    (hrequests : ∀ r ∈ requests, r.Declared cat) : Assured cat (asked cat requests) :=
  (foldl_assured hrequests (assured_ofCatalog hclosed)).2

end Compiler

end RecordLayout
