import Mathlib
import RecordLayout.Proofs.Layout.Running

/-!
# Compiling yields good layouts

Each step of a compilation is followed through `Leads`, up to `layoutWithin_spec`: asking for a
layout leaves a good compiler, whatever is being compiled already, and never runs out of depth.

Main results:

* `place_leads`, `bindFields_leads`, `canonicalOrder_leads` — placements, encodings and the order;
* `compileLayout_leads` — one layout;
* `layoutWithin_spec` — the layouts that compilations ask for.
-/

namespace RecordLayout

/-- Every layout that the compilation of `cur` may ask for is answered. -/
def Serves (cat : Catalog) (keys : Finset LayoutKey) (depth : Nat) (cur : LayoutKey)
    (layoutOf : LayoutOf) : Prop :=
  ∀ key, Allows cat keys cur key → Answers (Within cat keys depth cur) layoutOf key

section

variable {cat : Catalog} {keys : Finset LayoutKey} {depth : Nat} {cur : LayoutKey}
  {layoutOf : LayoutOf} {c : Compiler}

/-! ## Questions about layouts -/

/-- The size of a field, while its layout is compiled. -/
theorem Serves.size (hserve : Serves cat keys depth cur layoutOf)
    (h : Within cat keys depth cur c) {e : Encoding} (ha : Asks c cur e) :
    Leads (Within cat keys depth cur) (e.size layoutOf) c fun size c' => c'.Sized e size := by
  obtain ⟨c', hrun, hgood, hret, hset⟩ :=
    Encoding.size_spec h fun key hkey => hserve key (h.allows ha hkey)
  refine .of_ok hrun hgood hret ?_
  refine hgood.sized (ha.grows hret.toGrows) ?_
  rwa [hret.catalog]

/-- Whether a field holds references, while its layout is compiled. -/
theorem Serves.holdsChunks (hserve : Serves cat keys depth cur layoutOf)
    (h : Within cat keys depth cur c) {e : Encoding} (ha : Asks c cur e) :
    Leads (Within cat keys depth cur) (e.holdsChunks layoutOf) c
      fun holds c' => holds = e.holdsIn c' := by
  obtain ⟨c', hrun, hgood, hret⟩ :=
    Encoding.holdsChunks_spec h fun key hkey => hserve key (h.allows ha hkey)
  exact .of_ok hrun hgood hret rfl

/-! ## Placements -/

theorem placeFixedRecord_leads (hserve : Serves cat keys depth cur layoutOf)
    (h : Within cat keys depth cur c) {id : SchemaId} (hid : cat.HasSchema id) :
    Leads (Within cat keys depth cur) (placeFixedRecord layoutOf id) c fun p c' =>
      (p = .fixedRecord id ∧ (c'.answer (id, .fixed)).isSome) ∨ p = .chunkRecord id := by
  have hallow : Allows cat keys cur (id, .fixed) :=
    ⟨(h.covers.declared id hid).2, fun h => nomatch h⟩
  obtain ⟨c', hgood, hret, ⟨l, hrun, hl⟩ | ⟨e, hrun, -⟩⟩ := hserve _ hallow c h
  · refine .of_ok (a := .fixedRecord id) ?_ hgood hret (Or.inl ⟨rfl, by rw [hl]; rfl⟩)
    simp only [placeFixedRecord, hrun]
  · by_cases hsoft : (e.isLayout || e.isRecursive) = true
    · refine .of_ok (a := .chunkRecord id) ?_ hgood hret (Or.inr rfl)
      simp only [placeFixedRecord, hrun, hsoft, if_true]
    · refine .of_error (e := e) ?_ hgood hret
      simp only [placeFixedRecord, hrun, hsoft]
      rfl

theorem placeFixedWrapper_leads (hserve : Serves cat keys depth cur layoutOf)
    (h : Within cat keys depth cur c) {id : WrapperId} {w : Wrapper}
    (hid : cat.HasSchema w.carrier) :
    Leads (Within cat keys depth cur) (placeFixedWrapper layoutOf id w) c fun p c' =>
      p = .wrapped id w.carrier .fixed ∧ (c'.answer (w.carrier, .fixed)).isSome := by
  have hallow : Allows cat keys cur (w.carrier, .fixed) :=
    ⟨(h.covers.declared _ hid).2, fun h => nomatch h⟩
  obtain ⟨c', hgood, hret, ⟨l, hrun, hl⟩ | ⟨e, hrun, -⟩⟩ := hserve _ hallow c h
  · refine .of_ok (a := .wrapped id w.carrier .fixed) ?_ hgood hret ⟨rfl, by rw [hl]; rfl⟩
    simp only [placeFixedWrapper, hrun]
  · have hfail : placeFixedWrapper layoutOf id w c =
        .error (if e.isLayout || e.isRecursive then .fixedUnsupported w.name e else e) c' := by
      simp only [placeFixedWrapper, hrun]
    exact .of_error hfail hgood hret

/-- A placement that asks for nothing fits if its shape does. -/
theorem PlacementGood.of_flexible {key : TypeKey} {rule : PlacementRule} {p : Placement}
    (hrule : rule.isFixed = false) (hp : p = Placement.flexible c.catalog key) :
    PlacementGood c key rule p :=
  ⟨fun _ => hp, fun hfixed => absurd (hrule.symm.trans hfixed) Bool.false_ne_true⟩

theorem PlacementGood.of_fixed {key : TypeKey} {rule : PlacementRule} {p : Placement}
    (hrule : rule.isFixed = true) (hp : p.FixedFor c.catalog key)
    (hknown : ∀ k ∈ p.asks c.catalog, (c.answer k).isSome) : PlacementGood c key rule p :=
  ⟨fun hflex => absurd (hflex.symm.trans hrule) Bool.false_ne_true, fun _ => ⟨hp, hknown⟩⟩

theorem place_leads (hserve : Serves cat keys depth cur layoutOf)
    (h : Within cat keys depth cur c) {type : ValueType} {rule : PlacementRule}
    (href : rule.isFixed = true → cat.Refers type) :
    Leads (Within cat keys depth cur) (place layoutOf type rule) c fun p c' =>
      PlacementGood c' type.key rule p := by
  rw [place]
  refine (Leads.theCatalog h).bind fun _ _ hin _ hcat => ?_
  obtain ⟨rfl, rfl⟩ := hcat
  -- a record is placed in the same way where it is declared and where it is referred to
  have hrecord {id : SchemaId} (hid : rule.isFixed = true → cat.HasSchema id)
      (hkey : type.key = .record id) :
      Leads (Within cat keys depth cur)
        (if (c.catalog.schema id).isUnmanaged then Pure.pure (.handle id rule.isFixed)
          else if rule.isFixed then placeFixedRecord layoutOf id
          else Pure.pure (.inlineRecord id)) c
        fun p c' => PlacementGood c' type.key rule p := by
    rw [hkey]
    -- unmanaged records are handles, and no layout is asked for
    by_cases hun : (c.catalog.schema id).isUnmanaged = true
    · rw [if_pos hun]
      refine .pure h ?_
      cases hrule : rule.isFixed with
      | true => exact .of_fixed hrule (by rw [Placement.FixedFor, if_pos hun]) (fun k hk => by cases hk)
      | false => exact .of_flexible hrule (by rw [Placement.flexible, if_pos hun])
    · rw [if_neg hun]
      cases hrule : rule.isFixed with
      | true =>
        refine (placeFixedRecord_leads hserve h (hid hrule)).mono fun p c' _ hret hp => ?_
        have hfor : p.FixedFor c'.catalog (.record id) := by
          rw [Placement.FixedFor, hret.catalog, if_neg hun]
          exact hp.imp And.left fun h => h
        refine .of_fixed hrule hfor fun k hk => ?_
        rcases hp with ⟨rfl, hknown⟩ | rfl
        · rwa [List.mem_singleton.mp hk]
        · cases hk
      | false => exact .pure h (.of_flexible hrule (by rw [Placement.flexible, if_neg hun]))
  cases type with
  | any =>
    refine .pure h ?_
    cases hrule : rule.isFixed with
    | true => exact .of_fixed hrule rfl (fun k hk => by cases hk)
    | false => exact .of_flexible hrule rfl
  | scalar kind =>
    refine .pure h ?_
    cases hrule : rule.isFixed with
    | true => exact .of_fixed hrule rfl (fun k hk => by cases hk)
    | false => exact .of_flexible hrule rfl
  | text =>
    refine .pure h ?_
    cases hrule : rule.isFixed with
    | true => exact .of_fixed hrule rfl (fun k hk => by cases hk)
    | false => exact .of_flexible hrule rfl
  | choice id =>
    refine .pure h ?_
    cases hrule : rule.isFixed with
    | true => exact .of_fixed hrule rfl (fun k hk => by cases hk)
    | false => exact .of_flexible hrule rfl
  | wrapper id =>
    show Leads _ (if rule.isFixed then placeFixedWrapper layoutOf id (c.catalog.wrapper id)
      else Pure.pure (.wrapped id (c.catalog.wrapper id).carrier .standard)) c _
    cases hrule : rule.isFixed with
    | true =>
      -- the carrier is there, as the catalog is closed
      have hcarrier : cat.HasSchema (c.catalog.wrapper id).carrier := by
        have hclosed := h.good.closed
        rw [h.catalog] at hclosed ⊢
        refine hclosed.wrappers _ ?_
        have hid : id.index < cat.wrappers.length := href hrule
        rw [Catalog.wrapper, List.getD_eq_getElem _ _ hid]
        exact List.getElem_mem hid
      refine (placeFixedWrapper_leads hserve h hcarrier).mono fun p c' _ hret hp => ?_
      obtain ⟨rfl, hknown⟩ := hp
      have hfor : (Placement.wrapped id (c.catalog.wrapper id).carrier .fixed).FixedFor c'.catalog
          (.wrapper id) := by
        show _ = Placement.wrapped id (c'.catalog.wrapper id).carrier .fixed
        rw [hret.catalog]
      refine .of_fixed hrule hfor fun k hk => ?_
      rwa [List.mem_singleton.mp hk]
    | false => exact .pure h (.of_flexible hrule rfl)
  | record id => exact hrecord href rfl
  | back id name => exact hrecord href rfl

/-- Following a back reference does not change which type is meant. -/
theorem Catalog.resolve_key {type resolved : ValueType} (h : cat.resolve type = .ok resolved) :
    resolved.key = type.key ∧ (cat.Refers type → cat.Refers resolved) := by
  cases type with
  | back id name =>
    rw [Catalog.resolve] at h
    split at h
    · cases h
      exact ⟨rfl, fun h => h⟩
    · cases h
  | _ =>
    cases h
    exact ⟨rfl, fun h => h⟩

/-- Choosing a placement. Only at a fixed width does it matter that the type is declared. -/
theorem placementWith_leads (hserve : Serves cat keys depth cur layoutOf)
    (h : Within cat keys depth cur c) {type : ValueType} {rule : PlacementRule}
    (href : rule.isFixed = true → cat.Refers type) :
    Leads (Within cat keys depth cur) (placementWith layoutOf type rule) c fun p c' =>
      c'.placementAnswer (type.key, rule) = some p := by
  have hmemo : Compiler.placementMemo.get c = c.placements := rfl
  cases hfind : c.placements.find? (type.key, rule) with
  | some slot =>
    cases slot with
    | running =>
      refine .of_error (e := .recursiveCompile (.placement type.key rule)) ?_ h (.refl c)
      simp only [placementWith, Memo.fetch, hmemo, hfind]
    | done result =>
      cases result with
      | ok p =>
        refine .of_ok (a := p) ?_ h (.refl c) (Compiler.placementAnswer_eq_some.mpr hfind)
        simp only [placementWith, Memo.fetch, hmemo, hfind]
      | error e =>
        refine .of_error (e := e) ?_ h (.refl c)
        simp only [placementWith, Memo.fetch, hmemo, hfind]
  | none =>
    have hin := h.enterPlacement hfind
    have hbody : Leads (Within cat keys depth cur) (do
        let c ← theCatalog
        let resolved ← ofExcept (c.resolve type)
        place layoutOf resolved rule) (c.putPlacement (type.key, rule) .running)
        fun p c' => PlacementGood c' type.key rule p := by
      refine (Leads.theCatalog hin).bind fun _ c₁ hin₁ _ hcat => ?_
      obtain ⟨rfl, rfl⟩ := hcat
      refine (Leads.ofExcept hin₁).bind fun resolved c₂ hin₂ _ hres => ?_
      obtain ⟨rfl, hres⟩ := hres
      obtain ⟨hkey, hrefers⟩ := Catalog.resolve_key hres
      rw [hin₁.catalog] at hrefers
      exact (place_leads hserve hin₂ fun hrule => hrefers (href hrule)).mono fun p c' _ _ hp => hkey ▸ hp
    -- what is kept afterwards
    have hkeep {c' : Compiler} (hin' : Within cat keys depth cur c')
        (hret : (c.putPlacement (type.key, rule) .running).Returns c')
        (result : Except FormatError Placement)
        (hslot : ∀ p, result = .ok p → PlacementGood c' type.key rule p) :
        Within cat keys depth cur (c'.putPlacement (type.key, rule) (.done result)) ∧
          c.Returns (c'.putPlacement (type.key, rule) (.done result)) := by
      have hrunning := (hret.placing (type.key, rule)).mpr Compiler.find?_putPlacement_self
      have hopen' : c'.OpenPlacement (type.key, rule) := fun r hr => by
        rw [hrunning] at hr
        cases hr
      have hback := Compiler.returns_putPlacement result hfind hret
      refine ⟨h.returns hback (hin'.good.putPlacement hopen' fun p hp => ?_), hback⟩
      cases hp
      exact hslot p rfl
    rw [Leads] at hbody
    have hstart : Compiler.placementMemo.set
        ((Compiler.placementMemo.get c).insert (type.key, rule) .running) c =
          c.putPlacement (type.key, rule) .running := rfl
    split at hbody
    · rename_i p c' hrun
      obtain ⟨hin', hret, hp⟩ := hbody
      obtain ⟨hkept, hback⟩ := hkeep hin' hret (.ok p) fun q hq => by
        cases hq
        exact hp
      refine .of_ok (a := p) ?_ hkept hback
        (Compiler.placementAnswer_eq_some.mpr Compiler.find?_putPlacement_self)
      simp only [placementWith, Memo.fetch, hmemo, hfind]
      rw [hmemo] at hstart
      rw [hstart, hrun]
      rfl
    · rename_i e c' hrun
      obtain ⟨hin', hret⟩ := hbody
      obtain ⟨hkept, hback⟩ := hkeep hin' hret (.error e) fun q hq => by cases hq
      refine .of_error (e := e) ?_
        hkept hback
      simp only [placementWith, Memo.fetch, hmemo, hfind]
      rw [hmemo] at hstart
      rw [hstart, hrun]
      rfl

/-! ## Bindings -/

theorem slotOf_leads {good : Compiler → Prop} (h : good c) (s : Schema) (name : String) :
    Leads good (slotOf s name) c fun i _ => s.slot? name = some i := by
  rw [slotOf]
  split
  · rename_i i hi
    exact .pure h hi
  · exact .throw h

theorem slotsOf_leads {good : Compiler → Prop} (h : good c) (s : Schema) (names : List String) :
    Leads good (names.mapM (slotOf s)) c fun slots _ => names.mapM s.slot? = some slots := by
  refine (Leads.mapM (fun name i _ => s.slot? name = some i) (fun _ _ _ _ _ h => h) h
    fun name _ c' h' _ => slotOf_leads h' s name).mono fun slots _ _ _ hall => ?_
  induction hall with
  | nil => rfl
  | cons hfirst _ ih => simp [hfirst, ih]

theorem bindDerivation_leads {good : Compiler → Prop} (h : good c) (s : Schema)
    (d : Option Derivation) :
    Leads good (bindDerivation s d) c fun out _ => boundDerivation? s d = some out := by
  cases d with
  | none => exact .pure h rfl
  | some d =>
    cases d with
    | lengthOf array =>
      refine (slotOf_leads h s array).bind fun i c' h' _ hi => .pure h' ?_
      simp only [boundDerivation?, hi, Option.map_some]
    | widthOf numbers =>
      refine (slotsOf_leads h s numbers).bind fun slots c' h' _ hslots => .pure h' ?_
      simp only [boundDerivation?, hslots, Option.map_some]

theorem bindEncoding_leads (hserve : Serves cat keys depth cur layoutOf)
    (h : Within cat keys depth cur c) (s : Schema) (kind : LayoutKind) {f : FieldDecl}
    (href : ∀ type rule, f.shape = .value type rule → cat.Refers type) :
    Leads (Within cat keys depth cur) (bindEncoding layoutOf s kind f) c fun e c' =>
      boundEncoding? c' s kind f = some e := by
  rw [bindEncoding]
  cases hshape : f.shape with
  | scalar k => exact .pure h (by simp only [boundEncoding?, hshape])
  | width => exact .pure h (by simp only [boundEncoding?, hshape])
  | varint => exact .pure h (by simp only [boundEncoding?, hshape])
  | sized size =>
    simp only
    split
    · rename_i hfixed
      exact .pure h (by simp only [boundEncoding?, hshape, hfixed, if_true])
    · rename_i hflex
      refine (slotOf_leads h s size).bind fun i c' h' _ hi => .pure h' ?_
      simp only [boundEncoding?, hshape, if_neg hflex, hi, Option.map_some]
  | array element count =>
    simp only
    split
    · -- no array stands at a fixed width
      exact .throw h
    · rename_i hflex
      refine (slotOf_leads h s count).bind fun i c' h' _ hi => .pure h' ?_
      simp only [boundEncoding?, hshape, if_neg hflex, hi, Option.map_some]
  | value type rule =>
    refine (placementWith_leads hserve h fun _ => href type rule hshape).bind
      fun p c' h' _ hp => .pure h' ?_
    simp only [boundEncoding?, hshape, hp, Option.map_some]

/-- The types in the fields of a schema are declared. -/
theorem Catalog.Closed.refers (h : cat.Closed) {id : SchemaId} {f : FieldDecl}
    (hf : f ∈ (cat.schema id).fields) {type : ValueType} {rule : PlacementRule}
    (hshape : f.shape = .value type rule) : cat.Refers type := by
  rw [Catalog.fields_schema] at hf
  by_cases hid : id.declared < cat.schemas.length
  · rw [List.getD_eq_getElem _ _ hid] at hf
    exact h.schemas _ (List.getElem_mem hid) f hf type rule hshape
  · rw [List.getD_eq_default _ _ (by omega)] at hf
    cases hf

/-- Binding a field. In a layout of fixed width its size has been seen to be fixed. -/
theorem bindField_leads {id : SchemaId} {kind : LayoutKind}
    (hserve : Serves cat keys depth (id, kind) layoutOf) (h : Within cat keys depth (id, kind) c)
    (slot : Nat) {f : FieldDecl} (hf : f ∈ (cat.schema id).fields) :
    Leads (Within cat keys depth (id, kind)) (bindField layoutOf (cat.schema id) kind slot f) c
      fun b c' => boundField? c' (cat.schema id) kind slot f = some b ∧
        (kind.isFixed = true → c'.Fixes b.encoding) := by
  have href : ∀ type rule, f.shape = .value type rule → cat.Refers type := by
    intro type rule hshape
    have hclosed := h.good.closed
    rw [h.catalog] at hclosed
    exact hclosed.refers hf hshape
  rw [bindField]
  refine (Leads.theCatalog h).bind fun _ c₁ h₁ _ hcat => ?_
  obtain ⟨rfl, rfl⟩ := hcat
  refine (bindEncoding_leads hserve h (cat.schema id) kind href).bind fun e c₂ h₂ hret₂ he => ?_
  have hasks : Asks c₂ (id, kind) e := by
    have hcat := h₂.catalog
    subst hcat
    exact h₂.good.asks hf he
  -- the rest, whether or not the size was checked
  have hrest {c₃ : Compiler} (h₃ : Within cat keys depth (id, kind) c₃) (hret₃ : c₂.Returns c₃)
      (hfix : kind.isFixed = true → c₃.Fixes e) :
      Leads (Within cat keys depth (id, kind)) (do
        let needs ← f.requirements.mapM (slotOf (cat.schema id))
        let derivation ← bindDerivation (cat.schema id) f.derivation
        Pure.pure ⟨f, slot, e, needs, derivation⟩) c₃
        fun b c' => boundField? c' (cat.schema id) kind slot f = some b ∧
          (kind.isFixed = true → c'.Fixes b.encoding) := by
    refine (slotsOf_leads h₃ _ _).bind fun needs c₄ h₄ hret₄ hneeds => ?_
    refine (bindDerivation_leads h₄ _ _).bind fun d c₅ h₅ hret₅ hd => .pure h₅ ⟨?_, ?_⟩
    · refine boundField?_eq_some.mpr ⟨rfl, rfl, ?_, hneeds, hd⟩
      exact boundEncoding?_grows (hret₃.trans (hret₄.trans hret₅)).toGrows he
    · exact fun hkind => (hfix hkind).grows (hret₄.trans hret₅).toGrows
  show Leads _ (if kind.isFixed then _ else _) c₂ _
  split
  · refine (hserve.size h₂ hasks).bind fun size c₃ h₃ hret₃ hsized => ?_
    split
    · exact .throw_bind h₃
    · rename_i hseen
      have hfixed : size.isFixed = true := by simpa using hseen
      exact hrest h₃ hret₃ fun _ => (hsized.isFixed_iff h₃.good).mp hfixed
  · rename_i hflex
    exact hrest h₂ (.refl c₂) fun hkind => absurd hkind hflex

theorem bindFields_leads {id : SchemaId} {kind : LayoutKind}
    (hserve : Serves cat keys depth (id, kind) layoutOf) (h : Within cat keys depth (id, kind) c)
    (slot : Nat) {fields : List FieldDecl} (hfields : ∀ f ∈ fields, f ∈ (cat.schema id).fields) :
    Leads (Within cat keys depth (id, kind))
      (bindFields layoutOf (cat.schema id) kind slot fields) c
      fun bs c' => boundFields? c' (cat.schema id) kind slot fields = some bs ∧
        (kind.isFixed = true → ∀ b ∈ bs, c'.Fixes b.encoding) := by
  induction fields generalizing slot c with
  | nil => exact .pure h ⟨rfl, fun _ _ hb => nomatch hb⟩
  | cons f rest ih =>
    refine (bindField_leads hserve h slot (hfields f List.mem_cons_self)).bind
      fun b c₁ h₁ hret₁ hb => ?_
    refine (ih h₁ (slot + 1) fun g hg => hfields g (List.mem_cons_of_mem _ hg)).bind
      fun bs c₂ h₂ hret₂ hbs => .pure h₂ ⟨?_, fun hkind b' hb' => ?_⟩
    · simp only [boundFields?, boundField?_grows hret₂.toGrows hb.1, hbs.1, Option.bind_eq_bind,
        Option.bind_some]
    · rcases List.mem_cons.mp hb' with rfl | hmem
      · exact (hb.2 hkind).grows hret₂.toGrows
      · exact hbs.2 hkind b' hmem

/-! ## Canonical order -/

/-- Holds of whatever will be said about which sizes vary. -/
def Later (bindings : List Binding) (c : Compiler) (P : (Nat → Bool) → Prop) : Prop :=
  ∀ c' varies, c.Grows c' → c'.Good → FlagsFit c' bindings varies → P varies

theorem rankOf_leads (hserve : Serves cat keys depth cur layoutOf)
    (h : Within cat keys depth cur c) {bindings : List Binding} (hnum : Numbered bindings)
    {slot : Nat} (hslot : slot < bindings.length) (ha : Asks c cur bindings[slot].encoding) :
    Leads (Within cat keys depth cur) (rankOf layoutOf bindings[slot]) c fun rank c' =>
      Later bindings c' fun varies => rank = rankWith bindings varies slot := by
  refine (hserve.size h ha).bind fun size c₁ h₁ _ hsized => .pure h₁ ?_
  intro c₂ varies hgrows hgood hfit
  have hfixed := (hsized.grows hgrows).isFixed_iff hgood
  have hflag : (!size.isFixed) = varies slot := by
    rcases hfit.fit slot hslot with ⟨hf, hfix⟩ | ⟨hf, hv⟩
    · rw [hf, hfixed.mpr hfix]
      rfl
    · rw [hf, Bool.eq_false_iff.mpr fun hsize => hv.not_fixes hgood (hfixed.mp hsize)]
      rfl
  rw [rankWith, hflag, hnum slot hslot, List.getD_eq_getElem _ _ hslot]

theorem countOff_leads (hserve : Serves cat keys depth cur layoutOf)
    (h : Within cat keys depth cur c) {bindings : List Binding} (hnum : Numbered bindings)
    (ha : ∀ b ∈ bindings, Asks c cur b.encoding) (pending : List Nat) (ready : List Rank)
    {slots : List Nat} (hslots : ∀ slot ∈ slots, slot < bindings.length) :
    Leads (Within cat keys depth cur) (countOff layoutOf bindings pending ready slots) c
      fun out c' => Later bindings c' fun varies =>
        out = countOffWith (rankWith bindings varies) pending ready slots := by
  induction slots generalizing c pending ready with
  | nil => exact .pure h fun _ _ _ _ _ => rfl
  | cons slot rest ih =>
    have hrest : ∀ s ∈ rest, s < bindings.length := fun s hs =>
      hslots s (List.mem_cons_of_mem _ hs)
    have hslot := hslots slot List.mem_cons_self
    rw [countOff]
    split
    · -- the last of its needs is met
      rename_i hleft
      rw [List.getD_eq_getElem _ _ hslot]
      refine (rankOf_leads hserve h hnum hslot (ha _ (List.getElem_mem hslot))).bind
        fun rank c₁ h₁ hret₁ hrank => ?_
      refine (ih h₁ (fun b hb => (ha b hb).grows hret₁.toGrows) _ _ hrest).mono
        fun out c₂ _ hret₂ hout => ?_
      intro c₃ varies hgrows hgood hfit
      rw [hout c₃ varies hgrows hgood hfit,
        hrank c₃ varies (hret₂.toGrows.trans hgrows) hgood hfit, countOffWith, if_pos hleft]
    · rename_i hleft
      refine (ih h ha _ _ hrest).mono fun out c₂ _ _ hout => ?_
      intro c₃ varies hgrows hgood hfit
      rw [hout c₃ varies hgrows hgood hfit, countOffWith, if_neg hleft]

theorem waitingFor_lt {bindings : List Binding} (hnum : Numbered bindings) (slot : Nat) :
    ∀ i ∈ waitingFor bindings slot, i < bindings.length := by
  intro i hi
  obtain ⟨b, hb, hmem⟩ := List.mem_flatMap.mp hi
  obtain ⟨_, -, rfl⟩ := List.mem_map.mp hmem
  obtain ⟨j, hj, rfl⟩ := List.getElem_of_mem hb
  rw [hnum j hj]
  exact hj

theorem takeReady_leads (hserve : Serves cat keys depth cur layoutOf)
    (h : Within cat keys depth cur c) {bindings : List Binding} (hnum : Numbered bindings)
    (ha : ∀ b ∈ bindings, Asks c cur b.encoding) (steps : Nat) (pending : List Nat)
    (ready : List Rank) :
    Leads (Within cat keys depth cur) (takeReady layoutOf bindings steps pending ready) c
      fun out c' => Later bindings c' fun varies =>
        out = takeReadyWith (rankWith bindings varies) bindings steps pending ready := by
  induction steps generalizing c pending ready with
  | zero => exact .pure h fun _ _ _ _ _ => rfl
  | succ steps ih =>
    cases ready with
    | nil => exact .pure h fun _ _ _ _ _ => rfl
    | cons first ready =>
      rw [takeReady]
      refine (countOff_leads hserve h hnum ha pending ready (waitingFor_lt hnum first.slot)).bind
        fun counted c₁ h₁ hret₁ hcounted => ?_
      refine (ih h₁ (fun b hb => (ha b hb).grows hret₁.toGrows) counted.1 counted.2).bind
        fun rest c₂ h₂ hret₂ hrest => .pure h₂ ?_
      intro c₃ varies hgrows hgood hfit
      rw [hrest c₃ varies hgrows hgood hfit,
        hcounted c₃ varies (hret₂.toGrows.trans hgrows) hgood hfit, takeReadyWith]

theorem initiallyReady_leads (hserve : Serves cat keys depth cur layoutOf)
    (h : Within cat keys depth cur c) {bindings : List Binding} (hnum : Numbered bindings)
    (ha : ∀ b ∈ bindings, Asks c cur b.encoding) (ready : List Rank) {some : List Binding}
    (hsome : ∀ b ∈ some, b ∈ bindings) :
    Leads (Within cat keys depth cur) (initiallyReady layoutOf ready some) c
      fun out c' => Later bindings c' fun varies =>
        out = initiallyReadyWith (rankWith bindings varies) ready some := by
  induction some generalizing c ready with
  | nil => exact .pure h fun _ _ _ _ _ => rfl
  | cons b rest ih =>
    have hrest : ∀ b ∈ rest, b ∈ bindings := fun b hb => hsome b (List.mem_cons_of_mem _ hb)
    rw [initiallyReady]
    -- a binding without needs is ready at once, and is ranked; any other waits
    split
    · rename_i hempty
      obtain ⟨i, hi, rfl⟩ := List.getElem_of_mem (hsome b List.mem_cons_self)
      refine (rankOf_leads hserve h hnum hi (ha _ (List.getElem_mem hi))).bind
        fun rank c₁ h₁ hret₁ hrank => ?_
      refine (ih h₁ (fun b hb => (ha b hb).grows hret₁.toGrows) _ hrest).mono
        fun out c₂ _ hret₂ hout => ?_
      intro c₃ varies hgrows hgood hfit
      rw [hout c₃ varies hgrows hgood hfit,
        hrank c₃ varies (hret₂.toGrows.trans hgrows) hgood hfit, initiallyReadyWith,
        if_pos hempty, hnum i hi]
    · rename_i hneeds
      refine (ih h ha _ hrest).mono fun out c₂ _ _ hout => ?_
      intro c₃ varies hgrows hgood hfit
      rw [hout c₃ varies hgrows hgood hfit, initiallyReadyWith, if_neg hneeds]

/-- Ordering the fields. Whichever sizes turn out to vary, this is the order for them. -/
theorem canonicalOrder_leads (hserve : Serves cat keys depth cur layoutOf)
    (h : Within cat keys depth cur c) {bindings : List Binding} (hnum : Numbered bindings)
    (ha : ∀ b ∈ bindings, Asks c cur b.encoding) (s : Schema) :
    Leads (Within cat keys depth cur) (canonicalOrder layoutOf s bindings) c
      fun order c' => order.length = bindings.length ∧ Later bindings c' fun varies =>
        order = orderWith (rankWith bindings varies) bindings := by
  rw [canonicalOrder]
  refine (initiallyReady_leads hserve h hnum ha [] fun b hb => hb).bind
    fun ready c₁ h₁ hret₁ hready => ?_
  refine (takeReady_leads hserve h₁ hnum (fun b hb => (ha b hb).grows hret₁.toGrows) _ _ ready).bind
    fun order c₂ h₂ hret₂ horder => ?_
  split
  · rename_i hlen
    refine .pure h₂ ⟨hlen, fun c₃ varies hgrows hgood hfit => ?_⟩
    rw [horder c₃ varies hgrows hgood hfit,
      hready c₃ varies (hret₂.toGrows.trans hgrows) hgood hfit]
    rfl
  · exact .throw h₂

/-! ## Fields -/

theorem finishField_leads (hserve : Serves cat keys depth cur layoutOf)
    (h : Within cat keys depth cur c) (s : Schema) (governors : List Nat) {b : Binding}
    (ha : Asks c cur b.encoding) :
    Leads (Within cat keys depth cur) (finishField layoutOf s governors b) c
      fun f c' => FinishedFrom c'.catalog s governors b f ∧ c'.Sized b.encoding f.size := by
  rw [finishField]
  refine (Leads.theCatalog h).bind fun _ c₁ h₁ _ hcat => ?_
  obtain ⟨rfl, rfl⟩ := hcat
  refine (hserve.size h ha).bind fun size c₂ h₂ hret₂ hsized => .pure h₂ ⟨?_, hsized⟩
  exact ⟨rfl, rfl, rfl, by rw [hret₂.catalog], rfl, rfl, rfl, rfl, rfl⟩

/-- A layout of chosen widths needs as many as there are numbers. -/
theorem assignWidths_leads {good : Compiler → Prop} (h : good c) (s : Schema)
    (bindings : List Binding) (order : List Nat) (widths : List Width) :
    Leads good (assignWidths s bindings order widths) c fun wide _ =>
      wide = assigned bindings order widths := by
  rw [assignWidths]
  split
  · exact .pure h rfl
  · exact .throw h

/-- What the sizes of all fields say about which of them vary. -/
theorem FlagsFit.of_sized {c : Compiler} (hc : c.Good) {bindings wide : List Binding}
    (hwide : List.Forall₂ Widens bindings wide)
    (hsized : ∀ b ∈ wide, c.Fixes b.encoding ∨ c.Varies b.encoding) :
    ∃ varies, FlagsFit c bindings varies := by
  classical
  have hall : ∀ i (hi : i < bindings.length),
      c.Fixes bindings[i].encoding ∨ c.Varies bindings[i].encoding := by
    intro i hi
    have hi' : i < wide.length := by rwa [← hwide.length_eq]
    have hwidens := (List.forall₂_iff_get.mp hwide).2 i hi hi'
    simp only [List.get_eq_getElem] at hwidens
    rcases hwidens with heq | ⟨w, w', hforced, -⟩
    · rw [← heq]
      exact hsized _ (List.getElem_mem hi')
    · rw [hforced]
      exact Or.inl rfl
  refine ⟨fun i => if hi : i < bindings.length then decide (c.Varies bindings[i].encoding)
    else false, fun i hi => ?_, fun i hi => dif_neg (by omega)⟩
  rw [dif_pos hi]
  rcases hall i hi with hfix | hv
  · exact Or.inl ⟨decide_eq_false fun hv => hv.not_fixes hc hfix, hfix⟩
  · exact Or.inr ⟨decide_eq_true hv, hv⟩

/-- If the sizes of all fields are asked for, it turns out which of them vary. -/
theorem Serves.flags (hserve : Serves cat keys depth cur layoutOf) (h : Within cat keys depth cur c)
    {bindings : List Binding} (ha : ∀ b ∈ bindings, Asks c cur b.encoding) :
    ∃ c' varies, c.Grows c' ∧ c'.Good ∧ FlagsFit c' bindings varies := by
  -- the bindings' sizes are asked for one after the other, so each stays sized while the rest are
  have hall : ∀ (some : List Binding) (c : Compiler), Within cat keys depth cur c →
      (∀ b ∈ some, Asks c cur b.encoding) → ∃ c', c.Grows c' ∧ c'.Good ∧
        ∀ b ∈ some, c'.Fixes b.encoding ∨ c'.Varies b.encoding := by
    intro some
    induction some with
    | nil => exact fun c h _ => ⟨c, .refl c, h.good, fun b hb => absurd hb List.not_mem_nil⟩
    | cons b rest ih =>
      intro c h ha
      have hb := ha b List.mem_cons_self
      obtain ⟨c₁, -, h₁, hret, hset⟩ :=
        Encoding.size_spec h fun key hkey => hserve key (h.allows hb hkey)
      have hsized := h₁.sized (hb.grows hret.toGrows) (by rwa [hret.catalog])
      obtain ⟨c₂, hgrows, hgood, hrest⟩ :=
        ih c₁ h₁ fun d hd => (ha d (List.mem_cons_of_mem _ hd)).grows hret.toGrows
      refine ⟨c₂, hret.toGrows.trans hgrows, hgood, fun d hd => ?_⟩
      rcases List.mem_cons.mp hd with rfl | hmem
      · exact (hsized.grows hgrows).imp And.left And.left
      · exact hrest d hmem
  obtain ⟨c', hgrows, hgood, hsized⟩ := hall bindings c h ha
  obtain ⟨varies, hfit⟩ :=
    FlagsFit.of_sized hgood (List.forall₂_same.mpr fun b _ => Or.inl rfl) hsized
  exact ⟨c', varies, hgrows, hgood, hfit⟩

/-- A chosen width is a fixed size. -/
theorem Widens.fixes {b b' : Binding} (h : Widens b b') (hfix : c.Fixes b.encoding) :
    c.Fixes b'.encoding := by
  rcases h with rfl | ⟨w, w', -, rfl⟩
  · exact hfix
  · exact rfl

/-- Choosing widths asks for nothing more. -/
theorem Widens.asks {b b' : Binding} (h : Widens b b') (ha : Asks c cur b.encoding) :
    Asks c cur b'.encoding := by
  rcases h with rfl | ⟨w, w', hb, rfl⟩
  · exact ha
  · exact fun key hkey => nomatch hkey

theorem compileFields_leads {id : SchemaId} {kind : LayoutKind}
    (hserve : Serves cat keys depth (id, kind) layoutOf) (h : Within cat keys depth (id, kind) c) :
    Leads (Within cat keys depth (id, kind)) (compileFields layoutOf (cat.schema id) kind) c
      fun fields c' => FieldsGood c' (cat.schema id) kind fields ∧
        (kind.isFixed = true → ∀ f ∈ fields, c'.Fixes f.encoding) := by
  rw [compileFields]
  refine (bindFields_leads hserve h 0 fun f hf => hf).bind fun bindings c₁ h₁ hret₁ hbindings => ?_
  obtain ⟨hbound, hfix⟩ := hbindings
  have hnum := boundFields?_numbered hbound
  have hasks : ∀ b ∈ bindings, Asks c₁ (id, kind) b.encoding := by
    have hcat := h₁.catalog
    subst hcat
    exact h₁.good.asks_bound hbound
  refine (canonicalOrder_leads hserve h₁ hnum hasks _).bind fun order c₂ h₂ hret₂ horder => ?_
  obtain ⟨hlen, horder⟩ := horder
  -- whatever widths are chosen, the fields are completed in the same way
  have hrest {c₃ : Compiler} (h₃ : Within cat keys depth (id, kind) c₃) (hret₃ : c₂.Returns c₃) :
      Leads (Within cat keys depth (id, kind)) (do
        let fields ← (widened kind bindings order).mapM (finishField layoutOf (cat.schema id)
          ((widened kind bindings order).filterMap (·.encoding.governor?)))
        Pure.pure (order.map fun slot => fields.getD slot default)) c₃
        fun fields c' => FieldsGood c' (cat.schema id) kind fields ∧
          (kind.isFixed = true → ∀ f ∈ fields, c'.Fixes f.encoding) := by
    have hwidens := widened_widens kind bindings order
    have hwasks : ∀ b ∈ widened kind bindings order, Asks c₃ (id, kind) b.encoding := by
      intro b hb
      obtain ⟨i, hi, rfl⟩ := List.getElem_of_mem hb
      have hi' : i < bindings.length := by rwa [hwidens.length_eq]
      refine Widens.asks ((List.forall₂_iff_get.mp hwidens).2 i hi' hi) ?_
      exact (hasks _ (List.getElem_mem hi')).grows (hret₂.trans hret₃).toGrows
    refine (Leads.mapM (fun b f c' => FinishedFrom c'.catalog (cat.schema id)
        ((widened kind bindings order).filterMap (·.encoding.governor?)) b f ∧
          c'.Sized b.encoding f.size) ?_ h₃ fun b hb c₄ h₄ hret₄ =>
        finishField_leads hserve h₄ _ _ ((hwasks b hb).grows hret₄.toGrows)).bind
      fun finished c₄ h₄ hret₄ hall => .pure h₄ ?_
    · intro b f c₄ c₅ hgrows hbf
      refine ⟨?_, hbf.2.grows hgrows⟩
      rw [hgrows.catalog]
      exact hbf.1
    have hsized : ∀ b ∈ widened kind bindings order, c₄.Fixes b.encoding ∨ c₄.Varies b.encoding := by
      intro b hb
      obtain ⟨i, hi, rfl⟩ := List.getElem_of_mem hb
      have hbf := (List.forall₂_iff_get.mp hall).2 i hi (by rwa [← hall.length_eq])
      exact hbf.2.imp And.left And.left
    obtain ⟨varies, hfit⟩ := FlagsFit.of_sized h₄.good hwidens hsized
    have hlast := (hret₃.trans hret₄).toGrows
    obtain rfl := horder c₄ varies hlast h₄.good hfit
    refine ⟨⟨bindings, varies, finished, ?_, hfit, hlen, hall, rfl⟩, fun hkind f hf => ?_⟩
    · exact boundFields?_grows (hret₂.toGrows.trans hlast) hbound
    · obtain ⟨slot, -, rfl⟩ := List.mem_map.mp hf
      by_cases hslot : slot < finished.length
      · rw [List.getD_eq_getElem _ _ hslot]
        have hw : slot < (widened kind bindings
            (orderWith (rankWith bindings varies) bindings)).length := by
          rwa [hall.length_eq]
        have hb : slot < bindings.length := by rwa [hwidens.length_eq]
        have hfin := ((List.forall₂_iff_get.mp hall).2 slot hw hslot).1
        have hwide := (List.forall₂_iff_get.mp hwidens).2 slot hb hw
        simp only [List.get_eq_getElem] at hfin hwide
        rw [hfin.encoding]
        have hknown := hfix hkind _ (List.getElem_mem hb)
        exact hwide.fixes (hknown.grows (hret₂.toGrows.trans hlast))
      · rw [List.getD_eq_default _ _ (by omega)]
        exact rfl
  cases kind with
  | standard => exact hrest h₂ (.refl c₂)
  | fixed => exact hrest h₂ (.refl c₂)
  | varying widths =>
    refine (assignWidths_leads h₂ (cat.schema id) bindings order widths).bind
      fun wide c₃ h₃ hret₃ hwide => ?_
    rw [hwide]
    exact hrest h₃ hret₃

/-! ## Layouts -/

theorem anyHoldsChunks_leads (hserve : Serves cat keys depth cur layoutOf)
    (h : Within cat keys depth cur c) {fields : List BoundField}
    (ha : ∀ f ∈ fields, Asks c cur f.encoding) :
    Leads (Within cat keys depth cur) (anyHoldsChunks layoutOf fields) c
      fun holds c' => holds = false → ∀ f ∈ fields, f.encoding.holdsIn c' = false := by
  induction fields generalizing c with
  | nil => exact .pure h fun _ f hf => nomatch hf
  | cons f rest ih =>
    rw [anyHoldsChunks]
    refine (hserve.holdsChunks h (ha f List.mem_cons_self)).bind fun holds c₁ h₁ hret₁ hfirst => ?_
    split
    · exact .pure h₁ fun hfalse => nomatch hfalse
    · rename_i hno
      refine (ih h₁ fun g hg => (ha g (List.mem_cons_of_mem _ hg)).grows hret₁.toGrows).mono
        fun others c₂ _ hret₂ hrest hothers g hg => ?_
      rcases List.mem_cons.mp hg with rfl | hmem
      · refine Compiler.holdsIn_false hret₂.toGrows ?_
        rw [← hfirst]
        exact Bool.eq_false_iff.mpr hno
      · exact hrest hothers g hmem

/-- What a field of a good layout asks for. -/
theorem FieldsGood.asks {c : Compiler} (hc : c.Good) {id : SchemaId} {kind : LayoutKind}
    {fields : List BoundField} (h : FieldsGood c (c.catalog.schema id) kind fields)
    {f : BoundField} (hf : f ∈ fields) : Asks c (id, kind) f.encoding := by
  obtain ⟨decl, hgood⟩ := h.declared hf
  rcases hgood.encoding with hsame | ⟨w, w', -, hforced⟩
  · exact hc.asks (List.mem_of_getElem? hgood.declared) hsame
  · rw [hforced]
    exact fun key hkey => nomatch hkey

/-- A layout of fixed size has only layouts of fixed size standing in it. -/
theorem founded_of_fixed {c : Compiler} (hc : c.Good) {id : SchemaId} {fields : List BoundField}
    (h : FieldsGood c (c.catalog.schema id) .standard fields)
    (hsize : (SizeRange.sum (fields.map (·.size))).isFixed = true) :
    Acc c.catalog.StandsIn id.declared := by
  refine Acc.intro _ fun e hinside => ?_
  obtain ⟨decl, hdecl, type, hshape, key, hkey, rfl⟩ := hinside
  rw [← Catalog.fields_schema] at hdecl
  obtain ⟨i, hi⟩ := List.mem_iff_getElem?.mp hdecl
  have hslot : i ∈ fields.map (·.slot) := by
    rw [h.slots_perm.mem_iff, List.mem_range]
    exact (List.getElem?_eq_some_iff.mp hi).1
  obtain ⟨f, hf, hfslot⟩ := List.mem_map.mp hslot
  obtain ⟨decl', hgood⟩ := h.declared hf
  have hsame : decl' = decl := by
    have hdeclared := hgood.declared
    rw [hfslot, hi] at hdeclared
    exact (Option.some.inj hdeclared).symm
  subst hsame
  -- the field has a placement, and asks for the layout of what stands in it
  have hmem : key ∈ f.encoding.asks c.catalog := by
    rcases hgood.encoding with hsame | ⟨w, w', hforced, -⟩
    · simp only [boundEncoding?, hshape, Option.map_eq_some_iff] at hsame
      obtain ⟨p, hp, henc⟩ := hsame
      rw [← henc]
      show key ∈ p.asks c.catalog
      rw [(hc.placements _ _ _ hp).flexible rfl]
      exact hkey
    · simp only [boundEncoding?, hshape, Option.map_eq_some_iff] at hforced
      obtain ⟨p, -, henc⟩ := hforced
      cases henc
  have hfixed : f.size.isFixed = true :=
    SizeRange.isFixed_sum hsize _ (List.mem_map.mpr ⟨f, hf, rfl⟩)
  have hfix := (hgood.sized.isFixed_iff hc).mp hfixed
  obtain ⟨l, hl, hlsize⟩ := Encoding.asks_of_fixed hfix key hmem
  obtain ⟨-, ⟨hkind, -⟩ | ⟨hkind, -⟩⟩ := h.asks hc hf key hmem
  · have hstandard := (hc.closed.flexible_asks
      (hc.closed.refers hdecl hshape) hkey).2
    rw [hkind] at hstandard
    cases hstandard
  · obtain ⟨kid, kkind⟩ := key
    cases hkind
    exact hc.founded kid l hl hlsize

/-- Compiling one layout. -/
theorem compileLayout_leads {id : SchemaId} {kind : LayoutKind}
    (hserve : Serves cat keys depth (id, kind) layoutOf) (h : Within cat keys depth (id, kind) c) :
    Leads (Within cat keys depth (id, kind)) (compileLayout layoutOf id kind) c fun l c' =>
      LayoutGood c' id kind l ∧
        (kind = .standard → l.size.isFixed = true → Acc c'.catalog.StandsIn id.declared) := by
  rw [compileLayout]
  refine (Leads.theCatalog h).bind fun _ c₁ h₁ _ hcat => ?_
  obtain ⟨rfl, rfl⟩ := hcat
  have hsame := h.catalog
  subst hsame
  have hrest : Leads (Within c.catalog keys depth (id, kind)) (do
      let fields ← compileFields layoutOf (c.catalog.schema id) kind
      let draft ←
        if (c.catalog.schema id).isImmutable then do
          let draft ← layoutOf id.toDraft kind
          Pure.pure (some draft.schema)
        else Pure.pure none
      let holdsChunks ← anyHoldsChunks layoutOf fields
      Pure.pure {
        schema := id
        schemaName := (c.catalog.schema id).name
        kind
        fields
        size := SizeRange.sum (fields.map (·.size))
        fixedPart := (sizeTerms 0 [] 0 fields).1
        terms := (sizeTerms 0 [] 0 fields).2
        skips := skipSteps 0 0 fields
        holdsChunks
        draft }) c fun l c' => LayoutGood c' id kind l ∧
          (kind = .standard → l.size.isFixed = true → Acc c'.catalog.StandsIn id.declared) := by
    refine (compileFields_leads hserve h).bind fun fields c₂ h₂ hret₂ hcompiled => ?_
    obtain ⟨hfields, hfixed⟩ := hcompiled
    have hend {c₃ : Compiler} (h₃ : Within c.catalog keys depth (id, kind) c₃)
        (hret₃ : c₂.Returns c₃) (draft : Option SchemaId)
        (hd : if (c.catalog.schema id).isImmutable then
          draft = some id.toDraft ∧ (c₃.answer (id.toDraft, kind)).isSome else draft = none) :
        Leads (Within c.catalog keys depth (id, kind)) (do
          let holdsChunks ← anyHoldsChunks layoutOf fields
          Pure.pure {
            schema := id
            schemaName := (c.catalog.schema id).name
            kind
            fields
            size := SizeRange.sum (fields.map (·.size))
            fixedPart := (sizeTerms 0 [] 0 fields).1
            terms := (sizeTerms 0 [] 0 fields).2
            skips := skipSteps 0 0 fields
            holdsChunks
            draft }) c₃ fun l c' => LayoutGood c' id kind l ∧
              (kind = .standard → l.size.isFixed = true →
                Acc c'.catalog.StandsIn id.declared) := by
      have hfields₃ := hfields.grows hret₃.toGrows
      rw [← h₃.catalog] at hfields₃
      refine (anyHoldsChunks_leads hserve h₃ fun f hf => hfields₃.asks h₃.good hf).bind
        fun holds c₄ h₄ hret₄ hholds => .pure h₄ ?_
      have hfields₄ := hfields₃.grows hret₄.toGrows
      rw [h₃.catalog, ← h₄.catalog] at hfields₄
      have hfixed₄ : kind.isFixed = true → ∀ f ∈ fields, c₄.Fixes f.encoding :=
        fun hkind f hf => (hfixed hkind f hf).grows (hret₃.trans hret₄).toGrows
      refine ⟨⟨rfl, by rw [h₄.catalog]; rfl, rfl, hfields₄, hfixed₄, rfl, rfl, rfl, hholds, ?_⟩, ?_⟩
      · rw [h₄.catalog]
        split
        · rename_i himm
          rw [if_pos himm] at hd
          exact ⟨hd.1, by rw [hret₄.toGrows.answered hd.2]; exact hd.2⟩
        · rename_i himm
          rwa [if_neg himm] at hd
      · rintro rfl hsize
        exact founded_of_fixed h₄.good hfields₄ hsize
    -- the draft of an immutable schema is compiled too
    by_cases himm : (c.catalog.schema id).isImmutable = true
    · simp only [himm, if_true, pure_bind]
      have hallow : Allows c.catalog keys (id, kind) (id.toDraft, kind) :=
        ⟨h.covers.drafts id kind h.mem himm, fun hkind => ⟨hkind, .refl⟩⟩
      obtain ⟨c₃, h₃, hret₃, ⟨l, hrun, hl⟩ | ⟨e, hrun, -⟩⟩ := hserve _ hallow c₂ h₂
      · have hask : Leads (Within c.catalog keys depth (id, kind)) (layoutOf id.toDraft kind) c₂
            fun l c' => c'.answer (id.toDraft, kind) = some l := .of_ok hrun h₃ hret₃ hl
        refine hask.bind fun l' c₄ h₄ hret₄ hl' => ?_
        refine hend h₄ hret₄ _ ?_
        rw [if_pos himm, hl', (h₄.good.layouts _ _ _ hl').schema_eq]
        exact ⟨rfl, rfl⟩
      · have hask : Leads (Within c.catalog keys depth (id, kind)) (layoutOf id.toDraft kind) c₂
            fun _ _ => False := .of_error hrun h₃ hret₃
        exact hask.bind fun _ _ _ _ hfalse => hfalse.elim
    · simp only [himm, pure_bind]
      exact hend h₂ (.refl c₂) none (by rw [if_neg himm])
  show Leads _ (if _ then _ else _) c _
  split
  · exact .throw_bind h
  · exact hrest

/-- Asking for a layout from within a compilation. The compilations that are running differ from each
other, so the depth lasts. -/
theorem layoutWithin_serves (cat : Catalog) (keys : Finset LayoutKey) (depth : Nat)
    (cur : LayoutKey) : Serves cat keys depth cur (layoutWithin depth) := by
  induction depth generalizing cur with
  | zero => exact fun key _ c h => absurd h.depth_pos (Nat.lt_irrefl 0)
  | succ depth ih =>
    intro key hallow c h
    obtain ⟨id, kind⟩ := key
    have hmemo : Compiler.layoutMemo.get c = c.layouts := rfl
    simp only [layoutWithin, Memo.fetch, hmemo]
    cases hfind : c.layouts.find? (id, kind) with
    | some slot =>
      refine ⟨c, h, .refl c, ?_⟩
      cases slot with
      | running => exact Or.inr ⟨_, rfl, Or.inl hfind⟩
      | done result =>
        cases result with
        | ok l => exact Or.inl ⟨l, rfl, Compiler.answer_eq_some.mpr hfind⟩
        | error e => exact Or.inr ⟨e, rfl, Or.inr ⟨e, hfind⟩⟩
    | none =>
      have hbody := compileLayout_leads (ih (id, kind)) (h.enter hallow hfind)
      -- what is kept afterwards
      have hkeep {c' : Compiler} (hin' : Within cat keys depth (id, kind) c')
          (hret : (c.putLayout (id, kind) .running).Returns c')
          (result : Except FormatError Layout)
          (hslot : ∀ l, result = .ok l → LayoutGood c' id kind l ∧ (kind = .standard →
            l.size.isFixed = true → Acc c'.catalog.StandsIn id.declared)) :
          Within cat keys (depth + 1) cur (c'.putLayout (id, kind) (.done result)) ∧
            c.Returns (c'.putLayout (id, kind) (.done result)) := by
        have hrunning := (hret.running (id, kind)).mpr Compiler.find?_putLayout_self
        have hopen' : c'.Open (id, kind) := fun r hr => by
          rw [hrunning] at hr
          cases hr
        have hback := Compiler.returns_putLayout result hfind hret
        refine ⟨h.returns hback (hin'.good.putLayout hopen' fun l hl => ?_), hback⟩
        cases hl
        exact hslot l rfl
      have hstart : Compiler.layoutMemo.set (c.layouts.insert (id, kind) .running) c =
          c.putLayout (id, kind) .running := rfl
      simp only [hstart]
      rw [Leads] at hbody
      split at hbody
      · rename_i l c' hrun
        obtain ⟨hin', hret, hl⟩ := hbody
        obtain ⟨hkept, hback⟩ := hkeep hin' hret (.ok l) fun l' hl' => by
          cases hl'
          exact hl
        refine ⟨_, hkept, hback, Or.inl ⟨l, ?_,
          Compiler.answer_eq_some.mpr Compiler.find?_putLayout_self⟩⟩
        rw [hrun]
        rfl
      · rename_i e c' hrun
        obtain ⟨hin', hret⟩ := hbody
        obtain ⟨hkept, hback⟩ := hkeep hin' hret (.error e) fun l' hl' => by cases hl'
        refine ⟨_, hkept, hback, Or.inr ⟨e, ?_, Or.inr ⟨e, Compiler.find?_putLayout_self⟩⟩⟩
        rw [hrun]
        rfl

end

end RecordLayout
