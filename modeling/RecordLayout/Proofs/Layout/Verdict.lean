import Mathlib
import RecordLayout.Proofs.Layout.Conclusive

/-!
# What the layout of a free schema is asked for with

Between requests nothing is in the way of a compilation, so it fails only for its own fields: one of
them cannot be bound, or they need each other in a circle. For a free schema the kept result is what
such a compilation would have, and so is what it says of the sizes.

Main results:

* `bindField_bound`, `canonicalOrder_ends`, `compileLayout_ends` — a compilation between requests whose
  fields can be bound;
* `Compiler.Assured.verdict` — what is kept of a free schema.
-/

namespace RecordLayout

/-! ## Sizes that will not change -/

namespace Compiler

/-- The size of an encoding, now and at any later time. -/
def SizedForGood (c : Compiler) (e : Encoding) (size : SizeRange) : Prop :=
  ∀ c', c.Grows c' → e.sizeIn c' = size

variable {c c' : Compiler}

theorem SizedForGood.grows (h : c.Grows c') {e : Encoding} {size : SizeRange}
    (hs : c.SizedForGood e size) : c'.SizedForGood e size :=
  fun d hd => hs d (h.trans hd)

/-- A choice with a variant that has no layout is at least one byte long. -/
theorem variantSizeIn_of_none {answer : SchemaId → Option Layout} {variants : List SchemaId}
    {v : SchemaId} (hv : v ∈ variants) (hnone : answer v = none) (tag : Nat) (size : SizeRange) :
    variantSizeIn answer tag size variants = .atLeast 1 := by
  induction variants generalizing tag size with
  | nil => cases hv
  | cons w rest ih =>
    unfold variantSizeIn
    cases hw : answer w with
    | none => rfl
    | some l =>
      rcases List.mem_cons.mp hv with rfl | hmem
      · rw [hnone] at hw
        cases hw
      · exact ih hmem _ _

/-- What is not known of a size stays so if a layout that it depends on is missing. -/
theorem sizeIn_of_missing (hcat : c'.catalog = c.catalog) {p : Placement} {key : LayoutKey}
    (hkey : key ∈ p.asks c.catalog) (hnone : c.answer key = none) (hnone' : c'.answer key = none) :
    p.sizeIn c' = p.sizeIn c := by
  -- only the layouts that the placement asks for enter its size, and the missing one leaves it open
  cases p with
  | inlineChoice id =>
    obtain ⟨v, hv, rfl⟩ := List.mem_map.mp hkey
    unfold Placement.sizeIn
    dsimp only
    rw [hcat, variantSizeIn_of_none hv hnone', variantSizeIn_of_none hv hnone]
  | inlineRecord id =>
    rw [List.mem_singleton.mp hkey] at hnone hnone'
    unfold Placement.sizeIn
    dsimp only
    rw [hnone, hnone']
  | fixedRecord id =>
    rw [List.mem_singleton.mp hkey] at hnone hnone'
    unfold Placement.sizeIn
    dsimp only
    rw [hnone, hnone']
  | wrapped id carrier kind =>
    rw [List.mem_singleton.mp hkey] at hnone hnone'
    unfold Placement.sizeIn
    dsimp only
    rw [hnone, hnone']
  | _ => cases hkey

/-- Between requests, what has been asked of a size is its last word. -/
theorem Resting.sizedForGood (h : c.Resting) {e : Encoding} (hset : c.Settles (e.asks c.catalog)) :
    c.SizedForGood e (e.sizeIn c) := by
  intro c' hgrows
  rcases hset with hall | ⟨key, hkey, hrun | ⟨err, hfailed⟩⟩
  · exact Encoding.sizeIn_congr hgrows.catalog fun key hkey => hgrows.answered (hall key hkey)
  · exact absurd hrun (h.running key)
  · have hnone : c.answer key = none := Barred.answer (Or.inr ⟨err, hfailed⟩)
    have hnone' : c'.answer key = none :=
      Barred.answer (Or.inr ⟨err, hgrows.layouts _ _ hfailed⟩)
    cases e with
    | placed p marker =>
      have hsame := sizeIn_of_missing hgrows.catalog hkey hnone hnone'
      cases marker with
      | false => exact hsame
      | true =>
        unfold Encoding.sizeIn
        dsimp only
        rw [hsame]
    | _ => cases hkey

/-! ## Asking between requests -/

theorem Request.declared_layout (cat : Catalog) (id : SchemaId) (kind : LayoutKind) :
    (Request.layout id kind).Declared cat :=
  trivial

/-- What a layout was asked for with is kept. -/
theorem Resting.layout_kept (h : c.Resting) (id : SchemaId) (kind : LayoutKind) :
    (outcome (Compiler.layout id kind) c).2.layouts.find? (id, kind) =
      some (.done (outcome (Compiler.layout id kind) c).1) := by
  rw [outcome, layout_eq, ← outcome, Catalog.compileDepth]
  exact layoutWithin_kept (h.running _)

/-- Between requests, any layout may be asked for. -/
def Askable (_ : LayoutKey) : Prop := True

namespace Assured

variable {cat : Catalog}

theorem within (h : Assured cat c) (cur : LayoutKey) :
    Within cat (everyLayout cat cur) cat.compileDepth cur c := by
  have hwithin := h.resting.within cur
  rwa [h.catalog] at hwithin

theorem answers (cat : Catalog) (key : LayoutKey) :
    RecordLayout.Answers (Assured cat) Compiler.layout key := by
  intro c h
  obtain ⟨hret, hkept⟩ := Request.run_assured h (Request.declared_layout cat key.1 key.2)
  obtain ⟨d, -, -, ⟨l, hrun, hl⟩ | ⟨e, hrun, hbar⟩⟩ := Resting.answers key c h.resting
  · have hsame : (Request.layout key.1 key.2).run c = d := by
      rw [Request.run, outcome_of_ok hrun]
    subst hsame
    exact ⟨_, hkept, hret, Or.inl ⟨l, hrun, hl⟩⟩
  · have hsame : (Request.layout key.1 key.2).run c = d := by
      rw [Request.run, outcome_of_error hrun]
    subst hsame
    exact ⟨_, hkept, hret, Or.inr ⟨e, hrun, hbar⟩⟩

theorem keeps (cat : Catalog) (id : SchemaId) (kind : LayoutKind) (_ : Askable (id, kind)) :
    Keeps (Assured cat) (Compiler.layout id kind) (Compiler.layout id kind) (fun _ => True)
      fun _ => True :=
  fun _ h => ⟨((answers cat (id, kind)).leads h).mono fun _ _ _ _ _ => trivial, fun _ _ _ => trivial⟩

/-- The size of an encoding, asked for between requests. -/
theorem size (h : Assured cat c) (e : Encoding) :
    ∃ c', e.size Compiler.layout c = .ok (e.sizeIn c') c' ∧ Assured cat c' ∧ c.Returns c' ∧
      c'.SizedForGood e (e.sizeIn c') := by
  obtain ⟨c', hrun, hkept, hret, hset⟩ := Encoding.size_spec h fun key _ => answers cat key
  refine ⟨c', hrun, hkept, hret, hkept.resting.sizedForGood ?_⟩
  rwa [hret.catalog]

end Assured

end Compiler

/-! ## Binding fields that can be bound -/

section

variable {cat : Catalog} {c : Compiler} {s : Schema} {kind : LayoutKind}

open Compiler

theorem slotOf_bound {name : String} {i : Nat} (h : s.slot? name = some i) (c : Compiler) :
    slotOf s name c = .ok i c := by
  unfold slotOf
  rw [h]
  rfl

theorem slotsOf_bound {names : List String} {slots : List Nat} (h : names.mapM s.slot? = some slots)
    (c : Compiler) : names.mapM (slotOf s) c = .ok slots c := by
  induction names generalizing slots with
  | nil =>
    cases h
    rfl
  | cons name rest ih =>
    simp only [List.mapM_cons, Option.bind_eq_bind, Option.bind_eq_some_iff, Option.pure_def,
      Option.some.injEq] at h
    obtain ⟨first, hfirst, others, hothers, rfl⟩ := h
    rw [List.mapM_cons, bind_of_ok (slotOf_bound hfirst c), bind_of_ok (ih hothers)]
    rfl

theorem bindDerivation_bound {d : Option Derivation} {sd : Option SlotDerivation}
    (h : boundDerivation? s d = some sd) (c : Compiler) : bindDerivation s d c = .ok sd c := by
  cases d with
  | none =>
    cases h
    rfl
  | some d =>
    cases d with
    | lengthOf array =>
      obtain ⟨i, hi, rfl⟩ := Option.map_eq_some_iff.mp h
      exact (bind_of_ok (slotOf_bound hi c)).trans rfl
    | widthOf numbers =>
      obtain ⟨slots, hslots, rfl⟩ := Option.map_eq_some_iff.mp h
      exact (bind_of_ok (slotsOf_bound hslots c)).trans rfl

/-- A field whose placement is known is bound at once. -/
theorem bindEncoding_bound {f : FieldDecl} {e : Encoding} (h : boundEncoding? c s kind f = some e) :
    bindEncoding Compiler.layout s kind f c = .ok e c := by
  unfold boundEncoding? at h
  unfold bindEncoding
  -- only a placed value asks the compiler, which has answered already; slots are looked up by name
  cases hshape : f.shape with
  | value type rule =>
    rw [hshape] at h
    obtain ⟨p, hp, rfl⟩ := Option.map_eq_some_iff.mp h
    have hdone : placementWith Compiler.layout type (kind.placementRule rule) c = .ok p c :=
      outcome_eq_ok.mp (placementWith_done (placementAnswer_eq_some.mp hp))
    exact (bind_of_ok hdone).trans rfl
  | sized size =>
    rw [hshape] at h
    dsimp only at h ⊢
    split at h
    · rename_i hkind
      cases h
      rw [if_pos hkind]
      rfl
    · rename_i hkind
      obtain ⟨i, hi, rfl⟩ := Option.map_eq_some_iff.mp h
      rw [if_neg hkind]
      exact (bind_of_ok (slotOf_bound hi c)).trans rfl
  | array element count =>
    rw [hshape] at h
    dsimp only at h ⊢
    split at h
    · cases h
    · rename_i hkind
      obtain ⟨i, hi, rfl⟩ := Option.map_eq_some_iff.mp h
      rw [if_neg hkind]
      exact (bind_of_ok (slotOf_bound hi c)).trans rfl
  | _ =>
    rw [hshape] at h
    cases h
    rfl

theorem bindField_bound (h : Assured cat c) {slot : Nat} {f : FieldDecl} {b : Binding}
    (hb : boundField? c s kind slot f = some b) (hfix : kind.isFixed = true → c.Fixes b.encoding) :
    ∃ c', bindField Compiler.layout s kind slot f c = .ok b c' ∧ Assured cat c' ∧ c.Returns c' := by
  obtain ⟨hdecl, hslot, hencoding, hneeds, hderivation⟩ := boundField?_eq_some.mp hb
  have hfields : Binding.mk f slot b.encoding b.needs b.derivation = b := by
    rw [← hdecl, ← hslot]
  -- the rest, whether or not the size was checked
  have hrest (d : Compiler) : (do
      let needs ← f.requirements.mapM (slotOf s)
      let derivation ← bindDerivation s f.derivation
      pure (Binding.mk f slot b.encoding needs derivation) : CompileM Binding) d = .ok b d := by
    rw [bind_of_ok (slotsOf_bound hneeds d), bind_of_ok (bindDerivation_bound hderivation d), hfields]
    rfl
  have hstart : bindField Compiler.layout s kind slot f c = (do
      if kind.isFixed then
        let size ← b.encoding.size Compiler.layout
        if !size.isFixed then
          throw (.unsupportedLayout s.name (.field f.name (c.catalog.shapeName f.shape)))
      let needs ← f.requirements.mapM (slotOf s)
      let derivation ← bindDerivation s f.derivation
      pure (Binding.mk f slot b.encoding needs derivation) : CompileM Binding) c := by
    have hcatalog : theCatalog c = .ok c.catalog c := rfl
    rw [bindField, bind_of_ok hcatalog, bind_of_ok (bindEncoding_bound hencoding)]
  rw [hstart]
  by_cases hkind : kind.isFixed = true
  · obtain ⟨c', hrun, hkept, hret, -⟩ := h.size b.encoding
    have hseen : (b.encoding.sizeIn c').isFixed = true := (hfix hkind).grows hret.toGrows
    refine ⟨c', ?_, hkept, hret⟩
    rw [if_pos hkind, bind_of_ok hrun, hseen]
    exact hrest c'
  · refine ⟨c, ?_, h, .refl c⟩
    rw [if_neg hkind]
    exact hrest c

theorem bindFields_bound (h : Assured cat c) (hb : Bindable c s kind) {fields : List FieldDecl}
    (hsub : fields ⊆ s.fields) (slot : Nat) :
    ∃ bs c', bindFields Compiler.layout s kind slot fields c = .ok bs c' ∧ Assured cat c' ∧
      c.Returns c' ∧ boundFields? c s kind slot fields = some bs := by
  induction fields generalizing slot c with
  | nil => exact ⟨[], c, rfl, h, .refl c, rfl⟩
  | cons f rest ih =>
    obtain ⟨b, hbound, hfix⟩ := hb f (hsub List.mem_cons_self)
    have hfield := boundField?_slot hbound slot
    obtain ⟨c₁, hfirst, h₁, hret₁⟩ := bindField_bound h hfield hfix
    obtain ⟨bs, c₂, hothers, h₂, hret₂, hbs⟩ := ih h₁ (hb.grows hret₁.toGrows)
      (fun g hg => hsub (List.mem_cons_of_mem _ hg)) (slot + 1)
    obtain ⟨bs', hbs'⟩ := boundFields?_isSome hb (fun g hg => hsub (List.mem_cons_of_mem _ hg))
      (slot + 1)
    obtain rfl : bs = bs' :=
      Option.some.inj (hbs.symm.trans (boundFields?_grows hret₁.toGrows hbs'))
    refine ⟨{ b with slot := slot } :: bs, c₂, ?_, h₂, hret₁.trans hret₂, ?_⟩
    · rw [bindFields, bind_of_ok hfirst, bind_of_ok hothers]
      rfl
    · simp only [boundFields?, hfield, hbs', Option.bind_eq_bind, Option.bind_some]

/-! ## Compilations whose fields can be bound -/

variable {id : SchemaId}

/-- The failure of a schema whose fields need each other in a circle. -/
def CycleFault (s : Schema) (e : FormatError) : Prop :=
  ∃ names, e = .invalidSchema s.name (.cycle names)

/-- Fields are put in order unless they need each other in a circle. -/
theorem canonicalOrder_ends (h : Assured cat c) (hs : (cat.schema id).Named)
    {bindings : List Binding}
    (hbound : boundFields? c (cat.schema id) kind 0 (cat.schema id).fields = some bindings) :
    Ends (Assured cat) (canonicalOrder Compiler.layout (cat.schema id) bindings) c
      (fun order _ => ¬(cat.schema id).Circular ∧ ∀ slot ∈ order, slot < bindings.length)
      fun e => (cat.schema id).Circular ∧ CycleFault (cat.schema id) e := by
  have hnum := boundFields?_numbered hbound
  have hasks : ∀ b ∈ bindings, Asks c (id, kind) b.encoding := by
    have hcat := h.catalog
    subst hcat
    exact h.resting.good.asks_bound hbound
  have hserve := Resting.serves cat (everyLayout cat (id, kind)) (id, kind)
  -- nothing fails before it is seen how many fields are in order
  have hJ := Keeps.compatible fun d (hd : Assured cat d) => hd.catalog
  have hready : Keeps (Assured cat) (initiallyReady Compiler.layout [] bindings)
      (initiallyReady Compiler.layout [] bindings) (fun _ => True) fun _ => False :=
    hJ.initiallyReady (Assured.keeps cat) (fun _ _ _ _ => trivial) [] fun b hb => hb
  have htake (ready : List Rank) : Keeps (Assured cat)
      (takeReady Compiler.layout bindings bindings.length (bindings.map (·.needs.length)) ready)
      (takeReady Compiler.layout bindings bindings.length (bindings.map (·.needs.length)) ready)
      (fun _ => True) fun _ => False :=
    hJ.takeReady (Assured.keeps cat) (fun _ _ _ _ => trivial) _ _ ready
  rw [canonicalOrder]
  have hfirst := (hready c h).and
    (initiallyReady_leads hserve (h.within _) hnum hasks [] fun b hb => hb)
  refine (hfirst.imp (fun _ _ _ _ hpost => hpost) fun _ => False.elim).bind
    fun ready c₁ h₁ hret₁ hready => ?_
  have hasks₁ : ∀ b ∈ bindings, Asks c₁ (id, kind) b.encoding := fun b hb =>
    (hasks b hb).grows hret₁.toGrows
  have hsecond := (htake ready c₁ h₁).and
    (takeReady_leads hserve (h₁.within _) hnum hasks₁ _ _ ready)
  refine (hsecond.imp (fun _ _ _ _ hpost => hpost) fun _ => False.elim).bind
    fun order c₂ h₂ hret₂ horder => ?_
  -- whichever sizes turn out to vary, this is the order for them
  obtain ⟨c₃, varies, hgrows, hgood, hfit⟩ :=
    hserve.flags (h₂.within _) fun b hb => (hasks₁ b hb).grows hret₂.toGrows
  have heq : order = orderWith (rankWith bindings varies) bindings := by
    rw [horder.2 c₃ varies hgrows hgood hfit,
      hready.2 c₃ varies (hret₂.toGrows.trans hgrows) hgood hfit]
    rfl
  have hrank (i : Nat) : (rankWith bindings varies i).slot = i := rfl
  have hlength := length_orderWith_iff _ hrank hnum (boundFields?_needs_lt hbound)
  rw [← heq, orderable_iff hs hbound] at hlength
  split
  · rename_i hfull
    refine ⟨.pure h₂ ⟨hlength.mp hfull, ?_⟩, fun e d hrun => by cases hrun⟩
    rw [heq]
    exact orderWith_lt _ hrank hnum
  · rename_i hstuck
    refine ⟨.throw h₂, fun e d hrun => ?_⟩
    cases hrun
    exact ⟨not_not.mp (mt hlength.mpr hstuck), _, rfl⟩

/-- Completed fields have sizes that will not change. -/
theorem finishField_leads_final (h : Assured cat c) (s : Schema) (governors : List Nat) (b : Binding) :
    Leads (Assured cat) (finishField Compiler.layout s governors b) c
      fun f c' => f.encoding = b.encoding ∧ c'.SizedForGood b.encoding f.size := by
  rw [finishField]
  refine (Leads.theCatalog h).bind fun _ c₁ h₁ _ _ => ?_
  obtain ⟨c₂, hrun, h₂, hret, hsize⟩ := h₁.size b.encoding
  refine .of_ok ((bind_of_ok hrun).trans rfl) h₂ hret ⟨rfl, hsize⟩

theorem finishFields_ends (h : Assured cat c) (s : Schema) (governors : List Nat)
    {bindings : List Binding} {order : List Nat} (hlt : ∀ slot ∈ order, slot < bindings.length) :
    Ends (Assured cat) (do
      let fields ← bindings.mapM (finishField Compiler.layout s governors)
      pure (order.map fun slot => fields.getD slot default)) c
      (fun fields c' => ∀ f ∈ fields, c'.SizedForGood f.encoding f.size) fun _ => False := by
  have hJ := Keeps.compatible fun d (hd : Assured cat d) => hd.catalog
  have hnone : Keeps (Assured cat) (do
      let fields ← bindings.mapM (finishField Compiler.layout s governors)
      pure (order.map fun slot => fields.getD slot default)) (do
      let fields ← bindings.mapM (finishField Compiler.layout s governors)
      pure (order.map fun slot => fields.getD slot default))
      (fun fields => ∀ f ∈ fields, ∀ key ∈ f.encoding.asks cat, Askable key) fun _ => False :=
    hJ.finishFields (Assured.keeps cat) s governors order fun _ _ _ _ => trivial
  -- the flags of a field are computed from sizes that no longer change
  refine ⟨?_, (hnone c h).fails⟩
  refine (Leads.mapM (fun (b : Binding) (f : BoundField) c' =>
    f.encoding = b.encoding ∧ c'.SizedForGood b.encoding f.size)
    (fun b f d d' hgrows hbf => ⟨hbf.1, hbf.2.grows hgrows⟩) h fun b _ d hd _ =>
      finishField_leads_final hd s governors b).bind fun finished d hd _ hall => .pure hd ?_
  intro f hf
  obtain ⟨slot, hslot, rfl⟩ := List.mem_map.mp hf
  have hfin : slot < finished.length := by
    rw [← hall.length_eq]
    exact hlt slot hslot
  have hbf := (List.forall₂_iff_get.mp hall).2 slot (hlt slot hslot) hfin
  simp only [List.get_eq_getElem] at hbf
  rw [List.getD_eq_getElem _ _ hfin, hbf.1]
  exact hbf.2

theorem compileFields_ends (h : Assured cat c) (hs : (cat.schema id).Named) (hkind : kind.Plain)
    (hb : Bindable c (cat.schema id) kind) :
    Ends (Assured cat) (compileFields Compiler.layout (cat.schema id) kind) c
      (fun fields c' => ¬(cat.schema id).Circular ∧
        ∀ f ∈ fields, c'.SizedForGood f.encoding f.size)
      fun e => (cat.schema id).Circular ∧ CycleFault (cat.schema id) e := by
  rw [compileFields]
  obtain ⟨bindings, c₁, hrun, h₁, hret₁, hbound⟩ := bindFields_bound h hb (fun f hf => hf) 0
  -- binding succeeds, so it ends as any step does that cannot fail
  have hbind : Ends (Assured cat) (bindFields Compiler.layout (cat.schema id) kind 0
      (cat.schema id).fields) c (fun bs c' => bs = bindings ∧ c' = c₁)
      fun e => (cat.schema id).Circular ∧ CycleFault (cat.schema id) e := by
    refine ⟨.of_ok hrun h₁ hret₁ ⟨rfl, rfl⟩, fun e d hfail => ?_⟩
    rw [hrun] at hfail
    cases hfail
  refine hbind.bind fun bs d hd _ hpost => ?_
  obtain ⟨rfl, rfl⟩ := hpost
  refine (canonicalOrder_ends h₁ hs (boundFields?_grows hret₁.toGrows hbound)).bind
    fun order c₂ h₂ _ horder => ?_
  have hfinish : Ends (Assured cat) (do
      let fields ← bs.mapM (finishField Compiler.layout (cat.schema id)
        (bs.filterMap (·.encoding.governor?)))
      pure (order.map fun slot => fields.getD slot default)) c₂
      (fun fields c' => ¬(cat.schema id).Circular ∧
        ∀ f ∈ fields, c'.SizedForGood f.encoding f.size)
      fun e => (cat.schema id).Circular ∧ CycleFault (cat.schema id) e :=
    (finishFields_ends h₂ (cat.schema id) _ horder.2).imp
      (fun _ _ _ _ hsizes => ⟨horder.1, hsizes⟩) fun _ => False.elim
  -- a plain kind chooses no widths, so this is all
  rcases hkind with rfl | rfl
  · exact hfinish
  · exact hfinish

/-- A compilation of a free schema whose fields can be bound, given that its draft has a layout. -/
theorem compileLayout_ends (h : Assured cat c) (hfree : cat.Free id) (hs : (cat.schema id).Named)
    (hkind : kind.Plain) (hb : Bindable c (cat.schema id) kind)
    (hdraft : (cat.schema id).isImmutable = true → ∀ d, Assured cat d →
      Bindable d (cat.schema id) kind → ¬(cat.schema id).Circular →
      Ends (Assured cat) (Compiler.layout id.toDraft kind) d (fun _ _ => True) fun _ => False) :
    Ends (Assured cat) (compileLayout Compiler.layout id kind) c
      (fun l c' => ∀ f ∈ l.fields, c'.SizedForGood f.encoding f.size)
      fun e => (cat.schema id).Circular ∧ CycleFault (cat.schema id) e := by
  have hcat := h.catalog
  subst hcat
  have hflex : (kind.isFixed && c.catalog.standsInItself id) = false := by
    rw [hfree.not_standsInItself, Bool.and_false]
  rw [compileLayout]
  have hcatalog : Ends (Assured c.catalog) theCatalog c (fun cat _ => cat = c.catalog)
      fun e => (c.catalog.schema id).Circular ∧ CycleFault (c.catalog.schema id) e :=
    ⟨(Leads.theCatalog h).mono fun _ _ _ _ ha => ha.2, fun _ _ hrun => by cases hrun⟩
  refine hcatalog.bind fun cat c₁ h₁ hret₁ hcat => ?_
  subst hcat
  simp only [hflex]
  refine (compileFields_ends h₁ hs hkind (hb.grows hret₁.toGrows)).bind
    fun fields c₂ h₂ hret₂ hfields => ?_
  obtain ⟨hline, hsizes⟩ := hfields
  -- all that is left is whether there are references
  have hrest (draft : Option SchemaId) {d : Compiler} (hd : Assured c.catalog d)
      (hret : c₂.Returns d) : Ends (Assured c.catalog) (do
        let holdsChunks ← anyHoldsChunks Compiler.layout fields
        pure {
          schema := id
          schemaName := (c.catalog.schema id).name
          kind
          fields
          size := SizeRange.sum (fields.map (·.size))
          fixedPart := (sizeTerms 0 [] 0 fields).1
          terms := (sizeTerms 0 [] 0 fields).2
          skips := skipSteps 0 0 fields
          holdsChunks
          draft }) d
        (fun (l : Layout) c' => ∀ f ∈ l.fields, c'.SizedForGood f.encoding f.size)
        fun e => (c.catalog.schema id).Circular ∧ CycleFault (c.catalog.schema id) e := by
    have hJ := Keeps.compatible fun d (hd : Assured c.catalog d) => hd.catalog
    have hholds : Keeps (Assured c.catalog) (anyHoldsChunks Compiler.layout fields)
        (anyHoldsChunks Compiler.layout fields) (fun _ => True)
        fun e => (c.catalog.schema id).Circular ∧ CycleFault (c.catalog.schema id) e :=
      hJ.anyHoldsChunks (Assured.keeps c.catalog) fun _ _ _ _ => trivial
    refine (hholds d hd).bind fun holds e he hret' _ => ?_
    refine ⟨.pure he fun f hf => (hsizes f hf).grows (hret.trans hret').toGrows,
      fun _ _ hrun => by cases hrun⟩
  by_cases himm : (c.catalog.schema id).isImmutable = true
  · simp only [himm, if_true, pure_bind]
    have hask := hdraft himm c₂ h₂ (hb.grows (hret₁.trans hret₂).toGrows) hline
    exact (hask.imp (fun _ _ _ _ hpost => hpost) fun _ => False.elim).bind
      fun draft d hd hret _ => hrest (some draft.schema) hd hret
  · simp only [himm, pure_bind]
    exact hrest none h₂ (.refl c₂)

/-- The draft of a free schema has a layout if the fields can be bound and put in order. -/
theorem draftLayout_ends (h : Assured cat c) (hfree : cat.Free id) (hs : (cat.schema id).Named)
    (hkind : kind.Plain) (hb : Bindable c (cat.schema id) kind) (hline : ¬(cat.schema id).Circular) :
    Ends (Assured cat) (Compiler.layout id.toDraft kind) c (fun _ _ => True) fun _ => False := by
  refine ⟨((Assured.keeps cat id.toDraft kind trivial) c h).leads, fun e d hrun => ?_⟩
  obtain ⟨hret, hd⟩ := Request.run_assured h (Request.declared_layout cat id.toDraft kind)
  have hrunD : (Request.layout id.toDraft kind).run c = d := by
    rw [Request.run, outcome_of_error hrun]
  rw [hrunD] at hret hd
  -- the failure is kept, and would come again
  have hkept : d.layouts.find? (id.toDraft, kind) = some (.done (.error e)) := by
    have hfound := h.resting.layout_kept id.toDraft kind
    rw [outcome_of_error hrun] at hfound
    exact hfound
  have hfreeD : d.catalog.Free id.toDraft := by
    rw [hd.catalog]
    exact hfree
  have hagain := hd.conclusive id.toDraft kind _ hfreeD hkept d (.refl d)
  have hsame : Redeclares (cat.schema id) (cat.schema id.toDraft) := ⟨.refl _, hs⟩
  have hfreeDraft : cat.Free id.toDraft := hfree
  have hends := compileLayout_ends hd hfreeDraft hsame.symm.named hkind
    (hsame.bindable.mpr (hb.grows hret.toGrows)) fun himm =>
      (Nat.succ_ne_zero _ (Catalog.draft_eq_zero himm)).elim
  obtain ⟨hcircle, -⟩ := hends.fails e d (outcome_eq_error.mp hagain)
  exact hline (hsame.circular.mp hcircle)

/-- What is kept of a free schema. There is a layout exactly if all fields can be bound and do not need
each other in a circle; its sizes are final. -/
theorem Compiler.Assured.verdict (h : Assured cat c) (hfree : cat.Free id)
    (hs : (cat.schema id).Named) (hkind : kind.Plain) {result : Except FormatError Layout}
    (hkept : c.layouts.find? (id, kind) = some (.done result)) :
    (∀ l, result = .ok l → Bindable c (cat.schema id) kind ∧ ¬(cat.schema id).Circular ∧
      ∀ f ∈ l.fields, f.size = f.encoding.sizeIn c) ∧
    ∀ e, result = .error e → Bindable c (cat.schema id) kind →
      (cat.schema id).Circular ∧ CycleFault (cat.schema id) e := by
  have hfreeC : c.catalog.Free id := by
    rw [h.catalog]
    exact hfree
  have hagain := h.conclusive id kind _ hfreeC hkept c (.refl c)
  have hends (hb : Bindable c (cat.schema id) kind) := compileLayout_ends h hfree hs hkind hb
    fun _ d hd hbd hline => draftLayout_ends hd hfree hs hkind hbd hline
  refine ⟨fun l hl => ?_, fun e he hb => ?_⟩
  · subst hl
    have hgood := h.resting.good.layouts id kind l (answer_eq_some.mpr hkept)
    rw [← h.catalog] at hs ⊢
    obtain ⟨hb, hline⟩ := hgood.bindable hs hkind
    refine ⟨hb, hline, fun f hf => ?_⟩
    rw [h.catalog] at hb
    obtain ⟨-, -, hsizes⟩ := (hends hb).leads.ok (outcome_eq_ok.mp hagain)
    exact (hsizes f hf c (.refl c)).symm
  · subst he
    exact (hends hb).fails e c (outcome_eq_error.mp hagain)

end

end RecordLayout
