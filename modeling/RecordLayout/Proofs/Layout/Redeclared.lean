import Mathlib
import RecordLayout.Proofs.Layout.Canonical
import RecordLayout.Proofs.Layout.Running

/-!
# Declarations in another order

A layout has the fields of its schema in canonical order, each bound as it is declared. Declaring the
same fields in another order moves the slots, and with them the governors and the sources of
derivations, and changes nothing else: whether the fields can be bound, whether they need each other in
a circle, and the order itself stay the same.

Main results:

* `orderable_iff` — fields can be put in order exactly if the graph of their names has no cycle;
* `FieldsGood.canonical` — the fields of a good layout are in canonical order;
* `Redeclares.bindable`, `Redeclares.circular` — what does not depend on the order of declaration;
* `FieldsGood.redeclared` — layouts of the same fields in another order.
-/

namespace RecordLayout

/-! ## Fields and their names -/

/-- No two fields have one name. -/
def Schema.Named (s : Schema) : Prop := (s.fields.map (·.name)).Nodup

/-- The fields of the second schema are those of the first one, perhaps in another order. -/
structure Redeclares (s s' : Schema) : Prop where
  perm : s'.fields.Perm s.fields
  named : s.Named

/-- The slot of a field in another schema with the same fields. -/
def Schema.moved (s s' : Schema) (slot : Nat) : Nat :=
  (s.fields[slot]?.bind fun f => s'.slot? f.name).getD slot

/-- A field names another one among those that it needs. -/
def Schema.Needs (s : Schema) (name needed : String) : Prop :=
  ∃ f ∈ s.fields, f.name = name ∧ needed ∈ f.requirements

/-- Some field needs itself, by way of other fields: the graph of dependencies, governors among them,
has a cycle. -/
def Schema.Circular (s : Schema) : Prop := ∃ name, Relation.TransGen s.Needs name name

section

variable {s s' : Schema}

/-- Redeclaring in another order goes both ways. -/
theorem Redeclares.symm (h : Redeclares s s') : Redeclares s' s := by
  refine ⟨h.perm.symm, ?_⟩
  unfold Schema.Named
  rw [(h.perm.map (·.name)).nodup_iff]
  exact h.named

/-- A schema whose names differ has different fields. -/
theorem Schema.Named.nodup (h : s.Named) : s.fields.Nodup := List.Nodup.of_map _ h

/-- A name's slot is that of the field with the name. -/
theorem Schema.Named.slot?_iff (h : s.Named) {name : String} {i : Nat} :
    s.slot? name = some i ↔ ∃ f, s.fields[i]? = some f ∧ f.name = name := by
  unfold Schema.slot?
  rw [List.findIdx?_eq_some_iff_getElem]
  constructor
  · rintro ⟨hi, hname, -⟩
    exact ⟨_, List.getElem?_eq_getElem hi, by simpa using hname⟩
  · rintro ⟨f, hf, rfl⟩
    obtain ⟨hi, rfl⟩ := List.getElem?_eq_some_iff.mp hf
    refine ⟨hi, by simp, fun j hj hsame => ?_⟩
    have hi' : i < (s.fields.map (·.name)).length := by simpa using hi
    have hj' : j < (s.fields.map (·.name)).length := by omega
    have heq : (s.fields.map (·.name))[j] = (s.fields.map (·.name))[i] := by simpa using hsame
    have hindex := (List.Nodup.getElem_inj_iff h).mp heq
    omega

/-- A field has the slot at which it is declared. -/
theorem Schema.Named.slot?_name (h : s.Named) {f : FieldDecl} (hf : f ∈ s.fields) :
    ∃ i, s.fields[i]? = some f ∧ s.slot? f.name = some i := by
  obtain ⟨i, hi⟩ := List.mem_iff_getElem?.mp hf
  exact ⟨i, hi, h.slot?_iff.mpr ⟨f, hi, rfl⟩⟩

/-- A name's slot moves with its field. -/
theorem Redeclares.slot? (h : Redeclares s s') (name : String) :
    s'.slot? name = (s.slot? name).map (s.moved s') := by
  cases hslot : s.slot? name with
  | some i =>
    obtain ⟨f, hf, rfl⟩ := h.named.slot?_iff.mp hslot
    obtain ⟨j, -, hj⟩ := h.symm.named.slot?_name (h.perm.mem_iff.mpr (List.mem_of_getElem? hf))
    simp only [Schema.moved, hf, hj, Option.map_some, Option.bind_some, Option.getD_some]
  | none =>
    rw [Option.map_none]
    unfold Schema.slot? at *
    rw [List.findIdx?_eq_none_iff] at *
    exact fun f hf => hslot f (h.perm.mem_iff.mp hf)

/-- Names have slots when each of them has one. -/
theorem slots_iff {names : List String} {slots : List Nat} :
    names.mapM s.slot? = some slots ↔ List.Forall₂ (fun n i => s.slot? n = some i) names slots := by
  induction names generalizing slots with
  | nil =>
    cases slots with
    | nil => simp
    | cons i slots => simp
  | cons name rest ih =>
    simp only [List.mapM_cons, Option.bind_eq_bind, Option.bind_eq_some_iff, Option.pure_def,
      Option.some.injEq]
    constructor
    · rintro ⟨i, hi, others, hothers, rfl⟩
      exact .cons hi (ih.mp hothers)
    · rintro (_ | ⟨hi, hothers⟩)
      exact ⟨_, hi, _, ih.mpr hothers, rfl⟩

/-- What a field needs, by slots and by names. -/
theorem mem_slots_iff {names : List String} {slots : List Nat}
    (h : names.mapM s.slot? = some slots) (i : Nat) :
    i ∈ slots ↔ ∃ n ∈ names, s.slot? n = some i := by
  induction names generalizing slots with
  | nil =>
    cases h
    simp
  | cons name rest ih =>
    cases slots_iff.mp h with
    | cons hfirst hrest =>
      rw [List.mem_cons, ih (slots_iff.mpr hrest), List.exists_mem_cons_iff, hfirst,
        Option.some.injEq, eq_comm]

/-- The slots of some names move with their fields. -/
theorem slots_moved (h : Redeclares s s') (names : List String) :
    names.mapM s'.slot? = (names.mapM s.slot?).map (List.map (s.moved s')) := by
  induction names with
  | nil => rfl
  | cons name rest ih =>
    simp only [List.mapM_cons, Option.bind_eq_bind, Option.pure_def, h.slot?, ih]
    cases s.slot? name with
    | none => rfl
    | some i => cases rest.mapM s.slot? <;> rfl

/-- A cycle of needs does not depend on the order of declaration. -/
theorem Redeclares.circular (h : Redeclares s s') : s'.Circular ↔ s.Circular := by
  have hneeds : s'.Needs = s.Needs := by
    funext name needed
    simp only [Schema.Needs, h.perm.mem_iff]
  unfold Schema.Circular
  rw [hneeds]

end

/-! ## Bound fields -/

section

variable {c : Compiler} {s : Schema} {kind : LayoutKind}

/-- All fields of a schema can be bound; in a layout of fixed width, so that their sizes are fixed. -/
def Bindable (c : Compiler) (s : Schema) (kind : LayoutKind) : Prop :=
  ∀ f ∈ s.fields, ∃ b, boundField? c s kind 0 f = some b ∧ (kind.isFixed = true → c.Fixes b.encoding)

/-- What can be bound can be bound later. -/
theorem Bindable.grows {c' : Compiler} (h : c.Grows c') (hb : Bindable c s kind) :
    Bindable c' s kind := by
  intro f hf
  obtain ⟨b, hbound, hfix⟩ := hb f hf
  exact ⟨b, boundField?_grows h hbound, fun hkind => (hfix hkind).grows h⟩

/-- Where a field stands does not matter to how it is bound. -/
theorem boundField?_slot {slot : Nat} {f : FieldDecl} {b : Binding}
    (h : boundField? c s kind slot f = some b) (slot' : Nat) :
    boundField? c s kind slot' f = some { b with slot := slot' } := by
  obtain ⟨hdecl, -, hrest⟩ := boundField?_eq_some.mp h
  exact boundField?_eq_some.mpr ⟨hdecl, rfl, hrest⟩

/-- Fields that can be bound are bound, whatever slot comes first. -/
theorem boundFields?_isSome (h : Bindable c s kind) {fields : List FieldDecl} (hsub : fields ⊆ s.fields)
    (slot : Nat) : ∃ bs, boundFields? c s kind slot fields = some bs := by
  induction fields generalizing slot with
  | nil => exact ⟨[], rfl⟩
  | cons f rest ih =>
    obtain ⟨b, hb, -⟩ := h f (hsub List.mem_cons_self)
    obtain ⟨bs, hbs⟩ := ih (fun g hg => hsub (List.mem_cons_of_mem _ hg)) (slot + 1)
    refine ⟨{ b with slot := slot } :: bs, ?_⟩
    simp only [boundFields?, boundField?_slot hb slot, hbs, Option.bind_eq_bind, Option.bind_some]

/-- Fields that are bound can be bound. -/
theorem bindable_of_bound {bs : List Binding} (hbound : boundFields? c s kind 0 s.fields = some bs)
    (hfix : kind.isFixed = true → ∀ b ∈ bs, c.Fixes b.encoding) : Bindable c s kind := by
  intro f hf
  obtain ⟨i, hi⟩ := List.mem_iff_getElem?.mp hf
  obtain ⟨b, hb, hfield⟩ := (boundFields?_spec hbound).2 i f hi
  exact ⟨_, boundField?_slot hfield 0, fun hkind => hfix hkind b (List.mem_of_getElem? hb)⟩

section

variable (hs : s.Named) {bs : List Binding} (hbound : boundFields? c s kind 0 s.fields = some bs)

include hbound

/-- The slots that a field needs are those of the names that it needs. -/
theorem mem_needsOf_iff {i : Nat} {f : FieldDecl} (hf : s.fields[i]? = some f) (j : Nat) :
    j ∈ needsOf bs i ↔ ∃ n ∈ f.requirements, s.slot? n = some j := by
  obtain ⟨b, hb, hfield⟩ := (boundFields?_spec hbound).2 i f hf
  rw [needsOf, hb]
  exact mem_slots_iff (boundField?_eq_some.mp hfield).2.2.2.1 j

/-- What a bound field needs is declared. -/
theorem slot?_of_needs {f : FieldDecl} (hf : f ∈ s.fields) {n : String} (hn : n ∈ f.requirements) :
    ∃ j, s.slot? n = some j := by
  obtain ⟨i, hi⟩ := List.mem_iff_getElem?.mp hf
  obtain ⟨b, -, hfield⟩ := (boundFields?_spec hbound).2 i f hi
  have hall := slots_iff.mp (boundField?_eq_some.mp hfield).2.2.2.1
  obtain ⟨k, hk, rfl⟩ := List.getElem_of_mem hn
  exact ⟨_, (List.forall₂_iff_get.mp hall).2 k hk (by rwa [← hall.length_eq])⟩

include hs

/-- A way from name to name is one from slot to slot. -/
theorem neededBy_of_needs {a b : String} (h : Relation.TransGen s.Needs a b) {i : Nat}
    (hi : s.slot? a = some i) : ∃ j, s.slot? b = some j ∧ Relation.TransGen (NeededBy bs) j i := by
  have hstep {a b : String} (hab : s.Needs a b) {i : Nat} (hi : s.slot? a = some i) :
      ∃ j, s.slot? b = some j ∧ NeededBy bs j i := by
    obtain ⟨f, hf, rfl, hb⟩ := hab
    obtain ⟨i', hi', hslot⟩ := hs.slot?_name hf
    obtain rfl := Option.some.inj (hslot.symm.trans hi)
    obtain ⟨j, hj⟩ := slot?_of_needs hbound hf hb
    exact ⟨j, hj, (mem_needsOf_iff hbound hi' j).mpr ⟨b, hb, hj⟩⟩
  induction h with
  | single hlast =>
    obtain ⟨j, hj, hji⟩ := hstep hlast hi
    exact ⟨j, hj, .single hji⟩
  | tail _ hlast ih =>
    obtain ⟨j, hj, hji⟩ := ih
    obtain ⟨k, hk, hkj⟩ := hstep hlast hj
    exact ⟨k, hk, .head hkj hji⟩

/-- A way from slot to slot is one from name to name. -/
theorem needs_of_neededBy {i j : Nat} (h : Relation.TransGen (NeededBy bs) j i) :
    ∃ a b, s.slot? a = some i ∧ s.slot? b = some j ∧ Relation.TransGen s.Needs a b := by
  have hstep {i j : Nat} (hji : NeededBy bs j i) :
      ∃ a b, s.slot? a = some i ∧ s.slot? b = some j ∧ s.Needs a b := by
    have hi : i < bs.length := by
      by_contra hout
      rw [NeededBy, needsOf, List.getElem?_eq_none (by omega)] at hji
      exact List.not_mem_nil hji
    obtain ⟨f, hf, -⟩ := boundFields?_getElem hbound hi
    obtain ⟨n, hn, hj⟩ := (mem_needsOf_iff hbound hf j).mp hji
    exact ⟨f.name, n, hs.slot?_iff.mpr ⟨f, hf, rfl⟩, hj, f, List.mem_of_getElem? hf, rfl, hn⟩
  induction h using Relation.TransGen.head_induction_on with
  | single hlast =>
    obtain ⟨a, b, ha, hb, hab⟩ := hstep hlast
    exact ⟨a, b, ha, hb, .single hab⟩
  | head hfirst _ ih =>
    obtain ⟨a, m, ha, hm, ham⟩ := ih
    obtain ⟨m', b, hm', hb, hmb⟩ := hstep hfirst
    -- the name of a slot is the only one with that slot
    obtain ⟨f, hf, rfl⟩ := hs.slot?_iff.mp hm
    obtain ⟨g, hg, rfl⟩ := hs.slot?_iff.mp hm'
    obtain rfl := Option.some.inj (hg.symm.trans hf)
    exact ⟨a, b, ha, hb, ham.tail hmb⟩

/-- Bound fields can be put in order exactly if no field needs itself. -/
theorem orderable_iff : Orderable bs ↔ ¬s.Circular := by
  have hlen := (boundFields?_spec hbound).1
  have hlt := boundFields?_needs_lt hbound
  constructor
  · rintro horder ⟨name, hcycle⟩
    obtain ⟨next, ⟨f, hf, rfl, -⟩, -⟩ := Relation.TransGen.head'_iff.mp hcycle
    obtain ⟨i, -, hi⟩ := hs.slot?_name hf
    obtain ⟨j, hj, hback⟩ := neededBy_of_needs hs hbound hcycle hi
    obtain rfl := Option.some.inj (hj.symm.trans hi)
    exact not_rel_self_of_acc (horder j (by rw [hlen]; exact slot?_lt hi)).transGen hback
  · intro hfree slot hslot
    have hirrefl (i : Nat) : ¬Relation.TransGen (NeededBy bs) i i := by
      intro hcycle
      obtain ⟨a, b, ha, hb, hab⟩ := needs_of_neededBy hs hbound hcycle
      obtain ⟨f, hf, rfl⟩ := hs.slot?_iff.mp ha
      obtain ⟨g, hg, rfl⟩ := hs.slot?_iff.mp hb
      obtain rfl := Option.some.inj (hg.symm.trans hf)
      exact hfree ⟨g.name, hab⟩
    -- there are finitely many slots, so a relation without circles is well-founded
    let before (i j : Fin bs.length) : Prop := Relation.TransGen (NeededBy bs) i j
    have htrans : IsTrans (Fin bs.length) before := ⟨fun _ _ _ => Relation.TransGen.trans⟩
    have hirr : Std.Irrefl before := ⟨fun i => hirrefl i⟩
    have hwf : WellFounded before := Finite.wellFounded_of_trans_of_irrefl before
    have hacc := hwf.apply ⟨slot, hslot⟩
    generalize hi : (⟨slot, hslot⟩ : Fin bs.length) = i at hacc
    induction hacc generalizing slot with
    | intro i _ ih =>
      subst hi
      exact Acc.intro _ fun n hn => ih ⟨n, hlt slot n hn⟩ (.single hn) n (hlt slot n hn) rfl

end

end

/-! ## The fields of a good layout -/

/-- The size of a field varies. -/
def Compiler.VariesIn (c : Compiler) (s : Schema) (kind : LayoutKind) (f : FieldDecl) : Prop :=
  ∃ e, boundEncoding? c s kind f = some e ∧ c.Varies e

/-- A layout whose widths are not chosen. -/
def LayoutKind.Plain (kind : LayoutKind) : Prop := kind = .standard ∨ kind = .fixed

section

variable {c : Compiler} {s : Schema} {kind : LayoutKind}

/-- A plain kind widens nothing. -/
theorem LayoutKind.Plain.widened (h : kind.Plain) (bindings : List Binding) (order : List Nat) :
    widened kind bindings order = bindings := by
  rcases h with rfl | rfl <;> rfl

/-- A flag says whether the size of its field varies. -/
theorem flag_iff (hc : c.Good) {bindings : List Binding} {varies : Nat → Bool}
    (hfit : FlagsFit c bindings varies) {i : Nat} {hi : i < bindings.length} {f : FieldDecl}
    (hf : boundField? c s kind i f = some bindings[i]) : varies i = true ↔ c.VariesIn s kind f := by
  have hencoding := (boundField?_eq_some.mp hf).2.2.1
  rcases hfit.fit i hi with ⟨hflag, hfix⟩ | ⟨hflag, hv⟩
  · rw [hflag]
    refine ⟨fun h => (Bool.false_ne_true h).elim, ?_⟩
    rintro ⟨e, he, hv⟩
    obtain rfl := Option.some.inj (hencoding.symm.trans he)
    exact (hv.not_fixes hc hfix).elim
  · exact ⟨fun _ => ⟨_, hencoding, hv⟩, fun _ => hflag⟩

theorem goesBefore_of_rank {bindings : List Binding} {varies : Nat → Bool} {i j : Nat}
    {hi : i < bindings.length} {hj : j < bindings.length} {f g : FieldDecl}
    {v : FieldDecl → Prop} (hf : varies i = true ↔ v f) (hg : varies j = true ↔ v g)
    (hfi : bindings[i].decl = f) (hgj : bindings[j].decl = g) (hne : f.name ≠ g.name)
    (h : (rankWith bindings varies j).before (rankWith bindings varies i) = false) :
    GoesBefore v f g := by
  rw [Bool.eq_false_iff, ne_eq, Rank.before_iff] at h
  simp only [rankWith, List.getD_eq_getElem _ _ hi, List.getD_eq_getElem _ _ hj, hfi, hgj] at h
  rw [GoesBefore, ← hf, ← hg]
  push Not at h
  obtain ⟨hvaries, hname, -⟩ := h
  by_cases hsame : varies j = varies i
  · refine Or.inr ⟨by rw [hsame], ?_⟩
    exact lt_of_le_of_ne (hname hsame) hne
  · refine Or.inl ?_
    cases hvi : varies i <;> cases hvj : varies j <;> simp_all

/-- The fields of a good layout are those of the schema in canonical order, each bound as it is
declared. -/
theorem FieldsGood.canonical (hc : c.Good) (hs : s.Named) (hkind : kind.Plain)
    {fields : List BoundField} (h : FieldsGood c s kind fields) :
    ∃ decls, CanonicalOrder s.fields (c.VariesIn s kind) decls ∧
      List.Forall₂ (fun decl f => FieldGood c s kind decl f ∧
        boundEncoding? c s kind decl = some f.encoding) decls fields := by
  have hdeclared {f : BoundField} (hf : f ∈ fields) := h.declared hf
  obtain ⟨bindings, varies, finished, hbound, hfit, hlen, hall, hfields⟩ := h
  rw [hkind.widened] at hall
  have hnum := boundFields?_numbered hbound
  have hcount := (boundFields?_spec hbound).1
  have hrank (i : Nat) : (rankWith bindings varies i).slot = i := rfl
  have hperm := orderWith_perm _ hrank hnum hlen
  have hin {slot : Nat} (hslot : slot ∈ orderWith (rankWith bindings varies) bindings) :
      slot < bindings.length := List.mem_range.mp (hperm.mem_iff.mp hslot)
  have hdecl {slot : Nat} (hslot : slot ∈ orderWith (rankWith bindings varies) bindings) :
      ∃ f, s.fields[slot]? = some f ∧ s.fields.getD slot default = f ∧
        boundField? c s kind slot f = some (bindings.get ⟨slot, hin hslot⟩) := by
    obtain ⟨f, hf, hfield⟩ := boundFields?_getElem hbound (hin hslot)
    refine ⟨f, hf, ?_, hfield⟩
    rw [List.getD_eq_getElem?_getD, hf, Option.getD_some]
  -- a name among those of some slots has one of these slots
  have hnames {slots : List Nat} (hsub : slots ⊆ orderWith (rankWith bindings varies) bindings)
      {n : String} {j : Nat} (hj : s.slot? n = some j) :
      n ∈ (slots.map fun i => s.fields.getD i default).map (·.name) ↔ j ∈ slots := by
    obtain ⟨f, hf, rfl⟩ := hs.slot?_iff.mp hj
    rw [List.map_map, List.mem_map]
    constructor
    · rintro ⟨i, hi, hname⟩
      obtain ⟨g, hg, hget, -⟩ := hdecl (hsub hi)
      have hslot : s.slot? f.name = some i := by
        refine hs.slot?_iff.mpr ⟨g, hg, ?_⟩
        rw [← hget]
        exact hname
      rw [hj] at hslot
      cases hslot
      exact hi
    · intro hmem
      refine ⟨j, hmem, ?_⟩
      rw [Function.comp_apply, List.getD_eq_getElem?_getD, hf, Option.getD_some]
  refine ⟨(orderWith (rankWith bindings varies) bindings).map fun i => s.fields.getD i default,
    ⟨?_, ?_, ?_⟩, ?_⟩
  · have hfull : (List.range bindings.length).map (fun i => s.fields.getD i default) = s.fields := by
      rw [hcount]
      refine List.ext_getElem (by simp) fun i hi _ => ?_
      rw [List.getElem_map, List.getElem_range, List.getD_eq_getElem]
    have hmap := hperm.map fun i => s.fields.getD i default
    rwa [hfull] at hmap
  · intro before f after heq n hn
    obtain ⟨first, last, horder, rfl, hlast⟩ := List.map_eq_append_iff.mp heq
    obtain ⟨slot, rest, rfl, rfl, rfl⟩ := List.map_eq_cons_iff.mp hlast
    obtain ⟨f, hf, hget, -⟩ := hdecl (by rw [horder]; simp : slot ∈ _)
    rw [hget] at hn
    obtain ⟨j, hj⟩ := slot?_of_needs hbound (List.mem_of_getElem? hf) hn
    rw [hnames (by rw [horder]; simp) hj]
    exact orderWith_needs _ hrank hnum horder j ((mem_needsOf_iff hbound hf j).mpr ⟨n, hn, hj⟩)
  · intro before f after heq g hg hready
    obtain ⟨first, last, horder, rfl, hlast⟩ := List.map_eq_append_iff.mp heq
    obtain ⟨slot, rest, rfl, rfl, rfl⟩ := List.map_eq_cons_iff.mp hlast
    obtain ⟨i, hi, rfl⟩ := List.mem_map.mp hg
    have hslotIn : slot ∈ orderWith (rankWith bindings varies) bindings := by rw [horder]; simp
    have hiIn : i ∈ orderWith (rankWith bindings varies) bindings := by rw [horder]; simp [hi]
    obtain ⟨f, hf, hfget, hfbound⟩ := hdecl hslotIn
    obtain ⟨g, hgdecl, hgget, hgbound⟩ := hdecl hiIn
    have hnodup := orderWith_nodup (rankWith bindings varies) hrank hnum
    rw [horder] at hnodup
    have hnew : i ∉ first := fun hmem =>
      List.disjoint_of_nodup_append hnodup hmem (List.mem_cons_of_mem _ hi)
    have hne : i ≠ slot := by
      rintro rfl
      exact (List.nodup_cons.mp (List.nodup_append'.mp hnodup).2.1).1 hi
    rw [hgget] at hready ⊢
    rw [hfget]
    have hearly := orderWith_first hrank hnum horder (hin hiIn) hnew fun n hn => by
      obtain ⟨m, hm, hmn⟩ := (mem_needsOf_iff hbound hgdecl n).mp hn
      exact (hnames (by rw [horder]; simp) hmn).mp (hready m hm)
    refine goesBefore_of_rank (flag_iff hc hfit hfbound) (flag_iff hc hfit hgbound)
      (boundField?_eq_some.mp hfbound).1
      (boundField?_eq_some.mp hgbound).1 (fun hsame => hne ?_) hearly
    have hgslot := hs.slot?_iff.mpr ⟨g, hgdecl, rfl⟩
    rw [← hsame, hs.slot?_iff.mpr ⟨f, hf, rfl⟩] at hgslot
    exact (Option.some.inj hgslot).symm
  · rw [hfields, List.forall₂_map_left_iff, List.forall₂_map_right_iff, List.forall₂_same]
    intro slot hslot
    obtain ⟨f, hf, hget, hfield⟩ := hdecl hslot
    have hfin : slot < finished.length := by
      rw [← hall.length_eq]
      exact hin hslot
    have hfrom := ((List.forall₂_iff_get.mp hall).2 slot (hin hslot) hfin).1
    simp only [List.get_eq_getElem] at hfrom
    have hmem : finished.getD slot default ∈ fields := by
      rw [hfields]
      exact List.mem_map.mpr ⟨slot, hslot, rfl⟩
    obtain ⟨decl, hgood⟩ := hdeclared hmem
    have hsame : decl = f := by
      have hd := hgood.declared
      rw [List.getD_eq_getElem _ _ hfin, hfrom.slot, hnum slot (hin hslot), hf] at hd
      exact (Option.some.inj hd).symm
    subst hsame
    rw [hget]
    refine ⟨hgood, ?_⟩
    rw [List.getD_eq_getElem _ _ hfin, hfrom.encoding]
    exact (boundField?_eq_some.mp hfield).2.2.1

/-- A schema with a layout can be bound, and no field of it needs itself. -/
theorem LayoutGood.bindable {id : SchemaId} (hs : (c.catalog.schema id).Named) (hkind : kind.Plain)
    {l : Layout} (h : LayoutGood c id kind l) :
    Bindable c (c.catalog.schema id) kind ∧ ¬(c.catalog.schema id).Circular := by
  have hfixed := h.fixed
  obtain ⟨bindings, varies, finished, hbound, -, hlen, hall, hfields⟩ := h.fields
  rw [hkind.widened] at hall
  have hnum := boundFields?_numbered hbound
  have hrank (i : Nat) : (rankWith bindings varies i).slot = i := rfl
  refine ⟨bindable_of_bound hbound fun hfix b hb => ?_, ?_⟩
  · -- every binding has become a field
    obtain ⟨i, hi, rfl⟩ := List.getElem_of_mem hb
    have hi' : i < finished.length := by rwa [← hall.length_eq]
    have hslot : i ∈ orderWith (rankWith bindings varies) bindings :=
      (orderWith_perm _ hrank hnum hlen).mem_iff.mpr (List.mem_range.mpr hi)
    have hfrom := ((List.forall₂_iff_get.mp hall).2 i hi hi').1
    simp only [List.get_eq_getElem] at hfrom
    rw [← hfrom.encoding]
    refine hfixed hfix _ ?_
    rw [hfields]
    exact List.mem_map.mpr ⟨i, hslot, List.getD_eq_getElem _ _ hi'⟩
  · rw [← orderable_iff hs hbound]
    exact (length_orderWith_iff _ hrank hnum (boundFields?_needs_lt hbound)).mp hlen

end

/-! ## Other slots -/

/-- The encoding of a field whose governor has another slot. -/
def Encoding.moved (σ : Nat → Nat) : Encoding → Encoding
  | .sized governor => .sized (σ governor)
  | .array element governor => .array element (σ governor)
  | other => other

/-- The derivation of a field whose sources have other slots. -/
def SlotDerivation.moved (σ : Nat → Nat) : SlotDerivation → SlotDerivation
  | .lengthOf array => .lengthOf (σ array)
  | .widthOf numbers => .widthOf (numbers.map σ)

section

variable {c : Compiler} {s s' : Schema} {kind : LayoutKind}

/-- Moving slots does not change what an encoding asks for. -/
theorem Encoding.asks_moved (σ : Nat → Nat) (cat : Catalog) (e : Encoding) :
    (e.moved σ).asks cat = e.asks cat := by
  cases e <;> rfl

/-- Moving slots does not change an encoding's size. -/
theorem Encoding.sizeIn_moved (σ : Nat → Nat) (c : Compiler) (e : Encoding) :
    (e.moved σ).sizeIn c = e.sizeIn c := by
  cases e <;> rfl

/-- Moving slots does not change whether a size is fixed. -/
theorem Compiler.fixes_moved (σ : Nat → Nat) (e : Encoding) : c.Fixes (e.moved σ) ↔ c.Fixes e := by
  unfold Fixes
  rw [Encoding.sizeIn_moved]

/-- Moving slots does not change whether a size varies. -/
theorem Compiler.varies_moved (σ : Nat → Nat) (e : Encoding) :
    c.Varies (e.moved σ) ↔ c.Varies e := by
  unfold Varies
  rw [Encoding.asks_moved, fixes_moved]

/-- A field's encoding moves with the slots it names. -/
theorem boundEncoding?_moved (h : Redeclares s s') (f : FieldDecl) :
    boundEncoding? c s' kind f = (boundEncoding? c s kind f).map (·.moved (s.moved s')) := by
  unfold boundEncoding?
  -- only sized numbers and arrays look a name up, and its slot moves with the name
  cases f.shape with
  | sized size =>
    dsimp only
    split
    · rfl
    · rw [h.slot?]
      cases s.slot? size <;> rfl
  | array element count =>
    dsimp only
    split
    · rfl
    · rw [h.slot?]
      cases s.slot? count <;> rfl
  | value type rule =>
    dsimp only
    cases c.placementAnswer (type.key, kind.placementRule rule) <;> rfl
  | varint =>
    dsimp only
    split <;> rfl
  | _ => rfl

/-- A field's derivation moves with the slots it names. -/
theorem boundDerivation?_moved (h : Redeclares s s') (d : Option Derivation) :
    boundDerivation? s' d =
      (boundDerivation? s d).map (Option.map (SlotDerivation.moved (s.moved s'))) := by
  cases d with
  | none => rfl
  | some d =>
    cases d with
    | lengthOf array =>
      unfold boundDerivation?
      dsimp only
      rw [h.slot?]
      cases s.slot? array <;> rfl
    | widthOf numbers =>
      unfold boundDerivation?
      dsimp only
      rw [slots_moved h]
      cases numbers.mapM s.slot? <;> rfl

/-- A field of a schema with the same fields in another order is bound in the same way. -/
theorem boundField?_moved (h : Redeclares s s') {slot : Nat} {f : FieldDecl} {b : Binding}
    (hb : boundField? c s kind slot f = some b) : boundField? c s' kind slot f =
      some ⟨b.decl, b.slot, b.encoding.moved (s.moved s'), b.needs.map (s.moved s'),
        b.derivation.map (SlotDerivation.moved (s.moved s'))⟩ := by
  obtain ⟨hdecl, hslot, hencoding, hneeds, hderivation⟩ := boundField?_eq_some.mp hb
  refine boundField?_eq_some.mpr ⟨hdecl, hslot, ?_, ?_, ?_⟩
  · rw [boundEncoding?_moved h, hencoding, Option.map_some]
  · rw [slots_moved h, hneeds, Option.map_some]
  · rw [boundDerivation?_moved h, hderivation, Option.map_some]

/-- What can be bound in one order can be bound in the other. -/
theorem Bindable.moved (h : Redeclares s s') (hb : Bindable c s kind) : Bindable c s' kind := by
  intro f hf
  obtain ⟨b, hbound, hfix⟩ := hb f (h.perm.mem_iff.mp hf)
  exact ⟨_, boundField?_moved h hbound, fun hkind => (Compiler.fixes_moved _ _).mpr (hfix hkind)⟩

/-- Whether a schema can be bound does not depend on the order of declaration. -/
theorem Redeclares.bindable (h : Redeclares s s') : Bindable c s' kind ↔ Bindable c s kind :=
  ⟨fun hb => hb.moved h.symm, fun hb => hb.moved h⟩

/-- Whether a slot varies does not depend on the order of declaration. -/
theorem Compiler.variesIn_moved (h : Redeclares s s') : c.VariesIn s' kind = c.VariesIn s kind := by
  funext f
  refine propext ?_
  unfold VariesIn
  rw [boundEncoding?_moved h]
  constructor
  · rintro ⟨e, he, hv⟩
    obtain ⟨e₀, he₀, rfl⟩ := Option.map_eq_some_iff.mp he
    exact ⟨e₀, he₀, (varies_moved _ _).mp hv⟩
  · rintro ⟨e, he, hv⟩
    exact ⟨_, by rw [he, Option.map_some], (varies_moved _ _).mpr hv⟩

/-- A field and the field that stands for the same declaration in another order. -/
structure SameDecl (s s' : Schema) (f f' : BoundField) : Prop where
  live : f.slot < s.fields.length
  slot : f'.slot = s.moved s' f.slot
  name : f'.name = f.name
  nullable : f'.nullable = f.nullable
  encoding : f'.encoding = f.encoding.moved (s.moved s')
  derivation : f'.derivation = f.derivation.map (SlotDerivation.moved (s.moved s'))
  governor : ∀ g, f.encoding.governor? = some g → g < s.fields.length
  sources : ∀ d, f.derivation = some d → ∀ n ∈ d.sources, n < s.fields.length

/-- Layouts of schemas with the same fields have the same fields in the same order. -/
theorem FieldsGood.redeclared (hc : c.Good) (h : Redeclares s s') (hkind : kind.Plain)
    {fields fields' : List BoundField} (hf : FieldsGood c s kind fields)
    (hf' : FieldsGood c s' kind fields') : List.Forall₂ (SameDecl s s') fields fields' := by
  obtain ⟨decls, hdecls, hall⟩ := hf.canonical hc h.named hkind
  obtain ⟨decls', hdecls', hall'⟩ := hf'.canonical hc h.symm.named hkind
  rw [Compiler.variesIn_moved h] at hdecls'
  -- both are the one canonical order of the same declarations
  obtain rfl := hdecls.unique hdecls' h.perm h.named.nodup
  have hlen := hall.length_eq.symm.trans hall'.length_eq
  refine List.forall₂_iff_get.mpr ⟨hlen, fun i hi hi' => ?_⟩
  have hd : i < decls'.length := by rwa [hall.length_eq]
  obtain ⟨hgood, hbound⟩ := (List.forall₂_iff_get.mp hall).2 i hd hi
  obtain ⟨hgood', hbound'⟩ := (List.forall₂_iff_get.mp hall').2 i hd hi'
  simp only [List.get_eq_getElem] at *
  have hslot := h.named.slot?_iff.mpr ⟨_, hgood.declared, rfl⟩
  have hslot' := h.symm.named.slot?_iff.mpr ⟨_, hgood'.declared, rfl⟩
  rw [h.slot?, hslot, Option.map_some, Option.some.injEq] at hslot'
  rw [boundEncoding?_moved h, hbound, Option.map_some, Option.some.injEq] at hbound'
  have hderivation := hgood'.derivation
  rw [boundDerivation?_moved h, hgood.derivation, Option.map_some, Option.some.injEq] at hderivation
  refine ⟨(List.getElem?_eq_some_iff.mp hgood.declared).1, hslot'.symm, ?_, ?_, hbound'.symm,
    hderivation.symm, fun g hg => ?_, fun d hd n hn => ?_⟩
  · rw [hgood.name, hgood'.name]
  · rw [hgood.nullable, hgood'.nullable]
  · exact slots_lt hgood.needs g (hf.governor_mem (List.getElem_mem hi) hg)
  · -- what a field is derived from is among the fields
    have hsource := hgood.derivation
    rw [hd] at hsource
    cases hdecl : decls'[i].derivation with
    | none =>
      rw [hdecl] at hsource
      cases hsource
    | some derivation =>
      rw [hdecl] at hsource
      cases derivation with
      | lengthOf array =>
        obtain ⟨j, hj, hdj⟩ := Option.map_eq_some_iff.mp hsource
        cases hdj
        rw [List.mem_singleton.mp hn]
        exact slot?_lt hj
      | widthOf numbers =>
        obtain ⟨slots, hslots, hds⟩ := Option.map_eq_some_iff.mp hsource
        cases hds
        exact slots_lt hslots n hn

end

end RecordLayout
