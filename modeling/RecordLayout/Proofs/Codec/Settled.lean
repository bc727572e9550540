import Mathlib
import RecordLayout.Proofs.Codec.Collect
import RecordLayout.Proofs.Codec.Sources
import RecordLayout.Proofs.Layout.Redeclared

/-!
# What derived fields come to

Derived fields are worked out in all records that stand inline in a record, each in its own layout.
Wherever a record stands, a pass makes all fields right that are not worked out before a field that
they follow from, another pass makes all fields right, and from then on a pass changes nothing.

Main results:

* `FieldsGood.stratified` — counts follow from nothing that is derived, and widths from no widths;
* `Value.Throughout`, `RecordOf.Throughout` — a property of all records that stand inline;
* `deriveWithin_passes`, `deriveWithin_again` — a pass, and a pass after it, at any depth;
* `deriveRecord_settles` — what becomes of a record in one, two and more passes.
-/

namespace RecordLayout

open Workspace (Runs)

/-! ## Declared sources -/

section

variable {c : Catalog} {id : SchemaId} {f : FieldDecl}

/-- The fields of a schema have different names. -/
theorem Catalog.Checked.named (h : c.Checked) (id : SchemaId) : (c.schema id).Named := by
  -- the check keeps the names seen so far, so the induction needs that none of them comes again
  have hnames {fields : List FieldDecl} {seen : List String}
      (hcheck : Schema.checkNames seen fields = .ok ()) :
      (fields.map (·.name)).Nodup ∧ ∀ name ∈ fields.map (·.name), name ∉ seen := by
    induction fields generalizing seen with
    | nil => exact ⟨List.nodup_nil, fun _ hname => (List.not_mem_nil hname).elim⟩
    | cons f rest ih =>
      obtain ⟨_, -, hmore⟩ := except_bind_ok hcheck
      obtain ⟨_, hfresh, hrest⟩ := except_bind_ok hmore
      obtain ⟨hnodup, hapart⟩ := ih hrest
      have hnew : f.name ∉ seen := by simpa using Schema.demand_ok hfresh
      refine ⟨List.nodup_cons.mpr ⟨fun hmem => hapart _ hmem List.mem_cons_self, hnodup⟩, ?_⟩
      refine List.forall_mem_cons.mpr ⟨hnew, fun name hname hmem => ?_⟩
      exact hapart name hname (List.mem_cons_of_mem _ hmem)
  rcases h.check id with hnone | ⟨s, hfields, hcheck⟩
  · rw [Schema.Named, hnone]
    exact List.nodup_nil
  · obtain ⟨_, -, hmore⟩ := except_bind_ok hcheck
    obtain ⟨_, hchecked, -⟩ := except_bind_ok hmore
    rw [Schema.Named, ← hfields]
    exact (hnames hchecked).1

/-- Counts are derived from arrays, and widths from numbers. -/
theorem Catalog.Checked.shape (h : c.Checked) (hf : f ∈ (c.schema id).fields) {d : Derivation}
    (hd : f.derivation = some d) : match d with
      | .lengthOf _ => f.shape.isCount = true
      | .widthOf _ => f.shape = .width := by
  obtain ⟨s, -, -, hcheck⟩ := h.field hf
  rw [Schema.checkDerivation, hd] at hcheck
  cases d with
  | lengthOf array =>
    obtain ⟨_, hshape, -⟩ := except_bind_ok hcheck
    exact Schema.demand_ok hshape
  | widthOf numbers =>
    obtain ⟨_, hshape, -⟩ := except_bind_ok hcheck
    exact beq_iff_eq.mp (Schema.demand_ok hshape)

/-- The source of a count is an array. -/
theorem Catalog.Checked.array (h : c.Checked) (hf : f ∈ (c.schema id).fields) {array : String}
    (hd : f.derivation = some (.lengthOf array)) :
    ∃ g element count, (c.schema id).field? array = some g ∧ g.shape = .array element count := by
  obtain ⟨s, hfields, -, hcheck⟩ := h.field hf
  rw [Schema.checkDerivation, hd] at hcheck
  obtain ⟨_, -, hsource⟩ := except_bind_ok hcheck
  have hfits := Schema.demand_ok hsource
  rw [Schema.field?, ← hfields]
  cases hfound : s.field? array with
  | none =>
    rw [hfound] at hfits
    cases hfits
  | some g =>
    cases hshape : g.shape with
    | array element count => exact ⟨g, element, count, hfound, hshape⟩
    | _ => simp [hfound, hshape] at hfits

/-- The sources of a width are numbers. -/
theorem Catalog.Checked.number (h : c.Checked) (hf : f ∈ (c.schema id).fields)
    {numbers : List String} (hd : f.derivation = some (.widthOf numbers)) {number : String}
    (hnumber : number ∈ numbers) :
    ∃ g, (c.schema id).field? number = some g ∧ g.shape ≠ .width := by
  obtain ⟨s, hfields, -, hcheck⟩ := h.field hf
  rw [Schema.checkDerivation, hd] at hcheck
  obtain ⟨_, -, hmore⟩ := except_bind_ok hcheck
  obtain ⟨_, -, hall⟩ := except_bind_ok hmore
  -- the check goes through all numbers of the width, among them the one in question
  have hone : s.checkNumber f number = .ok () := by
    clear hd hcheck hmore
    induction numbers with
    | nil => exact absurd hnumber List.not_mem_nil
    | cons first rest ih =>
      obtain ⟨_, hfirst, hrest⟩ := except_bind_ok hall
      rcases List.mem_cons.mp hnumber with rfl | hmem
      · exact hfirst
      · exact ih hmem hrest
  have hfits := Schema.demand_ok hone
  rw [Schema.field?, ← hfields]
  cases hfound : s.field? number with
  | none =>
    rw [hfound] at hfits
    cases hfits
  | some g =>
    refine ⟨g, hfound, fun hwidth => ?_⟩
    simp [hfound, hwidth] at hfits

end

/-- The declaration of the field in the slot of a name. -/
theorem FieldGood.declaration {c : Compiler} {s : Schema} {kind : LayoutKind} {decl g : FieldDecl}
    {f : BoundField} (h : FieldGood c s kind decl f) {name : String}
    (hslot : s.slot? name = some f.slot) (hfield : s.field? name = some g) : decl = g := by
  rw [Schema.field?_of_slot? hslot, h.declared] at hfield
  exact Option.some.inj hfield

/-- A derived field was declared so. -/
theorem FieldGood.derived {c : Compiler} {s : Schema} {kind : LayoutKind} {decl : FieldDecl}
    {f : BoundField} (h : FieldGood c s kind decl f) {d : SlotDerivation}
    (hd : f.derivation = some d) : match d with
      | .lengthOf slot => ∃ array, decl.derivation = some (.lengthOf array) ∧
          s.slot? array = some slot
      | .widthOf slots => ∃ numbers, decl.derivation = some (.widthOf numbers) ∧
          numbers.mapM s.slot? = some slots := by
  have hbound := h.derivation
  rw [hd] at hbound
  -- a bound derivation comes from the declared one of the same kind
  cases hdecl : decl.derivation with
  | none =>
    rw [hdecl] at hbound
    cases hbound
  | some e =>
    rw [hdecl] at hbound
    cases e with
    | lengthOf array =>
      obtain ⟨slot, hslot, heq⟩ := Option.map_eq_some_iff.mp hbound
      cases heq
      exact ⟨array, rfl, hslot⟩
    | widthOf numbers =>
      obtain ⟨slots, hslots, heq⟩ := Option.map_eq_some_iff.mp hbound
      cases heq
      exact ⟨numbers, rfl, hslots⟩

/-- Nothing is derived from what is itself derived in the same way. -/
theorem FieldsGood.stratified {c : Compiler} (hchecked : c.catalog.Checked) {id : SchemaId}
    {kind : LayoutKind} {fields : List BoundField}
    (h : FieldsGood c (c.catalog.schema id) kind fields) : Stratified fields := by
  refine ⟨fun f hf slot hd g hg hslot => ?_, fun f hf slots hd g hg hslot others hothers => ?_⟩
  · -- the source of a count was declared as an array, and nothing that is derived is one
    obtain ⟨decl, hdecl⟩ := h.declared hf
    obtain ⟨gdecl, hgdecl⟩ := h.declared hg
    obtain ⟨array, hderivation, hname⟩ := hdecl.derived hd
    have hmem := List.mem_of_getElem? hdecl.declared
    obtain ⟨found, element, count, hfound, hshape⟩ := hchecked.array hmem hderivation
    obtain rfl := hgdecl.declaration (hslot ▸ hname) hfound
    cases hgd : g.derivation with
    | none => rfl
    | some e =>
      have hgmem := List.mem_of_getElem? hgdecl.declared
      cases e with
      | lengthOf other =>
        obtain ⟨_, hsame, -⟩ := hgdecl.derived hgd
        have hcount := hchecked.shape hgmem hsame
        rw [hshape] at hcount
        cases hcount
      | widthOf others =>
        obtain ⟨_, hsame, -⟩ := hgdecl.derived hgd
        have hwidth := hchecked.shape hgmem hsame
        rw [hshape] at hwidth
        cases hwidth
  · -- the sources of a width were declared as something else than widths
    obtain ⟨decl, hdecl⟩ := h.declared hf
    obtain ⟨gdecl, hgdecl⟩ := h.declared hg
    obtain ⟨numbers, hderivation, hnames⟩ := hdecl.derived hd
    obtain ⟨number, hnumber, hname⟩ := (mem_slots_iff hnames g.slot).mp hslot
    have hmem := List.mem_of_getElem? hdecl.declared
    obtain ⟨found, hfound, hshape⟩ := hchecked.number hmem hderivation hnumber
    obtain rfl := hgdecl.declaration hname hfound
    obtain ⟨_, hsame, -⟩ := hgdecl.derived hothers
    exact hshape (hchecked.shape (List.mem_of_getElem? hgdecl.declared) hsame)

/-! ## Records that stand inline -/

/-- How the layout of the record inside a value is asked for, if its derived fields are worked out
where the value stands. -/
def Placement.layoutIn? (cat : Catalog) : Placement → Value → Option (SpaceM Layout)
  | .inlineRecord id, .record _ => some (SpaceM.layout id .standard)
  | .fixedRecord id, .record _ => some (SpaceM.layout id .fixed)
  | .wrapped _ carrier kind, .wrapped _ _ => some (SpaceM.layout carrier kind)
  | .inlineChoice id, .record r => some do
      let tag ← SpaceM.tagOf id r
      SpaceM.variantLayout id tag
  | .inlineOpen, .record r =>
    if (cat.schema r.schema).isUnmanaged then none else some (SpaceM.layout r.schema .standard)
  | .inlineOpen, .wrapped wrapper _ =>
    some (SpaceM.layout (cat.wrapper wrapper).carrier .standard)
  | _, _ => none

section

variable {p : Placement} {v : Value} {ask : SpaceM Layout} {w w' : Workspace} {l : Layout}
  {r r' : Record}

/-- Working out derived fields goes on inside a value if it stands inline. -/
theorem deriveWithin_eq (depth : Nat) (p : Placement) (s : Scene Value) :
    deriveWithin (depth + 1) p s = match p.layoutIn? s.space.catalog s.subject with
      | some ask => deriveInner (deriveWithin depth) ask s
      | none => .ok () s := by
  obtain ⟨w, t, v⟩ := s
  have hcatalog : (Op.catalog : Op Value Catalog) ⟨w, t, v⟩ = .ok w.catalog ⟨w, t, v⟩ := rfl
  have hsubject : (Op.subject : Op Value Value) ⟨w, t, v⟩ = .ok v ⟨w, t, v⟩ := rfl
  rw [deriveWithin, bind_of_ok hcatalog, bind_of_ok hsubject]
  cases p with
  | inlineOpen =>
    cases v with
    | record r =>
      simp only [Placement.layoutIn?]
      split <;> rfl
    | _ => rfl
  | _ => cases v <;> rfl

/-- What stands inline is a record, or is wrapped. -/
theorem Placement.layoutIn?_inner {cat : Catalog} (h : p.layoutIn? cat v = some ask) :
    v = .record v.innerRecord ∨ ∃ wrapper, v = .wrapped wrapper v.innerRecord := by
  cases v with
  | record r => exact .inl rfl
  | wrapped wrapper r => exact .inr ⟨wrapper, rfl⟩
  | _ => cases p <;> cases h

/-- A flat value has no record inside, and asks for no layout. -/
theorem Placement.layoutIn?_flat {cat : Catalog} (h : v.Flat) : p.layoutIn? cat v = none := by
  cases v with
  | record r => exact h.elim
  | wrapped wrapper r => exact h.elim
  | _ => cases p <;> rfl

/-- Records of one schema stand in one layout. -/
theorem Placement.layoutIn?_setInnerRecord {cat : Catalog}
    (h : r.schema = v.innerRecord.schema) :
    p.layoutIn? cat (v.setInnerRecord r) = p.layoutIn? cat v := by
  cases v with
  | record s =>
    have hsame : r.schema = s.schema := h
    have htag (choice : ChoiceId) : SpaceM.tagOf choice r = SpaceM.tagOf choice s := by
      rw [SpaceM.tagOf, SpaceM.tagOf, hsame]
    cases p <;> simp only [Value.setInnerRecord, Placement.layoutIn?, hsame, htag]
  | wrapped wrapper s => cases p <;> rfl
  | _ => rfl

/-- The layout that is asked for is known from then on. -/
theorem Placement.layoutIn?_learning (hs : w.Sound) (h : p.layoutIn? w.catalog v = some ask) :
    Learning ask w fun l w' => w'.Knows l ∧ w'.Steady ask l := by
  have hlayout (id : SchemaId) (kind : LayoutKind) :
      Learning (SpaceM.layout id kind) w fun l w' =>
        w'.Knows l ∧ w'.Steady (SpaceM.layout id kind) l :=
    (layout_learning hs id kind).mono fun l w' hs' _ hl =>
      ⟨(hs'.knows hl).1, Workspace.layout_steady hl⟩
  cases p with
  | inlineRecord id =>
    cases v <;> cases h
    exact hlayout _ _
  | fixedRecord id =>
    cases v <;> cases h
    exact hlayout _ _
  | wrapped wrapper carrier kind =>
    cases v <;> cases h
    exact hlayout _ _
  | inlineChoice choice =>
    cases v with
    | record r =>
      cases h
      intro l w' hrun
      obtain ⟨tag, w₁, htag, hvariant⟩ := bind_ok.mp hrun
      obtain ⟨hfound, rfl⟩ := tagOf_ok.mp htag
      obtain ⟨hs', hlearns, id, hid, hl⟩ := variantLayout_learning hs choice tag l w' hvariant
      -- later on the same tag is found, as the catalog stays
      have hsteady : w'.Steady (SpaceM.tagOf choice r) tag := .of_same fun v hv =>
        tagOf_ok.mpr ⟨by rwa [hv, hlearns.catalog], rfl⟩
      exact ⟨hs', hlearns, (hs'.knows hl).1,
        hsteady.bind (Workspace.variantLayout_steady (by rwa [hlearns.catalog]) hl)⟩
    | _ => cases h
  | inlineOpen =>
    cases v with
    | record r =>
      obtain ⟨-, hask⟩ := Option.ite_none_left_eq_some.mp h
      cases hask
      exact hlayout _ _
    | wrapped wrapper r =>
      cases h
      exact hlayout _ _
    | _ => cases h
  | _ => cases v <;> cases h

/-- The records that stand inline in a value have been met, and each has a property in its layout. -/
inductive Value.Throughout (P : Layout → Record → Prop) (w : Workspace) : Placement → Value → Prop
  | bare {p : Placement} {v : Value} (h : p.layoutIn? w.catalog v = none) : Throughout P w p v
  | record {p : Placement} {v : Value} {ask : SpaceM Layout} {l : Layout}
    (hask : p.layoutIn? w.catalog v = some ask) (hanswer : w.Steady ask l) (hl : w.Knows l)
    (hschema : v.innerRecord.schema = l.schema) (hhere : P l v.innerRecord)
    (hinside : ∀ f ∈ l.fields, ∀ q marker, f.encoding = .placed q marker →
      Throughout P w q (v.innerRecord.slot f.slot)) : Throughout P w p v

/-- A record has a property in a layout, and so have those that stand inline in it. -/
structure RecordOf.Throughout (P : Layout → Record → Prop) (w : Workspace) (l : Layout)
    (r : Record) : Prop where
  here : P l r
  inside : ∀ f ∈ l.fields, ∀ q marker, f.encoding = .placed q marker →
    (r.slot f.slot).Throughout P w q

variable {P Q : Layout → Record → Prop}

/-- What holds throughout a value holds in every later space. -/
theorem Value.Throughout.mono (h : v.Throughout P w p) (hle : w.Le w') : v.Throughout P w' p := by
  induction h with
  | bare h => exact .bare (by rwa [hle.catalog])
  | record hask hanswer hl hschema hhere _ ih =>
    exact .record (by rwa [hle.catalog]) (hanswer.mono hle) (hl.mono hle) hschema hhere ih

/-- A property that follows holds throughout as well. -/
theorem Value.Throughout.imp (h : v.Throughout P w p)
    (himp : ∀ l r, w.Knows l → P l r → Q l r) : v.Throughout Q w p := by
  induction h with
  | bare h => exact .bare h
  | record hask hanswer hl hschema hhere _ ih =>
    exact .record hask hanswer hl hschema (himp _ _ hl hhere) ih

/-- A property that follows holds throughout a record as well. -/
theorem RecordOf.Throughout.imp (h : r.Throughout P w l) (hl : w.Knows l)
    (himp : ∀ l r, w.Knows l → P l r → Q l r) : r.Throughout Q w l :=
  ⟨himp l r hl h.here, fun f hf q marker he => (h.inside f hf q marker he).imp himp⟩

/-- The record inside a value is replaced by another one of the same schema. -/
theorem RecordOf.Throughout.value (h : r.Throughout P w l)
    (hask : p.layoutIn? w.catalog v = some ask) (hanswer : w.Steady ask l) (hl : w.Knows l)
    (hschema : v.innerRecord.schema = l.schema) (hsame : r.schema = v.innerRecord.schema) :
    (v.setInnerRecord r).Throughout P w p := by
  have hinner : (v.setInnerRecord r).innerRecord = r := by
    rcases Placement.layoutIn?_inner hask with hv | ⟨wrapper, hv⟩ <;> rw [hv] <;> rfl
  refine .record ((Placement.layoutIn?_setInnerRecord hsame).trans hask) hanswer hl ?_ ?_ ?_
  · rw [hinner, hsame, hschema]
  · rw [hinner]
    exact h.here
  · rw [hinner]
    exact h.inside

end

/-! ## One pass -/

/-- Every record inside a value has all slots of its schema. -/
inductive Value.Whole (cat : Catalog) : Value → Prop
  | record {r : Record} (length : r.slots.length = (cat.schema r.schema).fields.length)
    (slots : ∀ i, Whole cat (r.slot i)) : Whole cat (.record r)
  | wrapped {wrapper : WrapperId} {r : Record}
    (length : r.slots.length = (cat.schema r.schema).fields.length)
    (slots : ∀ i, Whole cat (r.slot i)) : Whole cat (.wrapped wrapper r)
  | other {v : Value} (h : ∀ r, v ≠ .record r ∧ ∀ wrapper, v ≠ .wrapped wrapper r) : Whole cat v

/-- A record has all slots of its schema, and so has every record inside. -/
structure RecordOf.Whole (cat : Catalog) (r : Record) : Prop where
  length : r.slots.length = (cat.schema r.schema).fields.length
  slots : ∀ i, (r.slot i).Whole cat

/-- What one pass leaves in a layout. -/
structure OncePassed (l : Layout) (r : Record) : Prop where
  slots : ∀ f ∈ l.fields, f.slot < r.slots.length
  primed : Primed l.fields r
  timely : ∀ f ∈ l.fields, ¬Early l.fields f → f.Holds r

/-- All derived fields of a layout are right. -/
structure AllHold (l : Layout) (r : Record) : Prop where
  slots : ∀ f ∈ l.fields, f.slot < r.slots.length
  holds : ∀ f ∈ l.fields, f.Holds r

/-- When all fields hold, one pass changes nothing. -/
theorem AllHold.passed {l : Layout} {r : Record} (h : AllHold l r) : OncePassed l r :=
  ⟨h.slots, ⟨fun f hf => (h.holds f hf).derivable, fun f hf _ _ => h.holds f hf⟩,
    fun f hf _ => h.holds f hf⟩

/-- The record inside a whole value is whole. -/
theorem Value.Whole.inner {cat : Catalog} {v : Value} (h : v.Whole cat)
    (hinner : v = .record v.innerRecord ∨ ∃ wrapper, v = .wrapped wrapper v.innerRecord) :
    v.innerRecord.Whole cat := by
  cases h with
  | record length slots => exact ⟨length, slots⟩
  | wrapped length slots => exact ⟨length, slots⟩
  | other h =>
    rcases hinner with hv | ⟨wrapper, hv⟩
    · exact absurd hv (h _).1
    · exact absurd hv ((h _).2 wrapper)

/-- A derived field holds a number or a width. -/
theorem BoundField.Holds.flat {f : BoundField} {r : Record} (h : f.Holds r) {d : SlotDerivation}
    (hd : f.derivation = some d) : (r.slot f.slot).Flat := by
  obtain ⟨-, ⟨x, hx, -⟩ | ⟨width, hwidth⟩⟩ := derivedValue_ok (h d hd default)
  · rw [hx]
    trivial
  · rw [hwidth]
    trivial

section

variable {deriveIn : DeriveIn} {fields : List BoundField} {s s' : Scene Record} {u : Unit}
  {l : Layout}

/-- Other slots are left alone. -/
theorem deriveInside_frame (h : deriveInside deriveIn fields s = .ok u s') {i : Nat}
    (hi : i ∉ fields.map (·.slot)) : s'.subject.slot i = s.subject.slot i := by
  induction fields generalizing s with
  | nil =>
    obtain ⟨-, rfl⟩ := pure_ok.mp h
    rfl
  | cons f rest ih =>
    rw [deriveInside] at h
    rw [List.map_cons, List.mem_cons, not_or] at hi
    -- the values inside are set at the fields' own slots
    cases he : f.encoding with
    | placed p marker =>
      simp only [he] at h
      obtain ⟨_, s₁, hfield, hrest⟩ := bind_ok.mp h
      obtain ⟨t, -, rfl⟩ := Op.on_ok.mp hfield
      exact (ih hrest hi.2).trans (RecordOf.slot_setSlot_of_ne hi.1 _)
    | _ =>
      simp only [he] at h
      exact ih h hi.2

/-- A way to work out derived fields inside values leaves every record as a pass does. -/
def DerivesPassing (deriveIn : DeriveIn) : Prop :=
  ∀ p (s s' : Scene Value) u, deriveIn p s = .ok u s' → s.space.Sound → s.space.catalog.Checked →
    s.subject.Whole s.space.catalog → s'.subject.Throughout OncePassed s'.space p

/-- Deriving inside the fields' values passes once over each record there. -/
theorem deriveInside_passes (hwell : DerivesWell deriveIn) (hin : DerivesPassing deriveIn)
    (h : deriveInside deriveIn fields s = .ok u s') (hs : s.space.Sound)
    (hchecked : s.space.catalog.Checked) (hnodup : (fields.map (·.slot)).Nodup)
    (hwhole : ∀ f ∈ fields, (s.subject.slot f.slot).Whole s.space.catalog) :
    ∀ f ∈ fields, ∀ q marker, f.encoding = .placed q marker →
      (s'.subject.slot f.slot).Throughout OncePassed s'.space q := by
  induction fields generalizing s with
  | nil => exact fun f hf => absurd hf List.not_mem_nil
  | cons f rest ih =>
    obtain ⟨hout, hnodup⟩ := List.nodup_cons.mp hnodup
    rw [deriveInside] at h
    cases he : f.encoding with
    | placed p marker =>
      simp only [he] at h
      obtain ⟨_, s₁, hfield, hrest⟩ := bind_ok.mp h
      obtain ⟨t, hact, rfl⟩ := Op.on_ok.mp hfield
      obtain ⟨hstudied, hrefreshed⟩ := hwell _ _ _ _ hact hs
      have hpassed := hin _ _ _ _ hact hs hchecked (hwhole f List.mem_cons_self)
      obtain ⟨hstudied', -⟩ := deriveInside_ok hwell hrest hstudied.sound
      have hcat : t.space.catalog = s.space.catalog := hstudied.learns.catalog
      intro g hg q marker' hq
      rcases List.mem_cons.mp hg with rfl | hmem
      · -- the value of this field stays while the others are worked out
        rw [he] at hq
        cases hq
        rw [deriveInside_frame hrest hout]
        have hslot : (s.subject.setSlot g.slot t.subject).slot g.slot = t.subject :=
          RecordOf.slot_setSlot hrefreshed.recast
        rw [show ((RecordOf.valuePart g.slot).set t.subject s.subject).slot g.slot = t.subject
          from hslot]
        exact hpassed.mono hstudied'.learns.toLe
      · refine ih hrest hstudied.sound (by rwa [hcat]) hnodup (fun k hk => ?_) g hmem q marker' hq
        have hne : k.slot ≠ f.slot := fun heq => hout (List.mem_map.mpr ⟨k, hk, heq⟩)
        rw [show ((RecordOf.valuePart f.slot).set t.subject s.subject).slot k.slot =
          s.subject.slot k.slot from RecordOf.slot_setSlot_of_ne hne _, hcat]
        exact hwhole k (List.mem_cons_of_mem _ hk)
    | _ =>
      simp only [he] at h
      intro g hg q marker' hq
      rcases List.mem_cons.mp hg with rfl | hmem
      · rw [he] at hq
        cases hq
      · exact ih h hs hchecked hnodup (fun k hk => hwhole k (List.mem_cons_of_mem _ hk)) g hmem q
          marker' hq

/-- Deriving a record passes once over it and over the records inside. -/
theorem deriveRecordWith_passes (hwell : DerivesWell deriveIn) (hin : DerivesPassing deriveIn)
    (h : deriveRecordWith deriveIn l s = .ok u s') (hs : s.space.Sound)
    (hchecked : s.space.catalog.Checked) (hl : s.space.Knows l)
    (hwhole : s.subject.Whole s.space.catalog) :
    s.subject.schema = l.schema ∧ s'.subject.schema = l.schema ∧
      s'.subject.Throughout OncePassed s'.space l := by
  rw [deriveRecordWith] at h
  simp only [bind_ok, Op.subject_ok, space_requireSchema_ok] at h
  -- first the records inside, then the fields of the record itself
  obtain ⟨r, s, ⟨rfl, rfl⟩, _, s, ⟨hschema, rfl⟩, _, s₂, hinside, hderive⟩ := h
  obtain ⟨hstudied, hrefreshed⟩ := deriveInside_ok hwell hinside hs
  have hfields := (hl.good hs).fields
  have hslots : ∀ f ∈ l.fields, f.slot < s₂.subject.slots.length := fun f hf => by
    obtain ⟨decl, hdecl⟩ := hfields.declared hf
    rw [hrefreshed.recast.length, hwhole.length, hschema]
    exact (List.getElem?_eq_some_iff.mp hdecl.declared).1
  have hdeclared : ∀ f ∈ l.fields, ∃ decl, FieldGood s.space.compiler
      (s₂.space.catalog.schema s₂.subject.schema) l.kind decl f := by
    rw [hstudied.learns.catalog, hrefreshed.recast.schema, hschema]
    exact fun f hf => hfields.declared hf
  obtain ⟨hstudied', hrefreshed', -⟩ := deriveFields_ok hderive hstudied.sound hdeclared
  obtain ⟨hlen, hothers⟩ := deriveFields_frame hderive hslots
  have hnodup := hfields.slots_nodup
  have hstrat := hfields.stratified hchecked
  have hworked := deriveFields_work hderive hstudied.sound hdeclared hnodup
  refine ⟨hschema, by rw [hrefreshed'.recast.schema, hrefreshed.recast.schema, hschema],
    ⟨fun f hf => hlen ▸ hslots f hf, deriveFields_primed hstrat hderive hslots hnodup,
      fun f hf => deriveFields_holds hstrat hderive hslots hnodup hf⟩, fun f hf q marker he => ?_⟩
  -- a derived field holds no record, and one that is not derived is as it was left inside
  cases hderived : f.derivation with
  | some d =>
    exact .bare (Placement.layoutIn?_flat (hworked f hf (by rw [hderived]; rfl)))
  | none =>
    rw [hothers f.slot fun g hg hslot => by rw [hfields.eq_of_slot hg hf hslot, hderived]]
    exact (deriveInside_passes hwell hin hinside hs hchecked hnodup
      (fun g _ => hwhole.slots g.slot) f hf q marker he).mono hstudied'.learns.toLe

end

/-- One pass over a value, by induction on the depth. -/
theorem deriveWithin_passes (depth : Nat) : DerivesPassing (deriveWithin depth) := by
  -- the induction is on the depth; a value without a record in place has nothing to derive inside
  induction depth with
  | zero =>
    intro p s s' u h _ _ _
    exact (throw_ok.mp h).elim
  | succ depth ih =>
    intro p s s' u h hs hchecked hwhole
    rw [deriveWithin_eq] at h
    cases hask : p.layoutIn? s.space.catalog s.subject with
    | none =>
      rw [hask] at h
      cases h
      exact .bare hask
    | some ask =>
      rw [hask] at h
      obtain ⟨l, s₁, hanswer, hrecord⟩ := bind_ok.mp h
      obtain ⟨hstudied, hsubject, hl, hsteady⟩ :=
        space_studied (Placement.layoutIn?_learning hs hask) hanswer
      obtain ⟨t, hact, rfl⟩ := Op.on_ok.mp hrecord
      have hget : Value.recordPart.get s₁.subject = s.subject.innerRecord := by rw [hsubject]; rfl
      rw [hget] at hact
      have hcat := hstudied.learns.catalog
      have hinner := hwhole.inner (Placement.layoutIn?_inner hask)
      rw [← hcat] at hinner hchecked
      obtain ⟨hstudied', -⟩ := deriveRecordWith_ok (deriveWithin_ok depth) hact hstudied.sound hl
      obtain ⟨hschema, hschema', hpassed⟩ := deriveRecordWith_passes (deriveWithin_ok depth) ih hact
        hstudied.sound hchecked hl hinner
      -- the layout stays known while the record is derived, so the record's passes are the value's
      have hle : s₁.space.Le t.space := hstudied'.learns.toLe
      show (s₁.subject.setInnerRecord t.subject).Throughout OncePassed t.space p
      rw [hsubject]
      refine hpassed.value ?_ (hsteady.mono hle) (hl.mono hle) hschema (hschema'.trans hschema.symm)
      rw [hle.catalog, hcat]
      exact hask

/-! ## Further passes -/

section

variable {w : Workspace} {depth : Nat} {l : Layout} {r r' : Record}

/-- A list is recast to itself only. -/
theorem Value.Recast.list {cat : Catalog} {items : List Value} {v : Value}
    (h : (Value.list items).Recast cat v) : v = .list items := by
  cases h
  rfl

/-- What fields follow from stays if values are recast. -/
theorem derivedValue_recast {cat : Catalog} {f : BoundField} {d : SlotDerivation} {v : Value}
    (h : ∀ w, derivedValue f r d w = .ok v w)
    (hrecast : ∀ i, (r.slot i).Recast cat (r'.slot i)) :
    ∀ w, derivedValue f r' d w = .ok v w := by
  -- arrays and numbers are recast to themselves
  have hsources : ∀ i ∈ d.sources, r'.slot i = r.slot i := fun i hi => by
    have hvalue := h default
    cases d with
    | lengthOf array =>
      obtain rfl := List.mem_singleton.mp hi
      rw [derivedValue, bind_ok] at hvalue
      obtain ⟨items, _, hitems, -⟩ := hvalue
      obtain ⟨hlist, -⟩ := itemsOf_ok.mp hitems
      have hslot := hrecast i
      rw [hlist] at hslot
      exact hslot.list.trans hlist.symm
    | widthOf numbers =>
      obtain ⟨n, hn⟩ := derivedValue_numbers hvalue i hi
      refine Value.Flat.recast ?_ (hrecast i)
      cases hslot : r.slot i with
      | scalar x => trivial
      | _ =>
        rw [hslot] at hn
        cases hn
  rw [derivedValue_congr hsources]
  exact h

/-- Recasting keeps a record primed. -/
theorem Primed.recast {cat : Catalog} {fields : List BoundField} (h : Primed fields r)
    (hrecast : ∀ i, (r.slot i).Recast cat (r'.slot i)) : Primed fields r' := by
  refine ⟨fun f hf d hd => ?_, fun f hf array hd d hd' => ?_⟩
  · obtain ⟨v, hv⟩ := h.derivable f hf d hd
    exact ⟨v, derivedValue_recast hv hrecast⟩
  · have hheld := h.counts f hf array hd
    rw [(hheld.flat hd).recast (hrecast f.slot)]
    exact derivedValue_recast (hheld d hd') hrecast

/-- Values of all slots have been recast, also of those that are derived. -/
theorem deriveInside_recasts {deriveIn : DeriveIn} (hwell : DerivesWell deriveIn)
    {fields : List BoundField} {s s' : Scene Record} {u : Unit}
    (h : deriveInside deriveIn fields s = .ok u s') (hs : s.space.Sound) (i : Nat) :
    (s.subject.slot i).Recast s.space.catalog (s'.subject.slot i) := by
  -- only placed fields are derived inside, and each changes its own slot
  induction fields generalizing s with
  | nil =>
    obtain ⟨-, rfl⟩ := pure_ok.mp h
    exact .same _
  | cons f rest ih =>
    rw [deriveInside] at h
    cases he : f.encoding with
    | placed p marker =>
      simp only [he] at h
      obtain ⟨_, s₁, hfield, hrest⟩ := bind_ok.mp h
      obtain ⟨t, hact, rfl⟩ := Op.on_ok.mp hfield
      obtain ⟨hstudied, hrefreshed⟩ := hwell _ _ _ _ hact hs
      have hothers := ih hrest hstudied.sound
      rw [show t.space.catalog = s.space.catalog from hstudied.learns.catalog] at hothers
      refine Value.Recast.trans ?_ hothers
      show (s.subject.slot i).Recast _ ((s.subject.setSlot f.slot t.subject).slot i)
      by_cases heq : i = f.slot
      · rw [heq, RecordOf.slot_setSlot hrefreshed.recast]
        exact hrefreshed.recast
      · rw [RecordOf.slot_setSlot_of_ne heq]
        exact .same _
    | _ =>
      simp only [he] at h
      exact ih h hs

/-- A way to work out derived fields inside values makes all fields right that a pass has left, and
changes nothing if they are right. -/
def DerivesAgain (w : Workspace) (depth : Nat) (deriveIn : DeriveIn) : Prop :=
  ∀ p (v : Value), v.Throughout OncePassed w p → v.depth + 1 ≤ depth →
    ∃ v', (∀ t, w.Runs (deriveIn p) t v () t v') ∧ v'.Throughout AllHold w p ∧
      (v.Throughout AllHold w p → v' = v)

variable {deriveIn : DeriveIn}

/-- A second pass inside the fields' values settles them. -/
theorem deriveInside_again (hs : w.Sound) (hin : DerivesAgain w depth deriveIn)
    {fields : List BoundField} (hnodup : (fields.map (·.slot)).Nodup)
    (hslots : ∀ f ∈ fields, f.slot < r.slots.length)
    (hpassed : ∀ f ∈ fields, ∀ q marker, f.encoding = .placed q marker →
      (r.slot f.slot).Throughout OncePassed w q)
    (hdepth : ∀ f ∈ fields, (r.slot f.slot).depth + 1 ≤ depth) :
    ∃ r', (∀ t, w.Runs (deriveInside deriveIn fields) t r () t r') ∧
      (∀ f ∈ fields, ∀ q marker, f.encoding = .placed q marker →
        (r'.slot f.slot).Throughout AllHold w q) ∧
      ((∀ f ∈ fields, ∀ q marker, f.encoding = .placed q marker →
        (r.slot f.slot).Throughout AllHold w q) → r' = r) := by
  induction fields generalizing r with
  | nil =>
    exact ⟨r, fun t => .pure (), fun f hf => absurd hf List.not_mem_nil, fun _ => rfl⟩
  | cons f rest ih =>
    obtain ⟨hout, hnodup⟩ := List.nodup_cons.mp hnodup
    have hne : ∀ g ∈ rest, g.slot ≠ f.slot := fun g hg heq =>
      hout (List.mem_map.mpr ⟨g, hg, heq⟩)
    have hmem {g : BoundField} (hg : g ∈ rest) : g ∈ f :: rest := List.mem_cons_of_mem _ hg
    cases he : f.encoding with
    | placed p marker =>
      obtain ⟨v, hrun, hsettled, hfixed⟩ := hin p _ (hpassed f List.mem_cons_self p marker he)
        (hdepth f List.mem_cons_self)
      have hself : (r.setSlot f.slot v).slot f.slot = v :=
        RecordOf.slot_setSlot_self (hslots f List.mem_cons_self) v
      have hother : ∀ g ∈ rest, (r.setSlot f.slot v).slot g.slot = r.slot g.slot := fun g hg =>
        RecordOf.slot_setSlot_of_ne (hne g hg) v
      obtain ⟨r', hrest, hsettled', hfixed'⟩ := @ih (r.setSlot f.slot v) hnodup
        (fun g hg => by
          rw [RecordOf.slots_length_setSlot]
          exact hslots g (hmem hg))
        (fun g hg q m hq => by
          rw [hother g hg]
          exact hpassed g (hmem hg) q m hq)
        (fun g hg => by
          rw [hother g hg]
          exact hdepth g (hmem hg))
      -- the value of this field stays while the others are worked out
      obtain ⟨u, hok, -, -⟩ := hrest default w (.refl hs)
      have hkept := (deriveInside_frame hok hout).trans hself
      refine ⟨r', fun t => ?_, fun g hg q m hq => ?_, fun hall => ?_⟩
      · rw [deriveInside]
        simp only [he]
        exact (Runs.on (hrun t)).bind (hrest t)
      · rcases List.mem_cons.mp hg with rfl | hlater
        · rw [he] at hq
          cases hq
          rw [hkept]
          exact hsettled
        · exact hsettled' g hlater q m hq
      · have hsame : r.setSlot f.slot v = r := by
          rw [hfixed (hall f List.mem_cons_self p marker he), RecordOf.setSlot_slot]
        rw [hfixed' fun g hg q m hq => by
          rw [hother g hg]
          exact hall g (hmem hg) q m hq, hsame]
    | _ =>
      obtain ⟨r', hrest, hsettled, hfixed⟩ := ih hnodup (fun g hg => hslots g (hmem hg))
        (fun g hg => hpassed g (hmem hg)) (fun g hg => hdepth g (hmem hg))
      refine ⟨r', fun t => ?_, fun g hg q m hq => ?_, fun hall => hfixed fun g hg =>
        hall g (hmem hg)⟩
      · rw [deriveInside]
        simp only [he]
        exact hrest t
      · rcases List.mem_cons.mp hg with rfl | hlater
        · rw [he] at hq
          cases hq
        · exact hsettled g hlater q m hq

/-- A second pass over a record settles it. -/
theorem deriveRecordWith_again (hs : w.Sound) (hchecked : w.catalog.Checked) (hl : w.Knows l)
    (hwell : DerivesWell deriveIn) (hin : DerivesAgain w depth deriveIn)
    (hschema : r.schema = l.schema) (h : r.Throughout OncePassed w l) (hdepth : r.depth ≤ depth) :
    ∃ r', (∀ t, w.Runs (deriveRecordWith deriveIn l) t r () t r') ∧ r'.schema = r.schema ∧
      r'.Throughout AllHold w l ∧ (r.Throughout AllHold w l → r' = r) := by
  have hfields := (hl.good hs).fields
  have hnodup := hfields.slots_nodup
  obtain ⟨r₁, hinside, hsettled, hfixed⟩ := deriveInside_again hs hin hnodup h.here.slots h.inside
    fun f _ => (r.depth_slot f.slot).trans hdepth
  obtain ⟨v, hok, -, -⟩ := hinside default w (.refl hs)
  have hrecast := (deriveInside_ok hwell hok hs).2.recast
  have hslots : ∀ f ∈ l.fields, f.slot < r₁.slots.length := fun f hf => by
    rw [hrecast.length]
    exact h.here.slots f hf
  have hprimed := h.here.primed.recast (deriveInside_recasts hwell hok hs)
  -- the records inside are right now, and the fields of the record are still as a pass has left them
  obtain ⟨r', hrun, hholds⟩ :=
    deriveFields_again (hfields.stratified hchecked) hprimed hslots hnodup
  obtain ⟨hlen, hothers⟩ := deriveFields_frame (hrun w default) hslots
  have hruns (t : ByteStream) : w.Runs (deriveRecordWith deriveIn l) t r () t r' := by
    rw [deriveRecordWith]
    have hrequired (v : Workspace) : requireSchema l r v = .ok () v :=
      requireSchema_ok.mpr ⟨hschema, rfl⟩
    exact Runs.subject.bind ((Runs.ask hrequired).bind ((hinside t).bind fun v hv =>
      ⟨v, hrun v t, .refl v, hv.sound⟩))
  refine ⟨r', hruns, ?_, ⟨⟨fun f hf => hlen ▸ hslots f hf, hholds⟩, fun f hf q marker he => ?_⟩,
    fun hall => ?_⟩
  · obtain ⟨v, hok, -, -⟩ := hruns default w (.refl hs)
    exact (deriveRecordWith_ok hwell hok hs hl).2.recast.schema
  · cases hderived : f.derivation with
    | some d => exact .bare (Placement.layoutIn?_flat ((hholds f hf).flat hderived))
    | none =>
      rw [hothers f.slot fun g hg hslot => by rw [hfields.eq_of_slot hg hf hslot, hderived]]
      exact hsettled f hf q marker he
  · obtain rfl := hfixed hall.inside
    have hsame := deriveFields_fixed hall.here.holds w default
    rw [hrun] at hsame
    exact congrArg Scene.subject (EStateM.Result.ok.inj hsame).2

/-- A question has one answer. -/
theorem Workspace.Steady.unique {α : Type} {act : SpaceM α} {a b : α} (hs : w.Sound)
    (ha : w.Steady act a) (hb : w.Steady act b) : a = b := by
  obtain ⟨v, hrun, -⟩ := ha w (.refl w) hs
  obtain ⟨v', hrun', -⟩ := hb w (.refl w) hs
  rw [hrun] at hrun'
  exact (EStateM.Result.ok.inj hrun').1

/-- What holds throughout a value holds throughout the record inside. -/
theorem Value.Throughout.inner {P : Layout → Record → Prop} {p : Placement} {v : Value}
    (h : v.Throughout P w p) (hs : w.Sound) {ask : SpaceM Layout}
    (hask : p.layoutIn? w.catalog v = some ask) (hanswer : w.Steady ask l) :
    v.innerRecord.Throughout P w l := by
  cases h with
  | bare h =>
    rw [hask] at h
    cases h
  | record hask' hanswer' hl hschema hhere hinside =>
    rw [hask] at hask'
    obtain rfl := Option.some.inj hask'
    obtain rfl := hanswer.unique hs hanswer'
    exact ⟨hhere, hinside⟩

/-- Another pass over a value, by induction on the depth. -/
theorem deriveWithin_again (hs : w.Sound) (hchecked : w.catalog.Checked) (depth : Nat) :
    DerivesAgain w depth (deriveWithin depth) := by
  -- deriving again finds the same layouts, and one level of depth is enough for one level of the
  -- value
  induction depth with
  | zero => exact fun p v _ hdepth => absurd hdepth (by omega)
  | succ depth ih =>
    intro p v h hdepth
    cases h with
    | bare hnone =>
      refine ⟨v, fun t u hu => ⟨u, ?_, .refl u, hu.sound⟩, .bare hnone, fun _ => rfl⟩
      rw [deriveWithin_eq]
      simp only [hu.catalog, hnone]
    | @record _ _ ask l hask hanswer hl hschema hhere hinside =>
      have hinner := Placement.layoutIn?_inner hask
      have hbound : v.innerRecord.depth ≤ depth := by
        have hsame : v.depth = v.innerRecord.depth := by
          rcases hinner with hv | ⟨wrapper, hv⟩ <;> rw [hv] <;> rfl
        omega
      obtain ⟨r', hruns, hsame, hsettled, hfixed⟩ := deriveRecordWith_again hs hchecked hl
        (deriveWithin_ok depth) ih hschema ⟨hhere, hinside⟩ hbound
      refine ⟨v.setInnerRecord r', fun t u hu => ?_,
        hsettled.value hask hanswer hl hschema hsame, fun hall => ?_⟩
      · rw [deriveWithin_eq]
        simp only [hu.catalog, hask]
        exact (Runs.space hanswer).bind (Runs.on (p := Value.recordPart) (hruns t)) u hu
      · rw [hfixed (hall.inner hs hask hanswer)]
        rcases hinner with hv | ⟨wrapper, hv⟩ <;> rw [hv] <;> rfl

end

/-! ## Records -/

/-- A derived field is right: it agrees with its sources, passes the check against them, and if it is
a width, then the numbers that it is worked out from and governs fit into it. -/
structure BoundField.Right (l : Layout) (f : BoundField) (r : Record) : Prop where
  agrees : ∀ d, f.derivation = some d → d.Agrees r (r.slot f.slot)
  passes : ∀ w, checkDerived f r w = .ok () w
  fits : ∀ numbers, f.derivation = some (.widthOf numbers) → ∀ g ∈ l.fields, g.slot ∈ numbers →
    g.encoding = .sized f.slot → ∀ w, checkGoverned g r w = .ok () w

/-- A field that holds is right. -/
theorem BoundField.Holds.right {f : BoundField} {l : Layout} {r : Record} (h : f.Holds r) :
    f.Right l r :=
  ⟨fun _ hd => h.agrees hd, h.passes, fun _ hd _ _ hg he => h.fits hd hg he⟩

/-- Working out derived fields makes all of them right, in a record and in those that stand inline in
it, except those that are worked out before a field that they follow from; it can be repeated, then
all of them are right, and from then on nothing changes. If no field is worked out before a field
that it follows from, nothing changes from the first time on. -/
theorem deriveRecord_settles {l : Layout} {s s' : Scene Record} {u : Unit} (hs : s.space.Sound)
    (hchecked : s.space.catalog.Checked) (hl : s.space.Knows l)
    (hwhole : s.subject.Whole s.space.catalog) (h : deriveRecord l s = .ok u s') :
    s'.subject.Throughout (fun l r => ∀ f ∈ l.fields, ¬Early l.fields f → f.Right l r) s'.space l ∧
      ∃ r, (∀ t, s'.space.Runs (deriveRecord l) t s'.subject () t r) ∧
        r.Throughout (fun l r => ∀ f ∈ l.fields, f.Right l r) s'.space l ∧
        (∀ t, s'.space.Runs (deriveRecord l) t r () t r) ∧
        ((∀ m, s'.space.Knows m → ∀ f ∈ m.fields, ¬Early m.fields f) → r = s'.subject) := by
  obtain ⟨hstudied, -⟩ := deriveRecord_ok h hs hl
  rw [deriveRecord] at h
  obtain ⟨_, _, hsubject, hrun⟩ := bind_ok.mp h
  obtain ⟨rfl, rfl⟩ := Op.subject_ok.mp hsubject
  obtain ⟨-, hschema, hpassed⟩ := deriveRecordWith_passes (deriveWithin_ok _)
    (deriveWithin_passes _) hrun hs hchecked hl hwhole
  have hs' := hstudied.sound
  have hl' := hl.mono hstudied.learns.toLe
  rw [← hstudied.learns.catalog] at hchecked
  -- a pass over what a pass has left
  have hagain (r : Record) (hr : r.schema = l.schema)
      (hpassed : r.Throughout OncePassed s'.space l) :
      ∃ r', (∀ t, s'.space.Runs (deriveRecord l) t r () t r') ∧ r'.schema = r.schema ∧
        r'.Throughout AllHold s'.space l ∧ (r.Throughout AllHold s'.space l → r' = r) := by
    have hdepth : r.depth ≤ r.walkDepth := by
      unfold RecordOf.walkDepth
      omega
    obtain ⟨r', hruns, hrest⟩ := deriveRecordWith_again hs' hchecked hl' (deriveWithin_ok _)
      (deriveWithin_again hs' hchecked r.walkDepth) hr hpassed hdepth
    exact ⟨r', fun t => Runs.subject.bind (hruns t), hrest⟩
  -- the second pass makes everything right, and the third one finds it so
  obtain ⟨r, hruns, hsame, hsettled, hfixed⟩ := hagain _ hschema hpassed
  obtain ⟨r', hruns', -, -, hfixed'⟩ := hagain r (hsame.trans hschema)
    (hsettled.imp hl' fun _ _ _ hright => hright.passed)
  rw [hfixed' hsettled] at hruns'
  refine ⟨hpassed.imp hl' fun m x _ hx f hf hearly => (hx.timely f hf hearly).right, r, hruns,
    hsettled.imp hl' fun m x _ hx f hf => (hx.holds f hf).right, hruns', fun hnone => hfixed ?_⟩
  exact hpassed.imp hl' fun m x hm hx =>
    ⟨hx.slots, fun f hf => hx.timely f hf (hnone m hm f hf)⟩

/-! ## Tallies -/

/-- Bytes after their number, and before it the width of the number, both worked out. -/
def tallies : Catalog :=
  ⟨[⟨⟨"Tally", .managed, [⟨"size", .width, false, [], some (.widthOf ["count"])⟩,
    ⟨"count", .sized "size", false, [], some (.lengthOf "bytes")⟩,
    ⟨"bytes", .array .u8 "count", false, [], none⟩]⟩, true⟩], [], []⟩

/-- The question for the layout of tallies. -/
def askTallies : SpaceM Layout := SpaceM.layout ⟨0, 0⟩ .standard

/-- Their layout. -/
def tallyLayout : Layout := (answer? askTallies (.fresh tallies .standard none)).getD default

/-- A tally of one byte, of which nothing has been worked out. -/
def tally : Scene Record :=
  ⟨after askTallies (.fresh tallies .standard none), .empty,
    ⟨⟨0, 0⟩, [.width .void, .scalar (.u64 0), .list [.scalar (.u8 7)]], [.null, .null, .null]⟩⟩

/-- The tally after one pass. -/
def tallied : Scene Record := after (deriveRecord tallyLayout) tally

/-- A pass works out the width before the number. -/
theorem tally_runs : (answer? askTallies (.fresh tallies .standard none)).isSome = true ∧
    (answer? (deriveRecord tallyLayout) tally).isSome = true ∧
    tallyLayout.fields.map (fun f => (f.slot, f.derivation)) =
      [(0, some (.widthOf [1])), (1, some (.lengthOf 2)), (2, none)] ∧
    answer? (widthIn tallied.subject 0) tallied.space = some .void ∧
    (tallied.subject.slot 1).toNat? = some 1 := by decide +kernel

/-- The tally's types refer to types that they declare themselves. -/
theorem tallies_closed : tallies.Closed := by decide

/-- The tally is well made, and is worked out in its layout. -/
theorem tally_derived : tally.space.Sound ∧ tally.space.catalog.Checked ∧
    tally.space.Knows tallyLayout ∧ tally.subject.Whole tally.space.catalog ∧
    deriveRecord tallyLayout tally = .ok () tallied := by
  obtain ⟨l, hask, hl⟩ := runs_to_after tally_runs.1
  have hlayout : tallyLayout = l := by rw [tallyLayout, hl, Option.getD_some]
  obtain ⟨hs, hlearns, hknows⟩ :=
    SpaceM.layout_sound (Workspace.sound_fresh tallies_closed _ _) hask
  have hcatalog : tally.space.catalog = tallies := hlearns.catalog
  -- what is left is a check of the tally's one schema and of its three slots
  refine ⟨hs, ?_, by rw [hlayout]; exact hknows, ?_, ?_⟩
  · rw [hcatalog]
    intro d hd
    rw [List.mem_singleton.mp hd]
    exact .inr rfl
  · rw [hcatalog]
    refine ⟨rfl, fun i => .other fun r => ?_⟩
    rcases i with _ | _ | _ | i <;> exact ⟨Value.noConfusion, fun _ => Value.noConfusion⟩
  · obtain ⟨_, hrun, -⟩ := runs_to_after tally_runs.2.1
    exact hrun

/-- The tally's two counts are settled by a second pass. -/
theorem deriveRecord_settles_tally : deriveRecord tallyLayout tally = .ok () tallied ∧
    ∃ r, (∀ t, tallied.space.Runs (deriveRecord tallyLayout) t tallied.subject () t r) ∧
      r.Throughout (fun l r => ∀ f ∈ l.fields, f.Right l r) tallied.space tallyLayout := by
  obtain ⟨hs, hchecked, hl, hwhole, hrun⟩ := tally_derived
  obtain ⟨-, r, hruns, hright, -⟩ := deriveRecord_settles hs hchecked hl hwhole hrun
  exact ⟨hrun, r, hruns, hright⟩

/-- One pass does not make everything right: the width of the number of bytes is that of no bytes. -/
theorem deriveRecord_not_settled_at_once :
    ¬∀ (l : Layout) (s s' : Scene Record) (u : Unit), s.space.Sound → s.space.catalog.Checked →
      s.space.Knows l → s.subject.Whole s.space.catalog → deriveRecord l s = .ok u s' →
        ∀ f ∈ l.fields, f.Right l s'.subject := by
  intro hall
  obtain ⟨hs, hchecked, hl, hwhole, hrun⟩ := tally_derived
  obtain ⟨-, -, hfields, hwidth, hcount⟩ := tally_runs
  have hmem : (0, some (.widthOf [1])) ∈ tallyLayout.fields.map fun f => (f.slot, f.derivation) := by
    rw [hfields]
    exact List.mem_cons_self
  obtain ⟨f, hf, hsame⟩ := List.mem_map.mp hmem
  obtain ⟨hslot, hd⟩ := Prod.mk.inj hsame
  obtain ⟨width, hheld, hsmallest⟩ := (hall _ _ _ _ hs hchecked hl hwhole hrun f hf).agrees _ hd
  rw [hslot] at hheld
  -- the width is void, but it would have to hold one
  have hanswer : answer? (widthIn tallied.subject 0) tallied.space = some width :=
    answer?_of_ok (widthIn_ok.mpr ⟨hheld, rfl⟩)
  rw [hwidth] at hanswer
  obtain rfl := Option.some.inj hanswer
  obtain ⟨n, hn, hfits⟩ := (hsmallest .void).mp (Nat.le_refl _) 1 (List.mem_singleton.mpr rfl)
  rw [hcount] at hn
  obtain rfl := Option.some.inj hn
  exact absurd hfits (by decide)

end RecordLayout
