import Mathlib
import RecordLayout.Proofs.Space

/-!
# Deriving fields

Working out derived fields replaces counts and widths. It leaves all other fields and a value as well
made as it was, makes no chunk and uses none up, and neither touches the stream nor the store.

Main results:

* `Value.Recast` — nothing but derived fields and chunks has changed, at any depth;
* `deriveRecord_ok` — what a derivation that succeeds has done to a record;
* `Refreshed.companions` — no chunk comes to a value.
-/

namespace RecordLayout

/-! ## Recast values -/

/-- Whether a slot holds what follows from other slots. -/
def Catalog.derives (cat : Catalog) (id : SchemaId) (i : Nat) : Bool :=
  (cat.schema id).fields[i]?.any (·.derivation.isSome)

/-- A value with everything that was put into it: derived fields may have been worked out, and chunks
may have come and gone, at all depths. -/
inductive Value.Recast (cat : Catalog) : Value → Value → Prop
  | same (v : Value) : Recast cat v v
  | record {r r' : Record} (schema : r'.schema = r.schema)
    (length : r'.slots.length = r.slots.length)
    (slots : ∀ i, cat.derives r.schema i = false → Recast cat (r.slot i) (r'.slot i)) :
    Recast cat (.record r) (.record r')
  | wrapped {wrapper : WrapperId} {r r' : Record} (schema : r'.schema = r.schema)
    (length : r'.slots.length = r.slots.length)
    (slots : ∀ i, cat.derives r.schema i = false → Recast cat (r.slot i) (r'.slot i)) :
    Recast cat (.wrapped wrapper r) (.wrapped wrapper r')

/-- A record with everything that was put into it. -/
structure RecordOf.Recast (cat : Catalog) (r r' : Record) : Prop where
  schema : r'.schema = r.schema
  length : r'.slots.length = r.slots.length
  slots : ∀ i, cat.derives r.schema i = false → (r.slot i).Recast cat (r'.slot i)

section

variable {cat : Catalog} {v v' v'' : Value} {r r' r'' : Record}

namespace Value.Recast

/-- Recasting a value does not make it null, nor the other way. -/
theorem isNull (h : v.Recast cat v') : v'.isNull = v.isNull := by cases h <;> rfl

/-- Null is recast to null. -/
theorem of_null (h : Value.null.Recast cat v') : v' = .null := by
  cases h
  rfl

/-- A scalar is recast only from itself. -/
theorem scalar (h : v.Recast cat v') {s : Scalar} (hv : v' = .scalar s) : v = .scalar s := by
  cases h with
  | same => exact hv
  | _ => cases hv

/-- Recasting is transitive. -/
theorem trans (h : v.Recast cat v') (h' : v'.Recast cat v'') : v.Recast cat v'' := by
  induction h generalizing v'' with
  | same => exact h'
  | record hschema hlen hslots ih =>
    -- the second step is one on the same record, or none
    cases h' with
    | same => exact .record hschema hlen hslots
    | record hschema' hlen' hslots' =>
      exact .record (hschema'.trans hschema) (hlen'.trans hlen) fun i hi =>
        ih i hi (hslots' i (by rwa [hschema]))
  | wrapped hschema hlen hslots ih =>
    cases h' with
    | same => exact .wrapped hschema hlen hslots
    | wrapped hschema' hlen' hslots' =>
      exact .wrapped (hschema'.trans hschema) (hlen'.trans hlen) fun i hi =>
        ih i hi (hslots' i (by rwa [hschema]))

end Value.Recast

namespace RecordOf.Recast

theorem refl (cat : Catalog) (r : Record) : r.Recast cat r := ⟨rfl, rfl, fun _ _ => .same _⟩

/-- Recasting records is transitive. -/
theorem trans (h : r.Recast cat r') (h' : r'.Recast cat r'') : r.Recast cat r'' :=
  ⟨h'.schema.trans h.schema, h'.length.trans h.length, fun i hi =>
    (h.slots i hi).trans (h'.slots i (by rwa [h.schema]))⟩

/-- A recast record is a recast value. -/
theorem record (h : r.Recast cat r') : (Value.record r).Recast cat (.record r') :=
  .record h.schema h.length h.slots

/-- A recast carrier is a recast wrapped value. -/
theorem wrapped (h : r.Recast cat r') (wrapper : WrapperId) :
    (Value.wrapped wrapper r).Recast cat (.wrapped wrapper r') :=
  .wrapped h.schema h.length h.slots

end RecordOf.Recast

/-- What has been put into a slot is there. A slot that does not exist stays null. -/
theorem RecordOf.slot_setSlot {i : Nat} (h : (r.slot i).Recast cat v) : (r.setSlot i v).slot i = v := by
  by_cases hi : i < r.slots.length
  · exact slot_setSlot_self hi v
  · have hnone : ∀ r : Record, r.slots.length ≤ i → r.slot i = .null := fun _ => slot_of_length_le
    rw [hnone r (by omega)] at h
    rw [hnone _ (by rw [slots_length_setSlot]; omega), h.of_null]

/-- A record in which one slot has been recast, or has been derived. -/
theorem RecordOf.Recast.setSlot {i : Nat}
    (h : cat.derives r.schema i = false → (r.slot i).Recast cat v) :
    r.Recast cat (r.setSlot i v) := by
  refine ⟨rfl, RecordOf.slots_length_setSlot _ _ _, fun j hj => ?_⟩
  by_cases heq : j = i
  · subst heq
    rw [RecordOf.slot_setSlot (h hj)]
    exact h hj
  · rw [RecordOf.slot_setSlot_of_ne heq]
    exact .same _

end

/-! ## Refreshed values -/

/-- A value after derivation: as well made as before, and without new chunks. -/
structure Value.Refreshed (cat : Catalog) (v v' : Value) : Prop where
  recast : v.Recast cat v'
  ready : v.Ready cat → v'.Ready cat
  companions : v'.companions.Sublist v.companions

/-- A record after derivation. -/
structure RecordOf.Refreshed (cat : Catalog) (r r' : Record) : Prop where
  recast : r.Recast cat r'
  chunks : r'.chunks = r.chunks
  ready : r.Ready cat → r'.Ready cat
  companions : r'.companions.Sublist r.companions

theorem Value.Refreshed.refl (cat : Catalog) (v : Value) : v.Refreshed cat v :=
  ⟨.same v, fun h => h, List.Sublist.refl _⟩

theorem RecordOf.Refreshed.refl (cat : Catalog) (r : Record) : r.Refreshed cat r :=
  ⟨.refl cat r, rfl, fun h => h, List.Sublist.refl _⟩

/-- Refreshing twice is refreshing. -/
theorem RecordOf.Refreshed.trans {cat : Catalog} {r r' r'' : Record} (h : r.Refreshed cat r')
    (h' : r'.Refreshed cat r'') : r.Refreshed cat r'' :=
  ⟨h.recast.trans h'.recast, h'.chunks.trans h.chunks, fun hr => h'.ready (h.ready hr),
    h'.companions.trans h.companions⟩

/-- Replacing a value by one with fewer chunks leaves a record with fewer chunks. -/
theorem companionsAll_set_sublist {slots : List Value} {chunks : List ChunkId} {i : Nat} {v : Value}
    (h : v.companions.Sublist (slots.getD i .null).companions) :
    (Value.companionsAll (slots.set i v) chunks).Sublist (Value.companionsAll slots chunks) := by
  induction slots generalizing i chunks with
  | nil => exact List.Sublist.refl _
  | cons u us ih =>
    cases i with
    | zero =>
      rw [List.set_cons_zero, Value.companionsAll, Value.companionsAll]
      exact ((List.Sublist.refl _).append h).append (List.Sublist.refl _)
    | succ i =>
      rw [List.set_cons_succ, Value.companionsAll, Value.companionsAll]
      exact (List.Sublist.refl _).append (ih h)

/-- Replacing the value of a slot. -/
theorem RecordOf.Refreshed.setSlot {cat : Catalog} {r : Record} {i : Nat} {v : Value}
    (hrecast : cat.derives r.schema i = false → (r.slot i).Recast cat v)
    (hready : r.Ready cat → v.Ready cat)
    (hcomp : v.companions.Sublist (r.slot i).companions)
    (hnum : r.Ready cat → ∀ f, (cat.schema r.schema).fields[i]? = some f →
      f.shape.isNumber = true → ∀ s, v = .scalar s → ∃ n, s = .u64 n) :
    r.Refreshed cat (r.setSlot i v) := by
  refine ⟨.setSlot hrecast, rfl, fun hr => ?_, ?_⟩
  · rw [RecordOf.setSlot_eq_setSlotAt]
    exact hr.setSlotAt (hready hr) (hnum hr)
  · obtain ⟨schema, slots, chunks⟩ := r
    exact companionsAll_set_sublist hcomp

/-- Refreshing the record inside a value refreshes the value. -/
theorem Value.Refreshed.record {cat : Catalog} {v : Value} {r : Record}
    (hinner : v = .record v.innerRecord ∨ ∃ wrapper, v = .wrapped wrapper v.innerRecord)
    (h : v.innerRecord.Refreshed cat r) : v.Refreshed cat (v.setInnerRecord r) := by
  rcases hinner with hv | ⟨wrapper, hv⟩
  · rw [hv] at h ⊢
    exact ⟨h.recast.record, h.ready, h.companions⟩
  · rw [hv] at h ⊢
    exact ⟨h.recast.wrapped wrapper, h.ready, h.companions⟩

/-! ## What a layout knows of its fields -/

/-- A number field holds no scalar of another kind than an unsigned word. -/
theorem FieldGood.scalarKind? {c : Compiler} {s : Schema} {kind : LayoutKind} {decl : FieldDecl}
    {f : BoundField} (h : FieldGood c s kind decl f) (hnum : decl.shape.isNumber = true) :
    f.encoding.scalarKind? = none := by
  -- a number without a scalar kind of its own is a varint or one sized by another field
  have hbound {e : Encoding} (he : boundEncoding? c s kind decl = some e) :
      e.scalarKind? = none := by
    rw [boundEncoding?] at he
    cases hshape : decl.shape with
    | varint =>
      simp only [hshape, Option.some.injEq] at he
      rw [← he]
      split <;> rfl
    | sized size =>
      simp only [hshape] at he
      split at he
      · rw [← Option.some.inj he]
        rfl
      · obtain ⟨i, -, rfl⟩ := Option.map_eq_some_iff.mp he
        rfl
    | _ =>
      rw [hshape] at hnum
      cases hnum
  -- at a fixed width it is forced to a width, which is no scalar either
  rcases h.encoding with hsame | ⟨w, w', -, hforced⟩
  · exact hbound hsame
  · rw [hforced]
    rfl

namespace Workspace

/-- A layout that the workspace has compiled. -/
def Knows (w : Workspace) (l : Layout) : Prop := w.compiler.answer l.key = some l

/-- A layout under a name has this name. -/
theorem Sound.knows {w : Workspace} (hs : w.Sound) {key : LayoutKey} {l : Layout}
    (h : w.compiler.answer key = some l) : w.Knows l ∧ l.key = key := by
  obtain ⟨id, kind⟩ := key
  have hgood := hs.compiler.good.layouts id kind l h
  have hkey : l.key = (id, kind) := by rw [Layout.key, hgood.schema_eq, hgood.kind_eq]
  exact ⟨by rw [Knows, hkey]; exact h, hkey⟩

/-- A known layout stays known. -/
theorem Knows.mono {w w' : Workspace} {l : Layout} (h : w.Knows l) (hle : w.Le w') :
    w'.Knows l :=
  hle.compiler.answer h

/-- A known layout is a good one. -/
theorem Knows.good {w : Workspace} (hs : w.Sound) {l : Layout} (h : w.Knows l) :
    LayoutGood w.compiler l.schema l.kind l :=
  hs.compiler.good.layouts _ _ _ h

end Workspace

/-! ## Operations that leave the stream alone -/

/-- Nothing but what is known, and perhaps the subject, has changed. -/
structure Scene.Studied {τ : Type} (s s' : Scene τ) : Prop where
  sound : s'.space.Sound
  learns : s.space.Learns s'.space
  stream : s'.stream = s.stream

namespace Scene.Studied

variable {τ : Type} {s s' s'' : Scene τ}

theorem refl (h : s.space.Sound) : s.Studied s := ⟨h, .refl _, rfl⟩

/-- Studying is transitive. -/
theorem trans (h : s.Studied s') (h' : s'.Studied s'') : s.Studied s'' :=
  ⟨h'.sound, h.learns.trans h'.learns, h'.stream.trans h.stream⟩

end Scene.Studied

/-- A question asked in the course of an operation. -/
theorem space_studied {τ α : Type} {act : SpaceM α} {s s' : Scene τ} {a : α}
    {post : α → Workspace → Prop} (h : Learning act s.space post)
    (hrun : (Op.space act : Op τ α) s = .ok a s') :
    s.Studied s' ∧ s'.subject = s.subject ∧ post a s'.space := by
  obtain ⟨w, hact, rfl⟩ := Op.space_ok.mp hrun
  obtain ⟨hs, hlearns, hpost⟩ := h a w hact
  exact ⟨⟨hs, hlearns, rfl⟩, rfl, hpost⟩

/-! ## One field -/

/-- A derived value is a number or a width, and deriving it changes nothing. -/
theorem derivedValue_ok {f : BoundField} {r : Record} {d : SlotDerivation} {w w' : Workspace}
    {v : Value} (h : derivedValue f r d w = .ok v w') :
    w' = w ∧ ((∃ s, v = .scalar s ∧ (f.encoding.scalarKind? = none → ∃ n, s = .u64 n)) ∨
      ∃ width, v = .width width) := by
  -- a length is counted, a width is looked up among those that fit
  cases d with
  | lengthOf array =>
    rw [derivedValue, bind_ok] at h
    obtain ⟨items, w₁, hitems, hcount⟩ := h
    obtain ⟨-, rfl⟩ := itemsOf_ok.mp hitems
    rw [countValue] at hcount
    cases hkind : f.encoding.scalarKind? with
    -- a count without a kind of its own is a number of 64 bits
    | none =>
      rw [hkind] at hcount
      obtain ⟨rfl, rfl⟩ := pure_ok.mp hcount
      exact ⟨rfl, Or.inl ⟨_, rfl, fun _ => ⟨_, rfl⟩⟩⟩
    | some kind =>
      simp only [hkind] at hcount
      cases hscalar : Scalar.ofNat? kind items.length with
      | some x =>
        rw [hscalar] at hcount
        obtain ⟨rfl, rfl⟩ := pure_ok.mp hcount
        exact ⟨rfl, Or.inl ⟨_, rfl, fun hnone => by cases hnone⟩⟩
      | none =>
        rw [hscalar] at hcount
        exact (disagreement_fails hcount).elim
  | widthOf numbers =>
    rw [derivedValue, bind_ok] at h
    obtain ⟨widest, w₁, hlargest, hpure⟩ := h
    -- looking for the widest number changes nothing
    have hsame : w₁ = w := by
      generalize 0 = start at hlargest
      induction numbers generalizing start w with
      | nil => exact (pure_ok.mp hlargest).2.symm
      | cons slot rest ih =>
        rw [largestCount, bind_ok] at hlargest
        obtain ⟨n, w₂, hcount, hrest⟩ := hlargest
        obtain ⟨-, rfl⟩ := countOf_ok.mp hcount
        exact ih _ hrest
    obtain ⟨rfl, rfl⟩ := pure_ok.mp hpure
    exact ⟨hsame, Or.inr ⟨_, rfl⟩⟩

/-- A field that is derived was declared so. -/
theorem FieldGood.derives {c : Compiler} {cat : Catalog} {id : SchemaId} {kind : LayoutKind}
    {decl : FieldDecl} {f : BoundField} (h : FieldGood c (cat.schema id) kind decl f) :
    cat.derives id f.slot = f.derivation.isSome := by
  have hbound := h.derivation
  rw [Catalog.derives, h.declared]
  show decl.derivation.isSome = _
  -- a declared derivation is bound to one, and none to none
  cases hdecl : decl.derivation with
  | none =>
    rw [hdecl] at hbound
    rw [← Option.some.inj hbound]
    rfl
  | some d =>
    rw [hdecl] at hbound
    cases d with
    | lengthOf array =>
      obtain ⟨slot, -, heq⟩ := Option.map_eq_some_iff.mp hbound
      rw [← heq]
      rfl
    | widthOf numbers =>
      obtain ⟨slots, -, heq⟩ := Option.map_eq_some_iff.mp hbound
      rw [← heq]
      rfl

/-- Deriving a field studies the space and refreshes the record. -/
theorem deriveField_ok {f : BoundField} {s s' : Scene Record} {u : Unit}
    (h : deriveField f s = .ok u s') (hs : s.space.Sound) {c : Compiler} {kind : LayoutKind}
    {decl : FieldDecl}
    (hgood : FieldGood c (s.space.catalog.schema s.subject.schema) kind decl f) :
    s.Studied s' ∧ s.subject.Refreshed s.space.catalog s'.subject ∧
      ∀ i, i ≠ f.slot → s'.subject.slot i = s.subject.slot i := by
  rw [deriveField] at h
  cases hderivation : f.derivation with
  | none =>
    rw [hderivation] at h
    -- a field without a derivation is passed over with the record as it is
    obtain ⟨-, rfl⟩ := pure_ok.mp h
    exact ⟨.refl hs, .refl _ _, fun _ _ => rfl⟩
  | some d =>
    simp only [hderivation, bind_ok, Op.subject_ok, Op.setSubject_ok] at h
    obtain ⟨r, s₁, ⟨rfl, rfl⟩, v, s₂, hderive, rfl⟩ := h
    obtain ⟨w, hvalue, rfl⟩ := Op.space_ok.mp hderive
    obtain ⟨rfl, hv⟩ := derivedValue_ok hvalue
    refine ⟨⟨hs, .refl _, rfl⟩, ?_, fun i hi => RecordOf.slot_setSlot_of_ne hi v⟩
    have hderived := hgood.derives
    rw [hderivation] at hderived
    -- a slot that is derived may change in any way
    have hrecast : s₁.space.catalog.derives s₁.subject.schema f.slot = false →
        (s₁.subject.slot f.slot).Recast s₁.space.catalog v := fun hnot => by
      rw [hderived] at hnot
      cases hnot
    rcases hv with ⟨x, rfl, hx⟩ | ⟨width, rfl⟩
    · refine .setSlot hrecast (fun _ => trivial) (List.nil_sublist _) fun _ decl' hdecl hnum y hy => ?_
      cases hy
      rw [hgood.declared] at hdecl
      cases hdecl
      exact hx (hgood.scalarKind? hnum)
    · exact .setSlot hrecast (fun _ => trivial) (List.nil_sublist _) fun _ _ _ _ y hy => by cases hy

/-! ## Records and values -/

/-- What a way to derive inside values does, where it succeeds. -/
def DerivesWell (deriveIn : DeriveIn) : Prop :=
  ∀ p (s s' : Scene Value) u, deriveIn p s = .ok u s' → s.space.Sound →
    s.Studied s' ∧ s.subject.Refreshed s.space.catalog s'.subject

/-- Deriving inside the fields' values studies the space and refreshes the record. -/
theorem deriveInside_ok {deriveIn : DeriveIn} (hin : DerivesWell deriveIn)
    {fields : List BoundField} {s s' : Scene Record} {u : Unit}
    (h : deriveInside deriveIn fields s = .ok u s') (hs : s.space.Sound) :
    s.Studied s' ∧ s.subject.Refreshed s.space.catalog s'.subject := by
  -- the record is refreshed field by field, which transitivity joins
  induction fields generalizing s with
  | nil =>
    obtain ⟨-, rfl⟩ := pure_ok.mp h
    exact ⟨.refl hs, .refl _ _⟩
  | cons f rest ih =>
    rw [deriveInside] at h
    -- what becomes of the value of this field, and then the others
    have hstep {s₁ : Scene Record} (hfirst : s.Studied s₁)
        (hvalue : s.subject.Refreshed s.space.catalog s₁.subject)
        (hrest : deriveInside deriveIn rest s₁ = .ok u s') :
        s.Studied s' ∧ s.subject.Refreshed s.space.catalog s'.subject := by
      obtain ⟨hstudied, hrefreshed⟩ := ih hrest hfirst.sound
      rw [hfirst.learns.catalog] at hrefreshed
      exact ⟨hfirst.trans hstudied, hvalue.trans hrefreshed⟩
    cases he : f.encoding with
    | placed p marker =>
      simp only [he] at h
      obtain ⟨_, s₁, hfield, hrest⟩ := bind_ok.mp h
      obtain ⟨t, hact, rfl⟩ := Op.on_ok.mp hfield
      obtain ⟨hstudied, hvalue⟩ := hin _ _ _ _ hact hs
      refine hstep ⟨hstudied.sound, hstudied.learns, hstudied.stream⟩ ?_ hrest
      refine .setSlot (fun _ => hvalue.recast) (fun hr => hvalue.ready (hr.slot _))
        hvalue.companions ?_
      intro hr decl hdecl hnum x hx
      exact hr.number hdecl hnum (hvalue.recast.scalar hx)
    | _ =>
      simp only [he] at h
      exact hstep (.refl hs) (.refl _ _) h

/-- Deriving a run of fields studies the space and refreshes the record. -/
theorem deriveFields_ok {fields : List BoundField} {s s' : Scene Record} {u : Unit}
    (h : fields.forM deriveField s = .ok u s') (hs : s.space.Sound) {c : Compiler}
    {kind : LayoutKind} (hgood : ∀ f ∈ fields, ∃ decl,
      FieldGood c (s.space.catalog.schema s.subject.schema) kind decl f) :
    s.Studied s' ∧ s.subject.Refreshed s.space.catalog s'.subject ∧
      ∀ i, i ∉ fields.map (·.slot) → s'.subject.slot i = s.subject.slot i := by
  induction fields generalizing s with
  | nil =>
    obtain ⟨-, rfl⟩ := pure_ok.mp h
    exact ⟨.refl hs, .refl _ _, fun _ _ => rfl⟩
  | cons f rest ih =>
    obtain ⟨_, s₁, hfirst, hrest⟩ := bind_ok.mp h
    obtain ⟨decl, hdecl⟩ := hgood f List.mem_cons_self
    obtain ⟨hstudied, hrefreshed, hothers⟩ := deriveField_ok hfirst hs hdecl
    obtain ⟨hstudied', hrefreshed', hothers'⟩ := ih hrest hstudied.sound (by
      -- the record has the same schema after the first field, so the others stay good
      rw [hstudied.learns.catalog, hrefreshed.recast.schema]
      exact fun g hg => hgood g (List.mem_cons_of_mem _ hg))
    rw [hstudied.learns.catalog] at hrefreshed'
    refine ⟨hstudied.trans hstudied', hrefreshed.trans hrefreshed', fun i hi => ?_⟩
    rw [List.map_cons, List.mem_cons, not_or] at hi
    rw [hothers' i hi.2, hothers i hi.1]

/-- Deriving a record studies the space and refreshes the record. -/
theorem deriveRecordWith_ok {deriveIn : DeriveIn} (hin : DerivesWell deriveIn) {l : Layout}
    {s s' : Scene Record} {u : Unit} (h : deriveRecordWith deriveIn l s = .ok u s')
    (hs : s.space.Sound) (hl : s.space.Knows l) :
    s.Studied s' ∧ s.subject.Refreshed s.space.catalog s'.subject := by
  rw [deriveRecordWith] at h
  simp only [bind_ok, Op.subject_ok] at h
  obtain ⟨r, s, ⟨rfl, rfl⟩, _, s₁, hrequire, _, s₂, hinside, hfields⟩ := h
  obtain ⟨w, hrequired, rfl⟩ := Op.space_ok.mp hrequire
  obtain ⟨hschema, rfl⟩ := requireSchema_ok.mp hrequired
  obtain ⟨hstudied, hrefreshed⟩ := deriveInside_ok hin hinside hs
  obtain ⟨hstudied', hrefreshed', -⟩ := deriveFields_ok hfields hstudied.sound (by
    rw [hstudied.learns.catalog, hrefreshed.recast.schema, hschema]
    exact fun f hf => (hl.good hs).fields.declared hf)
  rw [hstudied.learns.catalog] at hrefreshed'
  exact ⟨hstudied.trans hstudied', hrefreshed.trans hrefreshed'⟩

/-- Deriving the record inside a value studies the space and refreshes the value. -/
theorem deriveInner_ok {deriveIn : DeriveIn} (hin : DerivesWell deriveIn) {layout : SpaceM Layout}
    {s s' : Scene Value} {u : Unit} (h : deriveInner deriveIn layout s = .ok u s')
    (hlayout : Learning layout s.space fun l w => w.Knows l)
    (hinner : s.subject = .record s.subject.innerRecord ∨
      ∃ wrapper, s.subject = .wrapped wrapper s.subject.innerRecord) :
    s.Studied s' ∧ s.subject.Refreshed s.space.catalog s'.subject := by
  rw [deriveInner] at h
  obtain ⟨l, s₁, hask, hrecord⟩ := bind_ok.mp h
  obtain ⟨hstudied, hsubject, hl⟩ := space_studied hlayout hask
  obtain ⟨t, hact, rfl⟩ := Op.on_ok.mp hrecord
  obtain ⟨hstudied', hrefreshed⟩ := deriveRecordWith_ok hin hact hstudied.sound hl
  -- what was refreshed in the space that knows the layout is refreshed in the one before
  rw [hstudied.learns.catalog] at hrefreshed
  refine ⟨⟨hstudied'.sound, hstudied.learns.trans hstudied'.learns,
    hstudied'.stream.trans hstudied.stream⟩, ?_⟩
  have hsame : Value.recordPart.get s₁.subject = s.subject.innerRecord := by
    rw [hsubject]
    rfl
  rw [hsame] at hrefreshed
  show s.subject.Refreshed _ (s₁.subject.setInnerRecord t.subject)
  rw [hsubject]
  exact .record hinner hrefreshed

/-- A layout asked for is known afterwards. -/
theorem layout_knows {w : Workspace} (hs : w.Sound) (id : SchemaId) (kind : LayoutKind) :
    Learning (SpaceM.layout id kind) w fun l w' => w'.Knows l ∧ l.key = (id, kind) :=
  (layout_learning hs id kind).mono fun _ _ hs' _ hl => hs'.knows hl

/-- The layout of a tag's variant is known afterwards. -/
theorem variantLayout_knows {w : Workspace} (hs : w.Sound) (choice : ChoiceId) (tag : Nat) :
    Learning (SpaceM.variantLayout choice tag) w fun l w' => w'.Knows l ∧
      ∃ v, (w.catalog.choice choice).variant? tag = some v ∧ l.key = (v, .standard) :=
  (variantLayout_learning hs choice tag).mono fun _ _ hs' _ ⟨v, hv, hl⟩ =>
    let ⟨hknows, hkey⟩ := hs'.knows hl
    ⟨hknows, v, hv, hkey⟩

/-- Deriving within a value works at every depth. -/
theorem deriveWithin_ok (depth : Nat) : DerivesWell (deriveWithin depth) := by
  -- the induction is on the depth; each placement then goes one level down
  induction depth with
  | zero =>
    intro p s s' u h _
    exact (throw_ok.mp h).elim
  | succ depth ih =>
    intro p s s' u h hs
    rw [deriveWithin] at h
    simp only [bind_ok, Op.catalog_ok, Op.subject_ok] at h
    obtain ⟨c, s, ⟨rfl, rfl⟩, v, s, ⟨rfl, rfl⟩, h⟩ := h
    have hlayout (id : SchemaId) (kind : LayoutKind) :
        Learning (SpaceM.layout id kind) s.space fun l w => w.Knows l :=
      (layout_knows hs id kind).mono fun _ _ _ _ hl => hl.1
    -- where there is no record inside, nothing is derived
    have hnone (h : (pure () : Op Value Unit) s = .ok u s') :
        s.Studied s' ∧ s.subject.Refreshed s.space.catalog s'.subject := by
      obtain ⟨-, rfl⟩ := pure_ok.mp h
      exact ⟨.refl hs, .refl _ _⟩
    cases p with
    | inlineRecord id =>
      cases hv : s.subject with
      | record r =>
        rw [hv] at h
        rw [← hv]
        exact deriveInner_ok ih h (hlayout _ _) (Or.inl (by rw [hv]; rfl))
      | _ =>
        rw [hv] at h
        rw [← hv]
        exact hnone h
    | fixedRecord id =>
      cases hv : s.subject with
      | record r =>
        rw [hv] at h
        rw [← hv]
        exact deriveInner_ok ih h (hlayout _ _) (Or.inl (by rw [hv]; rfl))
      | _ =>
        rw [hv] at h
        rw [← hv]
        exact hnone h
    | wrapped wrapper carrier kind =>
      cases hv : s.subject with
      | wrapped found r =>
        rw [hv] at h
        rw [← hv]
        exact deriveInner_ok ih h (hlayout _ _) (Or.inr ⟨found, by rw [hv]; rfl⟩)
      | _ =>
        rw [hv] at h
        rw [← hv]
        exact hnone h
    | inlineChoice choice =>
      cases hv : s.subject with
      | record r =>
        rw [hv] at h
        rw [← hv]
        refine deriveInner_ok ih h ?_ (Or.inl (by rw [hv]; rfl))
        refine ((studies.tagOf _ _) _ hs).bind fun tag w hw _ _ => ?_
        exact (variantLayout_knows hw _ _).mono fun _ _ _ _ hl => hl.1
      | _ =>
        rw [hv] at h
        rw [← hv]
        exact hnone h
    | inlineOpen =>
      cases hv : s.subject with
      | record r =>
        simp only [hv] at h
        rw [← hv]
        rcases ite_ok.mp h with ⟨-, h⟩ | ⟨-, h⟩
        · exact hnone h
        · exact deriveInner_ok ih h (hlayout _ _) (Or.inl (by rw [hv]; rfl))
      | wrapped found r =>
        rw [hv] at h
        rw [← hv]
        exact deriveInner_ok ih h (hlayout _ _) (Or.inr ⟨found, by rw [hv]; rfl⟩)
      | _ =>
        rw [hv] at h
        rw [← hv]
        exact hnone h
    | _ => exact hnone h

/-- Working out the derived fields of a record. -/
theorem deriveRecord_ok {l : Layout} {s s' : Scene Record} {u : Unit}
    (h : deriveRecord l s = .ok u s') (hs : s.space.Sound) (hl : s.space.Knows l) :
    s.Studied s' ∧ s.subject.Refreshed s.space.catalog s'.subject := by
  rw [deriveRecord] at h
  obtain ⟨r, s₁, hsubject, hrun⟩ := bind_ok.mp h
  obtain ⟨rfl, rfl⟩ := Op.subject_ok.mp hsubject
  exact deriveRecordWith_ok (deriveWithin_ok _) hrun hs hl

end RecordLayout
