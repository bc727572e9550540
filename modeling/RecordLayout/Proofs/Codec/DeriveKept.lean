import Mathlib
import RecordLayout.Proofs.Codec.Tidy

/-!
# Chunks and derived fields

Derived fields are flat: a width or a count takes the place of another one. So working them out gives
up no chunk that is in use, brings in no handle, and leaves a tidy record tidy.

Main results:

* `RecordOf.Keeps`, `Value.Keeps` — what is kept from one record or value to another;
* `deriveWithin_keeps`, `deriveRecord_keeps` — working out derived fields, at any depth;
* `deriveRecord_works` — what derived fields hold afterwards.
-/

namespace RecordLayout

/-! ## Values without handles -/

/-- A record stays without handles when the slot set has none. -/
theorem RecordOf.HandleFree.setSlotAt {r : Record} {slot : Slot} (h : r.HandleFree)
    (hv : slot.value.HandleFree) (i : Nat) : (r.setSlotAt i slot).HandleFree := by
  obtain ⟨schema, slots, chunks⟩ := r
  have hall : ∀ x ∈ slots, x.HandleFree := Value.handleFreeAll_iff.mp h
  refine Value.handleFreeAll_iff.mpr fun x hx => ?_
  rcases List.mem_or_eq_of_mem_set hx with hold | rfl
  · exact hall x hold
  · exact hv

/-- A record stays without handles when the value set has none. -/
theorem RecordOf.HandleFree.setSlot {r : Record} {v : Value} (h : r.HandleFree)
    (hv : v.HandleFree) (i : Nat) : (r.setSlot i v).HandleFree := by
  rw [RecordOf.setSlot_eq_setSlotAt]
  exact h.setSlotAt hv i

/-- The record inside a value without handles has none. -/
theorem Value.HandleFree.innerRecord {v : Value} (h : v.HandleFree) : v.innerRecord.HandleFree := by
  cases v with
  | record r => exact h
  | wrapped wrapper r => exact h
  | _ => trivial

/-- A value stays without handles when the record set inside has none. -/
theorem Value.HandleFree.setInnerRecord {v : Value} {r : Record} (h : v.HandleFree)
    (hr : r.HandleFree) : (v.setInnerRecord r).HandleFree := by
  cases v with
  | record _ => exact hr
  | wrapped _ _ => exact hr
  | _ => exact h

/-! ## What is kept -/

section

variable {c c' c'' : Compiler} {p : Placement} {l : Layout} {v v' : Value} {r r' r'' : Record}

/-- From one record to another, no chunk that is in use is given up, and no handle comes in. -/
structure RecordOf.Keeps (c c' : Compiler) (l : Layout) (r r' : Record) : Prop where
  tidy : r.Tidy c l → r'.Tidy c' l
  names : r.Tidy c l → r.companions ⊆ r'.companions
  free : r.HandleFree → r'.HandleFree

/-- From one value to another, no chunk that is in use is given up, and no handle comes in. -/
structure Value.Keeps (c c' : Compiler) (p : Placement) (v v' : Value) : Prop where
  tidy : v.Tidy c p → v'.Tidy c' p
  names : v.Tidy c p → v.companions ⊆ v'.companions
  free : v.HandleFree → v'.HandleFree

namespace RecordOf.Keeps

theorem refl (hgrows : c.Grows c') (r : Record) : r.Keeps c c' l r :=
  ⟨fun h => h.mono hgrows, fun _ => List.Subset.refl _, fun h => h⟩

/-- Keeping is transitive. -/
theorem trans (h : r.Keeps c c' l r') (h' : r'.Keeps c' c'' l r'') : r.Keeps c c'' l r'' :=
  ⟨fun hr => h'.tidy (h.tidy hr), fun hr => List.Subset.trans (h.names hr) (h'.names (h.tidy hr)),
    fun hr => h'.free (h.free hr)⟩

end RecordOf.Keeps

theorem Value.Keeps.refl (hgrows : c.Grows c') (v : Value) : v.Keeps c c' p v :=
  ⟨fun h => h.mono hgrows, fun _ => List.Subset.refl _, fun h => h⟩

/-- The record inside a value, in its layout. -/
theorem Value.Keeps.inner (hinner : v = .record v.innerRecord ∨
      ∃ wrapper, v = .wrapped wrapper v.innerRecord)
    (hgrows : c.Grows c') {key : LayoutKey} (hkey : p.innerKey? c.catalog v = some key)
    (hl : c.answer key = some l) (h : v.innerRecord.Keeps c c' l r)
    (hschema : r.schema = v.innerRecord.schema) : v.Keeps c c' p (v.setInnerRecord r) := by
  have hsame : p.innerKey? c'.catalog (v.setInnerRecord r) = some key := by
    rw [hgrows.catalog, ← hkey]
    exact Placement.innerKey?_setInnerRecord hschema
  -- setting the record inside and looking at it again gives the record
  have hrecord : (v.setInnerRecord r).innerRecord = r := by
    rcases hinner with hv | ⟨wrapper, hv⟩ <;> rw [hv] <;> rfl
  refine ⟨fun ht => ?_, fun ht => ?_, fun hf => hf.setInnerRecord (h.free hf.innerRecord)⟩
  · have hr := h.tidy (ht.inner hkey hl)
    rw [← hrecord] at hr
    exact hr.value hsame (hgrows.answer hl)
  · have hr := h.names (ht.inner hkey hl)
    rcases hinner with hv | ⟨wrapper, hv⟩
    · rw [hv] at hr ⊢
      exact hr
    · rw [hv] at hr ⊢
      exact hr

/-- Every slot of a schema has one field. -/
theorem FieldsGood.eq_of_slot {s : Schema} {kind : LayoutKind} {fields : List BoundField}
    (h : FieldsGood c s kind fields) {f g : BoundField} (hf : f ∈ fields) (hg : g ∈ fields)
    (heq : f.slot = g.slot) : f = g :=
  List.inj_on_of_nodup_map h.slots_nodup hf hg heq

/-- The value of a slot in which a value is placed. -/
theorem RecordOf.Keeps.setPlaced {s : Schema} {kind : LayoutKind}
    (hfields : FieldsGood c s kind l.fields) {f : BoundField} (hf : f ∈ l.fields)
    {marker : Bool} (he : f.encoding = .placed p marker) (hgrows : c.Grows c')
    (hv : (r.slot f.slot).Keeps c c' p v) (hrefreshed : (r.slot f.slot).Refreshed c.catalog v) :
    r.Keeps c c' l (r.setSlot f.slot v) := by
  -- only the value changes; the slot keeps its chunk
  have hvalue : (r.setSlotAt f.slot ⟨v, r.chunk f.slot⟩).slot f.slot = v := by
    rw [← RecordOf.setSlot_eq_setSlotAt]
    exact RecordOf.slot_setSlot hrefreshed.recast
  refine ⟨fun ht => ?_, fun ht => ?_, fun hfree => hfree.setSlot (hv.free (hfree.slot _)) _⟩
  · rw [RecordOf.setSlot_eq_setSlotAt]
    refine (ht.mono hgrows).setSlotAt hvalue (fun g hg hslot => ?_) fun g hg hslot q m hq => ?_
    -- a derived slot names no chunk before, and refreshing adds none
    · obtain rfl := hfields.eq_of_slot hg hf hslot
      refine ⟨fun hplain => absurd he (hplain _ _), fun hderived => ?_⟩
      have hnone := (ht.allows g hg).derived hderived
      exact List.sublist_nil.mp (hnone ▸ hrefreshed.companions)
    · obtain rfl := hfields.eq_of_slot hg hf hslot
      rw [he] at hq
      obtain ⟨rfl, -⟩ := Encoding.placed.inj hq
      obtain ⟨hbacked, hinside⟩ := ht.placed g hg p marker he
      -- a slot that is backed by a chunk stays so, since refreshing makes nothing null
      refine ⟨hbacked.imp_right fun ⟨hbehind, hne⟩ => ⟨hbehind, fun hnull => hne ?_⟩,
        hv.tidy hinside⟩
      have hsame := hrefreshed.recast.isNull
      rw [show v = .null from hnull] at hsame
      exact Value.isNull_iff.mp hsame.symm
  · rw [RecordOf.setSlot_eq_setSlotAt]
    exact companions_subset_setSlotAt (List.Subset.refl _)
      (hv.names (ht.placed f hf p marker he).inside)

/-- A field that is worked out. -/
theorem RecordOf.Keeps.setDerived {s : Schema} {kind : LayoutKind}
    (hfields : FieldsGood c s kind l.fields) {f : BoundField} (hf : f ∈ l.fields)
    (hderived : f.derivation.isSome = true) (hne : v ≠ .null) (hnone : v.companions = [])
    (hfree : v.HandleFree) : r.Keeps c c l (r.setSlot f.slot v) := by
  refine ⟨fun ht => ?_, fun ht => ?_, fun h => h.setSlot hfree _⟩
  -- past the record's end nothing is set
  · by_cases hi : f.slot < r.slots.length
    · rw [RecordOf.setSlot_eq_setSlotAt]
      refine ht.setSlotAt ?_ (fun g hg hslot => ?_) fun g hg hslot q m hq => ?_
      · rw [← RecordOf.setSlot_eq_setSlotAt]
        exact RecordOf.slot_setSlot_self hi v
      · obtain rfl := hfields.eq_of_slot hg hf hslot
        -- a plain field has no chunk of its own, and the derived value names none
        refine ⟨fun hplain => ?_, fun _ => hnone⟩
        have hown := (List.append_eq_nil_iff.mp ((ht.allows g hg).plain hplain)).1
        exact List.append_eq_nil_iff.mpr ⟨hown, hnone⟩
      · obtain rfl := hfields.eq_of_slot hg hf hslot
        exact ⟨(ht.placed g hg q m hq).backed.imp_right fun h => ⟨h.1, hne⟩, .bare hnone⟩
    · rw [RecordOf.setSlot, List.set_eq_of_length_le (by omega)]
      exact ht
  · rw [RecordOf.setSlot_eq_setSlotAt]
    refine companions_subset_setSlotAt (List.Subset.refl _) ?_
    rw [show (r.slot f.slot).companions = [] from (ht.allows f hf).derived hderived]
    exact List.nil_subset _

end

/-! ## Derived fields -/

/-- What follows from other fields is a number or a width. -/
theorem derivedValue_plain {f : BoundField} {r : Record} {d : SlotDerivation} {w w' : Workspace}
    {v : Value} (h : derivedValue f r d w = .ok v w') :
    w' = w ∧ v ≠ .null ∧ v.companions = [] ∧ v.HandleFree := by
  obtain ⟨hsame, ⟨x, rfl, -⟩ | ⟨width, rfl⟩⟩ := derivedValue_ok h
  · exact ⟨hsame, nofun, rfl, trivial⟩
  · exact ⟨hsame, nofun, rfl, trivial⟩

/-- A way to work out derived fields inside values keeps what is in use, where it succeeds. -/
def DerivesKeeping (deriveIn : DeriveIn) : Prop :=
  ∀ p (s s' : Scene Value) u, deriveIn p s = .ok u s' → s.space.Sound →
    s.subject.Keeps s.space.compiler s'.space.compiler p s'.subject

section

variable {l : Layout} {s s' : Scene Record} {u : Unit} {kind : LayoutKind} {schema : Schema}

/-- Deriving a field keeps what the record names and changes no chunk. -/
theorem deriveField_keeps {f : BoundField} (h : deriveField f s = .ok u s')
    (hfields : FieldsGood s.space.compiler schema kind l.fields) (hf : f ∈ l.fields) :
    s'.space = s.space ∧ s.subject.Keeps s.space.compiler s'.space.compiler l s'.subject := by
  rw [deriveField] at h
  cases hderivation : f.derivation with
  | none =>
    rw [hderivation] at h
    obtain ⟨-, rfl⟩ := pure_ok.mp h
    exact ⟨rfl, .refl (.refl _) _⟩
  | some d =>
    simp only [hderivation, bind_ok, Op.subject_ok, Op.setSubject_ok] at h
    obtain ⟨r, s₁, ⟨rfl, rfl⟩, v, s₂, hderive, rfl⟩ := h
    obtain ⟨w, hvalue, rfl⟩ := Op.space_ok.mp hderive
    obtain ⟨rfl, hne, hnone, hfree⟩ := derivedValue_plain hvalue
    exact ⟨rfl, .setDerived hfields hf (by rw [hderivation]; rfl) hne hnone hfree⟩

/-- Deriving a run of fields keeps what the record names. -/
theorem deriveFields_keep {fields : List BoundField} (h : fields.forM deriveField s = .ok u s')
    (hfields : FieldsGood s.space.compiler schema kind l.fields) (hsub : fields ⊆ l.fields) :
    s.subject.Keeps s.space.compiler s'.space.compiler l s'.subject := by
  induction fields generalizing s with
  | nil =>
    obtain ⟨-, rfl⟩ := pure_ok.mp h
    exact .refl (.refl _) _
  | cons f rest ih =>
    obtain ⟨_, s₁, hfirst, hrest⟩ := bind_ok.mp h
    obtain ⟨hf, hsub⟩ := List.cons_subset.mp hsub
    obtain ⟨hsame, hkeeps⟩ := deriveField_keeps hfirst hfields hf
    rw [← hsame] at hfields
    exact hkeeps.trans (ih hrest hfields hsub)

variable {deriveIn : DeriveIn}

/-- Deriving inside the fields' values keeps what the record names. -/
theorem deriveInside_keeps (hwell : DerivesWell deriveIn) (hin : DerivesKeeping deriveIn)
    {fields : List BoundField} (h : deriveInside deriveIn fields s = .ok u s')
    (hs : s.space.Sound) (hfields : FieldsGood s.space.compiler schema kind l.fields)
    (hsub : fields ⊆ l.fields) :
    s.subject.Keeps s.space.compiler s'.space.compiler l s'.subject := by
  induction fields generalizing s with
  | nil =>
    obtain ⟨-, rfl⟩ := pure_ok.mp h
    exact .refl (.refl _) _
  | cons f rest ih =>
    rw [deriveInside] at h
    obtain ⟨hf, hsub⟩ := List.cons_subset.mp hsub
    cases he : f.encoding with
    | placed p marker =>
      simp only [he] at h
      obtain ⟨_, s₁, hfield, hrest⟩ := bind_ok.mp h
      obtain ⟨t, hact, rfl⟩ := Op.on_ok.mp hfield
      obtain ⟨hstudied, hrefreshed⟩ := hwell _ _ _ _ hact hs
      have hgrows := hstudied.learns.compiler
      exact (RecordOf.Keeps.setPlaced hfields hf he hgrows (hin _ _ _ _ hact hs) hrefreshed).trans
        (ih hrest hstudied.sound (hfields.grows hgrows) hsub)
    -- a field that is not placed has no record inside
    | _ =>
      simp only [he] at h
      exact ih h hs hfields hsub

/-- Deriving a record keeps what it names. -/
theorem deriveRecordWith_keeps (hwell : DerivesWell deriveIn) (hin : DerivesKeeping deriveIn)
    (h : deriveRecordWith deriveIn l s = .ok u s') (hs : s.space.Sound) (hl : s.space.Knows l) :
    s.subject.schema = l.schema ∧
      s.subject.Keeps s.space.compiler s'.space.compiler l s'.subject := by
  rw [deriveRecordWith] at h
  simp only [bind_ok, Op.subject_ok, space_requireSchema_ok] at h
  obtain ⟨r, s, ⟨rfl, rfl⟩, _, s, ⟨hschema, rfl⟩, _, s₂, hinside, hderive⟩ := h
  obtain ⟨hstudied, -⟩ := deriveInside_ok hwell hinside hs
  have hfields := (hl.good hs).fields
  exact ⟨hschema, (deriveInside_keeps hwell hin hinside hs hfields (List.Subset.refl _)).trans
    (deriveFields_keep hderive (hfields.grows hstudied.learns.compiler) (List.Subset.refl _))⟩

end

/-- The layout of a record inside a value, as it is asked for when the value is walked over. -/
def Placement.AsksFor (p : Placement) (v : Value) (layout : SpaceM Layout) (w : Workspace) : Prop :=
  Learning layout w fun l w' => w'.Knows l ∧
    (v.innerRecord.schema = l.schema → p.innerKey? w.catalog v = some l.key)

/-- Deriving the record inside a value keeps what the value names. -/
theorem deriveInner_keeps {deriveIn : DeriveIn} (hwell : DerivesWell deriveIn)
    (hin : DerivesKeeping deriveIn) {layout : SpaceM Layout} {s s' : Scene Value} {u : Unit}
    {p : Placement} (h : deriveInner deriveIn layout s = .ok u s')
    (hlayout : p.AsksFor s.subject layout s.space)
    (hinner : s.subject = .record s.subject.innerRecord ∨
      ∃ wrapper, s.subject = .wrapped wrapper s.subject.innerRecord) :
    s.subject.Keeps s.space.compiler s'.space.compiler p s'.subject := by
  rw [deriveInner] at h
  obtain ⟨l, s₁, hask, hrecord⟩ := bind_ok.mp h
  obtain ⟨hstudied, hsubject, hl, hkey⟩ := space_studied hlayout hask
  obtain ⟨t, hact, rfl⟩ := Op.on_ok.mp hrecord
  have hget : Value.recordPart.get s₁.subject = s.subject.innerRecord := by rw [hsubject]; rfl
  rw [hget] at hact
  obtain ⟨hstudied', hrefreshed⟩ := deriveRecordWith_ok hwell hact hstudied.sound hl
  obtain ⟨hschema, hkeeps⟩ := deriveRecordWith_keeps hwell hin hact hstudied.sound hl
  -- the layout asked for is the one that decides what the value may name
  rw [← hstudied.learns.catalog] at hkey
  have hgrows := hstudied.learns.compiler
  have hvalue := Value.Keeps.inner hinner hstudied'.learns.compiler (hkey hschema) hl hkeeps
    hrefreshed.recast.schema
  show s.subject.Keeps _ _ _ (s₁.subject.setInnerRecord t.subject)
  rw [hsubject]
  exact ⟨fun ht => hvalue.tidy (ht.mono hgrows), fun ht => hvalue.names (ht.mono hgrows),
    hvalue.free⟩

/-- A placement with a record of some schema asks for that schema's layout. -/
theorem Placement.asksFor_layout {w : Workspace} (hs : w.Sound) {p : Placement} {v : Value}
    {id : SchemaId} {kind : LayoutKind}
    (hkey : v.innerRecord.schema = id → p.innerKey? w.catalog v = some (id, kind)) :
    p.AsksFor v (SpaceM.layout id kind) w := by
  refine (layout_knows hs id kind).mono fun l w' _ _ hl => ⟨hl.1, fun hschema => ?_⟩
  rw [hl.2]
  exact hkey (hschema.trans (congrArg Prod.fst hl.2))

/-- An inline choice asks for the layout of the variant it holds. -/
theorem Placement.asksFor_variant {w : Workspace} (hs : w.Sound) {p : Placement} {v : Value}
    {choice : ChoiceId} {tag : Nat}
    (hkey : p.innerKey? w.catalog v = some (v.innerRecord.schema, .standard)) :
    p.AsksFor v (SpaceM.variantLayout choice tag) w := by
  refine (variantLayout_knows hs choice tag).mono fun l w' _ _ hl => ⟨hl.1, fun hschema => ?_⟩
  obtain ⟨variant, -, heq⟩ := hl.2
  rw [hkey, heq, hschema.trans (congrArg Prod.fst heq)]

/-- Working out derived fields inside values, by induction on the depth. -/
theorem deriveWithin_keeps (depth : Nat) : DerivesKeeping (deriveWithin depth) := by
  induction depth with
  | zero =>
    intro p s s' u h _
    exact (throw_ok.mp h).elim
  | succ depth ih =>
    intro p s s' u h hs
    rw [deriveWithin] at h
    simp only [bind_ok, Op.catalog_ok, Op.subject_ok] at h
    obtain ⟨c, s, ⟨rfl, rfl⟩, v, s, ⟨rfl, rfl⟩, h⟩ := h
    have hnone (h : (pure () : Op Value Unit) s = .ok u s') :
        s.subject.Keeps s.space.compiler s'.space.compiler p s'.subject := by
      obtain ⟨-, rfl⟩ := pure_ok.mp h
      exact .refl (.refl _) _
    have hinner {layout : SpaceM Layout} (h : deriveInner (deriveWithin depth) layout s = .ok u s')
        (hlayout : p.AsksFor s.subject layout s.space)
        (hv : s.subject = .record s.subject.innerRecord ∨
          ∃ wrapper, s.subject = .wrapped wrapper s.subject.innerRecord) :
        s.subject.Keeps s.space.compiler s'.space.compiler p s'.subject :=
      deriveInner_keeps (deriveWithin_ok depth) ih h hlayout hv
    -- a record stands in its own layout, the carrier of a wrapper in that of its placement
    cases hv : s.subject with
    | record r =>
      have hrecord : s.subject = .record s.subject.innerRecord := by rw [hv]; rfl
      rw [hv] at h
      rw [← hv]
      cases p with
      | inlineRecord id =>
        refine hinner h (Placement.asksFor_layout hs fun heq => ?_) (.inl hrecord)
        rw [hrecord, ← heq]
        rfl
      | fixedRecord id =>
        refine hinner h (Placement.asksFor_layout hs fun heq => ?_) (.inl hrecord)
        rw [hrecord, ← heq]
        rfl
      | inlineChoice choice =>
        refine hinner h ?_ (.inl hrecord)
        refine ((studies.tagOf _ _) _ hs).bind fun tag w hw hlearns _ => ?_
        have hasks : (Placement.inlineChoice choice).AsksFor s.subject
            (SpaceM.variantLayout choice tag) w :=
          Placement.asksFor_variant hw (by rw [hrecord]; rfl)
        rwa [Placement.AsksFor, hlearns.catalog] at hasks
      | inlineOpen =>
        simp only at h
        rcases ite_ok.mp h with ⟨-, h⟩ | ⟨-, h⟩
        · exact hnone h
        · refine hinner h (Placement.asksFor_layout hs fun _ => ?_) (.inl hrecord)
          rw [hv]
          rfl
      | _ => exact hnone h
    | wrapped wrapper r =>
      rw [hv] at h
      rw [← hv]
      cases p with
      | wrapped wrapper' carrier kind =>
        refine hinner h (Placement.asksFor_layout hs fun _ => ?_) (.inr ⟨wrapper, by rw [hv]; rfl⟩)
        rw [hv]
        rfl
      | inlineOpen =>
        refine hinner h (Placement.asksFor_layout hs fun _ => ?_) (.inr ⟨wrapper, by rw [hv]; rfl⟩)
        rw [hv]
        rfl
      | _ => exact hnone h
    | _ =>
      rw [hv] at h
      rw [← hv]
      cases p <;> exact hnone h

/-- Deriving a record to any depth keeps what it names. -/
theorem deriveRecord_keeps {l : Layout} {s s' : Scene Record} {u : Unit}
    (h : deriveRecord l s = .ok u s') (hs : s.space.Sound) (hl : s.space.Knows l) :
    s.subject.Keeps s.space.compiler s'.space.compiler l s'.subject := by
  rw [deriveRecord] at h
  obtain ⟨r, s₁, hsubject, hrun⟩ := bind_ok.mp h
  obtain ⟨rfl, rfl⟩ := Op.subject_ok.mp hsubject
  exact (deriveRecordWith_keeps (deriveWithin_ok _) (deriveWithin_keeps _) hrun hs hl).2

/-! ## What has been worked out -/

/-- A value with nothing inside that could change. -/
def Value.Flat : Value → Prop
  | .list _ | .record _ | .wrapped _ _ => False
  | _ => True

/-- A flat value names no chunk. -/
theorem Value.Flat.companions {v : Value} (h : v.Flat) : v.companions = [] := by
  cases v with
  | list _ => exact h.elim
  | record _ => exact h.elim
  | wrapped _ _ => exact h.elim
  | _ => rfl

/-- A flat value is recast to itself only. -/
theorem Value.Flat.recast {cat : Catalog} {v v' : Value} (h : v.Flat) (hrecast : v.Recast cat v') :
    v' = v := by
  cases hrecast with
  | same => rfl
  | record _ _ _ => exact h.elim
  | wrapped _ _ _ => exact h.elim

/-- Derived fields hold what has been worked out. -/
def RecordOf.Worked (fields : List BoundField) (r : Record) : Prop :=
  ∀ f ∈ fields, f.derivation.isSome = true → (r.slot f.slot).Flat

/-- A derived field holds a flat value. -/
theorem deriveField_works {f : BoundField} {s s' : Scene Record} {u : Unit}
    (h : deriveField f s = .ok u s') (hderived : f.derivation.isSome = true) :
    (s'.subject.slot f.slot).Flat := by
  obtain ⟨d, hd⟩ := Option.isSome_iff_exists.mp hderived
  rw [deriveField] at h
  simp only [hd, bind_ok, Op.subject_ok, Op.setSubject_ok] at h
  obtain ⟨r, s₁, ⟨rfl, rfl⟩, v, s₂, hderive, rfl⟩ := h
  obtain ⟨w, hvalue, rfl⟩ := Op.space_ok.mp hderive
  show ((s₁.subject.setSlot f.slot v).slot f.slot).Flat
  by_cases hi : f.slot < s₁.subject.slots.length
  · rw [RecordOf.slot_setSlot_self hi]
    obtain ⟨x, rfl, -⟩ | ⟨width, rfl⟩ := (derivedValue_ok hvalue).2
    · trivial
    · trivial
  · rw [RecordOf.slot_of_length_le (by rw [RecordOf.slots_length_setSlot]; omega)]
    trivial

/-- The derived fields hold flat values. -/
theorem deriveFields_work {fields : List BoundField} {s s' : Scene Record} {u : Unit}
    (h : fields.forM deriveField s = .ok u s') (hs : s.space.Sound) {c : Compiler}
    {kind : LayoutKind} (hgood : ∀ f ∈ fields, ∃ decl,
      FieldGood c (s.space.catalog.schema s.subject.schema) kind decl f)
    (hnodup : (fields.map (·.slot)).Nodup) : s'.subject.Worked fields := by
  induction fields generalizing s with
  | nil => exact fun f hf => nomatch hf
  | cons f rest ih =>
    obtain ⟨_, s₁, hfirst, hrest⟩ := bind_ok.mp h
    obtain ⟨decl, hdecl⟩ := hgood f List.mem_cons_self
    obtain ⟨hstudied, hrefreshed, -⟩ := deriveField_ok hfirst hs hdecl
    have hgood' : ∀ g ∈ rest, ∃ decl,
        FieldGood c (s₁.space.catalog.schema s₁.subject.schema) kind decl g := by
      rw [hstudied.learns.catalog, hrefreshed.recast.schema]
      exact fun g hg => hgood g (List.mem_cons_of_mem _ hg)
    obtain ⟨hout, hnodup'⟩ := List.nodup_cons.mp hnodup
    obtain ⟨-, -, hothers⟩ := deriveFields_ok hrest hstudied.sound hgood'
    intro g hg hderived
    rcases List.mem_cons.mp hg with rfl | hmem
    -- the first field is derived at once, and no later one is in its slot
    · rw [hothers _ hout]
      exact deriveField_works hfirst hderived
    · exact ih hrest hstudied.sound hgood' hnodup' g hmem hderived

/-- A derived record holds flat values in all its derived fields. -/
theorem deriveRecord_works {l : Layout} {s s' : Scene Record} {u : Unit}
    (h : deriveRecord l s = .ok u s') (hs : s.space.Sound) (hl : s.space.Knows l) :
    s'.subject.Worked l.fields := by
  rw [deriveRecord] at h
  obtain ⟨r, s₁, hsubject, hrun⟩ := bind_ok.mp h
  obtain ⟨rfl, rfl⟩ := Op.subject_ok.mp hsubject
  rw [deriveRecordWith] at hrun
  simp only [bind_ok, Op.subject_ok, space_requireSchema_ok] at hrun
  obtain ⟨r, s₁, ⟨rfl, rfl⟩, _, s₁, ⟨hschema, rfl⟩, _, s₂, hinside, hderive⟩ := hrun
  obtain ⟨hstudied, hrefreshed⟩ := deriveInside_ok (deriveWithin_ok _) hinside hs
  have hfields := (hl.good hs).fields
  have hdeclared : ∀ f ∈ l.fields, ∃ decl, FieldGood s₁.space.compiler
      (s₂.space.catalog.schema s₂.subject.schema) l.kind decl f := by
    rw [hstudied.learns.catalog, hrefreshed.recast.schema, hschema]
    exact fun f hf => hfields.declared hf
  exact deriveFields_work hderive hstudied.sound hdeclared hfields.slots_nodup

end RecordLayout
