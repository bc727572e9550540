import Mathlib
import RecordLayout.Proofs.Codec.Echo
import RecordLayout.Proofs.Size.Written

/-!
# Writing counted copies

A counted copy of a record is written like the record: the same bytes are put into the stream and
into chunks, and what is left is the counted copy of what is left of the record.

Main results:

* `deriveWithin_echoes` — derived fields, by induction on the depth;
* `checkedSize_echoes` — checks;
* `writeWithin_echoes`, `writeRecord_counted` — writes.
-/

namespace RecordLayout

/-! ## Records inside values -/

section

variable {cat : Catalog} {α : Type}

/-- A counted copy of the value of a slot. -/
def Slot.counted (cat : Catalog) (slot : Slot) : Slot := ⟨slot.value.counted cat, slot.chunk⟩

/-- The record inside a value is counted, unless it is one that the wrapper does not carry. -/
theorem Value.counted_innerRecord (cat : Catalog) (v : Value) :
    ∃ g : Record → Record, (g = RecordOf.counted cat ∨ g = id) ∧
      (v.counted cat).innerRecord = g v.innerRecord ∧
      ∀ r : Record, r.schema = v.innerRecord.schema →
        (v.counted cat).setInnerRecord (g r) = (v.setInnerRecord r).counted cat := by
  cases v with
  | record r => exact ⟨_, .inl rfl, rfl, fun _ _ => rfl⟩
  | wrapped wrapper r =>
    -- a wrapper counts its carrier only if it is a record of the carrier's schema
    by_cases hr : r.schema = (cat.wrapper wrapper).carrier
    · refine ⟨_, .inl rfl, ?_, fun r' hsame => ?_⟩
      · rw [Value.counted, if_pos hr]
        rfl
      · rw [Value.counted, Value.setInnerRecord, Value.setInnerRecord, Value.counted]
        rw [if_pos (hsame.trans hr)]
    · refine ⟨_, .inr rfl, ?_, fun r' hsame => ?_⟩
      · rw [Value.counted, if_neg hr]
        rfl
      · rw [Value.counted, Value.setInnerRecord, Value.setInnerRecord, Value.counted]
        rw [if_neg fun heq => hr (hsame.symm.trans heq), id]
  | _ => exact ⟨_, .inl rfl, rfl, fun _ _ => rfl⟩

section

variable {act : Op Record α}

/-- Either way the work on the record inside a value can be followed. -/
theorem Echoes.ofInner {w : Workspace} {b : ByteStream} {r : Record} {g : Record → Record}
    (hg : g = RecordOf.counted cat ∨ g = id)
    (h : Echoes (Scene.image (RecordOf.counted cat)) act act ⟨w, b, r⟩) :
    Echoes (Scene.image g) act act ⟨w, b, r⟩ := by
  rcases hg with rfl | rfl
  · exact h
  · exact fun _ _ hrun => hrun

/-- Work on the record inside a value that leaves its schema. -/
theorem Echoes.inner {s : Scene Value}
    (hschema : ∀ a t, act ⟨s.space, s.stream, s.subject.innerRecord⟩ = .ok a t →
      t.subject.schema = s.subject.innerRecord.schema)
    (h : Echoes (Scene.image (RecordOf.counted cat)) act act
      ⟨s.space, s.stream, s.subject.innerRecord⟩) :
    Echoes (Scene.image (Value.counted cat)) (Op.on Value.recordPart act)
      (Op.on Value.recordPart act) s := by
  obtain ⟨g, hg, hget, hset⟩ := s.subject.counted_innerRecord cat
  exact .on hget (fun a t hrun => hset _ (hschema a t hrun)) (h.ofInner hg)

/-- Work on the record inside the value of a slot that leaves its schema. -/
theorem Echoes.innerSlot {s : Scene Slot}
    (hschema : ∀ a t, act ⟨s.space, s.stream, s.subject.value.innerRecord⟩ = .ok a t →
      t.subject.schema = s.subject.value.innerRecord.schema)
    (h : Echoes (Scene.image (RecordOf.counted cat)) act act
      ⟨s.space, s.stream, s.subject.value.innerRecord⟩) :
    Echoes (Scene.image (Slot.counted cat)) (Op.on Slot.recordPart act)
      (Op.on Slot.recordPart act) s := by
  obtain ⟨g, hg, hget, hset⟩ := s.subject.value.counted_innerRecord cat
  exact .on hget (fun a t hrun => congrArg (fun v => (⟨v, s.subject.chunk⟩ : Slot))
    (hset _ (hschema a t hrun))) (h.ofInner hg)

end

end

/-! ## Derived fields -/

section

variable {cat : Catalog} {schema : SchemaId} {w : Workspace} {f : BoundField} {r : Record}
  {l : Layout}

/-- The largest count is the same before and after counting. -/
theorem largestCount_echoes (r : Record) (widest : Nat) (slots : List Nat) :
    Echoes id (largestCount r widest slots) (largestCount (r.counted cat) widest slots) w := by
  induction slots generalizing widest w with
  | nil => exact .pure _
  | cons slot rest ih => exact (countOf_echoes r slot).bind fun n _ _ => ih _

/-- A derived value is the same before and after counting. -/
theorem derivedValue_echoes (f : BoundField) (r : Record) (d : SlotDerivation) :
    Echoes id (derivedValue f r d) (derivedValue f (r.counted cat) d) w := by
  cases d with
  | lengthOf array => exact (itemsOf_echoes r array).bind fun _ _ _ => .same _
  | widthOf numbers => exact (largestCount_echoes r 0 numbers).bind fun _ _ _ => .pure _

/-- What a field follows from is a count already if the field is declared as a number. -/
theorem derivedValue_counted {d : SlotDerivation} {v : Value} {w' : Workspace}
    (h : derivedValue f r d w = .ok v w') (hf : f.Declared cat schema) :
    v.countedAs cat (cat.countsAt schema f.slot) = v := by
  obtain ⟨-, ⟨x, rfl, hword⟩ | ⟨width, rfl⟩⟩ := derivedValue_ok h
  · cases hnumber : cat.countsAt schema f.slot with
    | false => rfl
    | true =>
      have hcount : f.encoding.isCount = true := by
        by_contra hnot
        rw [hf.plain (Bool.eq_false_iff.mpr hnot)] at hnumber
        cases hnumber
      obtain ⟨n, rfl⟩ := hword (by
        cases he : f.encoding <;> rw [he] at hcount <;> first | rfl | cases hcount)
      exact Value.asCount_u64 n
  · cases cat.countsAt schema f.slot <;> rfl

/-- Deriving a field and counting may be swapped. -/
theorem deriveField_echoes {s : Scene Record} (hf : f.Declared cat s.subject.schema) :
    Echoes (Scene.image (RecordOf.counted cat)) (deriveField f) (deriveField f) s := by
  unfold deriveField
  cases f.derivation with
  | none => exact .pure _
  | some d =>
    refine .subject ((Echoes.space (derivedValue_echoes f _ d)).bind fun v t hrun => ?_)
    obtain ⟨w', hvalue, rfl⟩ := Op.space_ok.mp hrun
    refine .setSubject ?_
    rw [RecordOf.counted_setSlot, derivedValue_counted hvalue hf]

/-- Deriving a field leaves the space and the record's schema. -/
theorem deriveField_space {s t : Scene Record} {u : Unit} (h : deriveField f s = .ok u t) :
    t.space = s.space ∧ t.subject.schema = s.subject.schema := by
  unfold deriveField at h
  cases hd : f.derivation with
  | none =>
    rw [hd] at h
    obtain ⟨-, rfl⟩ := pure_ok.mp h
    exact ⟨rfl, rfl⟩
  | some d =>
    rw [hd] at h
    simp only [bind_ok, Op.subject_ok, Op.setSubject_ok] at h
    obtain ⟨r, s, ⟨rfl, rfl⟩, v, s₁, hvalue, rfl⟩ := h
    obtain ⟨w, hask, rfl⟩ := Op.space_ok.mp hvalue
    obtain ⟨rfl, -⟩ := derivedValue_ok hask
    exact ⟨rfl, rfl⟩

/-- Deriving a run of fields and counting may be swapped. -/
theorem deriveFields_echoes {fields : List BoundField} {s : Scene Record}
    (hall : ∀ f ∈ fields, f.Declared cat s.subject.schema) :
    Echoes (Scene.image (RecordOf.counted cat)) (fields.forM deriveField)
      (fields.forM deriveField) s := by
  induction fields generalizing s with
  | nil => exact .pure _
  | cons f rest ih =>
    refine (deriveField_echoes (hall f List.mem_cons_self)).bind fun _ t hrun => ih fun g hg => ?_
    rw [(deriveField_space hrun).2]
    exact hall g (List.mem_cons_of_mem _ hg)

/-- Derived fields inside values are worked out alike. -/
def DerivesEcho (cat : Catalog) (deriveIn : DeriveIn) : Prop :=
  ∀ p (s : Scene Value), s.space.Sound → s.space.catalog = cat →
    Echoes (Scene.image (Value.counted cat)) (deriveIn p) (deriveIn p) s

variable {deriveIn : DeriveIn}

/-- Deriving inside the fields' values and counting may be swapped. -/
theorem deriveInside_echoes (hwell : DerivesWell deriveIn) (hin : DerivesEcho cat deriveIn)
    {fields : List BoundField} {s : Scene Record} (hs : s.space.Sound)
    (hcat : s.space.catalog = cat) (hall : ∀ f ∈ fields, f.Declared cat s.subject.schema) :
    Echoes (Scene.image (RecordOf.counted cat)) (deriveInside deriveIn fields)
      (deriveInside deriveIn fields) s := by
  -- the fields derived inside are placed ones, which counting leaves as they are
  induction fields generalizing s with
  | nil => exact .pure _
  | cons f rest ih =>
    unfold deriveInside
    have hrest (g : BoundField) (hg : g ∈ rest) := hall g (List.mem_cons_of_mem _ hg)
    cases he : f.encoding with
    | placed p marker =>
      have hplain := (hall f List.mem_cons_self).plain (by rw [he]; rfl)
      refine Echoes.bind (.on ?_ (fun _ t _ => ?_) (hin p _ hs hcat))
        fun _ t hrun => ?_
      · show (s.subject.counted cat).slot f.slot = _
        rw [RecordOf.slot_counted, hplain, Value.countedAs_false]
        rfl
      · show (s.subject.counted cat).setSlot f.slot _ = (s.subject.setSlot f.slot _).counted cat
        rw [RecordOf.counted_setSlot, hplain, Value.countedAs_false]
      · obtain ⟨t', hact, rfl⟩ := Op.on_ok.mp hrun
        obtain ⟨hstudied, -⟩ := hwell _ _ _ _ hact hs
        exact ih hstudied.sound (hstudied.learns.catalog.trans hcat) hrest
    | _ =>
      exact Echoes.bind (.pure _) fun a t hrun => by
        obtain ⟨rfl, rfl⟩ := pure_ok.mp hrun
        exact ih hs hcat hrest

/-- The schema required is the same before and after counting. -/
theorem requireSchema_echoes (l : Layout) (r : Record) :
    Echoes id (requireSchema l r) (requireSchema l (r.counted cat)) w := by
  unfold requireSchema
  rw [RecordOf.schema_counted]
  exact .same _

/-- Deriving a record and counting may be swapped. -/
theorem deriveRecordWith_echoes (hwell : DerivesWell deriveIn) (hin : DerivesEcho cat deriveIn)
    (hl : ∀ f ∈ l.fields, f.Declared cat l.schema) {s : Scene Record} (hs : s.space.Sound)
    (hcat : s.space.catalog = cat) :
    Echoes (Scene.image (RecordOf.counted cat)) (deriveRecordWith deriveIn l)
      (deriveRecordWith deriveIn l) s := by
  refine .subject ((Echoes.space (requireSchema_echoes l _)).bind fun _ t hrun => ?_)
  obtain ⟨hschema, rfl⟩ := space_requireSchema_ok.mp hrun
  rw [← hschema] at hl
  refine (deriveInside_echoes hwell hin hs hcat hl).bind fun _ t hinside => ?_
  obtain ⟨-, hrefreshed⟩ := deriveInside_ok hwell hinside hs
  exact deriveFields_echoes (by rwa [hrefreshed.recast.schema])

/-- Deriving the record inside a value and counting may be swapped. -/
theorem deriveInner_echoes (hwell : DerivesWell deriveIn) (hin : DerivesEcho cat deriveIn)
    {layout layout' : SpaceM Layout} {s : Scene Value} (hsame : Echoes id layout layout' s.space)
    (hlayout : Learning layout s.space fun l w => w.Knows l) (hcat : s.space.catalog = cat) :
    Echoes (Scene.image (Value.counted cat)) (deriveInner deriveIn layout)
      (deriveInner deriveIn layout') s := by
  refine (Echoes.space hsame).bind fun l t hask => ?_
  obtain ⟨hstudied, -, hl⟩ := space_studied hlayout hask
  have hcat' := hstudied.learns.catalog.trans hcat
  refine .inner (fun _ _ hrun => ?_) ?_
  · exact (deriveRecordWith_ok hwell hrun hstudied.sound hl).2.recast.schema
  · exact deriveRecordWith_echoes hwell hin (hcat' ▸ hl.declares hstudied.sound) hstudied.sound
      hcat'

/-- By induction on the depth. -/
theorem deriveWithin_echoes (cat : Catalog) (depth : Nat) :
    DerivesEcho cat (deriveWithin depth) := by
  -- the induction is on the depth; by the value, since counting goes into records only
  induction depth with
  | zero => exact fun p s _ _ => .throw _ _
  | succ depth ih =>
    intro p s hs hcat
    have hwell := deriveWithin_ok depth
    have hlayout (id : SchemaId) (kind : LayoutKind) : Echoes (Scene.image (Value.counted cat))
        (deriveInner (deriveWithin depth) (SpaceM.layout id kind))
        (deriveInner (deriveWithin depth) (SpaceM.layout id kind)) s :=
      deriveInner_echoes hwell ih (.same _)
        ((layout_knows hs id kind).mono fun _ _ _ _ hl => hl.1) hcat
    unfold deriveWithin
    refine .catalog (.subject ?_)
    cases hv : s.subject with
    | record r =>
      cases p with
      | inlineRecord id => exact hlayout id .standard
      | fixedRecord id => exact hlayout id .fixed
      | inlineChoice choice =>
        refine deriveInner_echoes hwell ih ?_ ?_ hcat
        · exact (tagOf_echoes choice r).bind fun _ _ _ => .same _
        · refine ((studies.tagOf _ _) _ hs).bind fun tag w hw _ _ => ?_
          exact (variantLayout_knows hw _ _).mono fun _ _ _ _ hl => hl.1
      | inlineOpen =>
        simp only [Value.counted, RecordOf.schema_counted]
        exact .ite (fun _ => .pure _) fun _ => hlayout r.schema .standard
      | _ => exact .pure _
    | wrapped wrapper r =>
      cases p with
      | wrapped found carrier kind => exact hlayout carrier kind
      | inlineOpen => exact hlayout _ .standard
      | _ => exact .pure _
    | _ => cases p <;> exact .pure _

/-- Deriving a known layout's record and counting may be swapped. -/
theorem deriveRecord_echoes {s : Scene Record} (hs : s.space.Sound) (hl : s.space.Knows l) :
    Echoes (Scene.image (RecordOf.counted s.space.catalog)) (deriveRecord l) (deriveRecord l) s := by
  refine .subject ?_
  rw [RecordOf.walkDepth_counted]
  exact deriveRecordWith_echoes (deriveWithin_ok _) (deriveWithin_echoes _ _) (hl.declares hs) hs
    rfl

end

/-! ## Checks -/

section

variable {cat : Catalog} {w : Workspace} {f : BoundField} {r : Record} {l : Layout}

/-- A width is checked alike before and after counting. -/
theorem checkWidth_echoes (f : BoundField) (width : Width) (r : Record) (slots : List Nat) :
    Echoes id (checkWidth f width r slots) (checkWidth f width (r.counted cat) slots) w := by
  induction slots generalizing w with
  | nil => exact .pure _
  | cons slot rest ih =>
    exact (countOf_echoes r slot).bind fun n _ _ => .ite (fun _ => ih) fun _ => .throw _ _

/-- A field is checked alike before and after counting. -/
theorem checkField_echoes (f : BoundField) (r : Record) :
    Echoes id (checkField f r) (checkField f (r.counted cat)) w := by
  -- the check of the derivation comes first, then that of the governing width
  refine Echoes.bind ?_ fun _ w' _ => ?_
  · unfold checkDerived
    cases f.derivation with
    | none => exact .pure _
    | some d =>
      -- widths are checked against the numbers they have to hold, lengths against the array
      cases d with
      | widthOf numbers =>
        exact (widthIn_echoes r _).bind fun width _ _ => checkWidth_echoes f width r numbers
      | lengthOf array =>
        refine (derivedValue_echoes f r _).bind fun expected w₁ _ => ?_
        have hheld : ((r.counted cat).slot f.slot).toNat? = (r.slot f.slot).toNat? := by
          rw [RecordOf.slot_counted, Value.toNat?_countedAs]
        dsimp only
        rw [hheld]
        refine .ite (fun _ => .pure _) fun _ => (Echoes.same _).bind fun _ _ _ => .throw _ _
  · unfold checkGoverned
    cases f.encoding with
    | sized g =>
      refine (widthIn_echoes r g).bind fun width _ _ => (countOf_echoes r _).bind fun n _ _ => ?_
      exact .ite (fun _ => .pure _) fun _ => .throw _ _
    | _ => exact .pure _

/-- The fields are checked alike, with the same announced sizes. -/
theorem checkFields_echoes {sizeOf : SizeOf} (hsize : SizesEcho cat sizeOf)
    (hstudies : ∀ p v, Studies (sizeOf p v)) (hschema : r.schema = l.schema)
    {fields : List BoundField} (hall : ∀ f ∈ fields, f.Declared cat l.schema) (hs : w.Sound)
    (hcat : w.catalog = cat) :
    Echoes id (checkFields sizeOf r fields) (checkFields sizeOf (r.counted cat) fields) w := by
  induction fields generalizing w with
  | nil => exact .pure _
  | cons f rest ih =>
    refine (checkField_echoes f r).learn (studies.checkField f r w hs) fun _ w₁ hs₁ hlearns _ => ?_
    have hcat₁ := hlearns.catalog.trans hcat
    refine (fieldSizeWith_echoes hsize (hall f List.mem_cons_self) hschema hs₁ hcat₁).learn
      (studies.fieldSizeWith hstudies r f w₁ hs₁) fun size w₂ hs₂ hlearns' _ => ?_
    exact (ih (fun g hg => hall g (List.mem_cons_of_mem _ hg)) hs₂
      (hlearns'.catalog.trans hcat₁)).bind fun _ _ _ => .pure _

/-- The checked size is the same before and after counting. -/
theorem checkedSize_echoes (hs : w.Sound) (hl : w.Knows l) (hschema : r.schema = l.schema) :
    Echoes id (checkedSize l r) (checkedSize l (r.counted w.catalog)) w := by
  have hsize := placedSizeWithin_echoes w.catalog r.walkDepth
  have hstudies := studies.placedSizeWithin r.walkDepth
  have hall := hl.declares hs
  unfold checkedSize
  rw [RecordOf.walkDepth_counted]
  refine (checkFields_echoes hsize hstudies hschema hall hs rfl).learn
    (studies.checkFields hstudies r l.fields w hs) fun measured w₁ hs₁ hlearns _ => ?_
  refine (recordSizeWith_echoes hsize hstudies hall hschema hs₁ hlearns.catalog).bind
    fun size w₂ _ => ?_
  exact .same _

end

/-! ## Plain values -/

section

variable {τ υ : Type} {g : τ → υ} {s : Scene τ}

/-- Zeros do not depend on the subject. -/
theorem writeZeros_echoes (n : Nat) :
    Echoes (Scene.image g) (writeZeros n) (writeZeros n) s := by
  induction n using Nat.strong_induction_on generalizing s with
  | _ n ih =>
    unfold writeZeros
    split
    · exact .pure _
    · exact (Echoes.stream _).bind fun _ _ _ => ih _ (by omega)

/-- An identifier does not depend on the subject. -/
theorem writeChunkId_echoes (chunk : ChunkId) :
    Echoes (Scene.image g) (writeChunkId chunk) (writeChunkId chunk) s := .stream _

/-- A scalar is written alike where the two values have it in common. -/
theorem writeScalar_echoes (kind : ScalarKind) {v v' : Value} (h : ∀ x, v = .scalar x → v' = v) :
    Echoes (Scene.image g) (writeScalar kind v) (writeScalar kind v') s := by
  cases v with
  | scalar x =>
    rw [h x rfl]
    exact .ite (fun _ => .stream _) fun _ => .fails fun _ _ => space_mismatch_fails
  | _ => exact .fails fun _ _ => space_mismatch_fails

/-- The items of an array are written alike. -/
theorem writeScalars_echoes (kind : ScalarKind) (items : List Value) :
    Echoes (Scene.image g) (writeScalars kind items) (writeScalars kind items) s := by
  unfold writeScalars
  induction items generalizing s with
  | nil => exact .pure _
  | cons v rest ih => exact (writeScalar_echoes kind fun _ _ => rfl).bind fun _ _ _ => ih

end

/-! ## Fields -/

/-- Values of slots are written alike, as long as they are placed as the catalog says. -/
def WritesEcho (cat : Catalog) (writeIn : WriteIn) : Prop :=
  ∀ p (s : Scene Slot), s.space.Sound → s.space.catalog = cat → p.Carries cat →
    Echoes (Scene.image (Slot.counted cat)) (writeIn p) (writeIn p) s

/-- What is needed of a way to write values, to follow it through a record. -/
structure Followed (cat : Catalog) (writeIn : WriteIn) : Prop where
  sized : SizesWell writeIn
  echoes : WritesEcho cat writeIn

section

variable {cat : Catalog} {writeIn : WriteIn} {l : Layout} {f : BoundField} {s : Scene Record}

/-- A slot with the chunk behind it, that is not declared as a number. -/
theorem RecordOf.slotAt_counted_plain {r : Record} (hschema : r.schema = l.schema)
    (hf : f.Declared cat l.schema) (hplain : f.encoding.isCount = false) :
    (r.counted cat).slotAt f.slot = (r.slotAt f.slot).counted cat := by
  rw [slotAt_counted, hschema, hf.plain hplain]
  rfl

/-- A placed value is written alike before and after counting. -/
theorem writePlaced_echoes (hin : Followed cat writeIn) {p : Placement} {marker : Bool}
    (he : f.encoding = .placed p marker) (hf : f.Declared cat l.schema) (hs : s.space.Sound)
    (hcat : s.space.catalog = cat) (hschema : s.subject.schema = l.schema) :
    Echoes (Scene.image (RecordOf.counted cat)) (Op.on (RecordOf.slotPart f.slot) (writeIn p))
      (Op.on (RecordOf.slotPart f.slot) (writeIn p)) s := by
  have hplain : f.encoding.isCount = false := by rw [he]; rfl
  refine .on (RecordOf.slotAt_counted_plain hschema hf hplain) (fun _ t _ => ?_)
    (hin.echoes p _ hs hcat (hf.placed p marker he))
  show (s.subject.counted cat).setSlotAt f.slot _ = (s.subject.setSlotAt f.slot _).counted cat
  rw [RecordOf.counted_setSlotAt, hschema, hf.plain hplain]
  rfl

/-- A field is written alike before and after counting. -/
theorem writeFieldWith_echoes (hin : Followed cat writeIn) (hf : f.Declared cat l.schema)
    (hs : s.space.Sound) (hcat : s.space.catalog = cat) (hschema : s.subject.schema = l.schema) :
    Echoes (Scene.image (RecordOf.counted cat)) (writeFieldWith writeIn f)
      (writeFieldWith writeIn f) s := by
  unfold writeFieldWith
  refine .inField f (.subject ?_)
  dsimp only
  have hcount {s : Scene Record} (r : Record) (i : Nat) :
      Echoes (Scene.image (RecordOf.counted cat)) (Op.space (countOf (r.slot i)))
        (Op.space (countOf ((r.counted cat).slot i))) s := .space (countOf_echoes r i)
  cases he : f.encoding with
  | scalar kind =>
    rw [RecordOf.slot_counted_plain hschema hf (by rw [he]; rfl)]
    exact writeScalar_echoes kind fun x hx => by rw [hx]; rfl
  | ordinal => exact (Echoes.space (widthIn_echoes _ _)).bind fun _ _ _ => .stream _
  | sized g =>
    refine (Echoes.space (widthIn_echoes _ _)).bind fun width _ _ => ?_
    refine (hcount _ _).bind fun n _ _ => ?_
    exact .ite (fun _ => .stream _) fun _ => .fails fun _ _ => space_disagreement_fails
  | forced width =>
    exact (hcount _ _).bind fun n _ _ => .ite (fun _ => .stream _) fun _ => .throw _ _
  | varint => exact (hcount _ _).bind fun n _ _ => .stream _
  | array element g =>
    refine (hcount _ _).bind fun count _ _ => ?_
    refine (Echoes.space (itemsOf_echoes _ _)).bind fun items _ _ => ?_
    refine .ite (fun _ => writeScalars_echoes element items) fun _ => ?_
    exact .fails fun _ _ => space_disagreement_fails
  | placed p marker =>
    -- a value that is counted is absent exactly if it was before
    have hnull : ((s.subject.counted cat).slot f.slot).isNull = (s.subject.slot f.slot).isNull := by
      rw [RecordOf.slot_counted, Value.isNull_countedAs]
    dsimp only
    rw [hnull]
    refine .ite (fun _ => .throw _ _) fun _ => .ite (fun _ => ?_) fun _ => ?_
    · refine (Echoes.stream _).bind fun _ _ _ => (Echoes.space (.same _)).bind fun _ _ _ => ?_
      exact writeZeros_echoes _
    · cases marker with
      | true =>
        refine (Echoes.stream _).bind fun _ t hmark => ?_
        obtain ⟨space, stream, subject⟩ := t
        obtain ⟨rfl, rfl, -⟩ := write_sent hmark
        exact writePlaced_echoes hin he hf hs hcat hschema
      | false => exact writePlaced_echoes hin he hf hs hcat hschema

/-- By induction along the row. -/
theorem writeFields_echoes (hin : Followed cat writeIn) {fields : List BoundField}
    (hall : ∀ f ∈ fields, f.Declared cat l.schema) (hs : s.space.Sound)
    (hcat : s.space.catalog = cat) (hschema : s.subject.schema = l.schema) :
    Echoes (Scene.image (RecordOf.counted cat)) (writeFields writeIn fields)
      (writeFields writeIn fields) s := by
  unfold writeFields
  induction fields generalizing s with
  | nil => exact .pure _
  | cons f rest ih =>
    refine (writeFieldWith_echoes hin (hall f List.mem_cons_self) hs hcat hschema).bind
      fun _ t hrun => ?_
    obtain ⟨_, hone⟩ := writeFieldWith_sized hin.sized hrun hs
    exact ih (fun g hg => hall g (List.mem_cons_of_mem _ hg)) hone.moved.sound
      (hone.moved.le.catalog.trans hcat) (hone.schema.trans hschema)

/-! ## Records -/

/-- The checked body is written alike before and after counting. -/
theorem writeChecked_echoes (hin : Followed cat writeIn) (hs : s.space.Sound)
    (hl : s.space.Knows l) (hcat : s.space.catalog = cat) (hschema : s.subject.schema = l.schema) :
    Echoes (Scene.image (RecordOf.counted cat)) (writeChecked writeIn l)
      (writeChecked writeIn l) s := by
  subst hcat
  refine .subject ((Echoes.space (checkedSize_echoes hs hl hschema)).bind fun size t hcheck => ?_)
  obtain ⟨hstudied, hsubject, -⟩ := space_studied (studies.checkedSize l _ _ hs) hcheck
  refine Echoes.position.bind fun start t' hstart => ?_
  obtain ⟨rfl, rfl⟩ := Op.position_ok.mp hstart
  refine (writeFields_echoes hin (hl.declares hs) hstudied.sound hstudied.learns.catalog
    (by rw [hsubject]; exact hschema)).bind fun _ _ _ => ?_
  exact Echoes.position.bind fun stop _ _ => .ite (fun _ => .throw _ _) fun _ => .pure _

/-- The body is written alike before and after counting. -/
theorem writeBody_echoes (hin : Followed cat writeIn) (hs : s.space.Sound)
    (hl : s.space.Knows l) (hcat : s.space.catalog = cat) (hschema : s.subject.schema = l.schema) :
    Echoes (Scene.image (RecordOf.counted cat)) (writeBody writeIn l) (writeBody writeIn l) s := by
  subst hcat
  refine (deriveRecord_echoes hs hl).bind fun _ t hderive => ?_
  obtain ⟨hstudied, hrefreshed⟩ := deriveRecord_ok hderive hs hl
  have hl' := hl.mono hstudied.learns.toLe
  have hschema' := hrefreshed.recast.schema.trans hschema
  refine Echoes.config.bind fun config t' hconfig => ?_
  obtain ⟨rfl, rfl⟩ := Op.config_ok.mp hconfig
  refine .ite (fun _ => ?_) fun _ => ?_
  · exact writeChecked_echoes hin hstudied.sound hl' hstudied.learns.catalog hschema'
  · exact writeFields_echoes hin (hl.declares hs) hstudied.sound hstudied.learns.catalog hschema'

/-- A record is written alike before and after counting. -/
theorem writeRecordWith_echoes (hin : Followed cat writeIn) (hs : s.space.Sound)
    (hl : s.space.Knows l) (hcat : s.space.catalog = cat) :
    Echoes (Scene.image (RecordOf.counted cat)) (writeRecordWith writeIn l)
      (writeRecordWith writeIn l) s := by
  refine .subject ((Echoes.space (requireSchema_echoes l _)).bind fun _ t hrequire => ?_)
  obtain ⟨hschema, rfl⟩ := space_requireSchema_ok.mp hrequire
  refine .subject (.onFailure _ _ (.rollback ?_))
  exact writeBody_echoes hin ⟨hs.compiler, hs.store⟩ hl hcat hschema

end

/-! ## Values behind references -/

section

variable {cat : Catalog} {writeIn : WriteIn} {l : Layout} {s : Scene Slot}

/-- The record inside the value of a slot, in its layout. -/
theorem writeInside_echoes (hin : Followed cat writeIn) (hs : s.space.Sound)
    (hl : s.space.Knows l) (hcat : s.space.catalog = cat) :
    Echoes (Scene.image (Slot.counted cat)) (Op.on Slot.recordPart (writeRecordWith writeIn l))
      (Op.on Slot.recordPart (writeRecordWith writeIn l)) s := by
  refine .innerSlot (fun _ t hrun => ?_) (writeRecordWith_echoes hin hs hl hcat)
  obtain ⟨_, hrecord, -⟩ := writeRecordWith_sized hin.sized hrun hs hl
  exact hrecord.recast.schema

/-- The record inside the value of a slot, in a layout that is asked for. -/
theorem writeAsked_echoes (hin : Followed cat writeIn) {layout : SpaceM Layout}
    (hcat : s.space.catalog = cat) (hlayout : Learning layout s.space fun l w => w.Knows l) :
    Echoes (Scene.image (Slot.counted cat))
      (Op.space layout >>= fun l => Op.on Slot.recordPart (writeRecordWith writeIn l))
      (Op.space layout >>= fun l => Op.on Slot.recordPart (writeRecordWith writeIn l)) s := by
  refine (Echoes.space (.same _)).bind fun l t hask => ?_
  obtain ⟨hstudied, -, hl⟩ := space_studied hlayout hask
  exact writeInside_echoes hin hstudied.sound hl (hstudied.learns.catalog.trans hcat)

/-- A value on its own. -/
theorem writeLoose_echoes (hin : Followed cat writeIn) {p : Placement} (hs : s.space.Sound)
    (hcat : s.space.catalog = cat) (hp : p.Carries cat) :
    Echoes (Scene.image (Slot.counted cat)) (Op.on Slot.loosePart (writeIn p))
      (Op.on Slot.loosePart (writeIn p)) s :=
  .on rfl (fun _ _ _ => rfl) (hin.echoes p _ hs hcat hp)

/-- What is stored behind a slot, if the body can be followed wherever it runs. -/
theorem storeBehind_echoes {hint : Nat} {body body' : Op Slot Unit} (hs : s.space.Sound)
    (hbody : ∀ t : Scene Slot, t.space.Sound → s.space.Le t.space → t.subject = s.subject →
      Echoes (Scene.image (Slot.counted cat)) body body' t) :
    Echoes (Scene.image (Slot.counted cat)) (storeBehind hint body) (storeBehind hint body') s := by
  refine .subject ((Echoes.space (.same _)).bind fun live t hlive => ?_)
  obtain ⟨w, hcontains, rfl⟩ := Op.space_ok.mp hlive
  cases hcontains
  refine .ite (fun _ => ?_) fun _ => ?_
  · refine Echoes.bind (.withChunk fun content => .inTransaction ?_) fun _ _ _ => .pure _
    refine Echoes.bind (hbody _ hs ?_ rfl) fun _ _ _ => .cutHere
    exact .refl _
  · refine Echoes.bind (.allocateWith fun heap content hstore => hbody _ ⟨hs.compiler, ?_⟩
      ⟨.refl _, .refl _, rfl⟩ rfl) fun chunk _ _ => ?_
    · show heap.store.Sound
      rw [hstore]
      exact (ChunkStore.Writes.allocate hs.store []).sound hs.store
    · exact Echoes.bind (.modifySubject rfl) fun _ _ _ => .pure _

/-- Forgetting a chunk and counting may be swapped. -/
theorem forgetChunk_echoes :
    Echoes (Scene.image (Slot.counted cat)) forgetChunk forgetChunk s :=
  Echoes.bind (.modifySubject rfl) fun _ _ _ => .pure _

/-- A record is stored alike before and after counting. -/
theorem storeRecordBehind_echoes (hin : Followed cat writeIn) {r : Record} (hs : s.space.Sound)
    (hl : s.space.Knows l) (hcat : s.space.catalog = cat) (hschema : r.schema = l.schema) :
    Echoes (Scene.image (Slot.counted cat)) (storeRecordBehind writeIn l r)
      (storeRecordBehind writeIn l (r.counted cat)) s := by
  subst hcat
  have hhint : Echoes id (recordSize l r) (recordSize l (r.counted s.space.catalog)) s.space := by
    unfold recordSize
    rw [RecordOf.walkDepth_counted]
    exact recordSizeWith_echoes (placedSizeWithin_echoes _ _) (studies.placedSizeWithin _)
      (hl.declares hs) hschema hs rfl
  refine (Echoes.space hhint).bind fun hint t hask => ?_
  obtain ⟨hstudied, -, -⟩ := space_studied (studies.recordSize l r _ hs) hask
  have hl' := hl.mono hstudied.learns.toLe
  refine storeBehind_echoes hstudied.sound fun t' hs' hle _ => ?_
  exact writeInside_echoes hin hs' (hl'.mono hle) (hle.catalog.trans hstudied.learns.catalog)

/-- A text behind a reference has nothing to count. -/
theorem writeTextBehind_echoes (hs : s.space.Sound) :
    Echoes (Scene.image (Slot.counted cat)) writeTextBehind writeTextBehind s := by
  refine .subject ?_
  obtain ⟨space, stream, v, chunk⟩ := s
  cases v with
  | null => exact forgetChunk_echoes.bind fun chunk _ _ => writeChunkId_echoes chunk
  | text text =>
    exact (storeBehind_echoes hs fun _ _ _ _ => .stream _).bind fun chunk _ _ =>
      writeChunkId_echoes chunk
  | _ =>
    exact Echoes.bind (.fails fun _ _ => space_mismatch_fails) fun chunk _ _ =>
      writeChunkId_echoes chunk

/-- A record behind a reference is written alike before and after counting. -/
theorem writeRecordBehind_echoes (hin : Followed cat writeIn) (schema : SchemaId)
    (hs : s.space.Sound) (hcat : s.space.catalog = cat) :
    Echoes (Scene.image (Slot.counted cat)) (writeRecordBehind writeIn schema)
      (writeRecordBehind writeIn schema) s := by
  refine .subject (.catalog ?_)
  obtain ⟨space, stream, v, chunk⟩ := s
  -- the image of a record is the counted one, any other value is its own image
  cases v with
  | null => exact forgetChunk_echoes.bind fun chunk _ _ => writeChunkId_echoes chunk
  | record r =>
    simp only [Slot.counted, Value.counted, RecordOf.schema_counted]
    refine .ite (fun hschema => ?_) fun _ =>
      Echoes.bind (.fails fun _ _ => space_mismatch_fails) fun chunk _ _ =>
        writeChunkId_echoes chunk
    refine (Echoes.space (.same _)).bind fun l t hask => ?_
    obtain ⟨hstudied, -, hl, hkey⟩ := space_studied (layout_knows hs schema .standard) hask
    have hstored := storeRecordBehind_echoes hin hstudied.sound hl
      (hstudied.learns.catalog.trans hcat) (hschema.trans (congrArg Prod.fst hkey).symm)
    exact hstored.bind fun chunk _ _ => writeChunkId_echoes chunk
  | _ =>
    exact Echoes.bind (.fails fun _ _ => space_mismatch_fails) fun chunk _ _ =>
      writeChunkId_echoes chunk

/-- A tag or the id of a type, and a reference. -/
theorem writeTagged_echoes (tag : Nat) (chunk : ChunkId) :
    Echoes (Scene.image (Slot.counted cat))
      (do Op.stream (ByteSink.writeU32 tag); writeChunkId chunk)
      (do Op.stream (ByteSink.writeU32 tag); writeChunkId chunk) s :=
  (Echoes.stream _).bind fun _ _ _ => writeChunkId_echoes chunk

/-- A choice behind a reference is written alike before and after counting. -/
theorem writeChoiceBehind_echoes (hin : Followed cat writeIn) (choice : ChoiceId)
    (hs : s.space.Sound) (hcat : s.space.catalog = cat) :
    Echoes (Scene.image (Slot.counted cat)) (writeChoiceBehind writeIn choice)
      (writeChoiceBehind writeIn choice) s := by
  refine .subject (.catalog ?_)
  obtain ⟨space, stream, v, chunk⟩ := s
  cases v with
  | null =>
    refine forgetChunk_echoes.bind fun chunk _ _ => ?_
    exact writeTagged_echoes 0 chunk
  | record r =>
    refine (Echoes.space (tagOf_echoes choice r)).bind fun tag t htag => ?_
    obtain ⟨hdeclared, rfl⟩ := space_tagOf_ok.mp htag
    refine (Echoes.space (.same _)).bind fun l t hask => ?_
    -- the variant's layout is that of the record's schema, since the tag was found by it
    obtain ⟨hstudied, -, hl, hschema⟩ := space_studied (variantLayout_tagged hs hdeclared) hask
    have hstored := storeRecordBehind_echoes hin hstudied.sound hl
      (hstudied.learns.catalog.trans hcat) hschema
    refine hstored.bind fun chunk _ _ => ?_
    exact writeTagged_echoes tag chunk
  | _ =>
    refine Echoes.bind (.fails fun _ _ => space_mismatch_fails) fun pair _ _ => ?_
    exact writeTagged_echoes pair.1 pair.2

/-- An open record behind a reference is written alike before and after counting. -/
theorem writeOpenBehind_echoes (hin : Followed cat writeIn) (hs : s.space.Sound)
    (hcat : s.space.catalog = cat) :
    Echoes (Scene.image (Slot.counted cat)) (writeOpenBehind writeIn)
      (writeOpenBehind writeIn) s := by
  -- the type's number is asked for first; each later question starts from the space the one before
  -- left
  refine .subject ((Echoes.space (typeId_echoes _)).bind fun number t hask => ?_)
  obtain ⟨hstudied, hsubject, -⟩ := space_studied (typeId_learning hs _) hask
  have hcat₁ := hstudied.learns.catalog.trans hcat
  refine .ite (fun _ => forgetChunk_echoes.bind fun chunk _ _ => writeTagged_echoes number chunk)
    fun _ => ?_
  refine (Echoes.space (.same _)).bind fun q t₂ hplace => ?_
  obtain ⟨hstudied₂, hsubject₂, type, -, hanswer⟩ :=
    space_studied (openPlacement_learning hstudied.sound number) hplace
  have hcat₂ := hstudied₂.learns.catalog.trans hcat₁
  have hcarries : q.Carries cat :=
    hcat₂ ▸ (hstudied₂.sound.compiler.good.placements _ _ _ hanswer).carries
  -- the record is measured before it is stored, and the measure does not see the counts
  have hsize : Echoes id (placedSize q s.subject.value)
      (placedSize q (s.subject.value.counted cat)) t₂.space := by
    unfold placedSize
    rw [Value.walkDepth_counted]
    exact placedSizeWithin_echoes cat _ q _ _ hstudied₂.sound hcat₂ hcarries
  refine (Echoes.space hsize).bind fun hint t₃ hask => ?_
  obtain ⟨hstudied₃, -, -⟩ := space_studied (studies.placedSize q _ _ hstudied₂.sound) hask
  have hcat₃ := hstudied₃.learns.catalog.trans hcat₂
  refine (storeBehind_echoes hstudied₃.sound fun t hs' hle _ => ?_).bind fun chunk _ _ =>
    writeTagged_echoes number chunk
  exact writeLoose_echoes hin hs' (hle.catalog.trans hcat₃) hcarries

/-! ## Values in place -/

/-- A record in its slot is written alike before and after counting. -/
theorem writeInner_echoes (hin : Followed cat writeIn) (schema : SchemaId) (kind : LayoutKind)
    (hs : s.space.Sound) (hcat : s.space.catalog = cat) :
    Echoes (Scene.image (Slot.counted cat)) (writeInner writeIn schema kind)
      (writeInner writeIn schema kind) s := by
  refine .subject (.catalog ?_)
  obtain ⟨space, stream, v, chunk⟩ := s
  cases v with
  | record r =>
    simp only [Slot.counted, Value.counted, RecordOf.schema_counted]
    refine .ite (fun _ => ?_) fun _ => .fails fun _ _ => space_mismatch_fails
    exact writeAsked_echoes hin hcat ((layout_knows hs schema kind).mono fun _ _ _ _ hl => hl.1)
  | _ => exact .fails fun _ _ => space_mismatch_fails

/-- A wrapped value is written alike before and after counting. -/
theorem writeWrapped_echoes (hin : Followed cat writeIn) (wrapper : WrapperId)
    (carrier : SchemaId) (kind : LayoutKind) (hs : s.space.Sound) (hcat : s.space.catalog = cat) :
    Echoes (Scene.image (Slot.counted cat)) (writeWrapped writeIn wrapper carrier kind)
      (writeWrapped writeIn wrapper carrier kind) s := by
  refine .subject (.catalog ?_)
  obtain ⟨space, stream, v, chunk⟩ := s
  cases v with
  | wrapped found r =>
    refine .ite (fun _ => ?_) fun _ => .fails fun _ _ => space_mismatch_fails
    exact writeAsked_echoes hin hcat ((layout_knows hs carrier kind).mono fun _ _ _ _ hl => hl.1)
  | _ => exact .fails fun _ _ => space_mismatch_fails

/-- An inline choice is written alike before and after counting. -/
theorem writeChoice_echoes (hin : Followed cat writeIn) (choice : ChoiceId) (hs : s.space.Sound)
    (hcat : s.space.catalog = cat) :
    Echoes (Scene.image (Slot.counted cat)) (writeChoice writeIn choice)
      (writeChoice writeIn choice) s := by
  refine .subject (.catalog ?_)
  obtain ⟨space, stream, v, chunk⟩ := s
  cases v with
  | null => exact .stream _
  | record r =>
    refine (Echoes.space (tagOf_echoes choice r)).bind fun tag t htag => ?_
    obtain ⟨-, rfl⟩ := space_tagOf_ok.mp htag
    refine (Echoes.stream _).bind fun _ t hmark => ?_
    have hspace : t.space = space := (writeVarint_sent hmark).space
    rw [← hspace] at hs hcat
    exact writeAsked_echoes hin hcat
      ((variantLayout_knows hs choice tag).mono fun _ _ _ _ hl => hl.1)
  | _ => exact .fails fun _ _ => space_mismatch_fails

/-- An open slot is written alike before and after counting. -/
theorem writeOpen_echoes (hin : Followed cat writeIn) (hs : s.space.Sound)
    (hcat : s.space.catalog = cat) :
    Echoes (Scene.image (Slot.counted cat)) (writeOpen writeIn) (writeOpen writeIn) s := by
  refine .subject ((Echoes.space (typeId_echoes _)).bind fun number t hask => ?_)
  obtain ⟨hstudied, -, -⟩ := space_studied (typeId_learning hs _) hask
  refine (Echoes.stream _).bind fun _ t₁ hmark => ?_
  have hsent := writeVarint_sent hmark
  have hs₁ : t₁.space.Sound := by
    rw [hsent.space]
    exact hstudied.sound
  refine .ite (fun _ => .pure _) fun _ => (Echoes.space (.same _)).bind fun q t₂ hplace => ?_
  obtain ⟨hstudied₂, -, type, -, hanswer⟩ := space_studied (openPlacement_learning hs₁ number) hplace
  have hcat₂ : t₂.space.catalog = cat := by
    rw [hstudied₂.learns.catalog, hsent.space, hstudied.learns.catalog, hcat]
  exact writeLoose_echoes hin hstudied₂.sound hcat₂
    (hcat₂ ▸ (hstudied₂.sound.compiler.good.placements _ _ _ hanswer).carries)

/-! ## Values at any depth -/

/-- An inline text has nothing to count. -/
theorem writeText_echoes (v : Value) :
    Echoes (Scene.image (Slot.counted cat)) (writeText v) (writeText (v.counted cat)) s := by
  cases v with
  | null => exact .stream _
  | text text => exact (Echoes.stream _).bind fun _ _ _ => .stream _
  | _ => exact .fails fun _ _ => space_mismatch_fails

/-- A handle has nothing to count. -/
theorem writeHandle_echoes (schema : SchemaId) (fixed : Bool) (v : Value) :
    Echoes (Scene.image (Slot.counted cat)) (writeHandle schema fixed v)
      (writeHandle schema fixed (v.counted cat)) s := by
  have hreference (chunk : ChunkId) : Echoes (Scene.image (Slot.counted cat))
      (if fixed then writeChunkId chunk else writeVarint chunk.id)
      (if fixed then writeChunkId chunk else writeVarint chunk.id) s :=
    .ite (fun _ => .stream _) fun _ => .stream _
  -- a handle is compared with the schema by the catalog, which both sides share
  refine .catalog ?_
  cases v with
  | null => exact hreference .null
  | handle h =>
    refine .ite (fun _ => hreference h.chunk) fun _ => .fails fun _ _ hrun => ?_
    obtain ⟨_, _, hfail, -⟩ := bind_ok.mp hrun
    exact space_mismatch_fails hfail
  | _ =>
    refine .fails fun _ _ hrun => ?_
    obtain ⟨_, _, hfail, -⟩ := bind_ok.mp hrun
    exact space_mismatch_fails hfail

/-- By induction on the depth. -/
theorem writeWithin_echoes (cat : Catalog) (depth : Nat) : WritesEcho cat (writeWithin depth) := by
  -- the induction is on the depth, with one lemma for each placement
  induction depth with
  | zero => exact fun p s _ _ _ => .throw _ _
  | succ depth ih =>
    intro p s hs hcat hp
    have hin : Followed cat (writeWithin depth) := ⟨writeWithin_sized depth, ih⟩
    refine .subject ?_
    cases p with
    | scalar kind =>
      refine writeScalar_echoes kind fun x hx => ?_
      show s.subject.value.counted cat = _
      rw [hx]
      rfl
    | inlineText => exact writeText_echoes _
    | chunkText => exact writeTextBehind_echoes hs
    | inlineRecord id => exact writeInner_echoes hin id .standard hs hcat
    | fixedRecord id => exact writeInner_echoes hin id .fixed hs hcat
    | chunkRecord id => exact writeRecordBehind_echoes hin id hs hcat
    | handle id fixed => exact writeHandle_echoes id fixed _
    | inlineChoice choice => exact writeChoice_echoes hin choice hs hcat
    | chunkChoice choice => exact writeChoiceBehind_echoes hin choice hs hcat
    | inlineOpen => exact writeOpen_echoes hin hs hcat
    | chunkOpen => exact writeOpenBehind_echoes hin hs hcat
    | wrapped wrapper carrier kind => exact writeWrapped_echoes hin wrapper carrier kind hs hcat

end

/-- A counted copy is written as the record is, and what is left of it is the counted copy of what is
left of the record. -/
theorem writeRecord_counted {l : Layout} {w : Workspace} {b : ByteStream} {r : Record}
    {s' : Scene Record} {u : Unit} (h : writeRecord l ⟨w, b, r⟩ = .ok u s') (hs : w.Sound)
    (hl : w.Knows l) : writeRecord l ⟨w, b, r.counted w.catalog⟩ =
      .ok u (s'.image (RecordOf.counted w.catalog)) := by
  have hfollowed : Echoes (Scene.image (RecordOf.counted w.catalog)) (writeRecord l) (writeRecord l)
      ⟨w, b, r⟩ := by
    refine .subject ?_
    rw [RecordOf.walkDepth_counted]
    exact writeRecordWith_echoes ⟨writeWithin_sized _, writeWithin_echoes _ _⟩ hs hl rfl
  exact hfollowed u s' h

end RecordLayout
