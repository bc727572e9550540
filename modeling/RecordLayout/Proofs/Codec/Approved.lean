import Mathlib
import RecordLayout.Proofs.Codec.Advance
import RecordLayout.Proofs.Codec.RoundTrip

/-!
# Build checks and reading

A record of an immutable schema is read as a draft, so its build check is what stands between bytes
and the record. Whatever the bytes are, and whatever the chunks hold: a record that is read has passed
the check of its schema, and so has every record inside it, however it is kept.

The checks see the name of the schema that describes the slots, which is that of the draft while a
record is read. `Catalog.ChecksSlots` says that they make nothing of it.

Main results:

* `Op.Gives` — what an operation gives, where it succeeds;
* `readWithin_gives` — values in their placements, by induction on the depth;
* `readNew_approved` — records.
-/

namespace RecordLayout

/-! ## Approved values -/

mutual

/-- Every record in a value passes the build check of its schema. -/
def Value.Approved (cat : Catalog) : Value → Prop
  | .list items => Value.ApprovedAll cat items
  | .record r => RecordOf.Approved cat r
  | .wrapped _ carrier => RecordOf.Approved cat carrier
  | _ => True

/-- Every record in some values passes the build check of its schema. -/
def Value.ApprovedAll (cat : Catalog) : List Value → Prop
  | [] => True
  | v :: vs => v.Approved cat ∧ Value.ApprovedAll cat vs

/-- A record passes the build check of its schema, and so do the records inside. -/
def RecordOf.Approved (cat : Catalog) : RecordOf Value → Prop
  | ⟨schema, slots, _⟩ => (cat.schema schema).checkBuild (cat.schema schema) slots = .ok () ∧
      Value.ApprovedAll cat slots

end

theorem Value.approvedAll_iff {cat : Catalog} {values : List Value} :
    ApprovedAll cat values ↔ ∀ v ∈ values, v.Approved cat := by
  induction values with
  | nil => simp [ApprovedAll]
  | cons v vs ih => simp [ApprovedAll, ih]

theorem RecordOf.approved_iff {cat : Catalog} {r : Record} : r.Approved cat ↔
    (cat.schema r.schema).checkBuild (cat.schema r.schema) r.slots = .ok () ∧
      ∀ v ∈ r.slots, v.Approved cat := by
  obtain ⟨schema, slots, chunks⟩ := r
  rw [Approved, Value.approvedAll_iff]

/-- New slots hold no records. -/
theorem FieldShape.blank_approved (cat : Catalog) (shape : FieldShape) :
    shape.blank.Approved cat := by
  unfold blank
  split <;> trivial

/-- Build checks look at slots only. -/
def Catalog.ChecksSlots (cat : Catalog) : Prop :=
  ∀ id check, (cat.schema id).kind = .immutable check →
    ∀ name name' slots, check name slots = check name' slots

/-- The check of a schema says the same of a record and of the draft that the record is made from. -/
theorem Catalog.ChecksSlots.draft {cat : Catalog} (h : cat.ChecksSlots) (id : SchemaId)
    (slots : List Value) : (cat.schema id).checkBuild (cat.schema id.toDraft) slots =
      (cat.schema id).checkBuild (cat.schema id) slots := by
  unfold Schema.checkBuild
  cases hkind : (cat.schema id).kind with
  | immutable check =>
    have hnamed : (cat.schema id.toDraft).named slots = (cat.schema id).named slots := rfl
    simp only [hnamed, h id check hkind (cat.schema id.toDraft).name (cat.schema id).name]
  | _ => rfl

/-! ## What operations give -/

namespace Op

variable {τ υ α β : Type} {cat : Catalog}

/-- Wherever the declared types are those of `cat`: if the operation succeeds, its result is as said,
and the subject still has a property if it had it before. -/
def Gives (cat : Catalog) (keeps : τ → Prop) (act : Op τ α) (result : α → Prop) : Prop :=
  ∀ s a t, s.space.compiler.Resting → s.space.catalog = cat → keeps s.subject →
    act s = .ok a t →
      t.space.compiler.Resting ∧ t.space.catalog = cat ∧ keeps t.subject ∧ result a

namespace Gives

variable {keeps : τ → Prop} {result : α → Prop}

/-! ### Sequences -/

theorem pure {a : α} (h : result a) : Gives cat keeps (Pure.pure a) result := by
  rintro s _ _ hrest hcat hkeeps hrun
  obtain ⟨rfl, rfl⟩ := pure_ok.mp hrun
  exact ⟨hrest, hcat, hkeeps, h⟩

theorem throw (e : FormatError) : Gives cat keeps (MonadExcept.throw e : Op τ α) result :=
  fun _ _ _ _ _ _ hrun => (throw_ok.mp hrun).elim

theorem bind {act : Op τ α} {next : α → Op τ β} {result' : β → Prop}
    (h : act.Gives cat keeps result) (hnext : ∀ a, result a → (next a).Gives cat keeps result') :
    (act >>= next).Gives cat keeps result' := by
  rintro s b u hrest hcat hkeeps hrun
  obtain ⟨a, t, hact, hthen⟩ := bind_ok.mp hrun
  obtain ⟨hrest', hcat', hkeeps', ha⟩ := h s a t hrest hcat hkeeps hact
  exact hnext a ha t b u hrest' hcat' hkeeps' hthen

theorem mono {act : Op τ α} {result' : α → Prop} (h : act.Gives cat keeps result)
    (himp : ∀ a, result a → result' a) : act.Gives cat keeps result' := by
  intro s a t hrest hcat hkeeps hrun
  obtain ⟨hrest', hcat', hkeeps', ha⟩ := h s a t hrest hcat hkeeps hrun
  exact ⟨hrest', hcat', hkeeps', himp a ha⟩

theorem ite {c : Prop} [Decidable c] {x y : Op τ α} (hx : x.Gives cat keeps result)
    (hy : y.Gives cat keeps result) : (if c then x else y).Gives cat keeps result := by
  split
  · exact hx
  · exact hy

/-- What every turn keeps. -/
theorem forM {act : β → Op τ PUnit} {items : List β}
    (h : ∀ b, (act b).Gives cat keeps fun _ => True) :
    (items.forM act).Gives cat keeps fun _ => True := by
  induction items with
  | nil => exact .pure trivial
  | cons b rest ih => exact (h b).bind fun _ _ => ih

theorem ofExcept (outcome : Except FormatError α) :
    Gives cat keeps (RecordLayout.ofExcept outcome) fun a => outcome = .ok a := by
  rintro s a _ hrest hcat hkeeps hrun
  obtain ⟨ha, rfl⟩ := ofExcept_ok.mp hrun
  exact ⟨hrest, hcat, hkeeps, ha⟩

/-! ### Parts of a scene -/

theorem space {act : SpaceM α} (h : act.Advances) :
    Gives cat keeps (Op.space act) fun _ => True := by
  rintro s a _ hrest hcat hkeeps hrun
  obtain ⟨w, hact, rfl⟩ := space_ok.mp hrun
  have hadvances := h s.space hrest
  rw [outcome_of_ok hact] at hadvances
  exact ⟨hadvances.1, hadvances.2.catalog.trans hcat, hkeeps, trivial⟩

/-- What is done on the stream alone. -/
theorem stream (act : StreamM ByteStream α) : Gives cat keeps (Op.stream act) fun _ => True := by
  rintro s a _ hrest hcat hkeeps hrun
  obtain ⟨b, -, rfl⟩ := stream_ok.mp hrun
  exact ⟨hrest, hcat, hkeeps, trivial⟩

/-- The subject is as it is kept. -/
theorem subject : Gives cat keeps Op.subject keeps := by
  rintro s a t hrest hcat hkeeps hrun
  obtain ⟨rfl, rfl⟩ := subject_ok.mp hrun
  exact ⟨hrest, hcat, hkeeps, hkeeps⟩

/-- The declared types are known beforehand. -/
theorem catalog : Gives cat keeps Op.catalog fun c => c = cat := by
  rintro s a t hrest hcat hkeeps hrun
  obtain ⟨rfl, rfl⟩ := catalog_ok.mp hrun
  exact ⟨hrest, hcat, hkeeps, hcat⟩

/-- A change of the subject that keeps to what is kept. -/
theorem modifySubject {f : τ → τ} (h : ∀ x, keeps x → keeps (f x)) :
    Gives cat keeps (Op.modifySubject f) fun _ => True := by
  rintro s a t hrest hcat hkeeps hrun
  obtain rfl := modifySubject_ok.mp hrun
  exact ⟨hrest, hcat, h _ hkeeps, trivial⟩

/-- Work on a part of the subject that has nothing to do with what is kept. -/
theorem on {p : Part τ υ} {act : Op υ α} (h : act.Gives cat (fun _ => True) result)
    (hset : ∀ y x, keeps x → keeps (p.set y x)) : (Op.on p act).Gives cat keeps result := by
  rintro s a _ hrest hcat hkeeps hrun
  obtain ⟨t, hact, rfl⟩ := on_ok.mp hrun
  obtain ⟨hrest', hcat', -, ha⟩ := h _ a t hrest hcat trivial hact
  exact ⟨hrest', hcat', hset _ _ hkeeps, ha⟩

/-- Work on a subject of its own. -/
theorem withSubject {keeps' : υ → Prop} {y : υ} {act : Op υ α} (h : act.Gives cat keeps' result)
    (hy : keeps' y) : Gives cat keeps (Op.withSubject y act) fun out => result out.1 ∧ keeps' out.2 := by
  rintro s a _ hrest hcat hkeeps hrun
  obtain ⟨t, hact, hout, rfl⟩ := withSubject_ok.mp hrun
  obtain ⟨hrest', hcat', hkeeps', ha⟩ := h _ a.1 t hrest hcat hy hact
  exact ⟨hrest', hcat', hkeeps, ha, hout ▸ hkeeps'⟩

/-- Failures are reported with their field. -/
theorem inField {f : BoundField} {act : Op τ α} (h : act.Gives cat keeps result) :
    (Op.inField f act).Gives cat keeps result :=
  fun s a t hrest hcat hkeeps hrun => h s a t hrest hcat hkeeps (inField_ok.mp hrun)

/-- Work on a chunk is work on other bytes. -/
theorem withChunk {chunk : ChunkId} {act : Op τ α} (h : act.Gives cat keeps result) :
    (RecordLayout.withChunk chunk act).Gives cat keeps result := by
  rintro s a _ hrest hcat hkeeps hrun
  obtain ⟨content, t, -, hact, rfl⟩ := withChunk_ok.mp hrun
  exact h { s with stream := .ofBytes content } a t hrest hcat hkeeps hact

end Gives

end Op

open Op

/-! ## Layouts -/

/-- A layout of an immutable schema names the draft, and no other one does. -/
def Layout.Drafted (cat : Catalog) (l : Layout) : Prop :=
  l.draft = if (cat.schema l.schema).isImmutable then some l.schema.toDraft else none

/-- Layouts that have been compiled name their drafts rightly. -/
theorem LayoutGood.drafted {c : Compiler} {id : SchemaId} {kind : LayoutKind} {l : Layout}
    (h : LayoutGood c id kind l) : l.Drafted c.catalog := by
  have hdraft := h.draft
  rw [Layout.Drafted, h.schema_eq]
  split at hdraft
  · rename_i himm
    rw [hdraft.1, if_pos himm]
  · rename_i himm
    rw [hdraft, if_neg himm]

section

variable {τ : Type} {cat : Catalog} {keeps : τ → Prop}

/-- A layout that has been asked for. -/
theorem layout_gives (id : SchemaId) (kind : LayoutKind) :
    Gives cat keeps (Op.space (SpaceM.layout id kind)) fun l => l.schema = id ∧ l.Drafted cat := by
  rintro s l _ hrest rfl hkeeps hrun
  obtain ⟨w, hask, rfl⟩ := space_ok.mp hrun
  obtain ⟨c, hact, rfl⟩ := compile_ok.mp hask
  obtain ⟨hrest', hgrows, hl⟩ := hrest.layout hact
  have hgood := hrest'.good.layouts id kind l hl
  have hcat : c.catalog = s.space.catalog := hgrows.catalog
  exact ⟨hrest', hcat, hkeeps, hgood.schema_eq, hcat ▸ hgood.drafted⟩

/-- The layout behind a tag is that of a schema. -/
theorem variantLayout_gives (choice : ChoiceId) (tag : Nat) :
    Gives cat keeps (Op.space (SpaceM.variantLayout choice tag)) fun l => l.Drafted cat := by
  rintro s l t hrest hcat hkeeps hrun
  obtain ⟨w, hask, rfl⟩ := space_ok.mp hrun
  rw [SpaceM.variantLayout, bind_ok] at hask
  obtain ⟨c, w', hc, hask⟩ := hask
  cases hc
  -- a tag without a variant is refused
  cases hv : (s.space.catalog.choice choice).variant? tag with
  | some v =>
    rw [hv] at hask
    obtain ⟨hrest', hcat', hkeeps', -, hdrafted⟩ := layout_gives v .standard s l
      { s with space := w } hrest hcat hkeeps (space_ok.mpr ⟨w, hask, rfl⟩)
    exact ⟨hrest', hcat', hkeeps', hdrafted⟩
  | none =>
    rw [hv] at hask
    exact (throw_ok.mp hask).elim

/-! ## Plain values -/

/-- Any bytes may come up. -/
theorem readVarint_gives : Gives cat keeps readVarint fun _ => True :=
  (Gives.stream _).bind fun _ _ => .pure trivial

/-- Any chunk may be named. -/
theorem readChunkId_gives : Gives cat keeps readChunkId fun _ => True :=
  (Gives.stream _).bind fun _ _ => .pure trivial

/-- Numbers are always approved. -/
theorem readNumber_gives (width : Width) :
    Gives cat keeps (readNumber width) fun v => v.Approved cat :=
  (Gives.stream _).bind fun _ _ => .pure trivial

/-- Widths are always approved. -/
theorem readWidth_gives : Gives cat keeps readWidth fun v => v.Approved cat := by
  refine (Gives.stream _).bind fun byte _ => ?_
  split
  · exact .pure trivial
  · exact .throw _

/-- Scalars are always approved. -/
theorem readScalar_gives (kind : ScalarKind) :
    Gives cat keeps (readScalar kind) fun v => v.Approved cat := by
  refine (Gives.stream _).bind fun bytes _ => ?_
  split
  · exact .pure trivial
  · exact .throw _

/-- Scalars one after another, by induction on how many there are. -/
theorem readScalars_gives (kind : ScalarKind) (n : Nat) :
    Gives cat keeps (readScalars kind n) fun items => Value.ApprovedAll cat items := by
  induction n with
  | zero => exact .pure trivial
  | succ n ih =>
    exact (readScalar_gives kind).bind fun first hfirst => ih.bind fun rest hrest =>
      .pure ⟨hfirst, hrest⟩

/-- Texts are always approved. -/
theorem decodeText_gives (bytes : Bytes) :
    Gives cat keeps (decodeText bytes) fun v => v.Approved cat := by
  rw [decodeText]
  split
  · exact .pure trivial
  · exact .throw _

/-- Texts are always approved, and so is null. -/
theorem readText_gives : Gives cat keeps readText fun v => v.Approved cat :=
  readVarint_gives.bind fun _ _ =>
    .ite (.pure trivial) ((Gives.stream _).bind fun _ _ => decodeText_gives _)

/-- Either marker may come up. -/
theorem readMarker_gives : Gives cat keeps readMarker fun _ => True :=
  (Gives.stream _).bind fun _ _ => .ite (.pure trivial) (.ite (.pure trivial) (.throw _))

/-- Any tag may come up. -/
theorem readTag_gives : Gives cat keeps readTag fun _ => True :=
  readVarint_gives.bind fun _ _ => .ite (.pure trivial) (.throw _)

/-- Handles are always approved. What they lead to is not looked at. -/
theorem readHandle_gives (schema : SchemaId) (fixed : Bool) :
    Gives cat keeps (readHandle schema fixed) fun v => v.Approved cat := by
  have hchunk : Gives cat keeps (readHandleChunk fixed) fun _ => True :=
    .ite readChunkId_gives (readVarint_gives.bind fun _ _ => .pure trivial)
  refine hchunk.bind fun chunk _ => .pure ?_
  split <;> trivial

end

/-! ## Fields and records -/

/-- A record of a schema whose slots are approved; the schema has not checked it yet. -/
structure RecordOf.Filled (cat : Catalog) (id : SchemaId) (r : Record) : Prop where
  schema : r.schema = id
  slots : ∀ v ∈ r.slots, v.Approved cat

namespace RecordOf.Filled

variable {cat : Catalog} {id : SchemaId} {r : Record}

/-- New records hold nothing that would have to be checked. -/
theorem newRecord (cat : Catalog) (id : SchemaId) : (cat.newRecord id).Filled cat id := by
  refine ⟨rfl, fun v hv => ?_⟩
  obtain ⟨f, -, rfl⟩ := List.mem_map.mp hv
  exact f.shape.blank_approved cat

/-- Another approved value in a slot, and any chunk behind it. -/
theorem set (h : r.Filled cat id) {v : Value} (hv : v.Approved cat) (i : Nat)
    (chunks : List ChunkId) : Filled cat id { r with slots := r.slots.set i v, chunks } := by
  refine ⟨h.schema, fun u hu => ?_⟩
  rcases List.mem_or_eq_of_mem_set hu with hold | rfl
  · exact h.slots u hold
  · exact hv

/-- A record that its schema has checked. -/
theorem approved (h : r.Filled cat id)
    (hcheck : (cat.schema id).checkBuild (cat.schema id) r.slots = .ok ()) : r.Approved cat := by
  obtain ⟨rfl, hslots⟩ := h
  exact approved_iff.mpr ⟨hcheck, hslots⟩

end RecordOf.Filled

section

variable {cat : Catalog} {id : SchemaId} {readIn : ReadIn}

/-- What has been read and approved goes into a slot. -/
theorem fillSlot_gives {i : Nat} {read : Op Record Value}
    (h : read.Gives cat (RecordOf.Filled cat id) fun v => v.Approved cat) :
    (fillSlot i read).Gives cat (RecordOf.Filled cat id) fun _ => True :=
  h.bind fun _ hv => .modifySubject fun r hr => hr.set hv i r.chunks

variable (hin : ∀ p, (readIn p).Gives cat (fun _ => True) fun v => v.Approved cat)

include hin

/-- A field of a record that is being filled, if values can be read. -/
theorem readFieldWith_gives (f : BoundField) :
    (readFieldWith readIn f).Gives cat (RecordOf.Filled cat id) fun _ => True := by
  refine Gives.inField (Gives.subject.bind fun r _ => ?_)
  -- one case for each encoding
  split
  · exact fillSlot_gives (readScalar_gives _)
  · exact fillSlot_gives readWidth_gives
  · exact (Gives.space (questionsAdvance.widthIn _ _)).bind fun _ _ =>
      fillSlot_gives (readNumber_gives _)
  · exact fillSlot_gives (readNumber_gives _)
  · exact fillSlot_gives (readVarint_gives.bind fun _ _ => .pure trivial)
  · exact (Gives.space (questionsAdvance.countOf _)).bind fun _ _ =>
      fillSlot_gives ((readScalars_gives _ _).bind fun _ hitems => .pure hitems)
  · rename_i p marker _
    have hnext (present : Bool) : Gives cat (RecordOf.Filled cat id)
        (if present then fillSlot f.slot (Op.on (RecordOf.chunkPart f.slot) (readIn p))
        else do
          let inline ← Op.compile (p.inlineSize Compiler.layout)
          passBytes (inline.getD 0)
          Op.modifySubject fun r => r.setSlotAt f.slot ⟨.null, .null⟩) fun _ => True := by
      refine .ite (fillSlot_gives (.on (hin p) fun _ _ hr => ⟨hr.schema, hr.slots⟩)) ?_
      exact (Gives.space (questionsAdvance.inlineSize p)).bind fun _ _ =>
        (Gives.stream _).bind fun _ _ => .modifySubject fun _ hr =>
          hr.set (v := .null) trivial _ _
    exact .ite (readMarker_gives.bind fun _ _ => hnext _) (hnext true)

/-- A record that has been read into has been checked. -/
theorem readIntoWith_filled {l : Layout} {s t : Scene Record} {u : Unit}
    (hrest : s.space.compiler.Resting) (hcat : s.space.catalog = cat)
    (hfilled : s.subject.Filled cat l.schema) (hrun : readIntoWith readIn l s = .ok u t) :
    t.space.compiler.Resting ∧ t.space.catalog = cat ∧ t.subject.Filled cat l.schema ∧
      t.subject.Approved cat := by
  rw [readIntoWith] at hrun
  simp only [bind_ok, Op.subject_ok, Op.catalog_ok, space_requireSchema_ok, ofExcept_ok] at hrun
  obtain ⟨_, _, ⟨rfl, rfl⟩, _, _, ⟨-, rfl⟩, _, t', hrow, _, _, ⟨rfl, rfl⟩, _, _, ⟨rfl, rfl⟩, hcheck,
    rfl⟩ := hrun
  obtain ⟨hrest', hcat', hfilled', -⟩ := Gives.forM (readFieldWith_gives hin) _ _ _ hrest hcat
    hfilled hrow
  rw [hcat', hfilled'.schema] at hcheck
  exact ⟨hrest', hcat', hfilled', hfilled'.approved hcheck⟩

variable {τ : Type} {keeps : τ → Prop}

/-- A new record has been filled and then checked by its schema. -/
theorem readFreshWith_gives (l : Layout) :
    Gives cat keeps (readFreshWith readIn l) fun r => r.schema = l.schema ∧ r.Approved cat := by
  have hread : Gives cat keeps (Op.withSubject (cat.newRecord l.schema) (readIntoWith readIn l))
      fun out => out.2.schema = l.schema ∧ out.2.Approved cat := by
    rintro s ⟨_, r⟩ _ hrest hcat hkeeps hrun
    obtain ⟨t, hinto, rfl, rfl⟩ := withSubject_ok.mp hrun
    obtain ⟨hrest', hcat', hfilled, happroved⟩ := readIntoWith_filled hin
      (s := ⟨s.space, s.stream, cat.newRecord l.schema⟩) hrest hcat (.newRecord cat l.schema) hinto
    exact ⟨hrest', hcat', hkeeps, hfilled.schema, happroved⟩
  refine Gives.catalog.bind fun c hc => ?_
  subst hc
  exact hread.bind fun out hout => .pure hout

/-- A new record, which is read as a draft if its schema is immutable. -/
theorem readNewWith_gives (hchecks : cat.ChecksSlots) {l : Layout} (hl : l.Drafted cat) :
    Gives cat keeps (readNewWith readIn l) fun r => r.schema = l.schema ∧ r.Approved cat := by
  rw [readNewWith.eq_def]
  split
  · exact readFreshWith_gives hin l
  · rename_i id hdraft
    -- the draft of an immutable type describes it, and is the only draft its layout can have
    have hid : id = l.schema.toDraft := by
      rw [Layout.Drafted, hdraft] at hl
      split at hl
      · exact Option.some.inj hl
      · cases hl
    refine (layout_gives id l.kind).bind fun draft hlayout =>
      (readFreshWith_gives hin draft).bind fun r hr => Gives.catalog.bind fun c hc =>
        (Gives.ofExcept _).bind fun _ hcheck => .pure ⟨rfl, ?_⟩
    rw [hc, hr.1, hlayout.1, hid, hchecks.draft] at hcheck
    exact RecordOf.approved_iff.mpr ⟨hcheck, (RecordOf.approved_iff.mp hr.2).2⟩

/-- A record as a value, once its layout is known. -/
theorem readRecordValue_gives (hchecks : cat.ChecksSlots) {layout : SpaceM Layout}
    (hlayout : Gives cat (fun _ => True) (Op.space layout : Op ChunkId Layout)
      fun l => l.Drafted cat) :
    (readRecordValue readIn layout).Gives cat (fun _ => True) fun v => v.Approved cat :=
  hlayout.bind fun _ hl => (readNewWith_gives hin hchecks hl).bind fun _ hr => .pure hr.2

end

/-! ## Values -/

section

variable {cat : Catalog}

/-- The chunk is noted beside the value, which is not changed. -/
theorem noteChunk_gives (chunk : ChunkId) :
    (noteChunk chunk).Gives cat (fun _ => True) fun _ => True :=
  Gives.modifySubject (f := fun _ => chunk) fun _ _ => trivial

/-- Any tag and any chunk may come up. -/
theorem readTagged_gives (what : String) :
    (readTagged what).Gives cat (fun _ => True) fun _ => True :=
  (Gives.stream _).bind fun _ _ => readChunkId_gives.bind fun chunk _ =>
    (noteChunk_gives chunk).bind fun _ _ => .ite (.throw _) (.pure trivial)

/-- Whatever the bytes are: a value that is read is approved. -/
theorem readWithin_gives (hchecks : cat.ChecksSlots) (depth : Nat) (p : Placement) :
    (readWithin depth p).Gives cat (fun _ => True) fun v => v.Approved cat := by
  induction depth generalizing p with
  | zero => exact .throw _
  | succ depth ih =>
    -- a layout that is known was drafted from the catalog, which is where its checks come from
    have hdrafted {id : SchemaId} {kind : LayoutKind} : Gives cat (fun _ => True)
        (Op.space (SpaceM.layout id kind) : Op ChunkId Layout) fun l => l.Drafted cat :=
      (layout_gives id kind).mono fun _ hl => hl.2
    have hknown {l : Layout} (hl : l.Drafted cat) :
        (readRecordValue (readWithin depth) (pure l)).Gives cat (fun _ => True)
          fun v => v.Approved cat :=
      (readNewWith_gives ih hchecks hl).bind fun _ hr => .pure hr.2
    cases p with
    | scalar kind => exact readScalar_gives kind
    | inlineText => exact readText_gives
    | chunkText =>
      -- a chunk is noted in the record being read before its content is
      refine readChunkId_gives.bind fun chunk _ => (noteChunk_gives chunk).bind fun _ _ => ?_
      exact .ite (.pure trivial) (.withChunk ((Gives.stream _).bind fun _ _ => decodeText_gives _))
    | inlineRecord schema => exact readRecordValue_gives ih hchecks hdrafted
    | fixedRecord schema => exact readRecordValue_gives ih hchecks hdrafted
    | chunkRecord schema =>
      refine readChunkId_gives.bind fun chunk _ => (noteChunk_gives chunk).bind fun _ _ => ?_
      exact .ite (.pure trivial) (hdrafted.bind fun l hl => .withChunk (hknown hl))
    | handle schema fixed => exact readHandle_gives schema fixed
    | inlineChoice choice =>
      exact readTag_gives.bind fun tag _ => .ite (.pure trivial)
        (readRecordValue_gives ih hchecks (variantLayout_gives choice tag))
    | chunkChoice choice =>
      refine Gives.catalog.bind fun c _ => (readTagged_gives _).bind fun found _ => ?_
      obtain ⟨tag, chunk⟩ := found
      exact .ite (.pure trivial) ((variantLayout_gives choice tag).bind fun l hl =>
        .withChunk (hknown hl))
    | inlineOpen =>
      refine readTag_gives.bind fun id _ => .ite (.pure trivial) ?_
      exact (Gives.space (questionsAdvance.openPlacement id)).bind fun p _ =>
        (Gives.withSubject (ih p) trivial).bind fun _ hv => .pure hv.1
    | chunkOpen =>
      refine (readTagged_gives _).bind fun found _ => ?_
      obtain ⟨id, chunk⟩ := found
      refine .ite (.pure trivial) ?_
      exact (Gives.space (questionsAdvance.openPlacement id)).bind fun p _ =>
        (Gives.withChunk (Gives.withSubject (ih p) trivial)).bind fun _ hv => .pure hv.1
    | wrapped wrapper carrier kind =>
      exact hdrafted.bind fun _ hl => (readNewWith_gives ih hchecks hl).bind fun _ hr => .pure hr.2

end

/-! ## Whole records -/

/-- Whatever the bytes are and whatever the chunks hold: a record that is read in a layout that has
been compiled is a record of the schema of this layout that the schema accepts, and so are all records
inside it. -/
theorem readNew_approved {τ : Type} {l : Layout} {s t : Scene τ} {r : Record}
    (hs : s.space.compiler.Resting) (hl : s.space.Knows l)
    (hchecks : s.space.catalog.ChecksSlots) (hrun : readNew l s = .ok r t) :
    r.schema = l.schema ∧ r.Approved s.space.catalog := by
  have hgood := hs.good.layouts _ _ _ hl
  have hgives (depth : Nat) : Gives s.space.catalog (fun _ => True)
      (readNewWith (readWithin depth) l : Op τ Record) fun r =>
        r.schema = l.schema ∧ r.Approved s.space.catalog :=
    readNewWith_gives (readWithin_gives hchecks depth) hchecks hgood.drafted
  obtain ⟨depth, _, hdepth, hread⟩ := bind_ok.mp hrun
  cases hdepth
  obtain ⟨-, -, -, hr⟩ := hgives _ s r t hs rfl trivial hread
  exact hr

/-- Accepts slots that hold even numbers. -/
def evenSlots : BuildCheck := fun _ slots =>
  if slots.all fun slot => slot.2.toNat?.any (· % 2 == 0) then none else some "odd"

/-- A record with two records of an immutable schema in it: one inline and one of a closed choice,
behind a reference. -/
def evenPair : Catalog :=
  ⟨[⟨⟨"Even", .immutable evenSlots, [⟨"n", .varint, false, [], none⟩]⟩, true⟩,
    ⟨⟨"Pair", .managed, [⟨"a", .value (.record ⟨0, 0⟩) .flexible, false, [], none⟩,
      ⟨"b", .value (.choice ⟨0⟩) .fixed, false, [], none⟩]⟩, true⟩], [], [⟨"Evens", [⟨0, 0⟩]⟩]⟩

/-- The question for the layout of the pair. -/
def askEvenPair : SpaceM Layout := SpaceM.layout ⟨1, 0⟩ .standard

/-- The layout of the pair. -/
def evenPairLayout : Layout := (answer? askEvenPair (.fresh evenPair .standard none)).getD default

/-- What is known once the layout of the pair has been compiled. -/
def evenPairSpace : Workspace := after askEvenPair (.fresh evenPair .standard none)

/-- A stored pair. The reference leads to the first chunk, which holds one byte. -/
def evenPairStored (inline behind : UInt8) : Scene Unit :=
  ⟨evenPairSpace.setStore (evenPairSpace.store.allocate.2.setContent ⟨1⟩ [behind]),
    .ofBytes [1, 0, 0, 0, 1, 0, 0, 0, 0, 0, 0, 0, inline], ()⟩

theorem evenPair_closed : evenPair.Closed := by decide

theorem evenPair_checksSlots : evenPair.ChecksSlots := by
  rintro ⟨declared, draft⟩ check hkind name name' slots
  obtain ⟨rfl, rfl⟩ : declared = 0 ∧ draft = 0 := by
    rcases declared with _ | _ | declared <;> rcases draft with _ | draft
    · exact ⟨rfl, rfl⟩
    all_goals cases hkind
  cases hkind
  rfl

theorem readNew_approved_even_pair :
    (evenPairStored 4 6).space.compiler.Resting ∧
      (evenPairStored 4 6).space.Knows evenPairLayout ∧
      (evenPairStored 4 6).space.catalog.ChecksSlots ∧
      ∃ r t, readNew evenPairLayout (evenPairStored 4 6) = .ok r t ∧
        r.Approved (evenPairStored 4 6).space.catalog := by
  obtain ⟨l, hask, hl⟩ := runs_to_after (show
    (answer? askEvenPair (.fresh evenPair .standard none)).isSome = true by decide +kernel)
  have hlayout : evenPairLayout = l := by rw [evenPairLayout, hl, Option.getD_some]
  obtain ⟨hs, hlearns, hknows⟩ :=
    SpaceM.layout_sound (Workspace.sound_fresh evenPair_closed _ _) hask
  -- the catalog's checks look at slots only, and the pair's layout is a known one
  have hchecks : (evenPairStored 4 6).space.catalog.ChecksSlots := by
    rw [show (evenPairStored 4 6).space.catalog = evenPair from hlearns.catalog]
    exact evenPair_checksSlots
  have hknown : (evenPairStored 4 6).space.Knows evenPairLayout := by
    rw [hlayout]
    exact hknows
  obtain ⟨r, hrun, -⟩ := runs_to_after (show
    (answer? (readNew evenPairLayout) (evenPairStored 4 6)).isSome = true by decide +kernel)
  exact ⟨hs.compiler, hknown, hchecks, r, _, hrun,
    (readNew_approved hs.compiler hknown hchecks hrun).2⟩

/-- An odd number in the chunk is refused. -/
example : (answer? (readNew evenPairLayout) (evenPairStored 4 5)).isNone = true := by decide +kernel

end RecordLayout
