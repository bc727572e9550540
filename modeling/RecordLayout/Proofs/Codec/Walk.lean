import Mathlib
import RecordLayout.Proofs.Question
import RecordLayout.Proofs.Value.Content

/-!
# Writes as programs

A write is put together from questions, bytes, changes of the slots that it stands at, values stored
behind slots and records whose references are guarded. What holds of those and stays when one comes
after another holds of every write, however deep the record is nested: such a judgement is
`Op.Modular`. It may tell apart parts of a record by the chunks that they name. Work that stores
nothing needs less: `Op.Plain`.

Main results:

* `Part.Names` — parts that name no chunks of their own;
* `Op.Plain.deriveRecord`, `Op.Modular.writeWithin` — the walks over a value;
* `Op.Modular.writeRecord` — whole records.
-/

namespace RecordLayout

/-! ## What names chunks -/

/-- Something that names chunks: a record, a value, a slot. -/
class NamesChunks (τ : Type) where
  /-- The chunks that are named, at all depths. -/
  named : τ → List ChunkId

open NamesChunks (named)

instance : NamesChunks Record := ⟨RecordOf.companions⟩

instance : NamesChunks Value := ⟨Value.companions⟩

instance : NamesChunks Slot := ⟨Slot.companions⟩

/-- A part names only what the whole names, and a part that is replaced brings only what it names
itself. -/
structure Part.Names {τ υ : Type} [NamesChunks τ] [NamesChunks υ] (p : Part τ υ) : Prop where
  get : ∀ x, named (p.get x) ⊆ named x
  set : ∀ x y, named (p.set y x) ⊆ named y ++ named x

/-- A chunk is named by values in a row if it stands behind one of them or is named inside. -/
theorem mem_companionsAll {values : List Value} {chunks : List ChunkId} {c : ChunkId} :
    c ∈ Value.companionsAll values chunks ↔
      (c ∈ chunks ∧ c ≠ .null) ∨ ∃ v ∈ values, c ∈ v.companions := by
  induction values generalizing chunks with
  | nil => simp [Value.companionsAll, mem_ownChunk]
  | cons v vs ih =>
    rw [Value.companionsAll, List.mem_append, List.mem_append, ih, mem_ownChunk]
    cases chunks with
    | nil => simp
    | cons first rest =>
      simp only [List.headD_cons, List.tail_cons, List.mem_cons, or_and_right, exists_or,
        exists_eq_left]
      tauto

namespace RecordOf

/-- A chunk is named by a record if it stands behind a slot or is named inside one. -/
theorem mem_companions_iff {r : Record} {c : ChunkId} :
    c ∈ r.companions ↔ (c ∈ r.chunks ∧ c ≠ .null) ∨ ∃ v ∈ r.slots, c ∈ v.companions := by
  obtain ⟨schema, slots, chunks⟩ := r
  exact mem_companionsAll

/-- A slot names nothing but what its record names. -/
theorem companions_slot (r : Record) (i : Nat) : (r.slot i).companions ⊆ r.companions := by
  intro c hc
  rw [slot, List.getD_eq_getElem?_getD] at hc
  cases hi : r.slots[i]? with
  | none => simp [hi, Value.companions] at hc
  | some v =>
    rw [hi] at hc
    exact mem_companions_iff.mpr (.inr ⟨v, List.mem_of_getElem? hi, hc⟩)

/-- The chunk behind a slot is named by the record, unless it is null. -/
theorem ownChunk_chunk (r : Record) (i : Nat) : ownChunk (r.chunk i) ⊆ r.companions := by
  intro c hc
  obtain ⟨heq, hne⟩ := mem_ownChunk.mp hc
  rw [chunk, List.getD_eq_getElem?_getD] at heq
  cases hi : r.chunks[i]? with
  | none => exact absurd (by simpa [hi] using heq) hne
  | some found =>
    rw [hi] at heq
    obtain rfl : c = found := heq
    exact mem_companions_iff.mpr (.inl ⟨List.mem_of_getElem? hi, hne⟩)

/-- A value that is set brings what it names, and nothing else is new. -/
theorem companions_setSlot (r : Record) (i : Nat) (v : Value) :
    (r.setSlot i v).companions ⊆ v.companions ++ r.companions := by
  intro c hc
  rw [List.mem_append, mem_companions_iff]
  rcases mem_companions_iff.mp hc with hchunk | ⟨x, hx, hmem⟩
  · exact .inr (.inl hchunk)
  · rcases List.mem_or_eq_of_mem_set hx with hold | rfl
    · exact .inr (.inr ⟨x, hold, hmem⟩)
    · exact .inl hmem

/-- A slot with the chunk behind it. -/
theorem slotPart_names (i : Nat) : (slotPart i).Names := by
  refine ⟨fun r c hc => ?_, fun r slot c hc => ?_⟩
  · rcases List.mem_append.mp hc with hown | hinside
    · exact ownChunk_chunk r i hown
    · exact companions_slot r i hinside
  · show c ∈ slot.companions ++ r.companions
    rw [List.mem_append, mem_companions_iff]
    rcases mem_companions_iff.mp hc with ⟨hmem, hne⟩ | ⟨x, hx, hmem⟩
    · rcases List.mem_or_eq_of_mem_set hmem with hold | heq
      · exact .inr (.inl ⟨hold, hne⟩)
      · exact .inl (List.mem_append_left _ (mem_ownChunk.mpr ⟨heq, hne⟩))
    · rcases List.mem_or_eq_of_mem_set hx with hold | rfl
      · exact .inr (.inr ⟨x, hold, hmem⟩)
      · exact .inl (List.mem_append_right _ hmem)

/-- A slot without the chunk behind it, which stays with the record. -/
theorem valuePart_names (i : Nat) : (valuePart i).Names :=
  ⟨fun r => companions_slot r i, fun r v => companions_setSlot r i v⟩

end RecordOf

/-- The record inside a value names what the value names. -/
theorem Value.companions_innerRecord (v : Value) : v.innerRecord.companions ⊆ v.companions := by
  intro c hc
  cases v with
  | record r => exact hc
  | wrapped wrapper r => exact hc
  | _ => cases hc

/-- A record that is put inside brings what it names. -/
theorem Value.companions_setInnerRecord (v : Value) (r : Record) :
    (v.setInnerRecord r).companions ⊆ r.companions ++ v.companions := by
  intro c hc
  cases v with
  | record _ => exact List.mem_append_left _ hc
  | wrapped wrapper _ => exact List.mem_append_left _ hc
  | _ => exact List.mem_append_right _ hc

/-- The record inside a value is a part of it. -/
theorem Value.recordPart_names : Value.recordPart.Names :=
  ⟨Value.companions_innerRecord, Value.companions_setInnerRecord⟩

namespace Slot

/-- The record inside the value of a slot. The chunk behind the slot is no part of it. -/
theorem recordPart_names : recordPart.Names := by
  refine ⟨fun slot c hc => ?_, fun slot r c hc => ?_⟩
  · exact List.mem_append_right _ (Value.companions_innerRecord _ hc)
  · rcases List.mem_append.mp hc with hown | hinside
    · exact List.mem_append_right _ (List.mem_append_left _ hown)
    · rcases List.mem_append.mp (Value.companions_setInnerRecord _ _ hinside) with hnew | hold
      · exact List.mem_append_left _ hnew
      · exact List.mem_append_right _ (List.mem_append_right _ hold)

/-- The value of a slot, in a slot of its own that has no chunk. -/
theorem loosePart_names : loosePart.Names := by
  refine ⟨fun slot c hc => ?_, fun slot inner c hc => ?_⟩
  · exact List.mem_append_right _ hc
  · rcases List.mem_append.mp hc with hown | hinside
    · exact List.mem_append_right _ (List.mem_append_left _ hown)
    · exact List.mem_append_left _ (List.mem_append_right _ hinside)

end Slot

/-! ## Judgements about writes -/

/-- Work that has to move the cursor by a number of bytes. -/
def Op.movingBy (bytes : Nat) (failure : Nat → FormatError) (act : Op Record Unit) :
    Op Record Unit := do
  let start ← Op.position
  act
  let stop ← Op.position
  if stop - start ≠ bytes then throw (failure (stop - start))

/-- A judgement about work that stores nothing, and one about the questions that it asks, that follow
from judgements about the parts. -/
structure Op.Plain (K : ∀ {α : Type}, SpaceM α → Prop)
    (J : ∀ {τ : Type} [NamesChunks τ] {α : Type}, Op τ α → Prop) : Prop where
  questions : SpaceM.Modular K
  pure : ∀ {τ α : Type} [NamesChunks τ] (a : α), J (Pure.pure a : Op τ α)
  throw : ∀ {τ α : Type} [NamesChunks τ] (e : FormatError), J (MonadExcept.throw e : Op τ α)
  bind : ∀ {τ α β : Type} [NamesChunks τ] {act : Op τ α} {next : α → Op τ β}, J act →
    (∀ a, J (next a)) → J (act >>= next)
  space : ∀ {τ α : Type} [NamesChunks τ] {act : SpaceM α}, K act → J (Op.space act : Op τ α)
  subject : ∀ {τ : Type} [NamesChunks τ], J (Op.subject : Op τ τ)
  config : ∀ {τ : Type} [NamesChunks τ], J (Op.config : Op τ Config)
  write : ∀ {τ : Type} [NamesChunks τ] (bytes : Bytes), J (Op.write bytes : Op τ Unit)
  writeWord : ∀ {τ : Type} [NamesChunks τ] (width : Nat) (value : UInt64),
    J (Op.stream (ByteSink.writeWord width value) : Op τ Unit)
  on : ∀ {τ υ α : Type} [NamesChunks τ] [NamesChunks υ] {p : Part τ υ} {act : Op υ α}, p.Names →
    J act → J (Op.on p act)
  inField : ∀ {τ α : Type} [NamesChunks τ] {f : BoundField} {act : Op τ α}, J act →
    J (Op.inField f act)
  deriveField : ∀ f, J (deriveField f)
  forgetChunk : J forgetChunk

/-- A judgement about writes, and one about the questions that they ask, that follow from judgements
about the parts. -/
structure Op.Modular (K : ∀ {α : Type}, SpaceM α → Prop)
    (J : ∀ {τ : Type} [NamesChunks τ] {α : Type}, Op τ α → Prop) : Prop extends Op.Plain K J where
  movingBy : ∀ {bytes : Nat} {failure : Nat → FormatError} {act : Op Record Unit}, J act →
    J (movingBy bytes failure act)
  guardingChunks : ∀ {act : Op Record Unit}, J act → J (guardingChunks act)
  storeBehind : ∀ {hint : Nat} {body : Op Slot Unit}, J body → J (storeBehind hint body)

namespace Op.Plain

variable {K : ∀ {α : Type}, SpaceM α → Prop}
  {J : ∀ {τ : Type} [NamesChunks τ] {α : Type}, Op τ α → Prop} (hJ : Plain K J)
  {τ α β : Type} [NamesChunks τ]

/-- A choice between two. -/
theorem ite {c : Prop} [Decidable c] {x y : Op τ α} (hx : J x) (hy : J y) :
    J (if c then x else y) := by
  split
  · exact hx
  · exact hy

include hJ

/-- Operations in a row, by induction on the row. -/
theorem forM {act : β → Op τ PUnit} (h : ∀ b, J (act b)) (items : List β) :
    J (items.forM act) := by
  induction items with
  | nil => exact hJ.pure _
  | cons b rest ih => exact hJ.bind (h b) fun _ => ih

/-- The declared types are asked of the workspace. -/
theorem catalog : J (Op.catalog : Op τ Catalog) := hJ.space hJ.questions.catalog

/-! ### Deriving -/

/-- A record, if values inside it can be derived. -/
theorem deriveRecordWith {deriveIn : DeriveIn} (h : ∀ p, J (deriveIn p)) (l : Layout) :
    J (RecordLayout.deriveRecordWith deriveIn l) := by
  -- the values inside, by induction along the row
  have hinside (fields : List BoundField) : J (deriveInside deriveIn fields) := by
    induction fields with
    | nil => exact hJ.pure _
    | cons f rest ih =>
      rw [deriveInside]
      split
      · exact hJ.bind (hJ.on (RecordOf.valuePart_names _) (h _)) fun _ => ih
      · exact ih
  exact hJ.bind hJ.subject fun _ => hJ.bind (hJ.space (hJ.questions.requireSchema _ _)) fun _ =>
    hJ.bind (hinside _) fun _ => hJ.forM hJ.deriveField _

/-- Derivation in a value, by induction on the depth. -/
theorem deriveWithin (depth : Nat) (p : Placement) : J (RecordLayout.deriveWithin depth p) := by
  induction depth generalizing p with
  | zero => exact hJ.throw _
  | succ depth ih =>
    have hinner {layout : SpaceM Layout} (h : K layout) :
        J (deriveInner (RecordLayout.deriveWithin depth) layout) :=
      hJ.bind (hJ.space h) fun _ => hJ.on Value.recordPart_names (hJ.deriveRecordWith ih _)
    refine hJ.bind hJ.catalog fun c => hJ.bind hJ.subject fun value => ?_
    split
    -- one case for each kind of value that has a record inside
    · exact hinner (hJ.questions.layout _ _)
    · exact hinner (hJ.questions.layout _ _)
    · exact hinner (hJ.questions.layout _ _)
    · exact hinner (hJ.questions.bind (hJ.questions.tagOf _ _) fun _ =>
        hJ.questions.variantLayout _ _)
    · exact ite (hJ.pure _) (hinner (hJ.questions.layout _ _))
    · exact hinner (hJ.questions.layout _ _)
    · exact hJ.pure _

/-- Derivation in a record and everything inside it. -/
theorem deriveRecord (l : Layout) : J (RecordLayout.deriveRecord l) :=
  hJ.bind hJ.subject fun _ => hJ.deriveRecordWith (hJ.deriveWithin _) l

/-! ### Plain values -/

/-- A varint is written at once. -/
theorem writeVarint (n : Nat) : J (RecordLayout.writeVarint n : Op τ Unit) := hJ.write _

/-- Zeros are written in pieces, by induction on how many are left. -/
theorem writeZeros (n : Nat) : J (RecordLayout.writeZeros n : Op τ Unit) := by
  induction n using Nat.strong_induction_on with
  | h n ih =>
    rw [RecordLayout.writeZeros]
    split
    · exact hJ.pure _
    · exact hJ.bind (hJ.write _) fun _ => ih _ (by omega)

/-- A mismatch is a question that fails. -/
theorem mismatch (expected : String) (found : Value) :
    J (Op.space (SpaceM.mismatch expected found) : Op τ α) :=
  hJ.space (hJ.questions.mismatch _ _)

/-- A scalar of the right kind, or a mismatch. -/
theorem writeScalar (kind : ScalarKind) (value : Value) :
    J (RecordLayout.writeScalar kind value : Op τ Unit) := by
  rw [writeScalar.eq_def]
  split
  · exact ite (hJ.write _) (hJ.mismatch _ _)
  · exact hJ.mismatch _ _

/-- A text with its length, null or a mismatch. -/
theorem writeText (value : Value) : J (RecordLayout.writeText value : Op τ Unit) := by
  rw [writeText.eq_def]
  split
  · exact hJ.writeVarint _
  · exact hJ.bind (hJ.writeVarint _) fun _ => hJ.write _
  · exact hJ.mismatch _ _

/-- The chunk id of a handle, which must be of the right schema. -/
theorem writeHandle (schema : SchemaId) (fixed : Bool) (value : Value) :
    J (RecordLayout.writeHandle schema fixed value : Op τ Unit) := by
  have hput (chunk : ChunkId) :
      J (if fixed then writeChunkId chunk else RecordLayout.writeVarint chunk.id : Op τ Unit) :=
    ite (hJ.write _) (hJ.writeVarint _)
  have hother (expected : String) : J (do
      let chunk ← Op.space (SpaceM.mismatch expected value)
      if fixed then writeChunkId chunk else RecordLayout.writeVarint chunk.id : Op τ Unit) :=
    hJ.bind (hJ.mismatch _ _) hput
  refine hJ.bind hJ.catalog fun c => ?_
  dsimp only
  split
  · exact hJ.bind (hJ.pure _) hput
  · exact ite (hJ.bind (hJ.pure _) hput) (hother _)
  · exact hother _

/-! ### Fields -/

/-- A field, if values in their placements can be written. -/
theorem writeFieldWith {writeIn : WriteIn} (hwrite : ∀ p, J (writeIn p)) (f : BoundField) :
    J (RecordLayout.writeFieldWith writeIn f) := by
  have hq := hJ.questions
  refine hJ.inField (hJ.bind hJ.subject fun r => ?_)
  dsimp only
  -- one case for each encoding
  split
  · exact hJ.writeScalar _ _
  · exact hJ.bind (hJ.space (hq.widthIn _ _)) fun _ => hJ.write _
  · exact hJ.bind (hJ.space (hq.widthIn _ _)) fun _ => hJ.bind (hJ.space (hq.countOf _)) fun _ =>
      ite (hJ.writeWord _ _) (hJ.space (hq.disagreement _ _))
  · exact hJ.bind (hJ.space (hq.countOf _)) fun _ => ite (hJ.writeWord _ _) (hJ.throw _)
  · exact hJ.bind (hJ.space (hq.countOf _)) fun _ => hJ.writeVarint _
  · exact hJ.bind (hJ.space (hq.countOf _)) fun _ => hJ.bind (hJ.space (hq.itemsOf _)) fun _ =>
      ite (hJ.forM (hJ.writeScalar _) _) (hJ.space (hq.disagreement _ _))
  · refine ite (hJ.throw _) (ite ?_ ?_)
    · exact hJ.bind (hJ.write _) fun _ => hJ.bind (hJ.space (hq.inlineSize _)) fun _ =>
        hJ.writeZeros _
    · have hvalue (p : Placement) : J (Op.on (RecordOf.slotPart f.slot) (writeIn p)) :=
        hJ.on (RecordOf.slotPart_names _) (hwrite p)
      split
      · exact hJ.bind (hJ.write _) fun _ => hvalue _
      · exact hJ.bind (hJ.pure PUnit.unit) fun _ => hvalue _

end Op.Plain

namespace Op.Modular

variable {K : ∀ {α : Type}, SpaceM α → Prop}
  {J : ∀ {τ : Type} [NamesChunks τ] {α : Type}, Op τ α → Prop} (hJ : Modular K J)

include hJ

/-- A text behind a reference, which has no record inside. -/
theorem writeTextBehind : J RecordLayout.writeTextBehind := by
  refine hJ.bind hJ.subject fun slot => ?_
  split
  · exact hJ.bind hJ.forgetChunk fun _ => hJ.write _
  · exact hJ.bind (hJ.storeBehind (hJ.write _)) fun _ => hJ.write _
  · exact hJ.bind (hJ.mismatch _ _) fun _ => hJ.write _

/-! ### Records -/

section

variable {writeIn : WriteIn} (hwrite : ∀ p, J (writeIn p))

include hwrite

/-- The body of a record, with or without checks. -/
theorem writeBody (l : Layout) : J (RecordLayout.writeBody writeIn l) := by
  have hfields : J (writeFields writeIn l.fields) := hJ.forM (hJ.writeFieldWith hwrite) _
  refine hJ.bind (hJ.deriveRecord l) fun _ => hJ.bind hJ.config fun config => Plain.ite ?_ hfields
  exact hJ.bind hJ.subject fun _ => hJ.bind (hJ.space (hJ.questions.checkedSize _ _)) fun _ =>
    hJ.movingBy hfields

/-- A record, if values in their placements can be written. -/
theorem writeRecordWith (l : Layout) : J (RecordLayout.writeRecordWith writeIn l) :=
  hJ.bind hJ.subject fun _ => hJ.bind (hJ.space (hJ.questions.requireSchema _ _)) fun _ =>
    hJ.guardingChunks (hJ.writeBody hwrite l)

/-! ### Values behind references -/

/-- A record in a chunk of its own. -/
theorem storeRecordBehind (l : Layout) (r : Record) :
    J (RecordLayout.storeRecordBehind writeIn l r) :=
  hJ.bind (hJ.space (hJ.questions.recordSize _ _)) fun _ =>
    hJ.storeBehind (hJ.on Slot.recordPart_names (hJ.writeRecordWith hwrite l))

/-- A record behind a reference. -/
theorem writeRecordBehind (schema : SchemaId) :
    J (RecordLayout.writeRecordBehind writeIn schema) := by
  refine hJ.bind hJ.subject fun slot => hJ.bind hJ.catalog fun c => ?_
  split
  · exact hJ.bind hJ.forgetChunk fun _ => hJ.write _
  · refine Plain.ite ?_ (hJ.bind (hJ.mismatch _ _) fun _ => hJ.write _)
    exact hJ.bind (hJ.space (hJ.questions.layout _ _)) fun l =>
      hJ.bind (hJ.storeRecordBehind hwrite _ _) fun _ => hJ.write _
  · exact hJ.bind (hJ.mismatch _ _) fun _ => hJ.write _

theorem writeChoiceBehind (choice : ChoiceId) :
    J (RecordLayout.writeChoiceBehind writeIn choice) := by
  have hput (tag : Nat) (chunk : ChunkId) : J (do
      Op.stream (ByteSink.writeU32 tag)
      writeChunkId chunk : Op Slot Unit) :=
    hJ.bind (hJ.write _) fun _ => hJ.write _
  refine hJ.bind hJ.subject fun slot => hJ.bind hJ.catalog fun c => ?_
  split
  · exact hJ.bind hJ.forgetChunk fun _ => hJ.bind (hJ.pure _) fun _ => hput _ _
  · exact hJ.bind (hJ.space (hJ.questions.tagOf _ _)) fun tag =>
      hJ.bind (hJ.space (hJ.questions.variantLayout _ _)) fun l =>
        hJ.bind (hJ.storeRecordBehind hwrite _ _) fun _ => hJ.bind (hJ.pure _) fun _ => hput _ _
  · exact hJ.bind (hJ.mismatch _ _) fun _ => hput _ _

theorem writeOpenBehind : J (RecordLayout.writeOpenBehind writeIn) := by
  have hput (id : Nat) (chunk : ChunkId) : J (do
      Op.stream (ByteSink.writeU32 id)
      writeChunkId chunk : Op Slot Unit) :=
    hJ.bind (hJ.write _) fun _ => hJ.write _
  refine hJ.bind hJ.subject fun slot => hJ.bind (hJ.space (hJ.questions.typeId _)) fun id => ?_
  refine Plain.ite (hJ.bind hJ.forgetChunk fun _ => hput _ _) ?_
  exact hJ.bind (hJ.space (hJ.questions.openPlacement _)) fun placement =>
    hJ.bind (hJ.space (hJ.questions.placedSize _ _)) fun hint =>
      hJ.bind (hJ.storeBehind (hJ.on Slot.loosePart_names (hwrite _))) fun _ => hput _ _

/-! ### Values inline -/

theorem writeInner (schema : SchemaId) (kind : LayoutKind) :
    J (RecordLayout.writeInner writeIn schema kind) := by
  refine hJ.bind hJ.subject fun slot => hJ.bind hJ.catalog fun c => ?_
  split
  · refine Plain.ite ?_ (hJ.mismatch _ _)
    exact hJ.bind (hJ.space (hJ.questions.layout _ _)) fun l =>
      hJ.on Slot.recordPart_names (hJ.writeRecordWith hwrite l)
  · exact hJ.mismatch _ _

theorem writeWrapped (wrapper : WrapperId) (carrier : SchemaId) (kind : LayoutKind) :
    J (RecordLayout.writeWrapped writeIn wrapper carrier kind) := by
  refine hJ.bind hJ.subject fun slot => hJ.bind hJ.catalog fun c => ?_
  split
  · refine Plain.ite ?_ (hJ.mismatch _ _)
    exact hJ.bind (hJ.space (hJ.questions.layout _ _)) fun l =>
      hJ.on Slot.recordPart_names (hJ.writeRecordWith hwrite l)
  · exact hJ.mismatch _ _

theorem writeChoice (choice : ChoiceId) : J (RecordLayout.writeChoice writeIn choice) := by
  refine hJ.bind hJ.subject fun slot => hJ.bind hJ.catalog fun c => ?_
  split
  · exact hJ.writeVarint _
  · exact hJ.bind (hJ.space (hJ.questions.tagOf _ _)) fun tag =>
      hJ.bind (hJ.writeVarint _) fun _ =>
        hJ.bind (hJ.space (hJ.questions.variantLayout _ _)) fun l =>
          hJ.on Slot.recordPart_names (hJ.writeRecordWith hwrite l)
  · exact hJ.mismatch _ _

theorem writeOpen : J (RecordLayout.writeOpen writeIn) := by
  refine hJ.bind hJ.subject fun slot => hJ.bind (hJ.space (hJ.questions.typeId _)) fun id => ?_
  refine hJ.bind (hJ.writeVarint _) fun _ => Plain.ite (hJ.pure _) ?_
  exact hJ.bind (hJ.space (hJ.questions.openPlacement _)) fun _ =>
    hJ.on Slot.loosePart_names (hwrite _)

end

/-! ### Whole values -/

/-- By induction on the depth, one placement after another. -/
theorem writeWithin (depth : Nat) (p : Placement) : J (RecordLayout.writeWithin depth p) := by
  induction depth generalizing p with
  | zero => exact hJ.throw _
  | succ depth ih =>
    refine hJ.bind hJ.subject fun slot => ?_
    cases p with
    | scalar kind => exact hJ.writeScalar _ _
    | inlineText => exact hJ.writeText _
    | chunkText => exact hJ.writeTextBehind
    | inlineRecord schema => exact hJ.writeInner ih _ _
    | fixedRecord schema => exact hJ.writeInner ih _ _
    | chunkRecord schema => exact hJ.writeRecordBehind ih _
    | handle schema fixed => exact hJ.writeHandle _ _ _
    | inlineChoice choice => exact hJ.writeChoice ih _
    | chunkChoice choice => exact hJ.writeChoiceBehind ih _
    | inlineOpen => exact hJ.writeOpen ih
    | chunkOpen => exact hJ.writeOpenBehind ih
    | wrapped wrapper carrier kind => exact hJ.writeWrapped ih _ _ _

theorem writeField (f : BoundField) : J (RecordLayout.writeField f) :=
  hJ.bind hJ.subject fun _ => hJ.writeFieldWith (hJ.writeWithin _) f

theorem writeRecord (l : Layout) : J (RecordLayout.writeRecord l) :=
  hJ.bind hJ.subject fun _ => hJ.writeRecordWith (hJ.writeWithin _) l

end Op.Modular

end RecordLayout
