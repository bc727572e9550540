import Mathlib
import RecordLayout.Codec.Skip
import RecordLayout.Proofs.Chunk.Tracks
import RecordLayout.Proofs.Space
import RecordLayout.Proofs.Stream.Staying

/-!
# Operations that only look

Whatever comes of a read, the chunks hold what they held, also those that were opened on the way,
and of the stream only the cursor has moved: `Op.Reads`. A skip leaves its subject alone besides.

Main results:

* `Op.Reads.withChunk` — a chunk that is looked into is closed as it was opened;
* `readWithin_reads`, `skipWithin_reads` — the walks over stored bytes.
-/

namespace RecordLayout

variable {τ υ α β : Type}

/-- Nothing but the cursor of the stream, and what is known, has changed. -/
structure Scene.Looked {τ : Type} (s t : Scene τ) : Prop where
  space : s.space.Rests t.space
  stream : s.stream.Looked t.stream

/-- Nothing has changed where nothing was done. -/
theorem Scene.Looked.refl (s : Scene τ) : s.Looked s := ⟨.refl _, .refl _⟩

/-- One look after another. -/
theorem Scene.Looked.trans {s t u : Scene τ} (h : s.Looked t) (h' : t.Looked u) : s.Looked u :=
  ⟨h.space.trans h'.space, h.stream.trans h'.stream⟩

/-- The chunks are as they were. -/
theorem Scene.Looked.store {s t : Scene τ} (h : s.Looked t) : t.space.store = s.space.store :=
  h.space.store

open ByteStream

namespace Op

/-- Whatever comes of the operation, it has only looked, and if it succeeds the workspace is sound
still and has learnt. If it `keeps` its subject, that is as it was. -/
structure Reads (keeps : Prop) (act : Op τ α) : Prop where
  looked : ∀ s : Scene τ, s.space.store.Sound → s.Looked (outcome act s).2
  learns : ∀ s a t, act s = .ok a t → s.space.Sound → t.space.Sound ∧ s.space.Learns t.space
  subject : keeps → ∀ s, (outcome act s).2.subject = s.subject

namespace Reads

variable {keeps keeps' : Prop}

/-- A success leaves a sound workspace. -/
theorem sound {act : Op τ α} (h : act.Reads keeps) (s : Scene τ) (a : α) (t : Scene τ)
    (hrun : act s = .ok a t) (hs : s.space.Sound) : t.space.Sound :=
  (h.learns s a t hrun hs).1

/-- What a read has looked at is alive as it was. -/
theorem spares {act : Op τ α} (h : act.Reads keeps) : act.Spares :=
  fun s hs => .of_rests hs (h.looked s hs).space

/-! ### Sequences -/

/-- An operation that changes nothing. -/
theorem still {act : Op τ α} (h : ∀ s, (outcome act s).2 = s) : act.Reads keeps := by
  refine ⟨fun s _ => (h s).symm ▸ .refl s, fun s a t hrun hs => ?_, fun _ s => by rw [h s]⟩
  have hsame := h s
  rw [outcome_of_ok hrun] at hsame
  obtain rfl : t = s := hsame
  exact ⟨hs, .refl _⟩

/-- An answer that is known. -/
theorem pure (a : α) : Reads keeps (Pure.pure a : Op τ α) := still fun _ => rfl

/-- A failure by itself. -/
theorem throw (e : FormatError) : Reads keeps (MonadExcept.throw e : Op τ α) := still fun _ => rfl

/-- One operation after another. If the first fails, what it has looked at is all. -/
theorem bind {act : Op τ α} {next : α → Op τ β} (h : act.Reads keeps)
    (hnext : ∀ a, (next a).Reads keeps) : (act >>= next).Reads keeps := by
  -- the three parts are what the run looks at, what it learns, and that it keeps the subject
  refine ⟨fun s hs => ?_, fun s b u hrun hs => ?_, fun hk s => ?_⟩
  · have hact := h.looked s hs
    rw [outcome_bind]
    cases hrun : act s with
    | ok a t =>
      rw [outcome_of_ok hrun] at hact
      exact hact.trans ((hnext a).looked t (hact.store ▸ hs))
    | error e t =>
      rw [outcome_of_error hrun] at hact
      exact hact
  · obtain ⟨a, t, hact, hthen⟩ := bind_ok.mp hrun
    obtain ⟨ht, hlearns⟩ := h.learns s a t hact hs
    obtain ⟨hu, hlearns'⟩ := (hnext a).learns t b u hthen ht
    exact ⟨hu, hlearns.trans hlearns'⟩
  · have hact := h.subject hk s
    rw [outcome_bind]
    cases hrun : act s with
    | ok a t =>
      rw [outcome_of_ok hrun] at hact
      exact ((hnext a).subject hk t).trans hact
    | error e t =>
      rw [outcome_of_error hrun] at hact
      exact hact

/-- A choice between two. -/
theorem ite {c : Prop} [Decidable c] {x y : Op τ α} (hx : x.Reads keeps) (hy : y.Reads keeps) :
    (if c then x else y).Reads keeps := by
  split
  · exact hx
  · exact hy

/-- Operations in a row, by induction on the row. -/
theorem forM {act : β → Op τ PUnit} (h : ∀ b, (act b).Reads keeps) (items : List β) :
    (items.forM act).Reads keeps := by
  induction items with
  | nil => exact .pure _
  | cons b rest ih => exact (h b).bind fun _ => ih

/-- An outcome that is already there. -/
theorem ofExcept (outcome : Except FormatError α) :
    Reads keeps (RecordLayout.ofExcept outcome : Op τ α) := by
  cases outcome with
  | ok a => exact .pure a
  | error e => exact .throw e

/-! ### Parts of a scene -/

/-- A question only learns. -/
theorem space {act : SpaceM α} (h : act.Idle) (hs : Studies act) :
    Reads keeps (Op.space act : Op τ α) := by
  refine ⟨fun s _ => ?_, fun s a t hrun hsound => ?_, fun _ s => ?_⟩
  · rw [Op.space, outcome_within]
    exact ⟨h s.space, .refl _⟩
  · obtain ⟨w, hact, rfl⟩ := space_ok.mp hrun
    obtain ⟨hw, hlearns, -⟩ := hs s.space hsound a w hact
    exact ⟨hw, hlearns⟩
  · rw [Op.space, outcome_within]
    rfl

/-- What only looks at the stream. -/
theorem stream {act : StreamM ByteStream α} (h : ByteStream.Looks act) :
    Reads keeps (Op.stream act : Op τ α) := by
  refine ⟨fun s _ => ?_, fun s a t hrun hsound => ?_, fun _ s => ?_⟩
  · rw [Op.stream, outcome_within, outcome_failingAs]
    exact ⟨.refl _, h s.stream⟩
  · obtain ⟨b, -, rfl⟩ := stream_ok.mp hrun
    exact ⟨hsound, .refl _⟩
  · rw [Op.stream, outcome_within]
    rfl

theorem catalog : Reads keeps (Op.catalog : Op τ Catalog) :=
  space idle.catalog studies.catalog

theorem subjectOf : Reads keeps (Op.subject : Op τ τ) := still fun _ => rfl

/-- Failures are reported with their field. -/
theorem inField {f : BoundField} {act : Op τ α} (h : act.Reads keeps) :
    (Op.inField f act).Reads keeps := by
  refine ⟨fun s hs => ?_, fun s a t hrun => h.learns s a t (inField_ok.mp hrun), fun hk s => ?_⟩
  · rw [Op.inField, outcome_failingAs]
    exact h.looked s hs
  · rw [Op.inField, outcome_failingAs]
    exact h.subject hk s

/-- A changed subject, which is not kept then. -/
theorem modifySubject (f : τ → τ) : Reads False (Op.modifySubject f : Op τ Unit) := by
  refine ⟨fun s _ => ⟨.refl _, .refl _⟩, fun s a t hrun hs => ?_, False.elim⟩
  obtain rfl := modifySubject_ok.mp hrun
  exact ⟨hs, .refl _⟩

/-- A new subject, which is not kept then. -/
theorem setSubject (x : τ) : Reads False (Op.setSubject x : Op τ Unit) := modifySubject fun _ => x

/-- Work on a part of the subject changes the subject. -/
theorem on {p : Part τ υ} {act : Op υ α} (h : act.Reads keeps) :
    Reads False (Op.on p act : Op τ α) := by
  refine ⟨fun s hs => ?_, fun s a t hrun hs => ?_, False.elim⟩
  · have hlooked := h.looked ⟨s.space, s.stream, p.get s.subject⟩ hs
    rw [Op.on, outcome_within]
    exact ⟨hlooked.space, hlooked.stream⟩
  · obtain ⟨t', hact, rfl⟩ := on_ok.mp hrun
    exact h.learns _ _ _ hact hs

/-- An operation on a subject of its own leaves the subject outside alone. -/
theorem withSubject {x : υ} {act : Op υ α} (h : act.Reads keeps') :
    Reads keeps (Op.withSubject x act : Op τ (α × υ)) := by
  refine ⟨fun s hs => ?_, fun s a t hrun hs => ?_, fun _ s => ?_⟩
  -- the outer subject comes back on either outcome
  · have hlooked := h.looked ⟨s.space, s.stream, x⟩ hs
    simp only [outcome, Op.withSubject] at hlooked ⊢
    cases hrun : act ⟨s.space, s.stream, x⟩ with
    | ok a t =>
      rw [hrun] at hlooked
      exact ⟨hlooked.space, hlooked.stream⟩
    | error e t =>
      rw [hrun] at hlooked
      exact ⟨hlooked.space, hlooked.stream⟩
  · obtain ⟨t', hact, -, rfl⟩ := withSubject_ok.mp hrun
    exact h.learns _ _ _ hact hs
  · simp only [outcome, Op.withSubject]
    cases act ⟨s.space, s.stream, x⟩ with
    | ok a t => rfl
    | error e t => rfl

/-- A chunk that is only looked into holds the same when it is closed. -/
theorem withChunk {chunk : ChunkId} {act : Op τ α} (h : act.Reads keeps) :
    (RecordLayout.withChunk chunk act).Reads keeps := by
  -- what is closed is what was opened, so the workspace is the one that the work leaves
  have hclose {s t : Scene τ} (hs : s.space.store.Sound) {content : Bytes}
      (hcontent : s.space.store.content? chunk = some content)
      (hlooked : Scene.Looked { s with stream := .ofBytes content } t) :
      t.space.setStore (t.space.store.close chunk t.stream) = t.space := by
    have hstore : t.space.store = s.space.store := hlooked.space.store
    have hsame : t.stream.content = content :=
      hlooked.stream.content.trans (content_ofBytes content)
    rw [ChunkStore.close, hsame, ChunkStore.setContent_same (hstore ▸ hs) (hstore ▸ hcontent)]
    rfl
  refine ⟨fun s hs => ?_, fun s a t hrun hs => ?_, fun hk s => ?_⟩
  -- the chunk may be missing; else both outcomes are closed in the same way
  · simp only [outcome, RecordLayout.withChunk]
    cases hopen : s.space.store.open? chunk with
    | error e => exact .refl s
    | ok opened =>
      obtain ⟨content, hcontent, rfl⟩ := open?_ok.mp hopen
      have hlooked := h.looked { s with stream := .ofBytes content } hs
      simp only
      cases hrun : act { s with stream := .ofBytes content } with
      | ok a t =>
        rw [outcome_of_ok hrun] at hlooked
        have hspace : s.space.Rests t.space := hlooked.space
        rw [← hclose hs hcontent hlooked] at hspace
        exact ⟨hspace, .refl _⟩
      | error e t =>
        rw [outcome_of_error hrun] at hlooked
        have hspace : s.space.Rests t.space := hlooked.space
        rw [← hclose hs hcontent hlooked] at hspace
        exact ⟨hspace, .refl _⟩
  -- a success has learnt what the work on the chunk has learnt
  · obtain ⟨content, t', hcontent, hact, rfl⟩ := withChunk_ok.mp hrun
    have hlooked := h.looked { s with stream := .ofBytes content } hs.store
    rw [outcome_of_ok hact] at hlooked
    show Workspace.Sound (t'.space.setStore _) ∧ s.space.Learns (t'.space.setStore _)
    rw [hclose hs.store hcontent hlooked]
    exact h.learns { s with stream := .ofBytes content } a t' hact hs
  · simp only [outcome, RecordLayout.withChunk]
    cases s.space.store.open? chunk with
    | error e => rfl
    | ok opened =>
      have hsame := h.subject hk { s with stream := opened }
      simp only
      cases hrun : act { s with stream := opened } with
      | ok a t =>
        rw [outcome_of_ok hrun] at hsame
        exact hsame
      | error e t =>
        rw [outcome_of_error hrun] at hsame
        exact hsame

end Reads

end Op

open Op

variable {keeps : Prop}

/-! ## Plain values -/

/-- Numbers of varying length. -/
theorem readVarint_reads : Reads keeps (readVarint : Op τ Nat) :=
  (Reads.stream readVarint_looks).bind fun _ => .pure _

theorem readChunkId_reads : Reads keeps (readChunkId : Op τ ChunkId) :=
  (Reads.stream readU64_looks).bind fun _ => .pure _

/-- Numbers of a width that is known. -/
theorem readNumber_reads (width : Width) : Reads keeps (readNumber width : Op τ Value) :=
  (Reads.stream (readWord_looks _)).bind fun _ => .pure _

/-- Bytes that are passed unseen. -/
theorem passBytes_reads (n : Nat) : Reads keeps (passBytes n : Op τ Unit) := .stream (skip_looks n)

theorem readWidth_reads : Reads keeps (readWidth : Op τ Value) := by
  refine (Reads.stream readByte_looks).bind fun byte => ?_
  split
  · exact .pure _
  · exact .throw _

theorem readScalar_reads (kind : ScalarKind) : Reads keeps (readScalar kind : Op τ Value) := by
  refine (Reads.stream (take_looks _)).bind fun bytes => ?_
  split
  · exact .pure _
  · exact .throw _

/-- Scalars one after another, by induction on how many there are. -/
theorem readScalars_reads (kind : ScalarKind) (n : Nat) :
    Reads keeps (readScalars kind n : Op τ (List Value)) := by
  induction n with
  | zero => exact .pure _
  | succ n ih => exact (readScalar_reads kind).bind fun _ => ih.bind fun _ => .pure _

theorem decodeText_reads (bytes : Bytes) : Reads keeps (decodeText bytes : Op τ Value) := by
  rw [decodeText]
  split
  · exact .pure _
  · exact .throw _

theorem readText_reads : Reads keeps (readText : Op τ Value) :=
  readVarint_reads.bind fun _ =>
    .ite (.pure _) ((Reads.stream (readBytes_looks _)).bind fun _ => decodeText_reads _)

theorem readMarker_reads : Reads keeps (readMarker : Op τ Bool) :=
  (Reads.stream readByte_looks).bind fun _ => .ite (.pure _) (.ite (.pure _) (.throw _))

theorem readTag_reads : Reads keeps (readTag : Op τ Nat) :=
  readVarint_reads.bind fun _ => .ite (.pure _) (.throw _)

/-- The chunks of handles. -/
theorem readHandleChunk_reads (fixed : Bool) : Reads keeps (readHandleChunk fixed : Op τ ChunkId) :=
  .ite readChunkId_reads (readVarint_reads.bind fun _ => .pure _)

/-- The size of absent values is asked of the compiler. -/
theorem inlineSize_reads (p : Placement) :
    Reads keeps (Op.compile (p.inlineSize Compiler.layout) : Op τ (Option Nat)) :=
  .space (.compile _) (studies.inlineSize p)

/-- Counts are slots of the record at hand. -/
theorem countOf_reads (v : Value) : Reads keeps (Op.space (countOf v) : Op τ Nat) :=
  .space (idle.countOf v) (studies.countOf v)

/-- Widths are slots of the record at hand. -/
theorem widthIn_reads (r : Record) (slot : Nat) :
    Reads keeps (Op.space (widthIn r slot) : Op τ Width) :=
  .space (idle.widthIn r slot) (studies.widthIn r slot)

/-- Layouts may be compiled on the way. -/
theorem layout_reads (id : SchemaId) (kind : LayoutKind) :
    Reads keeps (Op.space (SpaceM.layout id kind) : Op τ Layout) :=
  .space (idle.layout id kind) (studies.layout id kind)

/-- The layout behind a tag may be compiled on the way. -/
theorem variantLayout_reads (choice : ChoiceId) (tag : Nat) :
    Reads keeps (Op.space (SpaceM.variantLayout choice tag) : Op τ Layout) :=
  .space (idle.variantLayout choice tag) (studies.variantLayout choice tag)

/-- The placement behind a type id may be chosen on the way. -/
theorem openPlacement_reads (id : Nat) :
    Reads keeps (Op.space (SpaceM.openPlacement id) : Op τ Placement) :=
  .space (idle.openPlacement id) (studies.openPlacement id)

/-- A record of another schema is refused. -/
theorem requireSchema_reads (l : Layout) (r : Record) :
    Reads keeps (Op.space (requireSchema l r) : Op τ Unit) :=
  .space (idle.requireSchema l r) (studies.requireSchema l r)

/-- An operation that goes on once it knows whether there is a value. -/
theorem readPresent_reads (marker : Bool) {next : Bool → Op τ α} (h : ∀ b, (next b).Reads keeps) :
    Reads keeps (if marker then readMarker >>= next else pure true >>= next) :=
  .ite (readMarker_reads.bind h) ((Reads.pure true).bind h)

/-! ## Reading -/

/-- What is read goes into the subject. -/
theorem fillSlot_reads {slot : Nat} {read : Op Record Value} (h : read.Reads False) :
    (fillSlot slot read).Reads False :=
  h.bind fun _ => .modifySubject _

section

variable {readIn : ReadIn} (hread : ∀ p, (readIn p).Reads False)

include hread

/-- A field, if values can be read. -/
theorem readFieldWith_reads (f : BoundField) : (readFieldWith readIn f).Reads False := by
  -- one case for each encoding
  refine Reads.inField (Reads.subjectOf.bind fun r => ?_)
  split
  · exact fillSlot_reads (readScalar_reads _)
  · exact fillSlot_reads readWidth_reads
  · exact (widthIn_reads _ _).bind fun _ => fillSlot_reads (readNumber_reads _)
  · exact fillSlot_reads (readNumber_reads _)
  · exact fillSlot_reads (readVarint_reads.bind fun _ => .pure _)
  · exact (countOf_reads _).bind fun _ =>
      fillSlot_reads ((readScalars_reads _ _).bind fun _ => .pure _)
  · refine readPresent_reads _ fun _ => .ite (fillSlot_reads (.on (hread _))) ?_
    exact (inlineSize_reads _).bind fun _ => (passBytes_reads _).bind fun _ => .modifySubject _

/-- A row of fields into a record that is there. -/
theorem readIntoWith_reads (l : Layout) : (readIntoWith readIn l).Reads False :=
  Reads.subjectOf.bind fun _ => (requireSchema_reads _ _).bind fun _ =>
    (Reads.forM (readFieldWith_reads hread) _).bind fun _ => Reads.subjectOf.bind fun _ =>
      Reads.catalog.bind fun _ => .ofExcept _

theorem readFreshWith_reads (l : Layout) : Reads keeps (readFreshWith readIn l : Op τ Record) :=
  Reads.catalog.bind fun _ => (Reads.withSubject (readIntoWith_reads hread l)).bind fun _ =>
    .pure _

/-- A new record, by way of its draft if it has one. -/
theorem readNewWith_reads (l : Layout) : Reads keeps (readNewWith readIn l : Op τ Record) := by
  rw [readNewWith.eq_def]
  split
  · exact readFreshWith_reads hread l
  · exact (layout_reads _ _).bind fun _ => (readFreshWith_reads hread _).bind fun _ =>
      Reads.catalog.bind fun _ => (Reads.ofExcept _).bind fun _ => .pure _

/-- A record as a value, once its layout is known. -/
theorem readRecordValue_reads {layout : SpaceM Layout}
    (hlayout : Reads False (Op.space layout : Op ChunkId Layout)) :
    (readRecordValue readIn layout).Reads False :=
  hlayout.bind fun _ => (readNewWith_reads hread _).bind fun _ => .pure _

end

/-- The chunk of the reference is noted beside the value. -/
theorem noteChunk_reads (chunk : ChunkId) : (noteChunk chunk).Reads False := .setSubject chunk

/-- A tag and the chunk behind it. -/
theorem readTagged_reads (what : String) : (readTagged what).Reads False :=
  (Reads.stream readU32_looks).bind fun _ => readChunkId_reads.bind fun chunk =>
    (noteChunk_reads chunk).bind fun _ => .ite (.throw _) (.pure _)

/-- A read of a value only looks, however deep the value is nested. -/
theorem readWithin_reads (depth : Nat) (p : Placement) : (readWithin depth p).Reads False := by
  induction depth generalizing p with
  | zero => exact .throw _
  | succ depth ih =>
    -- a record in a chunk is read with a layout that was asked for before the chunk was opened
    have hknown (l : Layout) : (readRecordValue (readWithin depth) (pure l)).Reads False :=
      readRecordValue_reads ih (.space (.pure l) (.pure l))
    cases p with
    | scalar kind => exact readScalar_reads _
    | inlineText => exact readText_reads
    | chunkText =>
      -- the reference is read, its chunk is noted, and the content is read within the chunk
      refine readChunkId_reads.bind fun chunk => (noteChunk_reads chunk).bind fun _ => ?_
      refine .ite (.pure _) (.withChunk ((Reads.stream fun s => ?_).bind fun _ => decodeText_reads _))
      exact readBytes_looks s.remaining s
    | inlineRecord schema => exact readRecordValue_reads ih (layout_reads _ _)
    | fixedRecord schema => exact readRecordValue_reads ih (layout_reads _ _)
    | chunkRecord schema =>
      refine readChunkId_reads.bind fun chunk => (noteChunk_reads chunk).bind fun _ => ?_
      exact .ite (.pure _) ((layout_reads _ _).bind fun l => .withChunk (hknown l))
    | handle schema fixed => exact (readHandleChunk_reads _).bind fun _ => .pure _
    | inlineChoice choice =>
      exact readTag_reads.bind fun _ =>
        .ite (.pure _) (readRecordValue_reads ih (variantLayout_reads _ _))
    | chunkChoice choice =>
      refine Reads.catalog.bind fun c => (readTagged_reads _).bind fun found => ?_
      obtain ⟨tag, chunk⟩ := found
      exact .ite (.pure _) ((variantLayout_reads _ _).bind fun l => .withChunk (hknown l))
    | inlineOpen =>
      refine readTag_reads.bind fun id => .ite (.pure _) ?_
      exact (openPlacement_reads _).bind fun _ =>
        (Reads.withSubject (ih _)).bind fun _ => .pure _
    | chunkOpen =>
      refine (readTagged_reads _).bind fun found => ?_
      obtain ⟨id, chunk⟩ := found
      refine .ite (.pure _) ?_
      exact (openPlacement_reads _).bind fun _ =>
        (Reads.withChunk (Reads.withSubject (ih _))).bind fun _ => .pure _
    | wrapped wrapper carrier kind =>
      exact (layout_reads _ _).bind fun _ => (readNewWith_reads ih _).bind fun _ => .pure _

/-! ## Skipping -/

/-- The record that decides sizes must be there. -/
theorem governingRecord_reads (f : BoundField) (governing : Option Record) :
    Reads keeps (governingRecord f governing : Op τ Record) := by
  cases governing with
  | some r => exact .pure _
  | none => exact .throw _

section

variable {skipIn : Placement → Op τ Unit} (hskip : ∀ p, (skipIn p).Reads keeps)

include hskip

/-- A field, if values can be skipped. -/
theorem skipFieldWith_reads (f : BoundField) (governing : Option Record) :
    (skipFieldWith skipIn f governing).Reads keeps := by
  refine Reads.inField ?_
  split
  · exact (governingRecord_reads _ _).bind fun _ => (widthIn_reads _ _).bind fun _ =>
      passBytes_reads _
  · exact readVarint_reads.bind fun _ => .pure _
  · exact (governingRecord_reads _ _).bind fun _ => (countOf_reads _).bind fun _ =>
      .ite (passBytes_reads _) (.throw _)
  · refine readPresent_reads _ fun _ => .ite (hskip _) ?_
    exact (inlineSize_reads _).bind fun _ => passBytes_reads _
  · exact passBytes_reads _

/-- The steps of a layout, by induction on what is left of them. -/
theorem followSteps_reads {readIn : ReadIn} (hread : ∀ p, (readIn p).Reads False) (l : Layout)
    (governing : Option Record) (steps : List SkipStep) :
    (followSteps readIn skipIn l governing steps).Reads keeps := by
  induction steps generalizing governing with
  | nil => exact .pure _
  | cons step rest ih =>
    cases step with
    | run bytes => exact (passBytes_reads _).bind fun _ => ih _
    | field place => exact (skipFieldWith_reads hskip _ _).bind fun _ => ih _
    -- governors are read into a record of their own, so the subject is kept
    | read place =>
      exact Reads.catalog.bind fun _ =>
        (Reads.withSubject (readFieldWith_reads hread _)).bind fun _ => ih _

end

/-- A skip past a value only looks, and leaves its subject alone. -/
theorem skipWithin_reads (depth : Nat) (p : Placement) :
    Reads keeps (skipWithin depth p : Op τ Unit) := by
  -- a record in place is passed by the steps of its layout
  have hinner (depth : Nat) (ih : ∀ p, Reads keeps (skipWithin depth p : Op τ Unit))
      {layout : SpaceM Layout} (h : Reads keeps (Op.space layout : Op τ Layout)) :
      Reads keeps (skipInner (readWithin depth) (skipWithin depth) layout : Op τ Unit) :=
    h.bind fun _ => followSteps_reads ih (readWithin_reads depth) _ _ _
  induction depth generalizing p with
  | zero => exact .throw _
  | succ depth ih =>
    cases p with
    | scalar kind => exact passBytes_reads _
    | inlineText => exact readVarint_reads.bind fun _ => passBytes_reads _
    | inlineRecord schema => exact hinner depth ih (layout_reads _ _)
    | fixedRecord schema => exact hinner depth ih (layout_reads _ _)
    | wrapped wrapper carrier kind => exact hinner depth ih (layout_reads _ _)
    | handle schema fixed => exact (readHandleChunk_reads _).bind fun _ => .pure _
    | inlineChoice choice =>
      exact readTag_reads.bind fun _ => .ite (.pure _) (hinner depth ih (variantLayout_reads _ _))
    | inlineOpen =>
      exact readTag_reads.bind fun _ =>
        .ite (.pure _) ((openPlacement_reads _).bind fun _ => ih _)
    | chunkText => exact passBytes_reads _
    | chunkRecord schema => exact passBytes_reads _
    | chunkChoice choice => exact passBytes_reads _
    | chunkOpen => exact passBytes_reads _

end RecordLayout
