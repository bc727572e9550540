import Mathlib
import RecordLayout.Proofs.Codec.Failure
import RecordLayout.Proofs.Plan.Closure

/-!
# Partial writes that fail

A partial write of several fields runs in a transaction on the stream, so if it fails the stream has
the bytes that it had. A partial write of one field writes to the stream itself. Then the stream has
the bytes that it had if the field fails at once or not at all, which is so for all fields but those
whose value stands inline with parts of its own, or behind a marker that says it is there. A plan
never has an array as its only field, because an array takes its count along.

Main results:

* `BoundField.WrittenWhole` — fields that fail at once or not at all;
* `writeFieldWith_unwritten` — the fields of this kind;
* `failedPartialWrite_keeps_stream` — the stream after a partial write that fails.
-/

namespace RecordLayout

open ByteStream Op

/-! ## Operations that fail before they write -/

section

variable {τ υ α β : Type} {s t : Scene τ}

namespace Op

/-- If the operation fails, of the stream only the cursor has moved. -/
def Unwritten (act : Op τ α) (s : Scene τ) : Prop :=
  ∀ e t, act s = .error e t → s.stream.Looked t.stream

/-- The operation succeeds, and writes succeed afterwards. -/
def Sure (act : Op τ α) (s : Scene τ) : Prop := ∃ a t, act s = .ok a t ∧ t.stream.Buffered

/-- Whatever comes of the operation, the stream is as it was. -/
def Apart (act : Op τ α) : Prop := ∀ s, (outcome act s).2.stream = s.stream

namespace Apart

theorem pure (a : α) : Apart (Pure.pure a : Op τ α) := fun _ => rfl

/-- Work on the space stays apart from the stream. -/
theorem space (act : SpaceM α) : Apart (Op.space act : Op τ α) := by
  intro s
  rw [Op.space, outcome_within]
  rfl

theorem subject : Apart (Op.subject : Op τ τ) := fun _ => rfl

/-- Changing the subject stays apart from the stream. -/
theorem modifySubject (f : τ → τ) : Apart (Op.modifySubject f : Op τ Unit) := fun _ => rfl

/-- Acts apart from the stream compose. -/
theorem bind {act : Op τ α} {next : α → Op τ β} (h : act.Apart) (hnext : ∀ a, (next a).Apart) :
    (act >>= next).Apart := by
  intro s
  have hact := h s
  rw [outcome_bind]
  cases hrun : act s with
  | ok a t =>
    rw [outcome_of_ok hrun] at hact
    exact (hnext a t).trans hact
  | error e t =>
    rw [outcome_of_error hrun] at hact
    exact hact

/-- Both branches stay apart from the stream. -/
theorem ite {c : Prop} [Decidable c] {x y : Op τ α} (hx : x.Apart) (hy : y.Apart) :
    (if c then x else y).Apart := by
  split
  · exact hx
  · exact hy

/-- Work on a chunk goes back to the stream that it found. -/
theorem withChunk (chunk : ChunkId) (act : Op τ α) : (RecordLayout.withChunk chunk act).Apart := by
  intro s
  simp only [outcome, RecordLayout.withChunk]
  cases s.space.store.open? chunk with
  | error e => rfl
  | ok opened =>
    simp only
    cases act { s with stream := opened } with
    | ok a t => rfl
    | error e t => rfl

/-- A rolled back act leaves the stream as it leaves it, so apart stays apart. -/
theorem rollback {act : Op τ α} (h : act.Apart) : (RecordLayout.rollback act).Apart := by
  intro s
  have hact := h { s with space := s.space.openScope }
  simp only [outcome, RecordLayout.rollback]
  cases hrun : act { s with space := s.space.openScope } with
  | ok a t =>
    rw [outcome_of_ok hrun] at hact
    exact hact
  | error e t =>
    rw [outcome_of_error hrun] at hact
    exact hact

/-- Filling a fresh chunk happens on the chunk's own stream. -/
theorem allocateWith (hint : Nat) (fill : Op τ Unit) :
    (RecordLayout.allocateWith hint fill).Apart := by
  intro s
  simp only [outcome, RecordLayout.allocateWith]
  -- the outer stream is put back on either outcome
  cases hask : s.space.heap.allocate (hint + s.space.config.slack) with
  | mk answer heap =>
    cases answer with
    | error e => rfl
    | ok chunk =>
      have hfill := rollback (withChunk chunk fill) { s with space := { s.space with heap } }
      simp only
      cases hrun : RecordLayout.rollback (RecordLayout.withChunk chunk fill)
          { s with space := { s.space with heap } } with
      | ok u t =>
        rw [outcome_of_ok hrun] at hfill
        exact hfill
      | error e t =>
        rw [outcome_of_error hrun] at hfill
        exact hfill

end Apart

/-! ### Writes on memory -/

namespace Sure

/-- Sure acts compose, since a buffered stream stays buffered. -/
theorem bind {act : Op τ α} {next : α → Op τ β} (h : act.Sure s)
    (hnext : ∀ a t, t.stream.Buffered → (next a).Sure t) : (act >>= next).Sure s := by
  obtain ⟨a, t, hact, hbuf⟩ := h
  obtain ⟨b, u, hthen, hbuf'⟩ := hnext a t hbuf
  exact ⟨b, u, bind_ok.mpr ⟨a, t, hact, hthen⟩, hbuf'⟩

theorem pure (a : α) (hbuf : s.stream.Buffered) : Sure (Pure.pure a : Op τ α) s :=
  ⟨a, s, rfl, hbuf⟩

/-- On a buffered stream a write succeeds. -/
theorem write (bytes : Bytes) (hbuf : s.stream.Buffered) :
    Sure (Op.write bytes : Op τ Unit) s := by
  obtain ⟨b, hput⟩ := hbuf.put bytes
  exact ⟨(), _, write_ok.mpr ⟨b, hput, rfl⟩, (staysOn_put hput).buffered hbuf⟩

/-- What is sure does not fail. -/
theorem not_error {act : Op τ α} (h : act.Sure s) (e : FormatError) (t : Scene τ) :
    act s ≠ .error e t := by
  intro hfails
  obtain ⟨a, u, hrun, -⟩ := h
  rw [hrun] at hfails
  cases hfails

/-- What is sure has no failure that could have written anything. -/
theorem unwritten {act : Op τ α} (h : act.Sure s) : act.Unwritten s :=
  fun e t hfails => absurd hfails (h.not_error e t)

end Sure

namespace Unwritten

/-- What stays apart has written nothing when it fails. -/
theorem of_apart {act : Op τ α} (h : act.Apart) : act.Unwritten s := by
  intro e t hfails
  have hsame := h s
  rw [outcome_of_error hfails] at hsame
  exact (show t.stream = s.stream from hsame) ▸ .refl _

/-- What comes before the first byte leaves the stream alone. -/
theorem apart_bind {act : Op τ α} {next : α → Op τ β} (h : act.Apart) (hbuf : s.stream.Buffered)
    (hnext : ∀ a t, act s = .ok a t → t.stream.Buffered → (next a).Unwritten t) :
    (act >>= next).Unwritten s := by
  intro e u hfails
  obtain hact | ⟨a, t, hact, hthen⟩ := bind_error.mp hfails
  · exact of_apart h e u hact
  · have hsame := h s
    rw [outcome_of_ok hact] at hsame
    have hstream : t.stream = s.stream := hsame
    exact hstream ▸ hnext a t hact (hstream ▸ hbuf) e u hthen

/-- An operation that goes on once it knows its subject. -/
theorem subject_bind {next : τ → Op τ β} (h : (next s.subject).Unwritten s) :
    (Op.subject >>= next).Unwritten s := h

/-- What is read before the first byte moves the cursor at most. -/
theorem reads_bind {keeps : Prop} {act : Op τ α} {next : α → Op τ β} (h : act.Reads keeps)
    (hs : s.space.Sound) (hbuf : s.stream.Buffered)
    (hnext : ∀ a t, act s = .ok a t → t.space.Sound → t.stream.Buffered →
      (keeps → t.subject = s.subject) → (next a).Unwritten t) : (act >>= next).Unwritten s := by
  intro e u hfails
  have hlooked := (h.looked s hs.store).stream
  obtain hact | ⟨a, t, hact, hthen⟩ := bind_error.mp hfails
  · rw [outcome_of_error hact] at hlooked
    exact hlooked
  · have hsame (hk : keeps) := h.subject hk s
    rw [outcome_of_ok hact] at hlooked hsame
    exact hlooked.trans (hnext a t hact (h.sound s a t hact hs) (hlooked.staysOn.buffered hbuf)
      hsame e u hthen)

/-- Naming the field in the error does not write. -/
theorem inField {f : BoundField} {act : Op τ α} (h : act.Unwritten s) :
    (Op.inField f act).Unwritten s := by
  intro e t hfails
  simp only [Op.inField, failingAs] at hfails
  cases hrun : act s with
  | ok a u =>
    rw [hrun] at hfails
    cases hfails
  | error e' u =>
    rw [hrun] at hfails
    cases hfails
    exact h _ _ hrun

/-- Working on a part of the subject writes as the part's act does. -/
theorem on {p : Part τ υ} {act : Op υ α} (h : act.Unwritten ⟨s.space, s.stream, p.get s.subject⟩) :
    Unwritten (Op.on p act : Op τ α) s := by
  intro e t hfails
  simp only [Op.on, within, Scene.part] at hfails
  cases hrun : act ⟨s.space, s.stream, p.get s.subject⟩ with
  | ok a u =>
    rw [hrun] at hfails
    cases hfails
  | error e' u =>
    rw [hrun] at hfails
    cases hfails
    exact h _ u hrun

end Unwritten

end Op

end

/-! ## Values in one piece -/

section

variable {τ : Type}

/-- Refusing a value writes nothing. -/
theorem mismatch_apart {α : Type} (expected : String) (found : Value) :
    Apart (Op.space (SpaceM.mismatch expected found) : Op τ α) := .space _

/-- A chunk's identifier is written for sure. -/
theorem writeChunkId_sure {s : Scene τ} (chunk : ChunkId) (hbuf : s.stream.Buffered) :
    Sure (writeChunkId chunk : Op τ Unit) s := .write _ hbuf

/-- A varint is written for sure. -/
theorem writeVarint_sure {s : Scene τ} (n : Nat) (hbuf : s.stream.Buffered) :
    Sure (writeVarint n : Op τ Unit) s := .write _ hbuf

/-- Zeros are written for sure. -/
theorem writeZeros_sure {s : Scene τ} (n : Nat) (hbuf : s.stream.Buffered) :
    Sure (writeZeros n : Op τ Unit) s := by
  induction n using Nat.strong_induction_on generalizing s with
  | h n ih =>
    rw [writeZeros]
    split
    · exact .pure _ hbuf
    · exact (Sure.write _ hbuf).bind fun _ t hbuf' => ih _ (by omega) hbuf'

/-- A scalar of the wrong kind is refused before its bytes are written. -/
theorem writeScalar_unwritten {s : Scene τ} (kind : ScalarKind) (value : Value)
    (hbuf : s.stream.Buffered) : Unwritten (writeScalar kind value : Op τ Unit) s := by
  rw [writeScalar.eq_def]
  split
  · split
    · exact (Sure.write _ hbuf).unwritten
    · exact .of_apart (mismatch_apart _ _)
  · exact .of_apart (mismatch_apart _ _)

/-- A value that is no text is refused before the length prefix. -/
theorem writeText_unwritten {s : Scene τ} (value : Value) (hbuf : s.stream.Buffered) :
    Unwritten (writeText value : Op τ Unit) s := by
  rw [writeText.eq_def]
  split
  · exact (writeVarint_sure _ hbuf).unwritten
  · exact ((writeVarint_sure _ hbuf).bind fun _ t hbuf' => .write _ hbuf').unwritten
  · exact .of_apart (mismatch_apart _ _)

/-- A handle of another schema is refused before its bytes. -/
theorem writeHandle_unwritten {s : Scene τ} (schema : SchemaId) (fixed : Bool) (value : Value)
    (hbuf : s.stream.Buffered) : Unwritten (writeHandle schema fixed value : Op τ Unit) s := by
  -- the bytes of a handle are one write, whatever its form
  have hput (chunk : ChunkId) (t : Scene τ) (hbuf : t.stream.Buffered) :
      Unwritten (if fixed then writeChunkId chunk else writeVarint chunk.id : Op τ Unit) t := by
    split
    · exact (writeChunkId_sure _ hbuf).unwritten
    · exact (writeVarint_sure _ hbuf).unwritten
  -- a value of another kind is refused before it
  have hother (expected : String) (t : Scene τ) (hbuf : t.stream.Buffered) : Unwritten (do
      let chunk ← Op.space (SpaceM.mismatch expected value)
      if fixed then writeChunkId chunk else writeVarint chunk.id : Op τ Unit) t :=
    .apart_bind (mismatch_apart _ _) hbuf fun chunk u _ hbuf => hput chunk u hbuf
  refine .apart_bind (.space _) hbuf fun c t _ hbuf => ?_
  dsimp only
  split
  · exact .apart_bind (.pure _) hbuf fun chunk u _ hbuf => hput chunk u hbuf
  · split
    · exact .apart_bind (.pure _) hbuf fun chunk u _ hbuf => hput chunk u hbuf
    · exact hother _ t hbuf
  · exact hother _ t hbuf

/-- A word is one write: either all of it or nothing. -/
theorem writeWord_unwritten {s : Scene τ} (width : Nat) (value : UInt64)
    (hbuf : s.stream.Buffered) :
    Unwritten (Op.stream (ByteSink.writeWord width value) : Op τ Unit) s := by
  rw [ByteSink.writeWord]
  split
  · intro e t hfails
    cases hfails
    exact .refl _
  · exact (Sure.write _ hbuf).unwritten

end

/-! ### Values behind references -/

/-- A value is stored in a chunk before the first byte is written. -/
theorem storeBehind_apart (hint : Nat) (body : Op Slot Unit) : (storeBehind hint body).Apart := by
  refine Apart.subject.bind fun slot => (Apart.space _).bind fun live => .ite ?_ ?_
  · exact (Apart.withChunk _ _).bind fun _ => .pure _
  · exact (Apart.allocateWith _ _).bind fun _ => (Apart.modifySubject _).bind fun _ => .pure _

/-- Clearing a reference in the subject writes nothing yet. -/
theorem forgetChunk_apart : forgetChunk.Apart := (Apart.modifySubject _).bind fun _ => .pure _

/-- A record stored behind a reference is written into its own chunk. -/
theorem storeRecordBehind_apart (writeIn : WriteIn) (l : Layout) (r : Record) :
    (storeRecordBehind writeIn l r).Apart :=
  (Apart.space _).bind fun _ => storeBehind_apart _ _

section

variable {s : Scene Slot} (hbuf : s.stream.Buffered)

include hbuf

/-- A reference is written in one go. -/
theorem reference_unwritten {act : Op Slot ChunkId} (h : act.Apart) :
    Unwritten (act >>= fun chunk => writeChunkId chunk) s :=
  .apart_bind h hbuf fun chunk _ _ hbuf => (writeChunkId_sure chunk hbuf).unwritten

/-- A tagged reference is written without failing. -/
theorem taggedReference_sure (tag : Nat) (chunk : ChunkId) :
    Sure (Op.stream (ByteSink.writeU32 tag) >>= fun _ => writeChunkId chunk) s :=
  (Sure.write _ hbuf).bind fun _ _ hbuf => writeChunkId_sure chunk hbuf

/-- A text behind a reference fails, if at all, before the reference is written. -/
theorem writeTextBehind_unwritten : writeTextBehind.Unwritten s := by
  refine .subject_bind ?_
  dsimp only
  split
  · exact reference_unwritten hbuf forgetChunk_apart
  · exact reference_unwritten hbuf (storeBehind_apart _ _)
  · exact reference_unwritten hbuf (mismatch_apart _ _)

/-- A record behind a reference fails, if at all, before the reference is written. -/
theorem writeRecordBehind_unwritten (writeIn : WriteIn) (schema : SchemaId) :
    (writeRecordBehind writeIn schema).Unwritten s := by
  refine .subject_bind (.apart_bind (.space _) hbuf fun c t _ hbuf => ?_)
  dsimp only
  split
  · exact reference_unwritten hbuf forgetChunk_apart
  · split
    · exact .apart_bind (.space _) hbuf fun l u _ hbuf =>
        reference_unwritten hbuf (storeRecordBehind_apart _ _ _)
    · exact reference_unwritten hbuf (mismatch_apart _ _)
  · exact reference_unwritten hbuf (mismatch_apart _ _)

/-- A choice behind a reference fails, if at all, before tag and reference are written. -/
theorem writeChoiceBehind_unwritten (writeIn : WriteIn) (choice : ChoiceId) :
    (writeChoiceBehind writeIn choice).Unwritten s := by
  refine .subject_bind (.apart_bind (.space _) hbuf fun c t _ hbuf => ?_)
  dsimp only
  split
  · exact .apart_bind forgetChunk_apart hbuf fun chunk u _ hbuf =>
      (taggedReference_sure hbuf 0 chunk).unwritten
  · refine .apart_bind (.space _) hbuf fun tag u _ hbuf => ?_
    refine .apart_bind (.space _) hbuf fun l v _ hbuf => ?_
    exact .apart_bind (storeRecordBehind_apart _ _ _) hbuf fun chunk x _ hbuf =>
      (taggedReference_sure hbuf tag chunk).unwritten
  · exact .apart_bind (mismatch_apart _ _) hbuf fun found u _ hbuf =>
      (taggedReference_sure hbuf found.1 found.2).unwritten

/-- An open record behind a reference fails, if at all, before number and reference are written. -/
theorem writeOpenBehind_unwritten (writeIn : WriteIn) : (writeOpenBehind writeIn).Unwritten s := by
  refine .subject_bind (.apart_bind (.space _) hbuf fun id t _ hbuf => ?_)
  dsimp only
  split
  · exact .apart_bind forgetChunk_apart hbuf fun chunk u _ hbuf =>
      (taggedReference_sure hbuf id chunk).unwritten
  · refine .apart_bind (.space _) hbuf fun p u _ hbuf => ?_
    refine .apart_bind (.space _) hbuf fun hint v _ hbuf => ?_
    exact .apart_bind (storeBehind_apart _ _) hbuf fun chunk x _ hbuf =>
      (taggedReference_sure hbuf id chunk).unwritten

end

/-! ### Placements -/

/-- Whether a value stands in its slot in one piece: as a scalar, a text, a handle or a reference. -/
def Placement.inOnePiece : Placement → Bool
  | .inlineRecord _ | .fixedRecord _ | .inlineChoice _ | .inlineOpen | .wrapped _ _ _ => false
  | _ => true

/-- A placement written in one piece has written nothing when it fails. -/
theorem writeWithin_unwritten {s : Scene Slot} (hbuf : s.stream.Buffered) (depth : Nat)
    {p : Placement} (hp : p.inOnePiece = true) : (writeWithin depth p).Unwritten s := by
  cases depth with
  | zero => exact .of_apart fun _ => rfl
  | succ depth =>
    refine .subject_bind ?_
    cases p with
    | scalar kind => exact writeScalar_unwritten _ _ hbuf
    | inlineText => exact writeText_unwritten _ hbuf
    | chunkText => exact writeTextBehind_unwritten hbuf
    | chunkRecord schema => exact writeRecordBehind_unwritten hbuf _ _
    | handle schema fixed => exact writeHandle_unwritten _ _ _ hbuf
    | chunkChoice choice => exact writeChoiceBehind_unwritten hbuf _ _
    | chunkOpen => exact writeOpenBehind_unwritten hbuf _
    | _ => cases hp

/-- Null is one byte at most, wherever it is placed. -/
theorem writeWithin_null_unwritten {s : Scene Slot} (hbuf : s.stream.Buffered) (depth : Nat)
    (p : Placement) (hnull : s.subject.value = .null) : (writeWithin depth p).Unwritten s := by
  by_cases hp : p.inOnePiece = true
  · exact writeWithin_unwritten hbuf depth hp
  cases depth with
  | zero => exact .of_apart fun _ => rfl
  | succ depth =>
    refine .subject_bind ?_
    -- a record that is not there is refused before anything is written
    have hinner (schema : SchemaId) (kind : LayoutKind) :
        (writeInner (writeWithin depth) schema kind).Unwritten s := by
      refine .subject_bind (.apart_bind (.space _) hbuf fun c t _ hbuf => ?_)
      simp only [hnull]
      exact .of_apart (mismatch_apart _ _)
    cases p with
    | inlineRecord schema => exact hinner schema .standard
    | fixedRecord schema => exact hinner schema .fixed
    | wrapped wrapper carrier kind =>
      refine .subject_bind (.apart_bind (.space _) hbuf fun c t _ hbuf => ?_)
      simp only [hnull]
      exact .of_apart (mismatch_apart _ _)
    | inlineChoice choice =>
      refine .subject_bind (.apart_bind (.space _) hbuf fun c t _ hbuf => ?_)
      simp only [hnull]
      exact (writeVarint_sure _ hbuf).unwritten
    | inlineOpen =>
      refine .subject_bind (.apart_bind (.space _) hbuf fun id t hrun hbuf => ?_)
      -- the id of null is zero
      rw [hnull] at hrun
      obtain ⟨w, hid, -⟩ := Op.space_ok.mp hrun
      obtain rfl : 0 = id := by
        obtain ⟨x, hnone, -⟩ := typeId_ok.mp hid
        exact (pure_ok.mp hnone).1
      exact ((writeVarint_sure 0 hbuf).bind fun _ u hbuf => .pure _ hbuf).unwritten
    | _ => exact absurd rfl hp

/-! ## Fields that fail at once or not at all -/

/-- The field holds a value that is written as a whole if its first byte is: null, or a value that
stands in one piece without a marker before it. -/
def BoundField.WrittenWhole (f : BoundField) (v : Value) : Prop :=
  match f.encoding with
  | .placed p marker =>
    (v = .null ∧ f.derivation = none) ∨ (marker = false ∧ p.inOnePiece = true)
  | _ => True

/-- A field that is written whole fails at once or not at all. -/
theorem writeFieldWith_unwritten {s : Scene Record} (hs : s.space.Sound)
    (hbuf : s.stream.Buffered) {f : BoundField} (depth : Nat)
    (hwhole : f.WrittenWhole (s.subject.slot f.slot))
    (harray : ∀ element governor, f.encoding ≠ .array element governor) :
    (writeFieldWith (writeWithin depth) f).Unwritten s := by
  refine Unwritten.inField (.subject_bind ?_)
  rw [BoundField.WrittenWhole] at hwhole
  dsimp only
  -- one case for each encoding; all questions about the space come before the first byte
  split
  · exact writeScalar_unwritten _ _ hbuf
  · exact .apart_bind (.space _) hbuf fun width t _ hbuf => (Sure.write _ hbuf).unwritten
  · refine .apart_bind (.space _) hbuf fun width t _ hbuf => ?_
    refine .apart_bind (.space _) hbuf fun n u _ hbuf => ?_
    split
    · exact writeWord_unwritten _ _ hbuf
    · exact .of_apart (.space _)
  · refine .apart_bind (.space _) hbuf fun n u _ hbuf => ?_
    split
    · exact writeWord_unwritten _ _ hbuf
    · exact .of_apart fun _ => rfl
  · exact .apart_bind (.space _) hbuf fun n u _ hbuf => (writeVarint_sure n hbuf).unwritten
  · rename_i element governor hencoding
    exact absurd hencoding (harray element governor)
  · rename_i p marker hencoding
    simp only [hencoding] at hwhole
    split
    · exact .of_apart fun _ => rfl
    · split
      · -- absent: nothing fails after the marker
        obtain ⟨b, hput⟩ := hbuf.put [0]
        have hwrite : (Op.write [0] : Op Record Unit) s = .ok () { s with stream := b } :=
          write_ok.mpr ⟨b, hput, rfl⟩
        obtain ⟨c, hsize, -⟩ := hs.compiler.inlineSize p
        have hask : (Op.compile (p.inlineSize Compiler.layout) : Op Record (Option Nat))
            { s with stream := b } = .ok (p.sizeIn c).fixed?
              { s with space := { s.space with compiler := c }, stream := b } :=
          Op.space_ok.mpr ⟨_, compile_ok.mpr ⟨c, hsize, rfl⟩, rfl⟩
        intro e t hfails
        rw [bind_of_ok hwrite, bind_of_ok hask] at hfails
        have hzeros := writeZeros_sure (s := { s with
          space := { s.space with compiler := c }, stream := b }) ((p.sizeIn c).fixed?.getD 0)
          ((staysOn_put hput).buffered hbuf)
        exact absurd hfails (hzeros.not_error e t)
      · rename_i hmarked
        have hplain : marker = false := by
          rcases hwhole with ⟨hnull, -⟩ | ⟨hplain, -⟩
          · rw [hnull] at hmarked
            simpa [Value.isNull] using hmarked
          · exact hplain
        subst hplain
        rw [if_neg Bool.false_ne_true]
        refine .on ?_
        rcases hwhole with ⟨hnull, -⟩ | ⟨-, hpiece⟩
        · exact writeWithin_null_unwritten hbuf depth p hnull
        · exact writeWithin_unwritten hbuf depth hpiece

/-! ## The walk of a partial write -/

/-- Deriving a field reads nothing from the stream. -/
theorem deriveField_reads (f : BoundField) : (deriveField f).Reads False := by
  rw [deriveField]
  split
  · exact .pure _
  · exact Reads.subjectOf.bind fun _ =>
      (Reads.space (idle.derivedValue _ _ _) (studies.derivedValue _ _ _)).bind fun _ =>
        .setSubject _

/-- With no field wanted nothing is written. -/
theorem writeWanted_nil (depth : Nat) (l : Layout) (governing : Option Record)
    (fields : List BoundField) : writeWanted depth l governing fields [] = pure () := by
  cases fields with
  | nil => rfl
  | cons f rest => rfl

/-- On the way to the one field that is written nothing is written, and nothing fails after it. -/
theorem writeWanted_one_unwritten {depth : Nat} {l : Layout} {f : BoundField} {r : Record}
    {fields : List BoundField}
    (hfield : ∀ g ∈ fields, f.slot = g.slot → ∀ s : Scene Record, s.space.Sound →
      s.stream.Buffered → s.subject = r → (writeField g).Unwritten s)
    (governing : Option Record) {s : Scene Record} (hs : s.space.Sound)
    (hbuf : s.stream.Buffered) (hr : s.subject = r) :
    (writeWanted depth l governing fields [f]).Unwritten s := by
  induction fields generalizing s governing with
  | nil => exact .of_apart fun _ => rfl
  | cons g rest ih =>
    have ih := ih fun g' hg' => hfield g' (List.mem_cons_of_mem _ hg')
    rw [writeWanted]
    split
    · -- the field is written, and nothing is left to be done
      rename_i hslot
      intro e u hfails
      obtain hwrite | ⟨x, t, -, hrest⟩ := bind_error.mp hfails
      · exact hfield g List.mem_cons_self hslot s hs hbuf hr e u hwrite
      · rw [writeWanted_nil] at hrest
        split at hrest
        · cases hrest
        · cases hrest
    · split
      · -- a field that decides sizes is read
        have hcatalog : Reads True (Op.catalog : Op Record Catalog) := .catalog
        refine .reads_bind hcatalog hs hbuf fun c t _ ht hbuf hsame => ?_
        have hread : Reads True (Op.withSubject (governing.getD (c.newRecord l.schema))
            (readFieldWith (readWithin depth) g) : Op Record (Unit × Record)) :=
          .withSubject (readFieldWith_reads (readWithin_reads depth) g)
        refine .reads_bind hread ht hbuf fun found u _ hu hbuf hsame' => ?_
        exact ih _ hu hbuf ((hsame' trivial).trans ((hsame trivial).trans hr))
      · -- any other field is passed
        have hskip : Reads True (skipFieldWith (skipWithin depth) g governing : Op Record Unit) :=
          skipFieldWith_reads (skipWithin_reads depth) g governing
        exact .reads_bind hskip hs hbuf fun _ t _ ht hbuf hsame =>
          ih _ ht hbuf ((hsame trivial).trans hr)

/-- A field that is written alone is no array, because the field that counts its items would be
written with it. -/
theorem Plan.Of.one_not_array {w : Workspace} (hs : w.Sound) {l : Layout} (hl : w.Knows l)
    {plan : Plan} (hplan : plan.Of l) {f : BoundField} (hone : plan.write = [f])
    (element : ScalarKind) (governor : Nat) : f.encoding ≠ .array element governor := by
  intro hencoding
  have hfields := (hl.good hs).fields
  have hwrites := hplan.writes hfields.slots_nodup
  have hwrite : f ∈ plan.write := hone ▸ List.mem_singleton_self f
  have hf := hwrites.sublist.subset hwrite
  have hneeds : governor ∈ f.needs :=
    hfields.governor_mem hf (by rw [hencoding, Encoding.governor?])
  obtain ⟨before, after, hsplit⟩ := List.append_of_mem hf
  obtain ⟨g, hg, hslot⟩ := List.mem_map.mp (hfields.needs_before hsplit hneeds)
  have hmem : g ∈ l.fields := hsplit ▸ List.mem_append_left _ hg
  have htaken := hwrites.needs f hwrite g hmem (hslot ▸ hneeds)
  rw [hone, List.mem_singleton] at htaken
  -- the field would come before itself
  have hnodup := hfields.slots_nodup
  rw [hsplit, List.map_append, List.nodup_append] at hnodup
  exact hnodup.2.2 g.slot (List.mem_map_of_mem hg) f.slot (List.mem_map_of_mem List.mem_cons_self)
    (congrArg BoundField.slot htaken)

/-! ## Partial writes -/

/-- Freeing the chunks of a failed act does not write on the stream either. -/
theorem Op.Unwritten.guardingChunks {act : Op Record Unit} {s : Scene Record}
    (h : act.Unwritten { s with space := s.space.openScope }) :
    (RecordLayout.guardingChunks act).Unwritten s := by
  refine .subject_bind ?_
  intro e t hfails
  simp only [Op.onFailure, rollback] at hfails
  cases hrun : act { s with space := s.space.openScope } with
  | ok u v =>
    rw [hrun] at hfails
    cases hfails
  | error e' v =>
    rw [hrun] at hfails
    cases hfails
    exact h _ v hrun

/-- The part of a partial write that writes, for fields that are known by their slots. -/
theorem writeSlots_unwritten {depth : Nat} {l : Layout} {wanted : List BoundField} {s : Scene Record}
    (hs : s.space.Sound) (hbuf : s.stream.Buffered)
    (hwhole : 1 < wanted.length ∨ ∀ f ∈ wanted, ∀ g ∈ l.fields, f.slot = g.slot →
      g.WrittenWhole (s.subject.slot g.slot) ∧
        ∀ element governor, g.encoding ≠ .array element governor) :
    (guardingChunks (if 1 < wanted.length
      then inTransaction (writeWanted depth l none l.fields wanted)
      else writeWanted depth l none l.fields wanted)).Unwritten s := by
  have hscope : s.space.openScope.Sound := ⟨hs.compiler, hs.store⟩
  refine .guardingChunks ?_
  split
  -- several fields are written in a transaction, which is dropped
  · intro e t hfails
    rw [inTransaction_failed (writeWanted_leaves _ _ _ _ _)
      (s := { s with space := s.space.openScope }) hscope.store hbuf hfails]
    exact .refl _
  -- fewer than two are written on the stream itself
  · rename_i hfew
    have hwhole := hwhole.resolve_left hfew
    rcases wanted with _ | ⟨f, _ | ⟨g, rest⟩⟩
    · rw [writeWanted_nil]
      exact .of_apart fun _ => rfl
    · refine writeWanted_one_unwritten (r := s.subject) (fun g hg hslot t ht hbuf hr => ?_) none
        hscope hbuf rfl
      obtain ⟨hfield, harray⟩ := hwhole f List.mem_cons_self g hg hslot
      refine .subject_bind (writeFieldWith_unwritten ht hbuf _ ?_ harray)
      rw [hr]
      exact hfield
    · exact absurd (by simp) hfew

/-- The part of a partial write that writes. -/
theorem writeTaken_unwritten {depth : Nat} {l : Layout} {plan : Plan} {s : Scene Record}
    (hs : s.space.Sound) (hbuf : s.stream.Buffered)
    (harray : ∀ f, plan.write = [f] → ∀ element governor, f.encoding ≠ .array element governor)
    (hslots : (l.fields.map (·.slot)).Nodup) (hsub : plan.write ⊆ l.fields)
    (hwhole : 1 < plan.write.length ∨
      ∀ f ∈ plan.write, f.WrittenWhole (s.subject.slot f.slot)) :
    (guardingChunks (if 1 < plan.write.length
      then inTransaction (writeWanted depth l none l.fields plan.write)
      else writeWanted depth l none l.fields plan.write)).Unwritten s := by
  refine writeSlots_unwritten hs hbuf ?_
  by_cases hmany : 1 < plan.write.length
  · exact .inl hmany
  · refine .inr fun f hf g hg hslot => ?_
    obtain rfl : f = g := List.inj_on_of_nodup_map hslots (hsub hf) hg hslot
    obtain ⟨f', hone⟩ := List.length_eq_one_iff.mp
      (show plan.write.length = 1 by have := List.length_pos_of_mem hf; omega)
    obtain rfl : f = f' := by rwa [hone, List.mem_singleton] at hf
    exact ⟨hwhole.resolve_left hmany f hf, harray f hone⟩

/-- Deriving changes no field that is written whole because it is null. The plan may know the field
from another layout, if it is derived there in the same way. -/
theorem BoundField.WrittenWhole.derivedAlike {f f' : BoundField} {plan : Plan} {s t : Scene Record}
    {u : PUnit} (hone : plan.write = [f']) (halike : f'.derivation = f.derivation)
    (h : f.WrittenWhole (s.subject.slot f.slot)) (hrun : plan.derived.forM deriveField s = .ok u t) :
    f.WrittenWhole (t.subject.slot f.slot) := by
  rw [WrittenWhole] at h ⊢
  split
  · rename_i p marker hencoding
    simp only [hencoding] at h
    rcases h with ⟨hnull, hderivation⟩ | hpiece
    · have hnone : plan.derived = [] := by
        rw [Plan.derived, hone, List.filter_singleton, halike, hderivation]
        rfl
      rw [hnone] at hrun
      cases hrun
      exact .inl ⟨hnull, hderivation⟩
    · exact .inr hpiece
  · trivial

/-- Deriving the governed fields first does not change whether the wanted field is written whole. -/
theorem BoundField.WrittenWhole.derived {f : BoundField} {plan : Plan} {s t : Scene Record}
    {u : PUnit} (hone : plan.write = [f]) (h : f.WrittenWhole (s.subject.slot f.slot))
    (hrun : plan.derived.forM deriveField s = .ok u t) :
    f.WrittenWhole (t.subject.slot f.slot) := derivedAlike hone rfl h hrun

/-- A partial write that fails leaves the bytes and the size of the stream as they were, if it writes
several fields or if its one field is written whole. -/
theorem failedPartialWrite_keeps_stream {l : Layout} {plan : Plan} {s t : Scene Record}
    {e : FormatError} (hs : s.space.Sound) (hl : s.space.Knows l) (hplan : plan.Of l)
    (hbuf : s.stream.Buffered)
    (hwhole : 1 < plan.write.length ∨
      ∀ f ∈ plan.write, f.WrittenWhole (s.subject.slot f.slot))
    (hfails : writePlanned l plan s = .error e t) :
    t.stream.content = s.stream.content ∧ t.stream.size = s.stream.size := by
  have hslots := (hl.good hs).fields.slots_nodup
  have hsub := (hplan.writes hslots).sublist.subset
  have harray (f : BoundField) (hone : plan.write = [f]) := hplan.one_not_array hs hl hone
  -- what comes before the walk reads and derives
  have hderive : Reads False (plan.derived.forM deriveField) := .forM deriveField_reads _
  have hschema : Reads True (Op.space (requireSchema l s.subject) : Op Record Unit) :=
    requireSchema_reads l s.subject
  have hconfig : Reads True (Op.config : Op Record Config) := .still fun _ => rfl
  have hdepth : Reads True (readDepth : Op Record Nat) := .still fun _ => rfl
  have hlooked : (writePlanned l plan).Unwritten s := by
    refine .subject_bind (.reads_bind hschema hs hbuf fun _ t _ ht hbuf hsame => ?_)
    refine .reads_bind hderive ht hbuf fun _ u hrun hu hbuf _ => ?_
    have hstill : 1 < plan.write.length ∨
        ∀ f ∈ plan.write, f.WrittenWhole (u.subject.slot f.slot) := by
      rcases hwhole with hmany | hwhole
      · exact .inl hmany
      · by_cases hmany : 1 < plan.write.length
        · exact .inl hmany
        · refine .inr fun f hf => ?_
          obtain ⟨g, hone⟩ := List.length_eq_one_iff.mp
            (show plan.write.length = 1 by have := List.length_pos_of_mem hf; omega)
          obtain rfl : f = g := by rwa [hone, List.mem_singleton] at hf
          refine BoundField.WrittenWhole.derived hone ?_ hrun
          rw [hsame trivial]
          exact hwhole f hf
    refine .reads_bind hconfig hu hbuf fun config v _ hv hbuf hsame => .subject_bind ?_
    have hwalk (x : Scene Record) (hx : x.space.Sound) (hbuf : x.stream.Buffered)
        (hsubject : x.subject = u.subject) : (readDepth >>= fun depth => guardingChunks
          (if 1 < plan.write.length
            then inTransaction (writeWanted depth l none l.fields plan.write)
            else writeWanted depth l none l.fields plan.write)).Unwritten x :=
      .reads_bind hdepth hx hbuf fun depth y _ hy hbuf hsame =>
        writeTaken_unwritten hy hbuf harray hslots hsub
          (((hsame trivial).trans hsubject) ▸ hstill)
    dsimp only
    split
    · have hcheck : Reads True (Op.space (checkPlanned plan v.subject) : Op Record Unit) :=
        .space (idle.checkPlanned _ _) (studies.checkPlanned _ _)
      exact .reads_bind hcheck hv hbuf fun _ x _ hx hbuf hsame' =>
        hwalk x hx hbuf ((hsame' trivial).trans (hsame trivial))
    · exact hwalk v hv hbuf (hsame trivial)
  exact ⟨(hlooked e t hfails).content, (hlooked e t hfails).size⟩

/-- Two fields, the second of which is refused: the stream's bytes and size are the old ones. -/
theorem failedPartialWrite_keeps_stream_two_texts :
    ∃ e t, writePlanned twoTextsLayout (.full twoTextsLayout) (twoTextsMisfit ⟨2⟩) = .error e t ∧
      1 < (Plan.full twoTextsLayout).write.length ∧
        t.stream.content = (twoTextsMisfit ⟨2⟩).stream.content ∧
          t.stream.size = (twoTextsMisfit ⟨2⟩).stream.size := by
  have hprepared := twoTextsMisfit_prepared ⟨2⟩
  obtain ⟨-, ⟨hnone, hmany⟩, -⟩ := twoTextsMisfit_fails
  obtain ⟨e, hfails⟩ := fails_to_after hnone
  exact ⟨e, _, hfails, hmany, failedPartialWrite_keeps_stream hprepared.space hprepared.layout
    .full trivial (.inl hmany) hfails⟩

/-! ### A record inside a record -/

/-- A schema of two bytes, and one with a record of the first inside. -/
def boxedBytes : Catalog :=
  ⟨[⟨⟨"Inner", .managed, [⟨"x", .scalar .u8, false, [], none⟩,
      ⟨"y", .scalar .u8, false, [], none⟩]⟩, true⟩,
    ⟨⟨"Outer", .managed, [⟨"s", .value (.record ⟨0, 0⟩) .flexible, false, [], none⟩]⟩, true⟩],
    [], []⟩

/-- The question for the layout of the second. -/
def askBoxedBytes : SpaceM Layout := SpaceM.layout ⟨1, 0⟩ .standard

/-- Its layout. -/
def boxedBytesLayout : Layout := (answer? askBoxedBytes (.fresh boxedBytes .standard none)).getD default

/-- The two bytes have been written, and then the first is set to another one and the second to what
is no byte. -/
def boxedBytesMisfit : Scene Record :=
  ⟨after askBoxedBytes (.fresh boxedBytes .standard none), .ofBytes [1, 2],
    ⟨⟨1, 0⟩, [.record ⟨⟨0, 0⟩, [.scalar (.u8 9), .text "bad"], [.null, .null]⟩], [.null]⟩⟩

/-- The boxed types refer to types that they declare themselves. -/
theorem boxedBytes_closed : boxedBytes.Closed := by decide

/-- The run. The first byte of the record inside is written before the write fails at the second. -/
theorem boxedBytes_runs :
    (answer? askBoxedBytes (.fresh boxedBytes .standard none)).isSome = true ∧
    (answer? (writePlanned boxedBytesLayout (.full boxedBytesLayout)) boxedBytesMisfit).isNone =
      true ∧
    (after (writePlanned boxedBytesLayout (.full boxedBytesLayout)) boxedBytesMisfit).stream.content =
      [9, 2] := by
  decide +kernel

/-- A plan of one field whose value has parts may leave some of them written. -/
theorem failedPartialWrite_keeps_not_every_stream :
    ¬∀ (l : Layout) (plan : Plan) (s t : Scene Record) (e : FormatError), s.space.Sound →
      s.space.Knows l → plan.Of l → s.stream.Buffered → writePlanned l plan s = .error e t →
        t.stream.content = s.stream.content ∧ t.stream.size = s.stream.size := by
  intro hall
  obtain ⟨hasked, hnone, hnow⟩ := boxedBytes_runs
  obtain ⟨l, hask, hl⟩ := runs_to_after hasked
  have hlayout : boxedBytesLayout = l := by rw [boxedBytesLayout, hl, Option.getD_some]
  obtain ⟨hs, -, hknows⟩ := SpaceM.layout_sound (Workspace.sound_fresh boxedBytes_closed _ _) hask
  rw [← hlayout] at hknows
  obtain ⟨e, hfails⟩ := fails_to_after hnone
  have hkept := (hall _ _ boxedBytesMisfit _ e hs hknows .full trivial hfails).1
  rw [show boxedBytesMisfit.stream.content = [1, 2] from rfl, hnow] at hkept
  exact absurd hkept (by decide)

end RecordLayout
