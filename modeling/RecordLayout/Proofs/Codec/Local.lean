import Mathlib
import RecordLayout.Codec.Skip
import RecordLayout.Proofs.Outcome
import RecordLayout.Proofs.Stream.Consumed

/-!
# Operations that depend on what they pass

A read or a skip that succeeds has passed some bytes. Wherever these bytes stand, it does the same again
with the same workspace and subject, down to what the workspace has learnt: `Op.Local`. What stands
before the cursor or behind the bytes does not matter. Nothing is said of reads that fail, as they may
have failed for want of bytes.

Main results:

* `Op.Streamless.withChunk` — what is done in a chunk does not depend on the stream outside;
* `readWithin_local`, `skipWithin_local` — the walks over stored bytes.
-/

namespace RecordLayout

variable {τ υ α β : Type}

open ByteStream

/-! ## Streams -/

namespace ByteStream

/-- An action that succeeds has passed bytes, and does the same wherever they stand. -/
def Alike (act : StreamM ByteStream α) : Prop :=
  ∀ s a s', s.Coherent → act s = .ok a s' →
    ∃ b, s.Shows b ∧ s' = s.ahead b.length ∧
      ∀ t : ByteStream, t.Shows b → act t = .ok a (t.ahead b.length)

namespace Alike

/-- An answer without reading passes no bytes. -/
theorem pure (a : α) : Alike (Pure.pure a) := by
  intro s b s' hs hrun
  obtain ⟨rfl, rfl⟩ := pure_ok.mp hrun
  exact ⟨[], .nil hs, (ahead_zero _).symm, fun t _ => pure_ok.mpr ⟨rfl, (ahead_zero t).symm⟩⟩

/-- A failure passes nothing, so there is nothing to show. -/
theorem throw (e : StreamError) : Alike (MonadExcept.throw e : StreamM ByteStream α) := by
  intro s a s' _ hrun
  cases hrun

/-- Two actions in a row pass the bytes of the first and then those of the second. -/
theorem bind {act : StreamM ByteStream α} {next : α → StreamM ByteStream β} (h : Alike act)
    (hnext : ∀ a, Alike (next a)) : Alike (act >>= next) := by
  intro s c s'' hs hrun
  obtain ⟨a, s', hact, hthen⟩ := bind_ok.mp hrun
  obtain ⟨b, hshows, rfl, hsame⟩ := h s a s' hs hact
  -- the second part starts behind the bytes of the first, here and wherever else they stand
  obtain ⟨d, hmore, rfl, hsame'⟩ := hnext a _ c s'' (hshows.ahead _) hthen
  refine ⟨b ++ d, hshows.append hmore, by rw [ahead_ahead, List.length_append], fun t ht => ?_⟩
  rw [List.length_append, ← ahead_ahead]
  exact bind_ok.mpr ⟨a, _, hsame t ht.left, hsame' _ ht.right⟩

end Alike

/-- Bytes that are taken are the same ones elsewhere. -/
theorem take_alike (n : Nat) : Alike (take n) := by
  intro s b s' hs hrun
  obtain ⟨hshows, rfl, rfl⟩ := take_ok hs hrun
  exact ⟨b, hshows, rfl, fun _ ht => take_shows ht⟩

/-- A skip counts bytes and does not look at them. -/
theorem skip_alike (n : Nat) : Alike (ByteSource.skip n : StreamM ByteStream Unit) := by
  intro s u s' hs hrun
  obtain ⟨b, hshows, rfl, rfl⟩ := skip_ok hs hrun
  exact ⟨b, hshows, rfl, fun _ ht => skip_shows ht rfl⟩

/-- A read in pieces takes what a read at once takes. -/
theorem readBytes_alike (n : Nat) : Alike (ByteSource.readBytes n : StreamM ByteStream Bytes) := by
  intro s b s' hs hrun
  obtain ⟨hshows, rfl, rfl⟩ := readBytes_ok hs hrun
  exact ⟨b, hshows, rfl, fun _ ht => readBytes_shows ht⟩

/-- A varint ends with itself, so what stands behind it is not looked at. -/
theorem readVarint_alike : Alike (ByteSource.readVarint : StreamM ByteStream UInt64) := by
  intro s v s' hs hrun
  obtain ⟨b, hspell, hshows, rfl⟩ := readVarint_ok hs hrun
  exact ⟨b, hshows, rfl, fun _ ht => readVarint_spelled hspell ht⟩

theorem readByte_alike : Alike (ByteSource.readByte : StreamM ByteStream UInt8) :=
  (take_alike 1).bind fun _ => .pure _

/-- A word of a known width; a width that is too large fails everywhere. -/
theorem readWord_alike (width : Nat) :
    Alike (ByteSource.readWord width : StreamM ByteStream UInt64) := by
  rw [ByteSource.readWord]
  split
  · exact .throw _
  · exact (take_alike width).bind fun _ => .pure _

theorem readU32_alike : Alike (ByteSource.readU32 : StreamM ByteStream Nat) :=
  (take_alike 4).bind fun _ => .pure _

theorem readU64_alike : Alike (ByteSource.readU64 : StreamM ByteStream UInt64) :=
  (take_alike 8).bind fun _ => .pure _

end ByteStream

/-! ## Operations -/

namespace Op

/-- An operation that succeeds has left the stream alone, and does the same with any other one. -/
def Streamless (act : Op τ α) : Prop :=
  ∀ s a s', act s = .ok a s' → s'.stream = s.stream ∧
    ∀ t : ByteStream, act { s with stream := t } = .ok a { s' with stream := t }

namespace Streamless

/-- An answer that is known needs no stream. -/
theorem pure (a : α) : Streamless (Pure.pure a : Op τ α) := by
  intro s b s' hrun
  obtain ⟨rfl, rfl⟩ := pure_ok.mp hrun
  exact ⟨rfl, fun _ => rfl⟩

/-- A failure is no success with any stream. -/
theorem throw (e : FormatError) : Streamless (MonadExcept.throw e : Op τ α) :=
  fun _ _ _ hrun => (throw_ok.mp hrun).elim

/-- If neither part needs the stream, both together do not. -/
theorem bind {act : Op τ α} {next : α → Op τ β} (h : act.Streamless)
    (hnext : ∀ a, (next a).Streamless) : (act >>= next).Streamless := by
  intro s b s'' hrun
  obtain ⟨a, s', hact, hthen⟩ := bind_ok.mp hrun
  obtain ⟨hstream, hsame⟩ := h s a s' hact
  obtain ⟨hstream', hsame'⟩ := hnext a s' b s'' hthen
  exact ⟨hstream'.trans hstream, fun t => bind_ok.mpr ⟨a, _, hsame t, hsame' t⟩⟩

/-- Questions are asked of the workspace alone. -/
theorem space (act : SpaceM α) : Streamless (Op.space act : Op τ α) := by
  intro s a s' hrun
  obtain ⟨w, hact, rfl⟩ := space_ok.mp hrun
  exact ⟨rfl, fun _ => space_ok.mpr ⟨w, hact, rfl⟩⟩

/-- Work on a chunk has nothing to do with the stream outside. -/
theorem withChunk (chunk : ChunkId) (act : Op τ α) :
    (RecordLayout.withChunk chunk act).Streamless := by
  intro s a s' hrun
  obtain ⟨content, u, hcontent, hact, rfl⟩ := withChunk_ok.mp hrun
  exact ⟨rfl, fun _ => withChunk_ok.mpr ⟨content, u, hcontent, hact, rfl⟩⟩

end Streamless

/-- An operation that succeeds has passed bytes, and does the same wherever they stand. -/
def Local (act : Op τ α) : Prop :=
  ∀ s a s', s.stream.Coherent → act s = .ok a s' →
    ∃ b, s.stream.Shows b ∧ s'.stream = s.stream.ahead b.length ∧
      ∀ t : ByteStream, t.Shows b →
        act { s with stream := t } = .ok a { s' with stream := t.ahead b.length }

namespace Local

/-- What leaves the stream alone has passed no bytes. -/
theorem streamless {act : Op τ α} (h : act.Streamless) : act.Local := by
  intro s a s' hs hrun
  obtain ⟨hstream, hsame⟩ := h s a s' hrun
  -- no bytes are shown, and every cursor is behind none
  refine ⟨[], .nil hs, by rw [hstream]; exact (ahead_zero _).symm, fun t _ => ?_⟩
  rw [List.length_nil, ahead_zero]
  exact hsame t

/-- An answer that is known passes no bytes. -/
theorem pure (a : α) : Local (Pure.pure a : Op τ α) := streamless (.pure a)

/-- A failure passes nothing. -/
theorem throw (e : FormatError) : Local (MonadExcept.throw e : Op τ α) := streamless (.throw e)

/-- Two operations in a row pass the bytes of the first and then those of the second. -/
theorem bind {act : Op τ α} {next : α → Op τ β} (h : act.Local) (hnext : ∀ a, (next a).Local) :
    (act >>= next).Local := by
  intro s c s'' hs hrun
  obtain ⟨a, s', hact, hthen⟩ := bind_ok.mp hrun
  obtain ⟨b, hshows, hstream, hsame⟩ := h s a s' hs hact
  -- the second operation starts on the stream that the first has left
  obtain ⟨d, hmore, hstream', hsame'⟩ := hnext a s' c s'' (hstream ▸ hshows.ahead _) hthen
  rw [hstream] at hmore hstream'
  refine ⟨b ++ d, hshows.append hmore, ?_, fun t ht => ?_⟩
  · rw [hstream', ahead_ahead, List.length_append]
  · rw [List.length_append, ← ahead_ahead]
    exact bind_ok.mpr ⟨a, _, hsame t ht.left, hsame' _ ht.right⟩

/-- A choice that does not depend on the stream. -/
theorem ite {c : Prop} [Decidable c] {x y : Op τ α} (hx : x.Local) (hy : y.Local) :
    (if c then x else y).Local := by
  split
  · exact hx
  · exact hy

/-- Operations in a row, by induction on the row. -/
theorem forM {act : β → Op τ PUnit} (h : ∀ b, (act b).Local) (items : List β) :
    (items.forM act).Local := by
  induction items with
  | nil => exact .pure _
  | cons b rest ih => exact (h b).bind fun _ => ih

/-- An outcome that is already there. -/
theorem ofExcept (outcome : Except FormatError α) :
    Local (RecordLayout.ofExcept outcome : Op τ α) := by
  cases outcome with
  | ok a => exact .pure a
  | error e => exact .throw e

/-! ### Parts of a scene -/

/-- Questions pass no bytes. -/
theorem space (act : SpaceM α) : Local (Op.space act : Op τ α) := streamless (.space act)

/-- What is done on the stream alone. -/
theorem stream {act : StreamM ByteStream α} (h : ByteStream.Alike act) :
    Local (Op.stream act : Op τ α) := by
  intro s a s' hs hrun
  obtain ⟨u, hact, rfl⟩ := stream_ok.mp hrun
  obtain ⟨b, hshows, rfl, hsame⟩ := h s.stream a u hs hact
  exact ⟨b, hshows, rfl, fun t ht => stream_ok.mpr ⟨_, hsame t ht, rfl⟩⟩

/-- The declared types are no part of the stream. -/
theorem catalog : Local (Op.catalog : Op τ Catalog) := space _

/-- The subject is no part of the stream. -/
theorem subject : Local (Op.subject : Op τ τ) := by
  refine streamless fun s x s' hrun => ?_
  obtain ⟨rfl, rfl⟩ := subject_ok.mp hrun
  exact ⟨rfl, fun _ => rfl⟩

/-- A changed subject leaves the stream alone. -/
theorem modifySubject (f : τ → τ) : Local (Op.modifySubject f : Op τ Unit) := by
  refine streamless fun s u s' hrun => ?_
  obtain rfl := modifySubject_ok.mp hrun
  exact ⟨rfl, fun _ => rfl⟩

/-- A new subject leaves the stream alone. -/
theorem setSubject (x : τ) : Local (Op.setSubject x : Op τ Unit) := modifySubject fun _ => x

/-- A failure is reported with its field, which changes nothing about a success. -/
theorem inField {f : BoundField} {act : Op τ α} (h : act.Local) : (Op.inField f act).Local := by
  intro s a s' hs hrun
  obtain ⟨b, hshows, hstream, hsame⟩ := h s a s' hs (inField_ok.mp hrun)
  exact ⟨b, hshows, hstream, fun t ht => inField_ok.mpr (hsame t ht)⟩

/-- Work on a part of the subject. -/
theorem on {p : Part τ υ} {act : Op υ α} (h : act.Local) : (Op.on p act).Local := by
  intro s a s' hs hrun
  obtain ⟨u, hact, rfl⟩ := on_ok.mp hrun
  obtain ⟨b, hshows, hstream, hsame⟩ := h _ a u hs hact
  exact ⟨b, hshows, hstream, fun t ht => on_ok.mpr ⟨_, hsame t ht, rfl⟩⟩

/-- Work on a subject of its own. -/
theorem withSubject {x : υ} {act : Op υ α} (h : act.Local) :
    Local (Op.withSubject x act : Op τ (α × υ)) := by
  intro s out s' hs hrun
  obtain ⟨u, hact, hout, rfl⟩ := withSubject_ok.mp hrun
  obtain ⟨b, hshows, hstream, hsame⟩ := h _ out.1 u hs hact
  exact ⟨b, hshows, hstream, fun t ht => withSubject_ok.mpr ⟨_, hsame t ht, hout, rfl⟩⟩

/-- Work on a chunk passes no bytes of the stream outside. -/
theorem withChunk (chunk : ChunkId) (act : Op τ α) : (RecordLayout.withChunk chunk act).Local :=
  streamless (.withChunk chunk act)

end Local

end Op

open Op

/-! ## Plain values -/

/-- Numbers of varying length. -/
theorem readVarint_local : Local (readVarint : Op τ Nat) :=
  (Local.stream readVarint_alike).bind fun _ => .pure _

/-- Chunk ids are eight bytes. -/
theorem readChunkId_local : Local (readChunkId : Op τ ChunkId) :=
  (Local.stream readU64_alike).bind fun _ => .pure _

/-- Numbers of a width that is known. -/
theorem readNumber_local (width : Width) : Local (readNumber width : Op τ Value) :=
  (Local.stream (readWord_alike _)).bind fun _ => .pure _

/-- Bytes that are passed unseen. -/
theorem passBytes_local (n : Nat) : Local (passBytes n : Op τ Unit) := .stream (skip_alike n)

/-- A width is one byte. -/
theorem readWidth_local : Local (readWidth : Op τ Value) := by
  refine (Local.stream readByte_alike).bind fun byte => ?_
  split
  · exact .pure _
  · exact .throw _

/-- Scalars are as many bytes as their kind says. -/
theorem readScalar_local (kind : ScalarKind) : Local (readScalar kind : Op τ Value) := by
  refine (Local.stream (take_alike _)).bind fun bytes => ?_
  split
  · exact .pure _
  · exact .throw _

/-- Scalars one after another, by induction on how many there are. -/
theorem readScalars_local (kind : ScalarKind) (n : Nat) :
    Local (readScalars kind n : Op τ (List Value)) := by
  induction n with
  | zero => exact .pure _
  | succ n ih => exact (readScalar_local kind).bind fun _ => ih.bind fun _ => .pure _

/-- Decoding works on bytes that have been read. -/
theorem decodeText_local (bytes : Bytes) : Local (decodeText bytes : Op τ Value) := by
  rw [decodeText]
  split
  · exact .pure _
  · exact .throw _

/-- A text stands behind its length. -/
theorem readText_local : Local (readText : Op τ Value) :=
  readVarint_local.bind fun _ =>
    .ite (.pure _) ((Local.stream (readBytes_alike _)).bind fun _ => decodeText_local _)

/-- A marker is one byte. -/
theorem readMarker_local : Local (readMarker : Op τ Bool) :=
  (Local.stream readByte_alike).bind fun _ => .ite (.pure _) (.ite (.pure _) (.throw _))

/-- A tag is a varint that is not too large. -/
theorem readTag_local : Local (readTag : Op τ Nat) :=
  readVarint_local.bind fun _ => .ite (.pure _) (.throw _)

/-- The chunk of a handle, in eight bytes or as a varint. -/
theorem readHandleChunk_local (fixed : Bool) : Local (readHandleChunk fixed : Op τ ChunkId) :=
  .ite readChunkId_local (readVarint_local.bind fun _ => .pure _)

/-- An operation that goes on once it knows whether there is a value. -/
theorem readPresent_local (marker : Bool) {next : Bool → Op τ α} (h : ∀ b, (next b).Local) :
    Local (if marker then readMarker >>= next else pure true >>= next) :=
  .ite (readMarker_local.bind h) ((Local.pure true).bind h)

/-! ## Reading -/

/-- What is read goes into the subject. -/
theorem fillSlot_local {slot : Nat} {read : Op Record Value} (h : read.Local) :
    (fillSlot slot read).Local :=
  h.bind fun _ => .modifySubject _

/-- A tag of four bytes and a chunk id. -/
theorem readTagged_local (what : String) : (readTagged what).Local :=
  (Local.stream readU32_alike).bind fun _ => readChunkId_local.bind fun _ =>
    (Local.setSubject _).bind fun _ => .ite (.throw _) (.pure _)

section

variable {readIn : ReadIn} (hread : ∀ p, (readIn p).Local)

include hread

/-- A field, if values can be read. -/
theorem readFieldWith_local (f : BoundField) : (readFieldWith readIn f).Local := by
  -- one case for each encoding
  refine Local.inField (Local.subject.bind fun r => ?_)
  split
  · exact fillSlot_local (readScalar_local _)
  · exact fillSlot_local readWidth_local
  · exact (Local.space _).bind fun _ => fillSlot_local (readNumber_local _)
  · exact fillSlot_local (readNumber_local _)
  · exact fillSlot_local (readVarint_local.bind fun _ => .pure _)
  · exact (Local.space _).bind fun _ =>
      fillSlot_local ((readScalars_local _ _).bind fun _ => .pure _)
  · refine readPresent_local _ fun _ => .ite (fillSlot_local (.on (hread _))) ?_
    exact (Local.space _).bind fun _ => (passBytes_local _).bind fun _ => .modifySubject _

/-- A record, field by field. Drafts are read in their own layout and then built. -/
theorem readNewWith_local (l : Layout) : Local (readNewWith readIn l : Op τ Record) := by
  -- the walk over the fields, and the new record that it fills
  have hinto (l : Layout) : (readIntoWith readIn l).Local :=
    Local.subject.bind fun _ => (Local.space _).bind fun _ =>
      (Local.forM (readFieldWith_local hread) _).bind fun _ => Local.subject.bind fun _ =>
        Local.catalog.bind fun _ => .ofExcept _
  have hfresh (l : Layout) : Local (readFreshWith readIn l : Op τ Record) :=
    Local.catalog.bind fun _ => (Local.withSubject (hinto l)).bind fun _ => .pure _
  rw [readNewWith.eq_def]
  split
  · exact hfresh l
  · exact (Local.space _).bind fun _ => (hfresh _).bind fun _ =>
      Local.catalog.bind fun _ => (Local.ofExcept _).bind fun _ => .pure _

/-- A record as a value. -/
theorem readRecordValue_local (layout : SpaceM Layout) : (readRecordValue readIn layout).Local :=
  (Local.space _).bind fun _ => (readNewWith_local hread _).bind fun _ => .pure _

end

/-- A read of a value depends on what it passes, however deep the value is nested. What is read behind
a reference is in a chunk. -/
theorem readWithin_local (depth : Nat) (p : Placement) : (readWithin depth p).Local := by
  induction depth generalizing p with
  | zero => exact .throw _
  | succ depth ih =>
    cases p with
    | scalar kind => exact readScalar_local _
    | inlineText => exact readText_local
    | chunkText =>
      -- only the reference is on the stream
      exact readChunkId_local.bind fun _ => (Local.setSubject _).bind fun _ =>
        .ite (.pure _) (.withChunk _ _)
    | inlineRecord schema => exact readRecordValue_local ih _
    | fixedRecord schema => exact readRecordValue_local ih _
    | chunkRecord schema =>
      exact readChunkId_local.bind fun _ => (Local.setSubject _).bind fun _ =>
        .ite (.pure _) ((Local.space _).bind fun _ => .withChunk _ _)
    | handle schema fixed => exact (readHandleChunk_local _).bind fun _ => .pure _
    | inlineChoice choice =>
      exact readTag_local.bind fun _ => .ite (.pure _) (readRecordValue_local ih _)
    | chunkChoice choice =>
      refine Local.catalog.bind fun c => (readTagged_local _).bind fun found => ?_
      exact .ite (.pure _) ((Local.space _).bind fun _ => .withChunk _ _)
    -- the tag says of which type the value is
    | inlineOpen =>
      refine readTag_local.bind fun id => .ite (.pure _) ((Local.space _).bind fun p => ?_)
      exact (Local.withSubject (ih p)).bind fun _ => .pure _
    | chunkOpen =>
      refine (readTagged_local _).bind fun found => .ite (.pure _) ?_
      exact (Local.space _).bind fun _ => (Local.withChunk _ _).bind fun _ => .pure _
    | wrapped wrapper carrier kind =>
      exact (Local.space _).bind fun _ => (readNewWith_local ih _).bind fun _ => .pure _

/-! ## Skipping -/

section

variable {skipIn : Placement → Op τ Unit} (hskip : ∀ p, (skipIn p).Local)

include hskip

/-- A field, if values can be skipped. -/
theorem skipFieldWith_local (f : BoundField) (governing : Option Record) :
    (skipFieldWith skipIn f governing).Local := by
  have hgoverning : Local (governingRecord f governing : Op τ Record) := by
    cases governing with
    | some r => exact .pure _
    | none => exact .throw _
  refine Local.inField ?_
  split
  · exact hgoverning.bind fun _ => (Local.space _).bind fun _ => passBytes_local _
  · exact readVarint_local.bind fun _ => .pure _
  · exact hgoverning.bind fun _ => (Local.space _).bind fun _ =>
      .ite (passBytes_local _) (.throw _)
  · exact readPresent_local _ fun _ => .ite (hskip _) ((Local.space _).bind fun _ => passBytes_local _)
  · exact passBytes_local _

/-- The steps of a layout, by induction on what is left of them. -/
theorem followSteps_local {readIn : ReadIn} (hread : ∀ p, (readIn p).Local) (l : Layout)
    (governing : Option Record) (steps : List SkipStep) :
    (followSteps readIn skipIn l governing steps).Local := by
  induction steps generalizing governing with
  | nil => exact .pure _
  | cons step rest ih =>
    cases step with
    | run bytes => exact (passBytes_local _).bind fun _ => ih _
    | field place => exact (skipFieldWith_local hskip _ _).bind fun _ => ih _
    -- governors are read into a record of their own
    | read place =>
      exact Local.catalog.bind fun _ =>
        (Local.withSubject (readFieldWith_local hread _)).bind fun _ => ih _

end

/-- A skip past a value depends on what it passes. -/
theorem skipWithin_local (depth : Nat) (p : Placement) : Local (skipWithin depth p : Op τ Unit) := by
  -- a record in place is passed by the steps of its layout, each of which is local by induction
  have hinner (depth : Nat) (ih : ∀ p, Local (skipWithin depth p : Op τ Unit))
      (layout : SpaceM Layout) :
      Local (skipInner (readWithin depth) (skipWithin depth) layout : Op τ Unit) :=
    (Local.space _).bind fun _ => followSteps_local ih (readWithin_local depth) _ _ _
  induction depth generalizing p with
  | zero => exact .throw _
  | succ depth ih =>
    cases p with
    | scalar kind => exact passBytes_local _
    | inlineText => exact readVarint_local.bind fun _ => passBytes_local _
    | inlineRecord schema => exact hinner depth ih _
    | fixedRecord schema => exact hinner depth ih _
    | wrapped wrapper carrier kind => exact hinner depth ih _
    | handle schema fixed => exact (readHandleChunk_local _).bind fun _ => .pure _
    | inlineChoice choice => exact readTag_local.bind fun _ => .ite (.pure _) (hinner depth ih _)
    | inlineOpen =>
      exact readTag_local.bind fun _ => .ite (.pure _) ((Local.space _).bind fun _ => ih _)
    | chunkText => exact passBytes_local _
    | chunkRecord schema => exact passBytes_local _
    | chunkChoice choice => exact passBytes_local _
    | chunkOpen => exact passBytes_local _

/-- A skip past a record depends on what it passes. -/
theorem skipRecordWith_local (depth : Nat) (l : Layout) :
    Local (skipRecordWith (readWithin depth) (skipWithin depth) l : Op τ Unit) :=
  followSteps_local (skipWithin_local depth) (readWithin_local depth) _ _ _

end RecordLayout
