import Mathlib
import RecordLayout.Codec.Read
import RecordLayout.Proofs.Codec.Runs
import RecordLayout.Proofs.Format.Parsed

/-!
# Bytes that operations take from a stream

Reading a plain value gives what the bytes after the cursor are read as and moves the cursor past
them, and does nothing else.

Main results:

* `readScalars_runs`, `readText_runs`, `readHandle_runs` — plain values;
* `readTagged_runs` — references that follow a tag.
-/

namespace RecordLayout

open ByteStream
open Workspace (Runs)

variable {τ : Type} {w : Workspace} {t : ByteStream} {x : τ} {b c : Bytes}

/-! ## Numbers -/

theorem readVarint_runs {v : UInt64} (hspell : Varint.Spells b v) (h : t.Shows b) :
    w.Runs (readVarint : Op τ Nat) t x v.toNat (t.ahead b.length) x :=
  (Runs.stream (ByteStream.readVarint_spelled hspell h)).bind (.pure _)

theorem readChunkId_runs {chunk : ChunkId} (hchunk : chunk.Spelled b) (h : t.Shows b) :
    w.Runs (readChunkId : Op τ ChunkId) t x chunk (t.ahead b.length) x := by
  obtain ⟨hlen, hvalue⟩ := hchunk
  have hlt := leValue_lt b
  rw [hlen] at hlt
  have hid : (UInt64.ofNat (leValue b)).toNat = chunk.id := by
    rw [UInt64.toNat_ofNat_of_lt' (Nat.lt_of_lt_of_le hlt (by decide)), hvalue]
  refine (Runs.stream (readU64_spelled hlen h)).bind ?_
  rw [hid]
  exact .pure _

theorem readNumber_runs {width : Width} (hlen : b.length = width.bytes) (h : t.Shows b) :
    w.Runs (readNumber width : Op τ Value) t x (.scalar (.u64 (UInt64.ofNat (leValue b))))
      (t.ahead b.length) x :=
  (Runs.stream (readWord_spelled width.bytes_le hlen h)).bind (.pure _)

theorem readWidth_runs {byte : UInt8} {width : Width} (hbyte : Width.ofOrdinal byte.toNat = .ok width)
    (h : t.Shows [byte]) : w.Runs (readWidth : Op τ Value) t x (.width width) (t.ahead 1) x := by
  refine (Runs.stream (readByte_shows h)).bind ?_
  rw [hbyte]
  exact .pure _

theorem readMarker_runs {present : Bool} (h : t.Shows [if present then 1 else 0]) :
    w.Runs (readMarker : Op τ Bool) t x present (t.ahead 1) x := by
  refine (Runs.stream (readByte_shows h)).bind ?_
  cases present <;> exact .pure _

theorem passBytes_runs {n : Nat} (h : t.Shows b) (hn : b.length = n) :
    w.Runs (passBytes n : Op τ Unit) t x () (t.ahead n) x :=
  .stream (skip_shows h hn.symm)

/-- A tag or type id of variable length. -/
theorem readTag_runs {tag : Nat} (htag : SpellsTag b tag) (h : t.Shows b) :
    w.Runs (readTag : Op τ Nat) t x tag (t.ahead b.length) x := by
  obtain ⟨v, hspell, rfl, hle⟩ := htag
  refine (readVarint_runs hspell h).bind ?_
  rw [if_pos hle]
  exact .pure _

/-! ## Scalars, texts and handles -/

theorem readScalar_runs {kind : ScalarKind} {s : Scalar} (hlen : b.length = kind.bytes)
    (hdecode : Scalar.decode kind b = .ok s) (h : t.Shows b) :
    w.Runs (readScalar kind : Op τ Value) t x (.scalar s) (t.ahead b.length) x := by
  have hread := read_shows h
  rw [hlen] at hread ⊢
  refine (Runs.stream hread).bind ?_
  rw [hdecode]
  exact .pure _

theorem readScalars_runs {kind : ScalarKind} {items : List Scalar}
    (hitems : SpellsScalars kind items b) (h : t.Shows b) :
    w.Runs (readScalars kind items.length : Op τ (List Value)) t x (items.map .scalar)
      (t.ahead b.length) x := by
  induction hitems generalizing t with
  | nil =>
    rw [List.length_nil, List.length_nil, ahead_zero]
    exact .pure []
  | cons hlen hfirst _ ih =>
    rw [List.length_append, ← ahead_ahead]
    exact (readScalar_runs hlen hfirst h.left).bind ((ih h.right).bind (.pure _))

theorem decodeText_runs {text : String} (hdecode : Utf8.decode c = .ok text) :
    w.Runs (decodeText c : Op τ Value) t x (.text text) t x := by
  rw [decodeText, hdecode]
  exact .pure _

theorem readText_null (hlen : Varint.Spells b 0) (h : t.Shows b) :
    w.Runs (readText : Op τ Value) t x .null (t.ahead b.length) x :=
  (readVarint_runs hlen h).bind (.pure _)

theorem readText_runs {n : UInt64} {text : String} (hlen : Varint.Spells b n) (hne : n.toNat ≠ 0)
    (hc : c.length = n.toNat - 1) (hdecode : Utf8.decode c = .ok text) (h : t.Shows (b ++ c)) :
    w.Runs (readText : Op τ Value) t x (.text text) (t.ahead (b ++ c).length) x := by
  rw [List.length_append, ← ahead_ahead]
  refine (readVarint_runs hlen h.left).bind ?_
  rw [if_neg hne, ← hc]
  exact (Runs.stream (readBytes_shows h.right)).bind (decodeText_runs hdecode)

theorem readHandleChunk_runs {fixed : Bool} {chunk : ChunkId} (hchunk : SpellsHandle fixed b chunk)
    (h : t.Shows b) :
    w.Runs (readHandleChunk fixed : Op τ ChunkId) t x chunk (t.ahead b.length) x := by
  cases fixed with
  | true => exact readChunkId_runs hchunk h
  | false =>
    obtain ⟨v, hspell, hv⟩ := hchunk
    refine (readVarint_runs hspell h).bind ?_
    rw [hv]
    exact .pure _

theorem readHandle_null {id : SchemaId} {fixed : Bool} (hchunk : SpellsHandle fixed b .null)
    (h : t.Shows b) : w.Runs (readHandle id fixed : Op τ Value) t x .null (t.ahead b.length) x :=
  (readHandleChunk_runs hchunk h).bind (.pure _)

theorem readHandle_runs {id : SchemaId} {fixed : Bool} {chunk : ChunkId}
    (hchunk : SpellsHandle fixed b chunk) (hne : chunk ≠ .null) (h : t.Shows b) :
    w.Runs (readHandle id fixed : Op τ Value) t x (.handle ⟨id, chunk⟩) (t.ahead b.length) x := by
  refine (readHandleChunk_runs hchunk h).bind ?_
  rw [if_neg fun hnull => hne (ChunkId.isNull_iff.mp hnull)]
  exact .pure _

/-! ## References -/

/-- The tag and the chunk of a tagged reference, one after the other. -/
theorem SpellsTagged.split {tag : Nat} {chunk : ChunkId} (h : SpellsTagged b tag chunk) :
    ∃ m d, b = m ++ d ∧ m.length = 4 ∧ leValue m = tag ∧ chunk.Spelled d := by
  refine ⟨b.take 4, b.drop 4, (List.take_append_drop 4 b).symm, ?_, h.tag_eq, h.chunk_eq⟩
  rw [List.length_take, h.length]
  decide

/-- A tag of fixed width and the id of a chunk. -/
theorem readTaggedId_runs {tag : Nat} {chunk : ChunkId} (htagged : SpellsTagged b tag chunk)
    (h : t.Shows b) {α : Type} {next : Nat → ChunkId → Op τ α} {a : α} {t' : ByteStream} {x' : τ}
    (hnext : w.Runs (next tag chunk) (t.ahead b.length) x a t' x') :
    w.Runs (do
      let tag ← Op.stream ByteSource.readU32
      let chunk ← readChunkId
      next tag chunk) t x a t' x' := by
  obtain ⟨m, d, rfl, hlen, rfl, hchunk⟩ := htagged.split
  rw [List.length_append, ← ahead_ahead] at hnext
  exact (Runs.stream (readU32_spelled hlen h.left)).bind
    ((readChunkId_runs hchunk h.right).bind hnext)

/-- A reference that follows a tag of fixed width. -/
theorem readTagged_runs {what : String} {tag : Nat} {chunk y : ChunkId}
    (htagged : SpellsTagged b tag chunk) (hnull : tag = 0 ∨ chunk ≠ .null) (h : t.Shows b) :
    w.Runs (readTagged what) t y (tag, chunk) (t.ahead b.length) chunk := by
  refine readTaggedId_runs htagged h ((Runs.setSubject chunk).bind ?_)
  rw [if_neg]
  · exact .pure _
  · rcases hnull with rfl | hne
    · simp
    · have hnot : chunk.isNull = false := by
        rw [Bool.eq_false_iff]
        exact fun hchunk => hne (ChunkId.isNull_iff.mp hchunk)
      simp [hnot]

end RecordLayout
