import Mathlib
import RecordLayout.Codec.Write
import RecordLayout.Proofs.Codec.Derive
import RecordLayout.Proofs.Format.Basic
import RecordLayout.Proofs.Stream.Reading

/-!
# Bytes that operations put into a stream

Writing a plain value puts its bytes where the cursor stands and moves the cursor past them, and
does nothing else.

Main results:

* `ByteStream.Puts.trans` — bytes after bytes;
* `writeScalars_wrote`, `writeText_wrote`, `writeHandle_wrote` — plain values.
-/

namespace RecordLayout

namespace ByteStream

/-- The cursor stands inside the stream or at its end. -/
structure Writable (s : ByteStream) : Prop where
  coherent : s.Coherent
  inside : s.position ≤ s.shown.length

/-- Bytes have been put where the cursor stood, and the cursor stands after them. -/
structure Puts (s : ByteStream) (b : Bytes) (s' : ByteStream) : Prop where
  shown : s'.shown = spliced s.shown s.position b
  position : s'.position = s.position + b.length
  coherent : s'.Coherent

theorem Puts.refl {s : ByteStream} (h : s.Writable) : s.Puts [] s :=
  ⟨(spliced_nil h.inside).symm, rfl, h.coherent⟩

/-- A stream that was written to can be written to. -/
theorem Puts.writable {s s' : ByteStream} {b : Bytes} (h : s.Puts b s') : s'.Writable := by
  refine ⟨h.coherent, ?_⟩
  rw [h.position, h.shown, length_spliced]
  omega

/-- Putting two runs of bytes puts their concatenation. -/
theorem Puts.trans {s t u : ByteStream} {b c : Bytes} (h : s.Puts b t) (h' : t.Puts c u) :
    s.Puts (b ++ c) u := by
  refine ⟨?_, ?_, h'.coherent⟩
  · rw [h'.shown, h.shown, h.position, spliced_spliced]
  · rw [h'.position, h.position, List.length_append, Nat.add_assoc]

/-- What the stream puts is put at its cursor. -/
theorem put_puts {s s' : ByteStream} {b : Bytes} (h : s.Writable) (hput : s.put b = .ok s') :
    s.Puts b s' :=
  let ⟨hshown, hposition, hcoherent⟩ := put_shown h.coherent (Or.inr h.inside) hput
  ⟨hshown, hposition, hcoherent⟩

end ByteStream

/-- Bytes have been written, and nothing else has changed. -/
structure Scene.Wrote {τ : Type} (s : Scene τ) (b : Bytes) (s' : Scene τ) : Prop where
  space : s'.space = s.space
  subject : s'.subject = s.subject
  puts : s.stream.Puts b s'.stream

section

variable {τ : Type} {s s' : Scene τ} {u : Unit}

theorem Scene.Wrote.refl (h : s.stream.Writable) : s.Wrote [] s := ⟨rfl, rfl, .refl h⟩

/-- Writing twice writes both runs. -/
theorem Scene.Wrote.trans {t : Scene τ} {b c : Bytes} (h : s.Wrote b t) (h' : t.Wrote c s') :
    s.Wrote (b ++ c) s' :=
  ⟨h'.space.trans h.space, h'.subject.trans h.subject, h.puts.trans h'.puts⟩

/-- A write writes its bytes. -/
theorem write_wrote {b : Bytes} (h : (Op.write b : Op τ Unit) s = .ok u s')
    (hw : s.stream.Writable) : s.Wrote b s' := by
  obtain ⟨t, hput, rfl⟩ := Op.write_ok.mp h
  exact ⟨rfl, rfl, ByteStream.put_puts hw hput⟩

/-! ## Numbers -/

/-- Padding writes zeros. -/
theorem writeZeros_wrote {n : Nat} (h : (writeZeros n : Op τ Unit) s = .ok u s')
    (hw : s.stream.Writable) : s.Wrote (List.replicate n 0) s' := by
  induction n using Nat.strong_induction_on generalizing s with
  | _ n ih =>
    rw [writeZeros] at h
    split at h
    · rename_i hzero
      obtain ⟨-, rfl⟩ := pure_ok.mp h
      rw [hzero]
      exact .refl hw
    · obtain ⟨_, t, hfirst, hrest⟩ := bind_ok.mp h
      have hwrote := write_wrote hfirst hw
      have hmore := ih (n - min n 64) (by omega) hrest hwrote.puts.writable
      have hboth := hwrote.trans hmore
      rwa [List.replicate_append_replicate, show min n 64 + (n - min n 64) = n by omega] at hboth

/-- A length prefix writes its varint. -/
theorem writeVarint_wrote {n : Nat} (h : (writeVarint n : Op τ Unit) s = .ok u s')
    (hw : s.stream.Writable) : s.Wrote (Varint.encode (UInt64.ofNat n)) s' :=
  write_wrote h hw

/-- A number of four bytes writes them with the lowest first. -/
theorem writeU32_wrote {n : Nat} (h : (Op.stream (ByteSink.writeU32 n) : Op τ Unit) s = .ok u s')
    (hw : s.stream.Writable) : s.Wrote (leBytes 4 n) s' :=
  write_wrote h hw

/-- A chunk's identifier writes its encoding. -/
theorem writeChunkId_wrote {chunk : ChunkId} (h : (writeChunkId chunk : Op τ Unit) s = .ok u s')
    (hw : s.stream.Writable) : s.Wrote chunk.encode s' :=
  write_wrote h hw

/-- A number writes the bytes of its width with the lowest first. -/
theorem writeNumber_wrote {width : Width} {n : UInt64}
    (h : (writeNumber width n.toNat : Op τ Unit) s = .ok u s') (hw : s.stream.Writable) :
    s.Wrote (leBytes width.bytes n.toNat) s' := by
  rw [writeNumber, ByteSink.writeWord, if_neg (Nat.not_lt.mpr width.bytes_le)] at h
  have hwrote := write_wrote h hw
  rwa [UInt64.ofNat_toNat] at hwrote

/-! ## Scalars, texts and handles -/

/-- A scalar writes its encoding, and has the kind asked for. -/
theorem writeScalar_wrote {kind : ScalarKind} {v : Value}
    (h : (writeScalar kind v : Op τ Unit) s = .ok u s') (hw : s.stream.Writable) :
    ∃ x : Scalar, v = .scalar x ∧ x.kind = kind ∧ s.Wrote x.encode s' := by
  cases v with
  | scalar x =>
    rw [writeScalar] at h
    rcases ite_ok.mp h with ⟨hkind, h⟩ | ⟨-, h⟩
    · exact ⟨x, rfl, hkind, write_wrote h hw⟩
    · exact (space_mismatch_fails h).elim
  | _ => exact (space_mismatch_fails h).elim

/-- An array writes the encodings of its items. -/
theorem writeScalars_wrote {kind : ScalarKind} {items : List Value}
    (h : (writeScalars kind items : Op τ Unit) s = .ok u s') (hw : s.stream.Writable) :
    ∃ xs : List Scalar, items = xs.map .scalar ∧ (∀ x ∈ xs, x.kind = kind) ∧
      s.Wrote (xs.flatMap Scalar.encode) s' := by
  rw [writeScalars] at h
  induction items generalizing s with
  | nil =>
    obtain ⟨-, rfl⟩ := pure_ok.mp h
    exact ⟨[], rfl, (fun _ hx => nomatch hx), .refl hw⟩
  | cons v rest ih =>
    obtain ⟨_, t, hfirst, hrest⟩ := bind_ok.mp h
    obtain ⟨x, rfl, hkind, hwrote⟩ := writeScalar_wrote hfirst hw
    obtain ⟨xs, rfl, hkinds, hwrote'⟩ := ih hrest hwrote.puts.writable
    -- the first item has the kind by its own write, the others by induction
    refine ⟨x :: xs, rfl, ?_, hwrote.trans hwrote'⟩
    intro y hy
    rcases List.mem_cons.mp hy with rfl | hmem
    · exact hkind
    · exact hkinds y hmem

/-- An inline text, or its absence. -/
theorem writeText_wrote {v : Value} (h : (writeText v : Op τ Unit) s = .ok u s')
    (hw : s.stream.Writable) :
    (v = .null ∧ s.Wrote (Varint.encode 0) s') ∨ ∃ text : String, v = .text text ∧
      s.Wrote (Varint.encode (UInt64.ofNat ((Utf8.encode text).length + 1)) ++ Utf8.encode text)
        s' := by
  cases v with
  | null => exact Or.inl ⟨rfl, writeVarint_wrote h hw⟩
  | text text =>
    rw [writeText] at h
    obtain ⟨_, t, hlength, hbytes⟩ := bind_ok.mp h
    have hwrote := writeVarint_wrote hlength hw
    exact Or.inr ⟨text, rfl, hwrote.trans (write_wrote hbytes hwrote.puts.writable)⟩
  | _ => exact (space_mismatch_fails h).elim

/-- A handle writes the bytes of its form. -/
theorem handleBytes_wrote {fixed : Bool} {chunk : ChunkId}
    (h : (if fixed then writeChunkId chunk else writeVarint chunk.id : Op τ Unit) s = .ok u s')
    (hw : s.stream.Writable) : s.Wrote (handleBytes fixed chunk) s' := by
  rw [handleBytes]
  rcases ite_ok.mp h with ⟨hfixed, h⟩ | ⟨hfixed, h⟩
  · rw [if_pos hfixed]
    exact writeChunkId_wrote h hw
  · rw [if_neg hfixed]
    exact writeVarint_wrote h hw

/-- A handle to a record of the expected schema, or its absence. -/
theorem writeHandle_wrote {id : SchemaId} {fixed : Bool} {v : Value}
    (h : (writeHandle id fixed v : Op τ Unit) s = .ok u s') (hw : s.stream.Writable) :
    (v = .null ∧ s.Wrote (handleBytes fixed .null) s') ∨ ∃ hd : Handle, v = .handle hd ∧
      hd.schema = id ∧ s.Wrote (handleBytes fixed hd.chunk) s' := by
  rw [writeHandle] at h
  obtain ⟨c, t, hcat, hrest⟩ := bind_ok.mp h
  clear h
  obtain ⟨-, rfl⟩ := Op.catalog_ok.mp hcat
  cases v with
  | null => exact Or.inl ⟨rfl, handleBytes_wrote hrest hw⟩
  | handle hd =>
    simp only at hrest
    split at hrest
    -- the handle is one of the schema asked for
    · rename_i heq
      exact Or.inr ⟨hd, rfl, heq, handleBytes_wrote hrest hw⟩
    · obtain ⟨_, _, hfail, -⟩ := bind_ok.mp hrest
      exact (space_mismatch_fails hfail).elim
  | _ =>
    obtain ⟨_, _, hfail, -⟩ := bind_ok.mp hrest
    exact (space_mismatch_fails hfail).elim

end

end RecordLayout
