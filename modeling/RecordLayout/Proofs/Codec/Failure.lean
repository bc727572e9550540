import Mathlib
import RecordLayout.Proofs.Codec.Frame
import RecordLayout.Proofs.Codec.RoundTrip

/-!
# Transactions that fail

A value behind a reference is replaced in a transaction on its chunk, so the chunk of a value that
cannot be written holds what it held.

Main results:

* `inTransaction_failed` — a stream after a transaction that has failed;
* `storeBehind_failed` — the chunk of a value that cannot be stored.
-/

namespace RecordLayout

open ByteStream Op

/-! ## Transactions that fail -/

/-- Work that fails in a transaction leaves the stream as it was; on memory, no commit fails. -/
theorem inTransaction_failed {τ α : Type} [NamesChunks τ] {act : Op τ α} {more : List ChunkId}
    (h : act.Leaves more) {s t : Scene τ} {e : FormatError} (hs : s.space.store.Sound)
    (hbuf : s.stream.Buffered) (hfails : inTransaction act s = .error e t) :
    t.stream = s.stream := by
  have hframe := h.frame { s with stream := s.stream.begin } hs
  rw [inTransaction] at hfails
  cases hrun : act { s with stream := s.stream.begin } with
  | ok a u =>
    rw [outcome_of_ok hrun] at hframe
    have hbelow : u.stream.below? = some s.stream := hframe.stream.below
    -- what was done can be applied, so the failure was the act's own
    obtain ⟨b, hcommit⟩ := commit_buffered hbelow hbuf
    simp only [hrun, hcommit] at hfails
    cases hfails
  | error e' u =>
    rw [outcome_of_error hrun] at hframe
    have hbelow : u.stream.below? = some s.stream := hframe.stream.below
    simp only [hrun] at hfails
    cases hfails
    exact discard_of_below hbelow

/-! ## Chunks -/

/-- A chunk whose content cannot be replaced holds what it held. -/
theorem withChunk_inTransaction_failed {τ α : Type} [NamesChunks τ] {act : Op τ α}
    {more : List ChunkId} (h : act.Leaves more) {chunk : ChunkId} {s t : Scene τ} {e : FormatError}
    (hs : s.space.store.Sound) {content : Bytes}
    (hc : s.space.store.content? chunk = some content)
    (hfails : withChunk chunk (inTransaction act) s = .error e t) :
    t.space.store.content? chunk = some content := by
  simp only [withChunk, open?_ok.mpr ⟨content, hc, rfl⟩] at hfails
  have hlive := h.inTransaction.tracks.live_subset (s := { s with stream := .ofBytes content }) hs
  cases hrun : inTransaction act { s with stream := .ofBytes content } with
  | ok a u =>
    rw [hrun] at hfails
    cases hfails
  | error e' u =>
    -- the failed transaction gives its stream back as it was opened
    have hback : u.stream = .ofBytes content :=
      inTransaction_failed h (s := { s with stream := .ofBytes content }) hs trivial hrun
    rw [outcome_of_error hrun] at hlive
    rw [hrun] at hfails
    cases hfails
    have hstill : chunk ∈ u.space.store.live :=
      hlive (ChunkStore.mem_live_iff.mpr (by rw [hc]; rfl))
    obtain ⟨now, hnow⟩ := Option.isSome_iff_exists.mp (ChunkStore.mem_live_iff.mp hstill)
    show (u.space.store.setContent chunk u.stream.content).content? chunk = some content
    rw [ChunkStore.content?_setContent, if_pos rfl, hnow, hback, content_ofBytes, Option.map_some]

/-- If the value behind a slot cannot be stored, the chunk behind the slot holds what it held. -/
theorem storeBehind_failed {hint : Nat} {body : Op Slot Unit} (h : body.Leaves [])
    {s t : Scene Slot} {e : FormatError} (hs : s.space.store.Sound)
    (hfails : storeBehind hint body s = .error e t) {content : Bytes}
    (hc : s.space.store.content? s.subject.chunk = some content) :
    t.space.store.content? s.subject.chunk = some content := by
  have hlive : s.subject.chunk ∈ s.space.store.live := ChunkStore.mem_live_iff.mpr (by rw [hc]; rfl)
  have hheld : (!s.subject.chunk.isNull && s.space.store.contains s.subject.chunk) = true := by
    rw [Bool.and_eq_true, ChunkStore.contains_iff, Bool.not_eq_true', Bool.eq_false_iff]
    refine ⟨fun hnull => ?_, hlive⟩
    rw [ChunkId.isNull_iff.mp hnull] at hlive
    exact Nat.lt_irrefl 0 (hs.bounds _ hlive).1
  rw [storeBehind_held hheld] at hfails
  obtain hwork | ⟨u, v, -, hpure⟩ := bind_error.mp hfails
  · exact withChunk_inTransaction_failed (h.bind fun _ => .cutHere) hs hc hwork
  · cases hpure

/-! ## Two texts -/

/-- Two texts have been written, and then the first slot is set to another text and the second to
what is no text. The second slot is backed by `chunk`. -/
def twoTextsMisfit (chunk : ChunkId) : Scene Record :=
  ⟨(twoTextsWritten .null).space, .empty,
    ⟨⟨0, 0⟩, [.text "other", .width .byte], [⟨1⟩, chunk]⟩⟩

/-- The chunks hold both texts before, and the write fails, which leaves another text in the first. So
does a write of the fields one by one. -/
theorem twoTextsMisfit_fails :
    (answer? (writeRecord twoTextsLayout) (twoTextsMisfit ⟨2⟩)).isNone = true ∧
      ((answer? (writePlanned twoTextsLayout (.full twoTextsLayout)) (twoTextsMisfit ⟨2⟩)).isNone =
        true ∧ 1 < (Plan.full twoTextsLayout).write.length) ∧
      (twoTextsWritten .null).space.store.content? ⟨1⟩ = some (Utf8.encode "left") ∧
      (twoTextsWritten .null).space.store.content? ⟨2⟩ = some (Utf8.encode "right") ∧
      (after (writeRecord twoTextsLayout) (twoTextsMisfit ⟨2⟩)).space.store.content? ⟨1⟩ =
        some (Utf8.encode "other") := by decide +kernel

theorem twoTextsMisfit_prepared (chunk : ChunkId) :
    Prepared twoTextsLayout (twoTextsMisfit chunk) := by
  have hbefore := twoTexts_prepared .null
  have hdone : Completed twoTextsLayout (twoTextsScene .null) (twoTextsWritten .null) :=
    twoTexts_completed (.inl rfl)
  -- the first record is stored, and the second one starts from what it has left
  obtain ⟨n, b, F, hwritten⟩ := writeRecord_written hdone.run hbefore.space hbefore.stream
    hbefore.layout hbefore.subject ⟨List.nodup_nil, fun c hc => absurd hc List.not_mem_nil⟩
  have hsame : (twoTextsMisfit chunk).space.catalog = (twoTextsScene .null).space.catalog :=
    hwritten.laid.le.catalog
  refine ⟨hwritten.laid.sound, hbefore.layout.mono hwritten.laid.le, ⟨trivial, Nat.le_refl _⟩, ?_⟩
  rw [hsame]
  refine RecordOf.ready_of_no_scalars hbefore.subject.slots_length rfl fun v hv => ?_
  rcases List.mem_cons.mp hv with rfl | hmem
  · refine ⟨?_, fun _ => nofun⟩
    show (Utf8.encode "other").length + 1 < 2 ^ 64
    decide
  · rw [List.mem_singleton.mp hmem]
    exact ⟨trivial, fun _ => nofun⟩

end RecordLayout
