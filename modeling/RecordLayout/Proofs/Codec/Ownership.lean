import Mathlib
import RecordLayout.Proofs.Codec.Failure

/-!
# Whose chunks a write touches

The chunk behind a slot belongs to the record that the slot is part of. A write, whatever comes of
it, fills anew only the chunks that the slots of its record name when it starts, at any depth. A
detached copy names none, so no chunk that is there changes when it is written.

Main results:

* `RecordOf.companions_detached` — a detached copy owns no chunk, at any depth;
* `write_keeps_unowned` — the chunks after a write that has succeeded or failed.
-/

namespace RecordLayout

/-! ## Detached copies -/

theorem flatMap_ownChunk_replicate (n : Nat) :
    (List.replicate n ChunkId.null).flatMap ownChunk = [] := by
  rw [List.flatMap_eq_nil_iff]
  intro c hc
  rw [List.eq_of_mem_replicate hc, ownChunk_null]

mutual

/-- A detached copy of a value owns no chunk. -/
theorem Value.companions_detached : ∀ v : Value, v.detached.companions = []
  | .list items => Value.companionsAll_detachedAll items 0
  | .record r => RecordOf.companions_detached r
  | .wrapped _ carrier => RecordOf.companions_detached carrier
  | .null | .scalar _ | .width _ | .text _ | .handle _ => rfl

/-- Detached copies of values in a row own no chunk, and neither do null chunks behind them. -/
theorem Value.companionsAll_detachedAll : ∀ (values : List Value) (n : Nat),
    Value.companionsAll (Value.detachedAll values) (List.replicate n .null) = []
  | [], n => flatMap_ownChunk_replicate n
  | v :: vs, n => by
    have hhead : (List.replicate n ChunkId.null).headD .null = .null := by cases n <;> rfl
    rw [Value.detachedAll, Value.companionsAll, hhead, ownChunk_null,
      Value.companions_detached v, List.tail_replicate, Value.companionsAll_detachedAll vs (n - 1)]
    rfl

/-- A detached copy of a record owns no chunk, at any depth. -/
theorem RecordOf.companions_detached : ∀ r : RecordOf Value, r.detached.companions = []
  | ⟨_, slots, chunks⟩ => by
    rw [RecordOf.detached, RecordOf.companions, List.map_const']
    exact Value.companionsAll_detachedAll slots chunks.length

end

/-! ## Chunks after a write -/

/-- Whatever comes of a write, every live chunk that no slot of the record names, at any depth, holds
what it held; and if the record is a detached copy, so does every live chunk. -/
theorem write_keeps_unowned {s : Scene Record} (hs : s.space.store.Sound) (l : Layout) :
    (∀ c content, s.space.store.content? c = some content → c ∉ s.subject.companions →
      (outcome (writeRecord l) s).2.space.store.content? c = some content) ∧
    ∀ r : Record, s.subject = r.detached →
      ∀ c content, s.space.store.content? c = some content →
        (outcome (writeRecord l) s).2.space.store.content? c = some content := by
  have hframe : s.Leaves s.subject.companions (outcome (writeRecord l) s).2 :=
    (leaves.writeRecord l).frame s hs
  have hkeeps : ∀ c content, s.space.store.content? c = some content → c ∉ s.subject.companions →
      (outcome (writeRecord l) s).2.space.store.content? c = some content := by
    intro c content hc hout
    have hlive : c ∈ s.space.store.live := ChunkStore.mem_live_iff.mpr (by rw [hc]; rfl)
    exact (hframe.kept c hlive hout).trans hc
  refine ⟨hkeeps, fun r hclone c content hc => hkeeps c content hc ?_⟩
  rw [hclone, RecordOf.companions_detached]
  exact List.not_mem_nil

/-- Two texts that have been written, cloned, and the clone to be written to a stream of its own. -/
def twoTextsCloned : Scene Record :=
  ⟨(twoTextsWritten .null).space, .empty, (twoTextsWritten .null).subject.detached⟩

/-- The record names its two chunks, the clone names none, and writing the clone makes two more. -/
theorem write_keeps_unowned_two_texts :
    twoTextsCloned.space.store.Sound ∧ (twoTextsWritten .null).subject.companions = [⟨1⟩, ⟨2⟩] ∧
      ∃ t, writeRecord twoTextsLayout twoTextsCloned = .ok () t ∧
        t.space.store.live = [⟨1⟩, ⟨2⟩, ⟨3⟩, ⟨4⟩] ∧
        t.space.store.content? ⟨1⟩ = some (Utf8.encode "left") ∧
        t.space.store.content? ⟨2⟩ = some (Utf8.encode "right") := by
  have hs : twoTextsCloned.space.store.Sound := (twoTextsMisfit_prepared .null).space.store
  have hsome : (answer? (writeRecord twoTextsLayout) twoTextsCloned).isSome = true ∧
      (twoTextsWritten .null).subject.companions = [⟨1⟩, ⟨2⟩] ∧
      (after (writeRecord twoTextsLayout) twoTextsCloned).space.store.live =
        [⟨1⟩, ⟨2⟩, ⟨3⟩, ⟨4⟩] := by decide +kernel
  obtain ⟨u, hrun, -⟩ := runs_to_after hsome.1
  obtain ⟨-, -, hleft, hright, -⟩ := twoTextsMisfit_fails
  have hkept := (write_keeps_unowned hs twoTextsLayout).2 _ rfl
  rw [outcome_of_ok hrun] at hkept
  exact ⟨hs, hsome.2.1, _, hrun, hsome.2.2, hkept ⟨1⟩ _ hleft, hkept ⟨2⟩ _ hright⟩

end RecordLayout
