import Mathlib
import RecordLayout.Proofs.Chunk.Store
import RecordLayout.Proofs.Idle

/-!
# Chunks in rollback scopes

Work makes chunks, and the innermost open rollback scope notes each of them. What a scope has noted
can be freed again, and then the chunks are live that were live before.

Main results:

* `ChunkStore.Gains.free` — freeing what has come to live;
* `Workspace.Made.undo`, `Workspace.Made.keep` — a scope is closed after a failure or a success.
-/

namespace RecordLayout

/-! ## Chunks that come to live -/

namespace ChunkStore

variable {store store' store'' : ChunkStore} {first second : List ChunkId}

/-- Some chunks have come to live, and the others that live did so before. -/
structure Gains (fresh : List ChunkId) (store store' : ChunkStore) : Prop where
  sound : store'.Sound
  live : store.live <+: store'.live
  new : ∀ c, c ∈ fresh ↔ c ∈ store'.live ∧ c ∉ store.live

namespace Gains

theorem of_live_eq (hsound : store'.Sound) (hlive : store'.live = store.live) :
    Gains [] store store' := by
  refine ⟨hsound, hlive ▸ List.prefix_rfl, fun c => ?_⟩
  rw [hlive]
  simp

theorem trans (h : Gains first store store') (h' : Gains second store' store'') :
    Gains (first ++ second) store store'' := by
  refine ⟨h'.sound, h.live.trans h'.live, fun c => ?_⟩
  have hsub : c ∈ store.live → c ∈ store'.live := fun hc => h.live.subset hc
  have hsub' : c ∈ store'.live → c ∈ store''.live := fun hc => h'.live.subset hc
  rw [List.mem_append, h.new, h'.new]
  tauto

/-- The order in which the chunks are listed does not matter. -/
theorem congr (h : Gains first store store') (heq : ∀ c, c ∈ second ↔ c ∈ first) :
    Gains second store store' :=
  ⟨h.sound, h.live, fun c => (heq c).trans (h.new c)⟩

/-- The live chunks are the old ones and, after them, the fresh ones. -/
theorem split (h : Gains first store store') :
    ∃ more, store'.live = store.live ++ more ∧ (∀ c, c ∈ more ↔ c ∈ first) ∧
      ∀ c ∈ store.live, c ∉ first := by
  obtain ⟨more, hmore⟩ := h.live
  have hnodup := h.sound.nodup
  rw [← hmore, List.nodup_append] at hnodup
  refine ⟨more, hmore.symm, fun c => ?_, fun c hc hfresh => ((h.new c).mp hfresh).2 hc⟩
  rw [h.new, ← hmore, List.mem_append]
  constructor
  · exact fun hc => ⟨.inr hc, fun hold => hnodup.2.2 c hold c hc rfl⟩
  · rintro ⟨hold | hnew, hne⟩
    · exact absurd hold hne
    · exact hnew

/-- If no chunk has come to live, the same chunks live. -/
theorem live_eq (h : Gains [] store store') : store'.live = store.live := by
  obtain ⟨more, hlive, hmore, -⟩ := h.split
  have hnone : more = [] := List.eq_nil_iff_forall_not_mem.mpr fun c hc =>
    List.not_mem_nil ((hmore c).mp hc)
  rw [hlive, hnone, List.append_nil]

theorem setContent (h : Gains first store store') (c : ChunkId) (content : Bytes) :
    Gains first store (store'.setContent c content) := by
  have hlive : (store'.setContent c content).live = store'.live := live_setContent c content
  refine ⟨⟨h.sound.next_pos, hlive ▸ h.sound.nodup, hlive ▸ h.sound.bounds⟩, ?_, ?_⟩
  · rw [hlive]
    exact h.live
  · rw [hlive]
    exact h.new

theorem allocate (h : store.Sound) : Gains [⟨store.next⟩] store store.allocate.2 := by
  have hlive : store.allocate.2.live = store.live ++ [⟨store.next⟩] := by
    simp [ChunkStore.allocate, ChunkStore.live]
  refine ⟨(Writes.allocate h []).sound h, hlive ▸ List.prefix_append _ _, fun c => ?_⟩
  have hnew : (⟨store.next⟩ : ChunkId) ∉ store.live :=
    fun hmem => Nat.lt_irrefl _ (h.bounds _ hmem).2
  rw [hlive, List.mem_append, List.mem_singleton]
  constructor
  · rintro rfl
    exact ⟨.inr rfl, hnew⟩
  · rintro ⟨hold | heq, hne⟩
    · exact absurd hold hne
    · exact heq

/-- What has come to live can be freed, and then the same chunks live as before. -/
theorem free (h : Gains first store store') :
    ∃ back, store'.free first = .ok back ∧ Gains [] store back := by
  obtain ⟨more, hlive, hmore, hold⟩ := h.split
  -- all the chunks are live, so the store does not refuse the batch
  have hall : first.find? (fun c => !store'.contains c) = none := by
    rw [List.find?_eq_none]
    intro c hc
    simp [contains_iff.mpr ((h.new c).mp hc).1]
  rw [ChunkStore.free, hall]
  refine ⟨_, rfl, of_live_eq ⟨h.sound.next_pos, ?_, fun c hc => ?_⟩ ?_⟩
  · exact h.sound.nodup.sublist (List.filter_sublist.map _)
  · exact h.sound.bounds c ((List.filter_sublist.map _).subset hc)
  · -- the old chunks stay, the new ones go
    have hkept : store.live.filter (fun c => !first.contains c) = store.live := by
      refine List.filter_eq_self.mpr fun c hc => ?_
      simpa using hold c hc
    have hgone : more.filter (fun c => !first.contains c) = [] := by
      refine List.filter_eq_nil_iff.mpr fun c hc => ?_
      simpa using (hmore c).mp hc
    calc (store'.chunks.filter fun entry => !first.contains entry.1).map (·.1)
        = store'.live.filter fun c => !first.contains c := by
          rw [ChunkStore.live, List.filter_map]
          rfl
      _ = store.live := by rw [hlive, List.filter_append, hkept, hgone, List.append_nil]

end Gains

end ChunkStore

/-- A request for a chunk is refused, or it is answered by the next id. -/
theorem Allocator.allocate_cases (a : Allocator) (hint : Nat) :
    (∃ heap, a.allocate hint = (.error refusal, heap) ∧ heap.store = a.store) ∨
      ∃ heap, a.allocate hint = (.ok ⟨a.store.next⟩, heap) ∧ heap.store = a.store.allocate.2 := by
  rw [allocate]
  dsimp only
  split
  · exact .inl ⟨_, rfl, rfl⟩
  · exact .inr ⟨_, rfl, rfl⟩

/-! ## Scopes that note chunks -/

/-- What the open scopes have noted after some more chunks. -/
def noted (fresh : List ChunkId) : List (List ChunkId) → List (List ChunkId)
  | [] => []
  | inner :: rest => (inner ++ fresh) :: rest

@[simp] theorem noted_nil (journal : List (List ChunkId)) : noted [] journal = journal := by
  cases journal with
  | nil => rfl
  | cons inner rest => simp [noted]

theorem noted_noted (first second : List ChunkId) (journal : List (List ChunkId)) :
    noted second (noted first journal) = noted (first ++ second) journal := by
  cases journal with
  | nil => rfl
  | cons inner rest => simp [noted]

namespace Workspace

variable {w w' w'' : Workspace} {first second : List ChunkId}

theorem journal_note (w : Workspace) (chunk : ChunkId) :
    (w.note chunk).journal = noted [chunk] w.journal := by
  rw [note]
  split <;> simp_all [noted]

@[simp] theorem store_note (w : Workspace) (chunk : ChunkId) : (w.note chunk).store = w.store := by
  rw [note]
  split <;> rfl

@[simp] theorem store_keepScope (w : Workspace) : w.keepScope.store = w.store := by
  rw [keepScope]
  split <;> rfl

theorem content?_release (w : Workspace) {chunks : List ChunkId} {c : ChunkId} (hc : c ∉ chunks) :
    (w.release chunks).store.content? c = w.store.content? c := by
  rw [release]
  split
  · rename_i store hfree
    exact ChunkStore.content?_free hfree hc
  · rfl

/-- Some chunks have come to live, and the innermost open scope has noted each of them. -/
structure Made (fresh : List ChunkId) (w w' : Workspace) : Prop where
  store : w.store.Gains fresh w'.store
  journal : w'.journal = noted fresh w.journal

namespace Made

/-- Questions allocate nothing. -/
theorem of_rests (h : w.store.Sound) (hrests : w.Rests w') : Made [] w w' :=
  ⟨.of_live_eq (hrests.store ▸ h) (congrArg ChunkStore.live hrests.store),
    by rw [hrests.journal, noted_nil]⟩

theorem refl (h : w.store.Sound) : Made [] w w := of_rests h (.refl w)

theorem trans (h : Made first w w') (h' : Made second w' w'') : Made (first ++ second) w w'' :=
  ⟨h.store.trans h'.store, by rw [h'.journal, h.journal, noted_noted]⟩

theorem setContent (h : Made first w w') (chunk : ChunkId) (content : Bytes) :
    Made first w (w'.setStore (w'.store.setContent chunk content)) :=
  ⟨h.store.setContent chunk content, h.journal⟩

/-- Chunks that have come to live are freed again. -/
theorem release (h : w.store.Gains first w'.store) (hjournal : w'.journal = w.journal) :
    Made [] w (w'.release first) := by
  obtain ⟨back, hfree, hgains⟩ := h.free
  rw [Workspace.release, hfree]
  exact ⟨hgains, by rw [noted_nil, ← hjournal]; rfl⟩

/-- A scope that is closed after success hands its chunks to the scope around it. -/
theorem keep (h : Made first w.openScope w') : Made first w w'.keepScope := by
  have hjournal : w'.journal = first :: w.journal := h.journal
  refine ⟨?_, ?_⟩
  · rw [store_keepScope]
    exact h.store
  · simp only [keepScope, hjournal]
    cases w.journal with
    | nil => rfl
    | cons outer rest => rfl

/-- A scope that is closed after a failure leaves nothing of what was made in it. -/
theorem undo (h : Made first w.openScope w') : Made [] w w'.undoScope := by
  have hjournal : w'.journal = first :: w.journal := h.journal
  simp only [undoScope, hjournal]
  exact release h.store rfl

/-- A chunk is noted after what was allocated while it was filled. -/
theorem note (h : Made first w w') (chunk : ChunkId) {before : Workspace}
    (hbefore : before.store.Gains [chunk] w.store) (hjournal : w.journal = before.journal) :
    Made (first ++ [chunk]) before (w'.note chunk) := by
  refine ⟨?_, by rw [journal_note, h.journal, hjournal, noted_noted]⟩
  rw [store_note]
  refine (hbefore.trans h.store).congr fun c => ?_
  simp [or_comm]

end Made

end Workspace

end RecordLayout
