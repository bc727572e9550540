import Mathlib
import RecordLayout.Chunk.Store

/-!
# Chunk stores

A sound store has each chunk once, under an id that it has handed out. Work on a store that owns
some chunks may fill these and new ones, and leaves all others as they are: `ChunkStore.Writes`.

Main results:

* `ChunkStore.content?_setContent`, `ChunkStore.content?_allocate` — the store as a finite map;
* `ChunkStore.Writes.trans`, `ChunkStore.Writes.sound` — work on a store, step after step.
-/

namespace RecordLayout

namespace ChunkStore

variable {store store' store'' : ChunkStore}

/-! ## The store as a finite map -/

theorem mem_live_iff {c : ChunkId} : c ∈ store.live ↔ (store.content? c).isSome := by
  rw [live, content?]
  induction store.chunks with
  | nil => simp
  | cons entry rest ih =>
    obtain ⟨d, content⟩ := entry
    rw [List.map_cons, List.mem_cons, List.lookup_cons]
    by_cases heq : c = d
    · subst heq
      simp
    · have hne : (c == d) = false := by simpa using heq
      simp only [heq, false_or, hne, ih]

theorem contains_iff {c : ChunkId} : store.contains c = true ↔ c ∈ store.live := by
  rw [contains, mem_live_iff]

theorem content?_setContent (c d : ChunkId) (content : Bytes) :
    (store.setContent c content).content? d =
      if d = c then (store.content? d).map fun _ => content else store.content? d := by
  rw [setContent, content?, content?]
  simp only
  induction store.chunks with
  | nil => simp
  | cons entry rest ih =>
    obtain ⟨e, old⟩ := entry
    rw [List.map_cons, List.lookup_cons, List.lookup_cons]
    by_cases hde : d = e
    · subst hde
      by_cases hdc : d = c <;> simp [hdc]
    · have hne : (d == e) = false := by simpa using hde
      simp only [hne, ih]

@[simp] theorem live_setContent (c : ChunkId) (content : Bytes) :
    (store.setContent c content).live = store.live := by
  simp [setContent, live, Function.comp_def]

@[simp] theorem next_setContent (c : ChunkId) (content : Bytes) :
    (store.setContent c content).next = store.next := rfl

/-- Every chunk is there once, under an id that was handed out. -/
structure Sound (store : ChunkStore) : Prop where
  next_pos : 0 < store.next
  nodup : store.live.Nodup
  bounds : ∀ c ∈ store.live, 0 < c.id ∧ c.id < store.next

theorem sound_empty : empty.Sound := ⟨by decide, List.nodup_nil, fun c hc => nomatch hc⟩

theorem Sound.lt_next (h : store.Sound) {c : ChunkId} {content : Bytes}
    (hc : store.content? c = some content) : 0 < c.id ∧ c.id < store.next :=
  h.bounds c (mem_live_iff.mpr (by rw [hc]; rfl))

/-- A chunk that is listed holds what stands beside it. -/
theorem Sound.content?_of_mem (h : store.Sound) {entry : ChunkId × Bytes}
    (hentry : entry ∈ store.chunks) : store.content? entry.1 = some entry.2 := by
  have hnodup : (store.chunks.map Prod.fst).Nodup := h.nodup
  rw [content?]
  -- only the entries matter for a lookup
  generalize store.chunks = chunks at hentry hnodup
  induction chunks with
  | nil => cases hentry
  | cons first rest ih =>
    rw [List.map_cons, List.nodup_cons] at hnodup
    rw [List.lookup_cons]
    rcases List.mem_cons.mp hentry with rfl | hmem
    · simp
    · have hne : (entry.1 == first.1) = false := by
        rw [beq_eq_false_iff_ne]
        intro heq
        exact hnodup.1 (heq ▸ List.mem_map_of_mem hmem)
      simp only [hne, ih hmem hnodup.2]

/-- Putting back what a chunk holds changes nothing. -/
theorem setContent_same (h : store.Sound) {c : ChunkId} {content : Bytes}
    (hc : store.content? c = some content) : store.setContent c content = store := by
  obtain ⟨chunks, next, allocations, frees⟩ := store
  simp only [setContent, ChunkStore.mk.injEq, and_true]
  have hnodup : (chunks.map Prod.fst).Nodup := h.nodup
  simp only [content?] at hc
  clear h
  induction chunks with
  | nil => rfl
  | cons entry rest ih =>
    obtain ⟨e, old⟩ := entry
    rw [List.map_cons, List.nodup_cons] at hnodup
    rw [List.lookup_cons] at hc
    rw [List.map_cons]
    by_cases heq : c = e
    · subst heq
      simp only [beq_self_eq_true, Option.some.injEq] at hc
      subst hc
      -- no other entry has this id
      have hrest : rest.map (fun entry => (entry.1, if entry.1 = c then old else entry.2)) =
          rest := by
        refine (List.map_congr_left fun entry hentry => ?_).trans (List.map_id rest)
        have hne : entry.1 ≠ c := by
          rintro rfl
          exact hnodup.1 (List.mem_map.mpr ⟨entry, hentry, rfl⟩)
        simp only [if_neg hne, id_eq]
      refine congrArg₂ List.cons ?_ hrest
      simp only [if_true]
    · have hne : (c == e) = false := by simpa using heq
      rw [hne] at hc
      simp only [if_neg (Ne.symm heq), ih hc hnodup.2]

theorem content?_allocate (h : store.Sound) (d : ChunkId) :
    store.allocate.2.content? d = if d = ⟨store.next⟩ then some [] else store.content? d := by
  have hnew : store.content? ⟨store.next⟩ = none := by
    -- the next identifier is above all that are in use
    cases hc : store.content? ⟨store.next⟩ with
    | none => rfl
    | some content => exact absurd (h.lt_next hc).2 (Nat.lt_irrefl _)
  rw [allocate, content?]
  simp only
  rw [List.lookup_append]
  by_cases heq : d = ⟨store.next⟩
  · subst heq
    rw [content?] at hnew
    simp [hnew]
  · rw [if_neg heq, List.lookup_cons]
    have hne : (d == (⟨store.next⟩ : ChunkId)) = false := by simpa using heq
    simp [hne, content?]

/-- Chunks that are not freed hold what they held. -/
theorem content?_free {chunks : List ChunkId} (h : store.free chunks = .ok store') {c : ChunkId}
    (hc : c ∉ chunks) : store'.content? c = store.content? c := by
  rw [free] at h
  split at h
  · cases h
  · cases h
    rw [content?, content?]
    simp only
    -- the induction is on the entries: the key looked up is never among those filtered out
    induction store.chunks with
    | nil => rfl
    | cons entry rest ih =>
      rw [List.filter_cons, List.lookup_cons]
      by_cases heq : c = entry.1
      · subst heq
        have hstays : (!chunks.contains entry.1) = true := by simpa using hc
        rw [if_pos hstays, List.lookup_cons]
        simp
      · have hne : (c == entry.1) = false := by simpa using heq
        rw [hne]
        split
        · rw [List.lookup_cons, hne]
          exact ih
        · exact ih

/-! ## Work on a store -/

/-- The ids that a store has handed out between two states. -/
def handedOut (store store' : ChunkStore) : List ChunkId :=
  (List.range' store.next (store'.next - store.next)).map ChunkId.mk

theorem mem_handedOut {c : ChunkId} :
    c ∈ handedOut store store' ↔ store.next ≤ c.id ∧ c.id < store'.next := by
  obtain ⟨id⟩ := c
  simp only [handedOut, List.mem_map, List.mem_range'_1, ChunkId.mk.injEq, exists_eq_right]
  omega

theorem nodup_handedOut (store store' : ChunkStore) : (handedOut store store').Nodup :=
  (List.nodup_range' 1).map fun a b h => ChunkId.mk.inj h

/-- Work that owns the chunks of `owned` makes new chunks and fills them and its own. -/
structure Writes (owned : List ChunkId) (store store' : ChunkStore) : Prop where
  next_le : store.next ≤ store'.next
  live : store'.live = store.live ++ handedOut store store'
  frame : ∀ c, c ∉ owned → c.id < store.next → store'.content? c = store.content? c

namespace Writes

variable {owned owned' : List ChunkId}

theorem refl (owned : List ChunkId) (store : ChunkStore) : Writes owned store store :=
  ⟨Nat.le_refl _, by simp [handedOut], fun _ _ _ => rfl⟩

theorem mono (h : Writes owned store store') (hsub : owned ⊆ owned') :
    Writes owned' store store' :=
  ⟨h.next_le, h.live, fun c hc hlt => h.frame c (fun hmem => hc (hsub hmem)) hlt⟩

theorem trans (h : Writes owned store store') (h' : Writes owned' store' store'') :
    Writes (owned ++ owned') store store'' := by
  have hle := h.next_le
  have hle' := h'.next_le
  refine ⟨hle.trans hle', ?_, fun c hc hlt => ?_⟩
  · rw [h'.live, h.live, List.append_assoc]
    congr 1
    rw [handedOut, handedOut, handedOut, ← List.map_append]
    congr 1
    have hsplit : store''.next - store.next =
        (store'.next - store.next) + (store''.next - store'.next) := by omega
    have hstart : store.next + (store'.next - store.next) = store'.next := by omega
    rw [hsplit, ← List.range'_append_1, hstart]
  · rw [List.mem_append, not_or] at hc
    rw [h'.frame c hc.2 (by omega), h.frame c hc.1 hlt]

/-- Work keeps a store sound. -/
theorem sound (h : Writes owned store store') (hs : store.Sound) : store'.Sound := by
  have hle := h.next_le
  have hpos := hs.next_pos
  refine ⟨by omega, ?_, fun c hc => ?_⟩
  · rw [h.live, List.nodup_append]
    -- an old chunk is below the old `next`, a new one is not
    refine ⟨hs.nodup, nodup_handedOut _ _, fun c hc d hd heq => ?_⟩
    subst heq
    have hlt := (hs.bounds c hc).2
    have hge := (mem_handedOut.mp hd).1
    omega
  · rw [h.live, List.mem_append] at hc
    rcases hc with hold | hnew
    · have hbounds := hs.bounds c hold
      omega
    · have hbounds := mem_handedOut.mp hnew
      omega

/-- Chunks that the work neither owns nor has made hold what they held. -/
theorem content? (h : Writes owned store store') (hs : store.Sound) {c : ChunkId} {content : Bytes}
    (hc : store.content? c = some content) (hout : c ∉ owned) :
    store'.content? c = some content := by
  rw [h.frame c hout (hs.lt_next hc).2, hc]

/-- Filling a chunk that is owned, or that was made on the way. -/
theorem setContent (h : Writes owned store store') {c : ChunkId}
    (hc : c ∈ owned ∨ store.next ≤ c.id) (content : Bytes) :
    Writes owned store (store'.setContent c content) := by
  refine ⟨h.next_le, ?_, fun d hd hlt => ?_⟩
  · rw [live_setContent, h.live]
    rfl
  · have hne : d ≠ c := by
      rintro rfl
      rcases hc with hmem | hge
      · exact hd hmem
      · omega
    rw [content?_setContent, if_neg hne, h.frame d hd hlt]

theorem allocate (hs : store.Sound) (owned : List ChunkId) :
    Writes owned store store.allocate.2 := by
  refine ⟨Nat.le_succ _, ?_, fun c _ hlt => ?_⟩
  · simp [handedOut, ChunkStore.allocate, ChunkStore.live]
  · rw [content?_allocate hs, if_neg]
    rintro rfl
    exact Nat.lt_irrefl _ hlt

end Writes

end ChunkStore

end RecordLayout
