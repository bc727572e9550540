import Mathlib
import RecordLayout.Proofs.Chunk.Store

/-!
# What is allocated and what is freed

A store is asked to allocate chunks and to free some, in any order, and a request to free chunks may
name any list of them. It is granted exactly if all of them are live; else nothing changes. After any
requests the chunks that have been allocated are those that are live and those that have been freed.
The count of frees agrees with that as long as no list that was freed names a chunk twice: a second
mention in one list is not noticed, but it is counted.

Main results:

* `ChunkStore.free_cases` — when chunks are freed, and what is left;
* `StoreRequest.serve_balance`, `StoreRequest.serveAll_balance` — one request, and a run of them;
* `StoreRequest.requests_balance` — what holds after every run.
-/

namespace RecordLayout

/-! ## Freeing chunks -/

namespace ChunkStore

variable {store : ChunkStore} {chunks : List ChunkId}

theorem length_live (store : ChunkStore) : store.live.length = store.size := by
  unfold live size
  exact List.length_map _

/-- The store without some chunks, whose number has been counted. -/
def without (store : ChunkStore) (chunks : List ChunkId) : ChunkStore :=
  { store with
    chunks := store.chunks.filter fun (chunk, _) => !chunks.contains chunk
    frees := store.frees + chunks.length }

theorem mem_live_without {c : ChunkId} :
    c ∈ (store.without chunks).live ↔ c ∈ store.live ∧ c ∉ chunks := by
  simp only [live, without, List.mem_map, List.mem_filter, Bool.not_eq_true',
    List.contains_eq_mem, decide_eq_false_iff_not]
  constructor
  · rintro ⟨entry, ⟨hentry, hout⟩, rfl⟩
    exact ⟨⟨entry, hentry, rfl⟩, hout⟩
  · rintro ⟨⟨entry, hentry, rfl⟩, hout⟩
    exact ⟨entry, ⟨hentry, hout⟩, rfl⟩

/-- Chunks are freed if all of them are live; else one that is not live is reported. -/
theorem free_cases (store : ChunkStore) (chunks : List ChunkId) :
    ((∀ c ∈ chunks, c ∈ store.live) ∧ store.free chunks = .ok (store.without chunks)) ∨
      ∃ c ∈ chunks, c ∉ store.live ∧ store.free chunks = .error (.chunkNotFound c) := by
  -- `free` looks for a chunk that is not live before it frees any
  cases hfound : chunks.find? fun c => !store.contains c with
  | none =>
    refine .inl ⟨fun c hc => ?_, ?_⟩
    · have hlive := List.find?_eq_none.mp hfound c hc
      rw [← contains_iff]
      simpa using hlive
    · unfold free
      rw [hfound]
      rfl
  | some missing =>
    refine .inr ⟨missing, List.mem_of_find?_eq_some hfound, ?_, ?_⟩
    · have hdead := List.find?_some hfound
      rw [← contains_iff]
      simpa using hdead
    · unfold free
      rw [hfound]

theorem Sound.without (h : store.Sound) (chunks : List ChunkId) : (store.without chunks).Sound := by
  refine ⟨h.next_pos, ?_, ?_⟩
  · exact h.nodup.sublist (List.filter_sublist.map _)
  · intro c hc
    exact h.bounds c (mem_live_without.mp hc).1

/-- As many chunks go as the list names, each counted once. -/
theorem size_without (h : store.Sound) (hall : ∀ c ∈ chunks, c ∈ store.live) :
    (store.without chunks).size + chunks.dedup.length = store.size := by
  have hkept : (store.without chunks).size = (store.live.filter fun c => !chunks.contains c).length := by
    rw [live, List.filter_map, List.length_map]
    rfl
  -- the live chunks that are named are the named ones, in another order
  have hgone : (store.live.filter fun c => chunks.contains c).length = chunks.dedup.length := by
    refine List.Perm.length_eq ?_
    rw [List.perm_ext_iff_of_nodup (h.nodup.filter _) chunks.nodup_dedup]
    intro c
    simp only [List.mem_filter, List.contains_eq_mem, decide_eq_true_eq, List.mem_dedup]
    exact ⟨fun hc => hc.2, fun hc => ⟨hall c hc, hc⟩⟩
  have hsplit := List.length_eq_length_filter_add (l := store.live) fun c => chunks.contains c
  have hsize := store.length_live
  omega

end ChunkStore

/-! ## Requests -/

/-- A request to a chunk store. -/
inductive StoreRequest where
  | allocate
  | free (chunks : List ChunkId)
  deriving Repr

namespace StoreRequest

open ChunkStore

/-- What a store answers, with the store after that. -/
def serve (store : ChunkStore) : StoreRequest → Except StreamError (Option ChunkId) × ChunkStore
  | .allocate => (.ok (some store.allocate.1), store.allocate.2)
  | .free chunks => match store.free chunks with
    | .ok store' => (.ok none, store')
    | .error e => (.error e, store)

/-- The store after some requests, the first one first. -/
def serveAll (store : ChunkStore) : List StoreRequest → ChunkStore
  | [] => store
  | request :: rest => serveAll (request.serve store).2 rest

/-- How often a request that is granted names a chunk again that it has named before. -/
def repeats (store : ChunkStore) : StoreRequest → Nat
  | .allocate => 0
  | .free chunks => match store.free chunks with
    | .ok _ => chunks.length - chunks.dedup.length
    | .error _ => 0

/-- How often this happens in a run. -/
def allRepeats (store : ChunkStore) : List StoreRequest → Nat
  | [] => 0
  | request :: rest => request.repeats store + allRepeats (request.serve store).2 rest

variable {store : ChunkStore}

theorem serve_free_ok {chunks : List ChunkId} (hall : ∀ c ∈ chunks, c ∈ store.live) :
    (free chunks).serve store = (.ok none, store.without chunks) := by
  rcases store.free_cases chunks with ⟨-, hfree⟩ | ⟨c, hc, hdead, -⟩
  · simp only [serve, hfree]
  · exact absurd (hall c hc) hdead

/-- A request that is refused changes nothing. -/
theorem serve_free_refused {chunks : List ChunkId} (hdead : ∃ c ∈ chunks, c ∉ store.live) :
    ∃ c ∈ chunks, c ∉ store.live ∧
      (free chunks).serve store = (.error (.chunkNotFound c), store) := by
  rcases store.free_cases chunks with ⟨hall, -⟩ | ⟨c, hc, hmissing, hfree⟩
  · obtain ⟨c, hc, hmissing⟩ := hdead
    exact absurd (hall c hc) hmissing
  · refine ⟨c, hc, hmissing, ?_⟩
    simp only [serve, hfree]

/-- A store whose counts account for its live chunks, up to repeated mentions. -/
structure Balanced (store : ChunkStore) (surplus : Nat) : Prop where
  sound : store.Sound
  balance : store.allocations + surplus = store.frees + store.size

/-- One request. -/
theorem serve_balance {surplus : Nat} (h : Balanced store surplus) (request : StoreRequest) :
    Balanced (request.serve store).2 (surplus + request.repeats store) := by
  have hbalance := h.balance
  cases request with
  | allocate =>
    -- one more has been allocated, and one more is live
    refine ⟨(Writes.allocate h.sound []).sound h.sound, ?_⟩
    have hsize : store.allocate.2.size = store.size + 1 := by
      simp [size, ChunkStore.allocate]
    show store.allocations + 1 + (surplus + 0) = store.frees + store.allocate.2.size
    omega
  | free chunks =>
    rcases store.free_cases chunks with ⟨hall, hfree⟩ | ⟨c, -, -, hfree⟩
    · simp only [serve, repeats, hfree]
      refine ⟨h.sound.without chunks, ?_⟩
      -- the count of frees grows by the whole list, but only the distinct chunks in it are gone
      have hgone := size_without h.sound hall
      have hle := chunks.dedup_sublist.length_le
      show store.allocations + (surplus + (chunks.length - chunks.dedup.length)) =
        store.frees + chunks.length + (store.without chunks).size
      omega
    · simp only [serve, repeats, hfree]
      exact h

/-- Requests one after another, by induction on the run. -/
theorem serveAll_balance {surplus : Nat} (h : Balanced store surplus)
    (requests : List StoreRequest) :
    Balanced (serveAll store requests) (surplus + allRepeats store requests) := by
  induction requests generalizing store surplus with
  | nil => exact h
  | cons request rest ih =>
    have hboth := ih (serve_balance h request)
    rw [Nat.add_assoc] at hboth
    exact hboth

/-- Where no list names a chunk twice, nothing is counted twice. -/
theorem allRepeats_eq_zero {requests : List StoreRequest}
    (h : ∀ chunks, free chunks ∈ requests → chunks.Nodup) : allRepeats store requests = 0 := by
  induction requests generalizing store with
  | nil => rfl
  -- the requests that follow are served by another store, so the induction is for all stores
  | cons request rest ih =>
    have hrest : allRepeats (request.serve store).2 rest = 0 :=
      ih fun chunks hchunks => h chunks (List.mem_cons_of_mem _ hchunks)
    -- a free without repeats removes as many chunks as it names
    have hfirst : request.repeats store = 0 := by
      cases request with
      | allocate => rfl
      | free chunks =>
        have hnodup := h chunks List.mem_cons_self
        simp only [repeats, hnodup.dedup, Nat.sub_self]
        split <;> rfl
    unfold allRepeats
    omega

/-! ## Runs from an empty store -/

/-- After any requests, chunks are freed exactly if all of them are live, and then just these are gone;
else the store stays as it is. What was allocated is live or has been freed: the counts say so up to
repeated mentions, and say just so if no list names a chunk twice. -/
theorem requests_balance (requests : List StoreRequest) :
    let store := serveAll .empty requests
    (∀ chunks,
      ((∀ c ∈ chunks, c ∈ store.live) → ∃ store', (free chunks).serve store = (.ok none, store') ∧
        ∀ c, c ∈ store'.live ↔ c ∈ store.live ∧ c ∉ chunks) ∧
      ((∃ c ∈ chunks, c ∉ store.live) → ∃ c ∈ chunks, c ∉ store.live ∧
        (free chunks).serve store = (.error (.chunkNotFound c), store))) ∧
    store.allocations + allRepeats .empty requests = store.frees + store.live.length ∧
    ((∀ chunks, free chunks ∈ requests → chunks.Nodup) →
      store.allocations = store.frees + store.live.length) := by
  have hempty : Balanced .empty 0 := ⟨sound_empty, rfl⟩
  have hrun := (serveAll_balance hempty requests).balance
  rw [Nat.zero_add, ← length_live] at hrun
  -- a free is judged on its own, the balance comes from the run
  refine ⟨fun chunks => ⟨fun hall => ?_, serve_free_refused⟩, hrun, fun hnodup => ?_⟩
  · exact ⟨_, serve_free_ok hall, fun c => mem_live_without⟩
  · rw [allRepeats_eq_zero hnodup] at hrun
    exact hrun

/-- A chunk that is named twice in one list is freed, and counted twice. -/
theorem balance_not_of_repeated :
    let store := serveAll .empty [.allocate, .free [⟨1⟩, ⟨1⟩]]
    ((StoreRequest.free [⟨1⟩, ⟨1⟩]).serve (serveAll .empty [.allocate])).1.isOk = true ∧
      store.allocations = 1 ∧ store.frees = 2 ∧ store.live = [] := by
  decide

end StoreRequest

end RecordLayout
