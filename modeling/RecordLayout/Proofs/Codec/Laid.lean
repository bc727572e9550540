import Mathlib
import RecordLayout.Proofs.Codec.Put

/-!
# What a write leaves behind

A write that succeeds has put bytes into its stream and filled chunks: those that it owned and new
ones. `Laid` keeps the account of them, and adds up over writes one after another as long as these
own different chunks.

Main results:

* `Laid.trans` — two writes in a row;
* `Laid.content?` — what was stored before stays, if it belongs to neither;
* `storeBehind_stored` — a value that is put into a chunk.
-/

namespace RecordLayout

open ChunkStore

/-- The chunks are distinct, and the store has handed them out. -/
structure Owns (w : Workspace) (owned : List ChunkId) : Prop where
  nodup : owned.Nodup
  known : ∀ c ∈ owned, c.id < w.store.next

/-- From workspace `w` and stream `t` to `w'` and `t'`, the bytes `b` have been written. The chunks
`owned` went in, `kept` came out, and `F` hold what was written. -/
structure Laid (w : Workspace) (t : ByteStream) (w' : Workspace) (t' : ByteStream)
    (owned kept : List ChunkId) (b : Bytes) (F : List ChunkId) : Prop where
  le : w.Le w'
  sound : w'.Sound
  puts : t.Puts b t'
  writes : Writes owned w.store w'.store
  nodup : F.Nodup
  sub : F ⊆ kept
  fresh : handedOut w.store w'.store ⊆ F
  kept_sub : kept ⊆ owned ++ handedOut w.store w'.store
  kept_nodup : kept.Nodup

/-- Keeping a rollback scope changes only what is to be freed on failure. -/
theorem Workspace.keepScope_eq (w : Workspace) : ∃ journal, w.keepScope = { w with journal } := by
  rw [Workspace.keepScope]
  split
  · exact ⟨_, rfl⟩
  · exact ⟨_, rfl⟩

theorem Workspace.note_eq (w : Workspace) (chunk : ChunkId) :
    ∃ journal, w.note chunk = { w with journal } := by
  rw [Workspace.note]
  split
  · exact ⟨_, rfl⟩
  · exact ⟨w.journal, rfl⟩

/-- A scope has been kept and its chunk noted. -/
theorem Workspace.keepScope_note_eq (w : Workspace) (chunk : ChunkId) :
    ∃ journal, w.keepScope.note chunk = { w with journal } := by
  obtain ⟨journal, hkeep⟩ := w.keepScope_eq
  rw [hkeep]
  exact Workspace.note_eq _ _

theorem Owns.mono {w w' : Workspace} {owned : List ChunkId} (h : Owns w owned)
    (hnext : w.store.next ≤ w'.store.next) : Owns w' owned :=
  ⟨h.nodup, fun c hc => Nat.lt_of_lt_of_le (h.known c hc) hnext⟩

theorem Owns.sublist {w : Workspace} {owned owned' : List ChunkId} (h : Owns w owned)
    (hsub : owned'.Sublist owned) : Owns w owned' :=
  ⟨h.nodup.sublist hsub, fun c hc => h.known c (hsub.subset hc)⟩

namespace Laid

variable {w w₁ w' : Workspace} {t t₁ t' : ByteStream} {owned kept owned' kept' : List ChunkId}
  {b c : Bytes} {F G : List ChunkId}

/-- A write that stores nothing in chunks. -/
theorem plain (hlearns : w.Learns w') (hs : w'.Sound) (hputs : t.Puts b t')
    (hnodup : owned.Nodup) : Laid w t w' t' owned owned b [] := by
  have hstore := hlearns.store
  refine ⟨hlearns.toLe, hs, hputs, ?_, List.nodup_nil, List.nil_subset _, ?_,
    List.subset_append_left _ _, hnodup⟩
  · rw [hstore]
    exact .refl _ _
  · rw [hstore, handedOut]
    simp

theorem lt_next (h : Laid w t w' t' owned kept b F) (hown : Owns w owned) {x : ChunkId}
    (hx : x ∈ kept) : x.id < w'.store.next := by
  have hle := h.writes.next_le
  rcases List.mem_append.mp (h.kept_sub hx) with hold | hnew
  · have hlt := hown.known x hold
    omega
  · exact (mem_handedOut.mp hnew).2

/-- Chunks that were there and do not belong to the write hold what they held. -/
theorem content? (h : Laid w t w' t' owned kept b F) {x : ChunkId} (hx : x ∉ owned)
    (hlt : x.id < w.store.next) : w'.store.content? x = w.store.content? x :=
  h.writes.frame x hx hlt

/-- What came out of a write and what another one owns are different, if what went in is. -/
theorem disjoint (h : Laid w t w' t' owned kept b F) (hown : Owns w owned')
    (hdisj : List.Disjoint owned owned') : List.Disjoint kept owned' := by
  intro x hx hx'
  rcases List.mem_append.mp (h.kept_sub hx) with hold | hnew
  · exact hdisj hold hx'
  · have hlt := hown.known x hx'
    have hge := (mem_handedOut.mp hnew).1
    omega

/-- Two writes in a row. -/
theorem trans (h : Laid w t w₁ t₁ owned kept b F) (h' : Laid w₁ t₁ w' t' owned' kept' c G)
    (hown : Owns w owned) (hown' : Owns w owned') (hdisj : List.Disjoint owned owned') :
    Laid w t w' t' (owned ++ owned') (kept ++ kept') (b ++ c) (F ++ G) := by
  have hle := h.writes.next_le
  have hle' := h'.writes.next_le
  -- what came out of the first write is kept apart from what comes out of the second one
  have hapart : List.Disjoint kept kept' := by
    intro x hx hx'
    have hlt := h.lt_next hown hx
    rcases List.mem_append.mp (h'.kept_sub hx') with hold | hnew
    · exact h.disjoint hown' hdisj hx hold
    · have hge := (mem_handedOut.mp hnew).1
      omega
  have hfirst : handedOut w.store w₁.store ⊆ handedOut w.store w'.store := by
    intro x hx
    have hbounds := mem_handedOut.mp hx
    exact mem_handedOut.mpr ⟨hbounds.1, by omega⟩
  have hsecond : handedOut w₁.store w'.store ⊆ handedOut w.store w'.store := by
    intro x hx
    have hbounds := mem_handedOut.mp hx
    exact mem_handedOut.mpr ⟨by omega, hbounds.2⟩
  refine ⟨h.le.trans h'.le, h'.sound, h.puts.trans h'.puts, h.writes.trans h'.writes, ?_, ?_, ?_,
    ?_, ?_⟩
  · rw [List.nodup_append']
    exact ⟨h.nodup, h'.nodup, fun x hx hx' => hapart (h.sub hx) (h'.sub hx')⟩
  · exact List.append_subset.mpr ⟨List.subset_append_of_subset_left _ h.sub,
      List.subset_append_of_subset_right _ h'.sub⟩
  · intro x hx
    have hbounds := mem_handedOut.mp hx
    rw [List.mem_append]
    by_cases hlt : x.id < w₁.store.next
    · exact Or.inl (h.fresh (mem_handedOut.mpr ⟨hbounds.1, hlt⟩))
    · exact Or.inr (h'.fresh (mem_handedOut.mpr ⟨by omega, hbounds.2⟩))
  · intro x hx
    simp only [List.mem_append]
    rcases List.mem_append.mp hx with hold | hnew
    · rcases List.mem_append.mp (h.kept_sub hold) with hmem | hmem
      · exact Or.inl (Or.inl hmem)
      · exact Or.inr (hfirst hmem)
    · rcases List.mem_append.mp (h'.kept_sub hnew) with hmem | hmem
      · exact Or.inl (Or.inr hmem)
      · exact Or.inr (hsecond hmem)
  · rw [List.nodup_append']
    exact ⟨h.kept_nodup, h'.kept_nodup, hapart⟩

/-- The account of a write does not depend on how its chunks are listed. -/
theorem relist (h : Laid w t w' t' owned kept b F) (hsub : owned ⊆ owned')
    (hperm : kept.Perm kept') : Laid w t w' t' owned' kept' b F := by
  refine ⟨h.le, h.sound, h.puts, h.writes.mono hsub, h.nodup, fun x hx => hperm.subset (h.sub hx),
    h.fresh, ?_, hperm.nodup_iff.mp h.kept_nodup⟩
  intro x hx
  rcases List.mem_append.mp (h.kept_sub (hperm.symm.subset hx)) with hmem | hmem
  · exact List.mem_append_left _ (hsub hmem)
  · exact List.mem_append_right _ hmem

/-- What is learnt before a write changes nothing about it. -/
theorem after_learning (hlearns : w.Learns w₁) (h : Laid w₁ t w' t' owned kept b F) :
    Laid w t w' t' owned kept b F := by
  have hstore := hlearns.store
  refine ⟨hlearns.toLe.trans h.le, h.sound, h.puts, ?_, h.nodup, h.sub, ?_, ?_, h.kept_nodup⟩
  · rw [← hstore]
    exact h.writes
  · rw [← hstore]
    exact h.fresh
  · rw [← hstore]
    exact h.kept_sub

/-- Bytes before a write. -/
theorem after_bytes (hputs : t.Puts b t₁) (h : Laid w t₁ w' t' owned kept c F) :
    Laid w t w' t' owned kept (b ++ c) F :=
  ⟨h.le, h.sound, hputs.trans h.puts, h.writes, h.nodup, h.sub, h.fresh, h.kept_sub, h.kept_nodup⟩

/-- Bytes after a write. -/
theorem before_bytes (h : Laid w t w' t₁ owned kept b F) (hputs : t₁.Puts c t') :
    Laid w t w' t' owned kept (b ++ c) F :=
  ⟨h.le, h.sound, h.puts.trans hputs, h.writes, h.nodup, h.sub, h.fresh, h.kept_sub, h.kept_nodup⟩

/-- Which chunks are to be freed if the work around a write fails does not matter to it. -/
theorem rejournal {journal journal' : List (List ChunkId)}
    (h : Laid { w with journal } t w' t' owned kept b F) :
    Laid w t { w' with journal := journal' } t' owned kept b F :=
  ⟨⟨h.le.compiler, h.le.types, h.le.config⟩, ⟨h.sound.compiler, h.sound.store⟩, h.puts,
    h.writes, h.nodup, h.sub, h.fresh, h.kept_sub, h.kept_nodup⟩

/-- A write in a rollback scope that is kept. -/
theorem of_scope (h : Laid w.openScope t w' t' owned kept b F) :
    Laid w t w'.keepScope t' owned kept b F := by
  obtain ⟨journal, hkeep⟩ := w'.keepScope_eq
  rw [hkeep]
  exact h.rejournal

/-- A write beside chunks that it leaves alone. -/
theorem beside (h : Laid w t w' t' owned kept b F) (hs : w.Sound) (ht : t.Writable)
    (hown : Owns w (owned' ++ owned)) :
    Laid w t w' t' (owned' ++ owned) (owned' ++ kept) b F := by
  obtain ⟨hleft, hright, hdisj⟩ := List.nodup_append'.mp hown.nodup
  have hnone : Laid w t w t owned' owned' [] [] := plain (.refl w) hs (.refl ht) hleft
  exact hnone.trans h (hown.sublist (List.sublist_append_left _ _))
    (hown.sublist (List.sublist_append_right _ _)) hdisj

/-- A write that began with a new chunk. -/
theorem of_allocated (h : Laid w₁ t w' t' (⟨w.store.next⟩ :: owned) kept b F) (hs : w.Sound)
    (hle : w.Le w₁) (hstore : w₁.store = w.store.allocate.2) (hkept : ⟨w.store.next⟩ ∈ F) :
    Laid w t w' t' owned kept b F := by
  have hnext : w₁.store.next = w.store.next + 1 := by
    rw [hstore]
    rfl
  have hgrows := h.writes.next_le
  -- the chunk is the first of those that are handed out
  have hout (x : ChunkId) : x ∈ handedOut w.store w'.store ↔
      x = ⟨w.store.next⟩ ∨ x ∈ handedOut w₁.store w'.store := by
    obtain ⟨id⟩ := x
    simp only [mem_handedOut, ChunkId.mk.injEq]
    omega
  refine ⟨hle.trans h.le, h.sound, h.puts, ⟨by omega, ?_, fun x hx hlt => ?_⟩, h.nodup, h.sub,
    fun x hx => ?_, fun x hx => ?_, h.kept_nodup⟩
  · have hlive : w₁.store.live = w.store.live ++ [⟨w.store.next⟩] := by
      rw [hstore]
      simp [ChunkStore.allocate, ChunkStore.live]
    have hsplit : handedOut w.store w'.store = ⟨w.store.next⟩ :: handedOut w₁.store w'.store := by
      rw [handedOut, handedOut, hnext,
        show w'.store.next - w.store.next = (w'.store.next - (w.store.next + 1)) + 1 by omega]
      rfl
    rw [h.writes.live, hlive, hsplit, List.append_assoc]
    rfl
  · have hne : x ≠ ⟨w.store.next⟩ := by
      rintro rfl
      exact Nat.lt_irrefl _ hlt
    rw [h.writes.frame x (by simp [hne, hx]) (by omega), hstore, content?_allocate hs.store,
      if_neg hne]
  · rcases (hout x).mp hx with rfl | hnew
    · exact hkept
    · exact h.fresh hnew
  · rcases List.mem_append.mp (h.kept_sub hx) with hold | hnew
    · rcases List.mem_cons.mp hold with rfl | hmem
      · exact List.mem_append_right _ ((hout _).mpr (Or.inl rfl))
      · exact List.mem_append_left _ hmem
    · exact List.mem_append_right _ ((hout x).mpr (Or.inr hnew))

end Laid

/-! ## Writing into a chunk -/

section

variable {τ : Type} {s s' : Scene τ} {u : Unit}

/-- What was written into a chunk is put back into the store. -/
theorem laid_close {w w₁ : Workspace} {t t₁ t₂ : ByteStream} {owned kept : List ChunkId} {b : Bytes}
    {F : List ChunkId} {chunk : ChunkId} {content : Bytes}
    (h : Laid w t w₁ t₁ owned kept b F) (hs : w.Sound)
    (hcontent : w.store.content? chunk = some content) (hown : Owns w (chunk :: owned))
    (ht₂ : t₂.Writable) :
    Laid w t₂ (w₁.setStore (w₁.store.setContent chunk b)) t₂ (chunk :: owned) (chunk :: kept) []
      (chunk :: F) ∧
      (w₁.setStore (w₁.store.setContent chunk b)).store.content? chunk = some b ∧
      ∀ x ∈ F, (w₁.setStore (w₁.store.setContent chunk b)).store.content? x =
        w₁.store.content? x := by
  -- what is kept was owned before or is new, and the chunk is neither
  have hout : chunk ∉ kept := by
    intro hmem
    have hfresh := h.kept_sub hmem
    rcases List.mem_append.mp hfresh with hold | hnew
    · exact (List.nodup_cons.mp hown.nodup).1 hold
    · have hlt := hown.known chunk List.mem_cons_self
      have hge := (mem_handedOut.mp hnew).1
      omega
  have hwrites : Writes (chunk :: owned) w.store (w₁.store.setContent chunk b) :=
    (h.writes.mono (List.subset_cons_self _ _)).setContent (Or.inl List.mem_cons_self) b
  have hle : w.Le (w₁.setStore (w₁.store.setContent chunk b)) :=
    ⟨h.le.compiler, h.le.types, h.le.config⟩
  refine ⟨⟨hle, ⟨h.sound.compiler, ?_⟩, .refl ht₂, hwrites, ?_, ?_, ?_, ?_, ?_⟩, ?_, ?_⟩
  · exact (Writes.setContent (.refl [chunk] _) (Or.inl List.mem_cons_self) b).sound h.sound.store
  · exact List.nodup_cons.mpr ⟨fun hmem => hout (h.sub hmem), h.nodup⟩
  · exact List.cons_subset_cons _ h.sub
  · exact fun x hx => List.mem_cons_of_mem _ (h.fresh hx)
  · intro x hx
    rcases List.mem_cons.mp hx with rfl | hmem
    · exact List.mem_append_left _ List.mem_cons_self
    · rcases List.mem_append.mp (h.kept_sub hmem) with hold | hnew
      · exact List.mem_append_left _ (List.mem_cons_of_mem _ hold)
      · exact List.mem_append_right _ hnew
  · exact List.nodup_cons.mpr ⟨hout, h.kept_nodup⟩
  · -- the chunk was left alone meanwhile
    have hsame : w₁.store.content? chunk = some content := by
      rw [h.content? (List.nodup_cons.mp hown.nodup).1 (hs.store.lt_next hcontent).2, hcontent]
    show (w₁.store.setContent chunk b).content? chunk = some b
    rw [content?_setContent, if_pos rfl, hsame]
    rfl
  · intro x hx
    have hne : x ≠ chunk := by
      rintro rfl
      exact hout (h.sub hx)
    show (w₁.store.setContent chunk b).content? x = _
    rw [content?_setContent, if_neg hne]

/-- What goes on holding of a value as long as its chunks are left as they are. -/
def Lasting (holds : Workspace → Value → Bytes → List ChunkId → Prop) : Prop :=
  ∀ w w' v b F, w.Sound → w.Le w' → (∀ c ∈ F, w'.store.content? c = w.store.content? c) →
    holds w v b F → holds w' v b F

/-- What a write of the value of a slot does, where it succeeds. -/
def FillsWell (holds : Workspace → Value → Bytes → List ChunkId → Prop) (body : Op Slot Unit)
    (w : Workspace) (slot : Slot) : Prop :=
  ∀ (s s' : Scene Slot) u, body s = .ok u s' → w.Le s.space → s.subject = slot → s.space.Sound →
    s.stream.Writable → Owns s.space slot.value.companions →
    ∃ b F, Laid s.space s.stream s'.space s'.stream slot.value.companions
        s'.subject.value.companions b F ∧
      holds s'.space s'.subject.value b F ∧ s'.subject.chunk = slot.chunk

/-- A slot whose value has been put into a chunk. -/
structure StoredIn (holds : Workspace → Value → Bytes → List ChunkId → Prop) (s : Scene Slot)
    (chunk : ChunkId) (s' : Scene Slot) (F : List ChunkId) : Prop where
  laid : Laid s.space s.stream s'.space s.stream s.subject.companions s'.subject.companions []
    (chunk :: F)
  stream : s'.stream = s.stream
  backed : s'.subject.chunk = chunk
  held : ∃ b, s'.space.store.content? chunk = some b ∧ holds s'.space s'.subject.value b F

theorem ownChunk_of_content {w : Workspace} (hs : w.Sound) {chunk : ChunkId} {content : Bytes}
    (h : w.store.content? chunk = some content) : ownChunk chunk = [chunk] := by
  rw [ownChunk, if_neg]
  rw [ChunkId.isNull_iff]
  rintro rfl
  exact absurd (hs.store.lt_next h).1 (Nat.lt_irrefl 0)

theorem resized_spliced (bytes b : Bytes) : resized (spliced bytes 0 b) b.length = b := by
  apply eq_of_byteAt (length_resized _ _)
  intro i hi
  rw [length_resized] at hi
  rw [byteAt_resized, if_pos hi, byteAt_spliced]
  simp [hi]

/-- What a new chunk holds after bytes have been written. -/
theorem ByteStream.Puts.content_new {t : ByteStream} {b : Bytes} (h : (ofBytes []).Puts b t) :
    t.content = b := by
  rw [content_shown h.coherent, h.shown]
  exact spliced_length [] b

/-- What a chunk holds that is cut to the bytes that have been written from its start. -/
theorem ByteStream.Puts.content_cut {t : ByteStream} {content b : Bytes}
    (h : (ofBytes content).Puts b t) : (t.setSize t.position).content = b := by
  rw [content_shown (coherent_setSize h.coherent _), shown_setSize, h.position, h.shown]
  show resized (spliced content 0 b) (0 + b.length) = b
  rw [Nat.zero_add, resized_spliced]

/-- A value that replaces what is in the chunk behind its slot. -/
theorem refill_stored {holds : Workspace → Value → Bytes → List ChunkId → Prop}
    (hlast : Lasting holds) {body : Op Slot Unit} {s s' : Scene Slot} {u : Unit}
    (h : withChunk s.subject.chunk (inTransaction do
      body
      Op.cutHere) s = .ok u s')
    (hbody : FillsWell holds body s.space s.subject) (hs : s.space.Sound)
    (hw : s.stream.Writable) (hown : Owns s.space s.subject.companions) :
    ∃ F, StoredIn holds s s.subject.chunk s' F := by
  obtain ⟨content, t, hcontent, hrun, rfl⟩ := withChunk_ok.mp h
  obtain ⟨t₁, after, hact, hcommit, rfl⟩ := inTransaction_ok.mp hrun
  obtain ⟨_, t₂, hfill, hcut⟩ := bind_ok.mp hact
  have hone := ownChunk_of_content hs hcontent
  rw [Slot.companions, hone, List.singleton_append] at hown
  have hbegun : (ByteStream.ofBytes content).begin.Writable :=
    ⟨ByteStream.coherent_begin trivial, Nat.zero_le _⟩
  obtain ⟨b, F, hlaid, hholds, hchunk⟩ := hbody _ _ _ hfill (.refl _) rfl hs hbegun
    (hown.sublist (List.sublist_cons_self _ _))
  rw [Op.cutHere_ok] at hcut
  subst hcut
  -- the chunk is cut to what was written into it
  have hafter : after.content = b := by
    have hputs := hlaid.puts
    obtain ⟨hshown, -, hcoherent⟩ := ByteStream.commit_shown
      (ByteStream.coherent_setSize hputs.coherent _) hcommit
    rw [ByteStream.content_shown hcoherent, hshown, ByteStream.shown_setSize, hputs.position,
      hputs.shown]
    show resized (spliced content 0 b) (0 + b.length) = b
    rw [Nat.zero_add, resized_spliced]
  obtain ⟨hclosed, hheld, hframe⟩ := laid_close hlaid hs hcontent hown hw
  refine ⟨F, ?_, rfl, hchunk, b, ?_, ?_⟩
  · show Laid _ _ (t₂.space.setStore (t₂.space.store.setContent _ after.content)) _ _ _ _ _
    rw [Slot.companions, Slot.companions, hchunk, hone, hafter]
    exact hclosed
  · show (t₂.space.setStore (t₂.space.store.setContent _ after.content)).store.content? _ = _
    rw [hafter]
    exact hheld
  · show holds (t₂.space.setStore (t₂.space.store.setContent _ after.content)) _ _ _
    rw [hafter]
    exact hlast _ _ _ _ _ hlaid.sound ⟨.refl _, .refl _, rfl⟩ hframe hholds

/-- A new chunk, in a rollback scope in which it is to be filled. -/
theorem Workspace.Sound.allocated {w : Workspace} (hs : w.Sound) {heap : Allocator}
    (hstore : heap.store = w.store.allocate.2) {owned : List ChunkId} (hown : Owns w owned) :
    Workspace.Sound { w with heap }.openScope ∧
      { w with heap }.openScope.store.content? ⟨w.store.next⟩ = some [] ∧
      Owns { w with heap }.openScope (⟨w.store.next⟩ :: owned) := by
  have hsame : { w with heap }.openScope.store = w.store.allocate.2 := hstore
  have hnext : { w with heap }.openScope.store.next = w.store.next + 1 := by
    rw [hsame]
    rfl
  -- the new chunk is live and empty, and no companion has its identifier
  refine ⟨⟨hs.compiler, ?_⟩, ?_,
    ⟨List.nodup_cons.mpr ⟨fun hmem => ?_, hown.nodup⟩, fun x hx => ?_⟩⟩
  · rw [hsame]
    exact (Writes.allocate hs.store []).sound hs.store
  · rw [hsame, content?_allocate hs.store, if_pos rfl]
  · exact Nat.lt_irrefl _ (hown.known _ hmem)
  · rw [hnext]
    rcases List.mem_cons.mp hx with rfl | hmem
    · exact Nat.lt_succ_self _
    · exact Nat.lt_succ_of_lt (hown.known x hmem)

/-- A value that is put into a new chunk. -/
theorem allocateWith_stored {holds : Workspace → Value → Bytes → List ChunkId → Prop}
    (hlast : Lasting holds) {hint : Nat} {body : Op Slot Unit} {s s' : Scene Slot} {chunk : ChunkId}
    (h : allocateWith hint body s = .ok chunk s')
    (hbody : FillsWell holds body s.space s.subject) (hs : s.space.Sound)
    (hw : s.stream.Writable) (hown : Owns s.space s.subject.companions) :
    ∃ F, StoredIn holds s chunk { s' with subject := { s'.subject with chunk } } F := by
  obtain ⟨heap, t, hstore, rfl, hscope, rfl⟩ := allocateWith_ok h
  obtain ⟨t₁, hfill, rfl⟩ := rollback_ok.mp hscope
  obtain ⟨content, t₂, hcontent, hrun, rfl⟩ := withChunk_ok.mp hfill
  -- the workspace in which the new chunk is filled
  let w₁ : Workspace := { s.space with heap }.openScope
  have hw₁ : w₁.store = s.space.store.allocate.2 := hstore
  have hle : s.space.Le w₁ := ⟨.refl _, .refl _, rfl⟩
  obtain ⟨hs₁, hnew, hboth⟩ := hs.allocated hstore (hown.sublist (List.sublist_append_right _ _))
  obtain rfl : content = [] := Option.some.inj (hcontent.symm.trans hnew)
  obtain ⟨b, F, hlaid, hholds, -⟩ := hbody _ _ _ hrun hle rfl hs₁ ⟨trivial, Nat.le_refl _⟩
    (hboth.sublist (List.sublist_cons_self _ _))
  have hafter : t₂.stream.content = b := hlaid.puts.content_new
  obtain ⟨hclosed, hheld, hframe⟩ := laid_close hlaid hs₁ hnew hboth hw
  -- from the filled chunk back to the workspace of the start
  have hend : ∃ journal, ((t₂.space.setStore (t₂.space.store.close ⟨s.space.store.next⟩
      t₂.stream)).keepScope).note ⟨s.space.store.next⟩ =
        { t₂.space.setStore (t₂.space.store.setContent ⟨s.space.store.next⟩ b) with journal } := by
    rw [ChunkStore.close, hafter]
    exact Workspace.keepScope_note_eq _ _
  obtain ⟨journal, hend⟩ := hend
  have hone : ownChunk ⟨s.space.store.next⟩ = [⟨s.space.store.next⟩] := by
    rw [ownChunk, if_neg]
    rw [ChunkId.isNull_iff]
    intro hnull
    exact absurd (congrArg ChunkId.id hnull) (Nat.pos_iff_ne_zero.mp hs.store.next_pos)
  refine ⟨F, ?_, rfl, rfl, b, ?_, ?_⟩
  · show Laid _ _ (((t₂.space.setStore (t₂.space.store.close _ t₂.stream)).keepScope).note _)
      _ _ (Slot.companions ⟨t₂.subject.value, ⟨s.space.store.next⟩⟩) _ _
    have hkept : Slot.companions ⟨t₂.subject.value, ⟨s.space.store.next⟩⟩ =
        ⟨s.space.store.next⟩ :: t₂.subject.value.companions := by
      rw [Slot.companions, hone]
      rfl
    rw [hend, hkept]
    exact ((hclosed.of_allocated hs hle hw₁ List.mem_cons_self).rejournal).relist
      (List.subset_append_right _ _) (List.Perm.refl _)
  · show (((t₂.space.setStore (t₂.space.store.close _ t₂.stream)).keepScope).note _).store.content?
      _ = _
    rw [hend]
    exact hheld
  · show holds (((t₂.space.setStore (t₂.space.store.close _ t₂.stream)).keepScope).note _) _ _ _
    rw [hend]
    exact hlast _ _ _ _ _ hlaid.sound ⟨.refl _, .refl _, rfl⟩ hframe hholds

/-- A value that is put into a chunk. -/
theorem storeBehind_stored {holds : Workspace → Value → Bytes → List ChunkId → Prop}
    (hlast : Lasting holds) {hint : Nat} {body : Op Slot Unit} {s s' : Scene Slot} {chunk : ChunkId}
    (h : storeBehind hint body s = .ok chunk s')
    (hbody : FillsWell holds body s.space s.subject) (hs : s.space.Sound)
    (hw : s.stream.Writable) (hown : Owns s.space s.subject.companions) :
    ∃ F, StoredIn holds s chunk s' F := by
  rw [storeBehind] at h
  simp only [bind_ok, Op.subject_ok] at h
  obtain ⟨slot, s, ⟨rfl, rfl⟩, live, s₁, hlive, h⟩ := h
  obtain ⟨w, hask, rfl⟩ := Op.space_ok.mp hlive
  cases hask
  -- the slot's own chunk is filled again, or a new one is allocated
  rcases ite_ok.mp h with ⟨-, h⟩ | ⟨-, h⟩
  · obtain ⟨_, s₁, hchunk, hpure⟩ := bind_ok.mp h
    obtain ⟨rfl, rfl⟩ := pure_ok.mp hpure
    exact refill_stored hlast hchunk hbody hs hw hown
  · obtain ⟨found, s₁, hchunk, hrest⟩ := bind_ok.mp h
    obtain ⟨_, s₂, hset, hpure⟩ := bind_ok.mp hrest
    obtain ⟨rfl, rfl⟩ := pure_ok.mp hpure
    rw [Op.modifySubject_ok] at hset
    subst hset
    exact allocateWith_stored hlast hchunk hbody hs hw hown

end

end RecordLayout
