import Mathlib
import RecordLayout.Codec.Handle
import RecordLayout.Proofs.Codec.Behind
import RecordLayout.Proofs.Codec.Kept
import RecordLayout.Proofs.Size.Measured

/-!
# Chunks that are asked for

A chunk is asked for before it is filled, with the size of the value as it is at that time and some
slack. The value may change while the chunk is filled: derived fields of records behind references
are worked out only when those are written. Where they were right already, every request is for as
many bytes as the chunk holds in the end, and the slack.

Main results:

* `Workspace.Requested`, `Workspace.Provides` — requests and what the new chunks hold;
* `storeBehind_provides` — values behind references, in the chunk of the slot or in a new one;
* `writeWithin_provides` — writes of values, by induction on the depth;
* `requests_exact` — writes of records, and records that get chunks of their own.
-/

namespace RecordLayout

/-! ## Requests -/

namespace Workspace

/-- The chunks that have been handed out since hold some contents now, in order. For each of them
there has been one request: for as many bytes as it holds, and the slack. -/
structure Requested (w w' : Workspace) (contents : List Bytes) : Prop where
  next : w'.store.next = w.store.next + contents.length
  holds : ∀ i b, contents[i]? = some b → w'.store.content? ⟨w.store.next + i⟩ = some b
  hints : w'.heap.hints = w.heap.hints ++ contents.map fun b => b.length + w.config.slack

/-- New chunks have been requested as they are filled, and chunks from some id on have been left
alone. -/
structure Provides (first : Nat) (w w' : Workspace) : Prop where
  config : w'.config = w.config
  kept : ∀ i, first ≤ i → i < w.store.next → w'.store.content? ⟨i⟩ = w.store.content? ⟨i⟩
  requested : ∃ contents, w.Requested w' contents

variable {first : Nat} {w w' w'' : Workspace}

/-- Providing chunks never reuses an identifier. -/
theorem Provides.next_le (h : w.Provides first w') : w.store.next ≤ w'.store.next := by
  obtain ⟨contents, hrequested⟩ := h.requested
  rw [hrequested.next]
  exact Nat.le_add_right _ _

/-- What leaves the store alone provides nothing. -/
theorem Provides.of_same (hheap : w'.heap = w.heap) (hconfig : w'.config = w.config) :
    w.Provides first w' := by
  have hstore : w'.store = w.store := congrArg Allocator.store hheap
  refine ⟨hconfig, fun i _ _ => by rw [hstore], [], ?_, fun i b hb => ?_, ?_⟩
  · rw [hstore]
    rfl
  · cases hb
  · rw [hheap]
    exact (List.append_nil _).symm

theorem Provides.refl (w : Workspace) : w.Provides first w := .of_same rfl rfl

theorem Learns.provides (h : w.Learns w') : w.Provides first w' := .of_same h.heap h.config

/-- What has been filled is left alone from then on. -/
theorem Provides.trans (h : w.Provides first w') (h' : w'.Provides first w'')
    (hfirst : first ≤ w.store.next) : w.Provides first w'' := by
  obtain ⟨hconfig, hkept, contents, hnext, hholds, hhints⟩ := h
  obtain ⟨hconfig', hkept', contents', hnext', hholds', hhints'⟩ := h'
  refine ⟨hconfig'.trans hconfig, fun i hi hlt => ?_, contents ++ contents', ?_, fun i b hb => ?_,
    ?_⟩
  · rw [hkept' i hi (by omega), hkept i hi hlt]
  · rw [hnext', hnext, List.length_append, Nat.add_assoc]
  · by_cases hi : i < contents.length
    · rw [List.getElem?_append_left hi] at hb
      rw [hkept' _ (by omega) (by omega), hholds i b hb]
    · rw [List.getElem?_append_right (by omega)] at hb
      have hmore := hholds' _ b hb
      rwa [hnext, show w.store.next + contents.length + (i - contents.length) = w.store.next + i by
        omega] at hmore
  · rw [hhints', hhints, hconfig, List.map_append, List.append_assoc]

/-- A chunk that was there before may be filled again. -/
theorem Provides.setContent (h : w.Provides first w') {chunk : ChunkId} (hold : chunk.id < first)
    (hfirst : first ≤ w.store.next) (content : Bytes) :
    w.Provides first (w'.setStore (w'.store.setContent chunk content)) := by
  obtain ⟨hconfig, hkept, contents, hnext, hholds, hhints⟩ := h
  have hother (i : Nat) (hi : first ≤ i) :
      (w'.store.setContent chunk content).content? ⟨i⟩ = w'.store.content? ⟨i⟩ := by
    rw [ChunkStore.content?_setContent, if_neg]
    rintro rfl
    exact Nat.lt_irrefl _ (Nat.lt_of_lt_of_le hold hi)
  refine ⟨hconfig, fun i hi hlt => ?_, contents, hnext, fun i b hb => ?_, hhints⟩
  · exact (hother i hi).trans (hkept i hi hlt)
  · exact (hother _ (Nat.le_trans hfirst (Nat.le_add_right _ _))).trans (hholds i b hb)

/-- A chunk that has been filled, where as many bytes as it holds were asked for. -/
theorem Provides.allocated {heap : Allocator} {content : Bytes}
    (hstore : heap.store = w.store.allocate.2)
    (hhint : heap.hints = w.heap.hints ++ [content.length + w.config.slack])
    (h : ({ w with heap } : Workspace).Provides first w') (hs : w.store.Sound)
    (hfirst : first ≤ w.store.next) :
    w.Provides first (w'.setStore (w'.store.setContent ⟨w.store.next⟩ content)) := by
  obtain ⟨hconfig, hkept, contents, hnext, hholds, hhints⟩ := h
  have hstore : ({ w with heap } : Workspace).store = w.store.allocate.2 := hstore
  rw [hstore] at hkept hnext hholds
  have hmore : w.store.allocate.2.next = w.store.next + 1 := rfl
  -- the new chunk is empty until its content is put there
  have hnew : w'.store.content? ⟨w.store.next⟩ = some [] := by
    rw [hkept _ hfirst (by omega), ChunkStore.content?_allocate hs, if_pos rfl]
  have hother (i : Nat) (hi : i ≠ w.store.next) :
      (w'.store.setContent ⟨w.store.next⟩ content).content? ⟨i⟩ = w'.store.content? ⟨i⟩ := by
    rw [ChunkStore.content?_setContent, if_neg]
    exact fun heq => hi (congrArg ChunkId.id heq)
  -- of the chunks that are filled it is the first one; those of the run come behind it
  refine ⟨hconfig, fun i hi hlt => ?_, content :: contents, ?_, fun i b hb => ?_, ?_⟩
  · refine (hother i (by omega)).trans ((hkept i hi (by omega)).trans ?_)
    rw [ChunkStore.content?_allocate hs, if_neg]
    intro heq
    exact absurd (congrArg ChunkId.id heq) (Nat.ne_of_lt hlt)
  · refine hnext.trans ?_
    rw [hmore, List.length_cons]
    omega
  · cases i with
    | zero =>
      cases hb
      refine (ChunkStore.content?_setContent _ _ _).trans ?_
      rw [Nat.add_zero, if_pos rfl, hnew]
      rfl
    | succ i =>
      refine (hother _ (by omega)).trans ?_
      rw [← hholds i b hb, hmore]
      congr 2
      omega
  · refine hhints.trans ?_
    show heap.hints ++ _ = _
    rw [hhint, List.append_assoc]
    rfl

end Workspace

section

variable {τ : Type} {first hint : Nat} {s s' : Scene τ} {chunk : ChunkId}

/-- A new chunk that is filled with as many bytes as were asked for. -/
theorem allocateWith_provides {fill : Op τ Unit} (h : allocateWith hint fill s = .ok chunk s')
    (hs : s.space.Sound) (hfirst : first ≤ s.space.store.next)
    (hfill : ∀ t t', fill t = .ok () t' → s.space.Le t.space → t.space.Sound →
      first ≤ t.space.store.next → t.stream = .empty → t.subject = s.subject →
      t'.subject = s'.subject → t'.space.compiler = s'.space.compiler →
      t.space.Provides first t'.space ∧ t'.stream.content.length = hint) :
    s.space.Provides first s'.space := by
  obtain ⟨heap, t, hstore, hhints, rfl, hscope, rfl⟩ := allocateWith_asked h
  obtain ⟨t₁, hrun, rfl⟩ := rollback_ok.mp hscope
  obtain ⟨content, t₂, hcontent, hact, rfl⟩ := withChunk_ok.mp hrun
  -- the workspace in which the new chunk is filled
  have hs₁ : ({ s.space with heap } : Workspace).openScope.Sound := by
    refine ⟨hs.compiler, ?_⟩
    show heap.store.Sound
    rw [hstore]
    exact (ChunkStore.Writes.allocate hs.store []).sound hs.store
  have hempty : content = [] := by
    have hnew : heap.store.content? ⟨s.space.store.next⟩ = some content := hcontent
    rw [hstore, ChunkStore.content?_allocate hs.store, if_pos rfl] at hnew
    exact (Option.some.inj hnew).symm
  have hnext : first ≤ heap.store.next := by
    rw [hstore]
    exact Nat.le_succ_of_le hfirst
  obtain ⟨journal, hend⟩ := (t₂.space.setStore (t₂.space.store.close ⟨s.space.store.next⟩
    t₂.stream)).keepScope_note_eq ⟨s.space.store.next⟩
  obtain ⟨hprovides, hlength⟩ := hfill _ t₂ hact ⟨.refl _, .refl _, rfl⟩ hs₁ hnext
    (by rw [hempty]; rfl) rfl rfl (by rw [hend]; rfl)
  have hopen : ({ s.space with heap } : Workspace).Provides first
      ({ s.space with heap } : Workspace).openScope := .of_same rfl rfl
  have hinside := hopen.trans hprovides hnext
  have hdone := hinside.allocated hstore (by rw [hhints, hlength]) hs.store hfirst
  rw [hend]
  exact hdone.trans (.of_same rfl rfl) hfirst

end

/-- What a body behind a slot asks for and writes, where the slot is as it is afterwards. -/
def BodyProvides (first hint : Nat) (body : Op Slot Unit) (s s' : Scene Slot) : Prop :=
  ∀ t t', body t = .ok () t' → s.space.Le t.space → t.space.Sound → first ≤ t.space.store.next →
    t.subject = s.subject → t'.subject.value = s'.subject.value →
    t'.space.compiler = s'.space.compiler →
    t.space.Provides first t'.space ∧ (t.stream = .empty → t'.stream.content.length = hint)

/-- A body behind a slot, in the chunk of the slot or in a new one. -/
theorem storeBehind_provides {first hint : Nat} {body : Op Slot Unit} {chunk : ChunkId}
    {s s' : Scene Slot} (h : storeBehind hint body s = .ok chunk s')
    (hbody : BodyProvides first hint body s s') (hs : s.space.Sound)
    (hfirst : first ≤ s.space.store.next) (hown : ∀ x ∈ ownChunk s.subject.chunk, x.id < first) :
    s.space.Provides first s'.space := by
  rw [storeBehind] at h
  simp only [bind_ok, Op.subject_ok] at h
  obtain ⟨slot, s, ⟨rfl, rfl⟩, live, s₁, hlive, h⟩ := h
  obtain ⟨w, hask, rfl⟩ := Op.space_ok.mp hlive
  cases hask
  rcases ite_ok.mp h with ⟨hthere, h⟩ | ⟨-, h⟩
  · -- the chunk of the slot is filled again
    obtain ⟨_, s₁, hchunk, hpure⟩ := bind_ok.mp h
    obtain ⟨rfl, rfl⟩ := pure_ok.mp hpure
    obtain ⟨content, t, -, hrun, rfl⟩ := withChunk_ok.mp hchunk
    obtain ⟨t₁, after, hact, -, rfl⟩ := inTransaction_ok.mp hrun
    obtain ⟨_, t₂, hfill, hcut⟩ := bind_ok.mp hact
    rw [Op.cutHere_ok] at hcut
    subst hcut
    obtain ⟨hprovides, -⟩ := hbody _ _ hfill (.refl _) hs hfirst rfl rfl rfl
    have hnamed : s.subject.chunk ∈ ownChunk s.subject.chunk := by
      refine mem_ownChunk.mpr ⟨rfl, fun hnull => ?_⟩
      rw [hnull] at hthere
      simp at hthere
    exact hprovides.setContent (hown _ hnamed) hfirst _
  · -- there is no chunk yet
    obtain ⟨found, s₁, hchunk, hrest⟩ := bind_ok.mp h
    obtain ⟨_, s₂, hset, hpure⟩ := bind_ok.mp hrest
    obtain ⟨rfl, rfl⟩ := pure_ok.mp hpure
    rw [Op.modifySubject_ok] at hset
    subst hset
    have hprovides : s.space.Provides first s₁.space := by
      refine allocateWith_provides hchunk hs hfirst fun t t' hfill hle ht hnext hempty hsame hafter
        hcompiler => ?_
      obtain ⟨hprovides, hlength⟩ := hbody t t' hfill hle ht hnext hsame (by rw [hafter]) hcompiler
      exact ⟨hprovides, hlength hempty⟩
    exact hprovides

/-! ## Fields that are written -/

/-- A way to write values asks for chunks as it fills them, where what stands behind references is
there already as it is to be written. -/
structure ProvidesWell (first : Nat) (writeIn : WriteIn) : Prop where
  sized : SizesWell writeIn
  provides : ∀ p (s s' : Scene Slot) u c, writeIn p s = .ok u s' → s.space.Sound →
    first ≤ s.space.store.next → (∀ x ∈ s.subject.companions, x.id < first) →
    s'.space.compiler.Grows c → s.subject.value.KeptBehind c p s'.subject.value →
    s.space.Provides first s'.space

section

variable {first : Nat} {writeIn : WriteIn} {c : Compiler} {l : Layout} {f : BoundField}
  {s s' : Scene Record} {u : Unit}

/-- What a write of a field provides, and which slots it leaves alone. -/
structure FieldProvides (first : Nat) (f : BoundField) (s s' : Scene Record) : Prop where
  provides : s.space.Provides first s'.space
  others : ∀ i, i ≠ f.slot → s'.subject.slotAt i = s.subject.slotAt i

/-- A plain send provides nothing. -/
theorem Scene.Sent.provides {τ : Type} {s s' : Scene τ} {k : Nat} (h : s.Sent s' k) :
    s.space.Provides first s'.space := by
  rw [h.space]
  exact .refl _

/-- A value that is there provides what its own write provides. -/
theorem writePresent_provides (hin : ProvidesWell first writeIn) {p : Placement} {marker : Bool}
    {t : Scene Record} {j : Nat} (hsent : s.Sent t j)
    (h : Op.on (RecordOf.slotPart f.slot) (writeIn p) t = .ok u s') (hs : s.space.Sound)
    (hfirst : first ≤ s.space.store.next) (he : f.encoding = .placed p marker)
    (hown : ∀ x ∈ (s.subject.slotAt f.slot).companions, x.id < first)
    (hgrows : s'.space.compiler.Grows c)
    (hkept : ∀ q marker, f.encoding = .placed q marker →
      (s.subject.slot f.slot).KeptBehind c q (s'.subject.slot f.slot)) :
    FieldProvides first f s s' := by
  obtain ⟨space, stream, subject⟩ := t
  obtain ⟨rfl, rfl, -⟩ := hsent
  obtain ⟨t', hact, rfl⟩ := Op.on_ok.mp h
  obtain ⟨k, hslot⟩ := hin.sized _ _ _ _ hact hs
  have hvalue : (s.subject.setSlotAt f.slot t'.subject).slot f.slot = t'.subject.value :=
    RecordOf.slot_setSlot hslot.recast
  refine ⟨hin.provides _ _ _ _ c hact hs hfirst hown hgrows ?_,
    fun i hi => RecordOf.slotAt_setSlotAt_of_ne hi _⟩
  have hkept := hkept p marker he
  rw [show (RecordOf.slotPart f.slot).set t'.subject s.subject =
    s.subject.setSlotAt f.slot t'.subject from rfl, hvalue] at hkept
  exact hkept

/-- A field provides the chunks behind the value in its slot. -/
theorem writeFieldWith_provides (hin : ProvidesWell first writeIn)
    (h : writeFieldWith writeIn f s = .ok u s') (hs : s.space.Sound)
    (hfirst : first ≤ s.space.store.next)
    (hown : ∀ x ∈ (s.subject.slotAt f.slot).companions, x.id < first)
    (hgrows : s'.space.compiler.Grows c)
    (hkept : ∀ q marker, f.encoding = .placed q marker →
      (s.subject.slot f.slot).KeptBehind c q (s'.subject.slot f.slot)) :
    FieldProvides first f s s' := by
  by_cases hplaced : ∃ p marker, f.encoding = .placed p marker
  · obtain ⟨p, marker, he⟩ := hplaced
    rw [writeFieldWith, Op.inField_ok] at h
    simp only [bind_ok, Op.subject_ok, he] at h
    obtain ⟨r, s, ⟨rfl, rfl⟩, h⟩ := h
    rcases ite_ok.mp h with ⟨-, hfail⟩ | ⟨-, hrun⟩
    · exact (throw_ok.mp hfail).elim
    rcases ite_ok.mp hrun with ⟨-, hwrite⟩ | ⟨-, hwrite⟩
    · -- an absent value
      obtain ⟨_, s₁, hmark, hrest⟩ := bind_ok.mp hwrite
      have hsent := write_sent hmark
      obtain ⟨size, s₂, hask, hzeros⟩ := bind_ok.mp hrest
      have hs₁ : s₁.space.Sound := by rwa [hsent.space]
      obtain ⟨hstudied, hsubject, -⟩ := space_studied (inlineSize_learning hs₁ p) hask
      have hsent' := writeZeros_sent hzeros
      refine ⟨?_, fun _ _ => by rw [hsent'.subject, hsubject, hsent.subject]⟩
      rw [hsent'.space, ← hsent.space]
      exact hstudied.learns.provides
    · cases marker with
      | true =>
        obtain ⟨_, t, hmark, hrest⟩ := bind_ok.mp hwrite
        exact writePresent_provides hin (write_sent hmark) hrest hs hfirst he hown hgrows hkept
      | false => exact writePresent_provides hin (.refl s) hwrite hs hfirst he hown hgrows hkept
  · simp only [not_exists] at hplaced
    obtain ⟨k, hsent⟩ := writePlain_sent hplaced h
    exact ⟨hsent.provides, fun _ _ => by rw [hsent.subject]⟩

/-- By induction along the row: the slots of the fields that are still to be written have not been
touched, and those that have been written are not touched again. -/
theorem writeFields_provides (hin : ProvidesWell first writeIn) {fields : List BoundField}
    (h : writeFields writeIn fields s = .ok u s') (hs : s.space.Sound)
    (hfirst : first ≤ s.space.store.next) (hrow : InRow fields)
    (hown : ∀ f ∈ fields, ∀ x ∈ (s.subject.slotAt f.slot).companions, x.id < first)
    (hgrows : s'.space.compiler.Grows c)
    (hkept : ∀ f ∈ fields, ∀ q marker, f.encoding = .placed q marker →
      (s.subject.slot f.slot).KeptBehind c q (s'.subject.slot f.slot)) :
    s.space.Provides first s'.space := by
  induction fields generalizing s with
  | nil =>
    obtain ⟨-, rfl⟩ := pure_ok.mp h
    exact .refl _
  | cons f rest ih =>
    obtain ⟨_, t, hone, hrest⟩ := bind_ok.mp h
    obtain ⟨hapart, hrow'⟩ := List.pairwise_cons.mp hrow
    obtain ⟨k, hsized⟩ := writeFieldWith_sized hin.sized hone hs
    obtain ⟨sizes, hmore⟩ := writeFields_sized hin.sized hrest hsized.moved.sound hrow'
    -- later fields leave the slot alone
    have hout : f.slot ∉ rest.map (·.slot) := by
      intro hmem
      obtain ⟨g, hg, heq⟩ := List.mem_map.mp hmem
      exact (hapart g hg).1 heq.symm
    have hfield := writeFieldWith_provides (c := c) hin hone hs hfirst
      (hown f List.mem_cons_self) (hmore.moved.le.compiler.trans hgrows) fun q marker he => by
        rw [← hmore.others _ hout]
        exact hkept f List.mem_cons_self q marker he
    have hsame (g : BoundField) (hg : g ∈ rest) :
        t.subject.slotAt g.slot = s.subject.slotAt g.slot := hfield.others _ (hapart g hg).1.symm
    have hnext := Nat.le_trans hfirst hfield.provides.next_le
    refine hfield.provides.trans (ih hrest hsized.moved.sound hnext hrow' (fun g hg => ?_)
      fun g hg q marker he => ?_) hfirst
    · rw [hsame g hg]
      exact hown g (List.mem_cons_of_mem _ hg)
    · rw [RecordOf.slot_eq_slotAt, hsame g hg, ← RecordOf.slot_eq_slotAt]
      exact hkept g (List.mem_cons_of_mem _ hg) q marker he

/-! ## Records that are written -/

/-- A row provides what its fields provide. -/
theorem writeRow_provides (hin : ProvidesWell first writeIn)
    (h : writeFields writeIn l.fields s = .ok u s') (hs : s.space.Sound) (hl : s.space.Knows l)
    (hfirst : first ≤ s.space.store.next) (hown : ∀ x ∈ s.subject.companions, x.id < first)
    (hgrows : s'.space.compiler.Grows c) (hkept : s.subject.KeptBehind c l s'.subject) :
    s.space.Provides first s'.space :=
  writeFields_provides hin h hs hfirst (hl.good hs).fields.inRow
    (fun f _ x hx => hown x (s.subject.companions_slotAt f.slot hx)) hgrows hkept

/-- A body provides what its row provides; header and padding are sent plainly. -/
theorem writeBody_provides (hin : ProvidesWell first writeIn)
    (h : writeBody writeIn l s = .ok u s') (hs : s.space.Sound) (hl : s.space.Knows l)
    (hfirst : first ≤ s.space.store.next) (hown : ∀ x ∈ s.subject.companions, x.id < first)
    (hgrows : s'.space.compiler.Grows c) (hkept : s.subject.KeptBehind c l s'.subject) :
    s.space.Provides first s'.space := by
  obtain ⟨k, hsized⟩ := writeBody_sized hin.sized h hs hl
  rw [writeBody] at h
  obtain ⟨_, s₁, hderive, hrest⟩ := bind_ok.mp h
  obtain ⟨hstudied, hrefreshed⟩ := deriveRecord_ok hderive hs hl
  obtain ⟨config, s₂, hconfig, hwrite⟩ := bind_ok.mp hrest
  obtain ⟨rfl, rfl⟩ := Op.config_ok.mp hconfig
  have hl₁ := hl.mono hstudied.learns.toLe
  have hfirst₁ : first ≤ s₂.space.store.next := by rwa [hstudied.learns.store]
  have hown₁ : ∀ x ∈ s₂.subject.companions, x.id < first := fun x hx =>
    hown x (hrefreshed.companions.subset hx)
  refine hstudied.learns.provides.trans ?_ hfirst
  rcases ite_ok.mp hwrite with ⟨-, hwrite⟩ | ⟨-, hwrite⟩
  · -- the record is measured, and what is written must be of that size
    rw [writeChecked] at hwrite
    simp only [bind_ok, Op.subject_ok, Op.position_ok] at hwrite
    obtain ⟨r, s₂, ⟨rfl, rfl⟩, size, s₃, hcheck, start, s₃, ⟨rfl, rfl⟩, _, s₄, hrow, stop, s₄,
      ⟨rfl, rfl⟩, hdone⟩ := hwrite
    obtain ⟨hstudied', hsubject, -⟩ :=
      space_studied (studies.checkedSize l _ _ hstudied.sound) hcheck
    rcases ite_ok.mp hdone with ⟨-, hfail⟩ | ⟨-, hpure⟩
    · exact (throw_ok.mp hfail).elim
    · obtain ⟨-, rfl⟩ := pure_ok.mp hpure
      obtain ⟨k, hrow_sized⟩ := writeRow_sized hin.sized hrow hstudied'.sound
        (hl₁.mono hstudied'.learns.toLe)
      have hkept₁ := deriveRecord_keptBehind hderive hs hl
        ((hstudied'.learns.compiler.trans hrow_sized.moved.le.compiler).trans hgrows) hkept
      refine hstudied'.learns.provides.trans (writeRow_provides hin hrow hstudied'.sound
        (hl₁.mono hstudied'.learns.toLe) (by rwa [hstudied'.learns.store]) ?_ hgrows ?_) hfirst₁
      · rwa [hsubject]
      · rwa [hsubject]
  · obtain ⟨k, hrow_sized⟩ := writeRow_sized hin.sized hwrite hstudied.sound hl₁
    exact writeRow_provides hin hwrite hstudied.sound hl₁ hfirst₁ hown₁ hgrows
      (deriveRecord_keptBehind hderive hs hl (hrow_sized.moved.le.compiler.trans hgrows) hkept)

/-- A record provides what its body provides. -/
theorem writeRecordWith_provides (hin : ProvidesWell first writeIn)
    (h : writeRecordWith writeIn l s = .ok u s') (hs : s.space.Sound) (hl : s.space.Knows l)
    (hfirst : first ≤ s.space.store.next) (hown : ∀ x ∈ s.subject.companions, x.id < first)
    (hgrows : s'.space.compiler.Grows c) (hkept : s.subject.KeptBehind c l s'.subject) :
    s.space.Provides first s'.space := by
  rw [writeRecordWith] at h
  simp only [bind_ok, Op.subject_ok, space_requireSchema_ok] at h
  obtain ⟨r, s, ⟨rfl, rfl⟩, _, s, ⟨hschema, rfl⟩, h⟩ := h
  rw [guardingChunks] at h
  simp only [bind_ok, Op.subject_ok, Op.onFailure_ok, rollback_ok] at h
  obtain ⟨r, s, ⟨rfl, rfl⟩, t, hbody, rfl⟩ := h
  have hs₁ : s.space.openScope.Sound := ⟨hs.compiler, hs.store⟩
  obtain ⟨journal, hkeep⟩ := t.space.keepScope_eq
  simp only [hkeep] at hgrows hkept ⊢
  have hopen : s.space.Provides first s.space.openScope := .of_same rfl rfl
  have hprovides := writeBody_provides hin hbody hs₁ hl hfirst hown hgrows hkept
  exact (hopen.trans hprovides hfirst).trans (.of_same rfl rfl) hfirst

end

/-! ## Values in place -/

/-- Values behind references that have been written are the same. -/
theorem Value.KeptBehind.detached {c : Compiler} {cat : Catalog} {p : Placement} {v v' : Value}
    (h : v.KeptBehind c p v') (hp : p.isBehind = true) (hrecast : v.Recast cat v') :
    v'.detached = v.detached := by
  cases h with
  | behind _ h =>
    rcases h with hflat | hsame
    · rw [hflat.recast hrecast]
    · exact hsame
  | inline hp' => rw [hp] at hp'; cases hp'

/-- What stands inline in two placements in the same way. -/
theorem Value.KeptBehind.congr {c : Compiler} {p q : Placement} {v v' : Value}
    (h : v.KeptBehind c p v') (hp : p.isBehind = false) (hq : q.isBehind = false)
    (hsame : q.innerKey? c.catalog v = p.innerKey? c.catalog v) : v.KeptBehind c q v' := by
  cases h with
  | behind hp' => rw [hp] at hp'; cases hp'
  | inline _ hinside => exact .inline hq (by rwa [hsame])

section

variable {first : Nat} {writeIn : WriteIn} {c : Compiler} {p : Placement} {s t s' : Scene Slot}
  {u : Unit}

/-- The record of a value in a layout that has just been asked for, after some bytes. -/
theorem writeAsked_provides (hin : ProvidesWell first writeIn) {layout : SpaceM Layout} {k : Nat}
    (hsent : s.Sent t k)
    (h : (Op.space layout >>= fun l => Op.on Slot.recordPart (writeRecordWith writeIn l)) t =
      .ok u s') (hlayout : p.AsksFor s.subject.value layout s.space) (hp : p.isBehind = false)
    (hinner : s.subject.value = .record s.subject.value.innerRecord ∨
      ∃ wrapper, s.subject.value = .wrapped wrapper s.subject.value.innerRecord)
    (hfirst : first ≤ s.space.store.next) (hown : ∀ x ∈ s.subject.companions, x.id < first)
    (hgrows : s'.space.compiler.Grows c)
    (hkept : s.subject.value.KeptBehind c p s'.subject.value) :
    s.space.Provides first s'.space := by
  obtain ⟨space, stream, subject⟩ := t
  obtain ⟨rfl, rfl, -⟩ := hsent
  obtain ⟨l, t₁, hask, hrecord⟩ := bind_ok.mp h
  obtain ⟨hstudied, hsubject, hl, hkey⟩ :=
    space_studied (s := ⟨s.space, stream, s.subject⟩) hlayout hask
  obtain ⟨t, hact, rfl⟩ := Op.on_ok.mp hrecord
  have hsubject : t₁.subject = s.subject := hsubject
  have hlearns : s.space.Learns t₁.space := hstudied.learns
  have hget : Slot.recordPart.get t₁.subject = s.subject.value.innerRecord := by
    rw [hsubject]
    rfl
  rw [hget] at hact
  obtain ⟨k, hsized, hschema⟩ := writeRecordWith_sized hin.sized hact hstudied.sound hl
  have hkey : p.innerKey? c.catalog s.subject.value = some l.key := by
    rw [((hlearns.compiler.trans hsized.moved.le.compiler).trans hgrows).catalog]
    exact hkey hschema
  have hanswer : c.answer l.key = some l := (hsized.moved.le.compiler.trans hgrows).answer hl
  -- the record inside is the one that the slot ends with
  have hafter : (t₁.subject.value.setInnerRecord t.subject).innerRecord = t.subject := by
    rw [hsubject]
    rcases hinner with hv | ⟨wrapper, hv⟩ <;> rw [hv] <;> rfl
  have hkept := (Value.keptBehind_iff hp hkey hanswer).mp hkept
  rw [show (Slot.recordPart.set t.subject t₁.subject).value.innerRecord = t.subject from hafter]
    at hkept
  refine hlearns.provides.trans (writeRecordWith_provides hin hact hstudied.sound hl
    (by rwa [hlearns.store]) (fun x hx => hown x ?_) hgrows hkept) hfirst
  exact List.mem_append_right _ (s.subject.value.companions_innerRecord hx)

/-- A record in its slot provides what the record's own write provides. -/
theorem writeInner_provides (hin : ProvidesWell first writeIn) {id : SchemaId} {kind : LayoutKind}
    (h : writeInner writeIn id kind s = .ok u s') (hs : s.space.Sound)
    (hkey : ∀ cat r, p.innerKey? cat (.record r) = some (r.schema, kind)) (hp : p.isBehind = false)
    (hfirst : first ≤ s.space.store.next) (hown : ∀ x ∈ s.subject.companions, x.id < first)
    (hgrows : s'.space.compiler.Grows c)
    (hkept : s.subject.value.KeptBehind c p s'.subject.value) :
    s.space.Provides first s'.space := by
  rw [writeInner] at h
  simp only [bind_ok, Op.subject_ok, Op.catalog_ok] at h
  obtain ⟨slot, s, ⟨rfl, rfl⟩, cat, s, ⟨rfl, rfl⟩, h⟩ := h
  cases hv : s.subject.value with
  | record r =>
    simp only [hv] at h
    rcases ite_ok.mp h with ⟨hschema, hrun⟩ | ⟨-, hfail⟩
    · refine writeAsked_provides hin (.refl s) hrun (Placement.asksFor_layout hs fun _ => ?_) hp
        (.inl (by rw [hv]; rfl)) hfirst hown hgrows hkept
      rw [hv, hkey, hschema]
    · exact (space_mismatch_fails hfail).elim
  | _ =>
    simp only [hv] at h
    exact (space_mismatch_fails h).elim

/-- A wrapped value provides what its carrier provides. -/
theorem writeWrapped_provides (hin : ProvidesWell first writeIn) {wrapper : WrapperId}
    {carrier : SchemaId} {kind : LayoutKind}
    (h : writeWrapped writeIn wrapper carrier kind s = .ok u s') (hs : s.space.Sound)
    (hfirst : first ≤ s.space.store.next) (hown : ∀ x ∈ s.subject.companions, x.id < first)
    (hgrows : s'.space.compiler.Grows c)
    (hkept : s.subject.value.KeptBehind c (.wrapped wrapper carrier kind) s'.subject.value) :
    s.space.Provides first s'.space := by
  rw [writeWrapped] at h
  simp only [bind_ok, Op.subject_ok, Op.catalog_ok] at h
  obtain ⟨slot, s, ⟨rfl, rfl⟩, cat, s, ⟨rfl, rfl⟩, h⟩ := h
  cases hv : s.subject.value with
  | wrapped found r =>
    simp only [hv] at h
    rcases ite_ok.mp h with ⟨-, hrun⟩ | ⟨-, hfail⟩
    · refine writeAsked_provides hin (.refl s) hrun (Placement.asksFor_layout hs fun _ => ?_) rfl
        (.inr ⟨found, by rw [hv]; rfl⟩) hfirst hown hgrows hkept
      rw [hv]
      rfl
    · exact (space_mismatch_fails hfail).elim
  | _ =>
    simp only [hv] at h
    exact (space_mismatch_fails h).elim

/-- An inline choice provides what the chosen record provides. -/
theorem writeChoice_provides (hin : ProvidesWell first writeIn) {choice : ChoiceId}
    (h : writeChoice writeIn choice s = .ok u s') (hs : s.space.Sound)
    (hfirst : first ≤ s.space.store.next) (hown : ∀ x ∈ s.subject.companions, x.id < first)
    (hgrows : s'.space.compiler.Grows c)
    (hkept : s.subject.value.KeptBehind c (.inlineChoice choice) s'.subject.value) :
    s.space.Provides first s'.space := by
  rw [writeChoice] at h
  simp only [bind_ok, Op.subject_ok, Op.catalog_ok] at h
  obtain ⟨slot, s, ⟨rfl, rfl⟩, cat, s, ⟨rfl, rfl⟩, h⟩ := h
  cases hv : s.subject.value with
  | null =>
    simp only [hv] at h
    exact (writeVarint_sent h).provides
  | record r =>
    simp only [hv] at h
    obtain ⟨tag, s₁, hask, hrest⟩ := bind_ok.mp h
    obtain ⟨-, rfl⟩ := space_tagOf_ok.mp hask
    obtain ⟨_, t, hmark, hrun⟩ := bind_ok.mp hrest
    refine writeAsked_provides hin (writeVarint_sent hmark) hrun
      (Placement.asksFor_variant hs ?_) rfl (.inl (by rw [hv]; rfl)) hfirst hown hgrows hkept
    rw [hv]
    rfl
  | _ =>
    simp only [hv] at h
    exact (space_mismatch_fails h).elim

/-- A value of open type, as its type is placed. -/
theorem writeLoose_provides (hin : ProvidesWell first writeIn) {q : Placement}
    (h : Op.on Slot.loosePart (writeIn q) s = .ok u s') (hs : s.space.Sound)
    (hfirst : first ≤ s.space.store.next) (hown : ∀ x ∈ s.subject.companions, x.id < first)
    (hgrows : s'.space.compiler.Grows c)
    (hkept : s.subject.value.KeptBehind c q s'.subject.value) :
    s.space.Provides first s'.space := by
  obtain ⟨t, hact, rfl⟩ := Op.on_ok.mp h
  have hinside : ∀ x ∈ s.subject.value.companions, x.id < first := fun x hx =>
    hown x (List.mem_append_right _ hx)
  exact (hin.provides _ _ _ _ c hact hs hfirst hinside hgrows hkept :)

/-- An open slot provides what the record in it provides. -/
theorem writeOpen_provides (hin : ProvidesWell first writeIn) (h : writeOpen writeIn s = .ok u s')
    (hs : s.space.Sound) (hfirst : first ≤ s.space.store.next)
    (hown : ∀ x ∈ s.subject.companions, x.id < first) (hgrows : s'.space.compiler.Grows c)
    (hkept : s.subject.value.KeptBehind c .inlineOpen s'.subject.value) :
    s.space.Provides first s'.space := by
  rw [writeOpen] at h
  simp only [bind_ok, Op.subject_ok] at h
  -- the type number is sent first, and the layout asked for afterwards is that of the type
  obtain ⟨slot, s, ⟨rfl, rfl⟩, id, s₁, hask, _, s₂, hmark, h⟩ := h
  obtain ⟨hstudied, hsubject, hid⟩ := space_studied (typeId_gives hs _) hask
  have hsent := writeVarint_sent hmark
  have hsame : s₂.subject = s.subject := hsent.subject.trans hsubject
  have hs₂ : s₂.space.Sound := hsent.space ▸ hstudied.sound
  have hlearns : s.space.Learns s₂.space := hsent.space ▸ hstudied.learns
  rcases hid with ⟨rfl, hnull⟩ | ⟨type, i, htype, rfl, hgives⟩
  · obtain ⟨-, rfl⟩ := pure_ok.mp h
    exact hlearns.provides
  · rw [if_neg (Nat.succ_ne_zero i)] at h
    obtain ⟨q, s₃, hplace, hloose⟩ := bind_ok.mp h
    obtain ⟨hstudied', hsubject', known, hknown, hanswer⟩ :=
      space_studied (openPlacement_learning hs₂ _) hplace
    rw [← hsent.space] at hgives
    have hlearns₃ := hlearns.trans hstudied'.learns
    have hsame₃ : s₃.subject = s.subject := hsubject'.trans hsame
    obtain ⟨k, hsized⟩ := writeLoose_sized hin.sized hloose hstudied'.sound
    -- the value stands inline, and so it does as its type is placed
    have hinline : q.isBehind = false := by
      rw [hstudied'.sound.openPlacement hanswer]
      exact Placement.isBehind_flexible _ _
    have hkey : q.innerKey? c.catalog s.subject.value =
        Placement.inlineOpen.innerKey? c.catalog s.subject.value := by
      rw [(hsized.moved.le.compiler.trans hgrows).catalog]
      exact hstudied'.sound.innerKey?_typed hgives hknown hanswer htype
    refine hlearns₃.provides.trans (writeLoose_provides hin hloose hstudied'.sound
      (by rwa [hlearns₃.store]) (by rwa [hsame₃]) hgrows ?_) hfirst
    rw [hsame₃]
    exact hkept.congr rfl hinline hkey

/-! ## Values behind references -/

/-- A new stream holds as many bytes as have been written. -/
theorem ByteStream.Advances.content_length {b : ByteStream} {k : Nat}
    (h : ByteStream.empty.Advances b k) : b.content.length = k := by
  obtain ⟨data, rfl, hputs⟩ := h.puts ⟨trivial, Nat.zero_le _⟩
  rw [hputs.content_new]

/-- Forgetting a chunk asks the store for nothing. -/
theorem forgetChunk_provides {chunk : ChunkId}
    (h : forgetChunk s = .ok chunk s') : s.space.Provides first s'.space := by
  rw [forgetChunk] at h
  obtain ⟨_, t, hset, hpure⟩ := bind_ok.mp h
  obtain ⟨rfl, rfl⟩ := pure_ok.mp hpure
  rw [Op.modifySubject_ok] at hset
  subst hset
  exact .refl _

/-- The size of a record that was asked for is the one that it has once it is written, if it is still
the same. -/
theorem RecordTakes.asked {w w' : Workspace} {l : Layout} {r r' : Record} {hint k : Nat}
    (hasked : w.Steady (recordSize l r) hint) (htakes : RecordTakes w' l r' k) (hle : w.Le w')
    (hs : w'.Sound) (hsame : r'.detached = r.detached) : k = hint := by
  have hnow : w'.Steady (recordSize l r') k := htakes.size _ (Nat.le_add_right _ _)
  rw [← recordSize_detached, hsame, recordSize_detached] at hnow
  exact hnow.unique hs (hasked.mono hle)

/-- A stored record asks for one chunk of its exact size and then for those behind it. -/
theorem storeRecordBehind_provides (hin : ProvidesWell first writeIn) {l : Layout} {r : Record}
    {chunk : ChunkId} (h : storeRecordBehind writeIn l r s = .ok chunk s')
    (hv : s.subject.value = .record r) (hs : s.space.Sound) (hl : s.space.Knows l)
    (hfirst : first ≤ s.space.store.next) (hown : ∀ x ∈ s.subject.companions, x.id < first)
    (hgrows : s'.space.compiler.Grows c)
    (hsame : s'.subject.value.detached = s.subject.value.detached) :
    s.space.Provides first s'.space := by
  obtain ⟨hint, s₁, hask, hstore⟩ := bind_ok.mp h
  obtain ⟨⟨hs₁, hlearns, -⟩, hsubject, hsteady⟩ :=
    space_studied (lasting.recordSize l r _ hs) hask
  refine hlearns.provides.trans (storeBehind_provides hstore
    (fun t t' hwrite hle ht hnext hslot hafter hcompiler => ?_) hs₁ (by rwa [hlearns.store])
    (fun x hx => hown x ?_)) hfirst
  · obtain ⟨t₁, hact, rfl⟩ := Op.on_ok.mp hwrite
    -- the body is written with the record that stands in the slot
    have hvalue : t.subject.value = .record r := by rw [hslot, hsubject, hv]
    have hget : Slot.recordPart.get t.subject = r := by
      show t.subject.value.innerRecord = r
      rw [hvalue]
      rfl
    rw [hget] at hact
    have hl₁ := hl.mono (hlearns.toLe.trans hle)
    obtain ⟨k, hsized, -⟩ := writeRecordWith_sized hin.sized hact ht hl₁
    -- but for its chunks, the record is the one that was measured
    have hcontent : t₁.subject.detached = r.detached := by
      rw [← hafter, hv] at hsame
      rw [show (Slot.recordPart.set t₁.subject t.subject).value = .record t₁.subject by
        show t.subject.value.setInnerRecord t₁.subject = _
        rw [hvalue]
        rfl] at hsame
      exact Value.record.inj hsame
    refine ⟨writeRecordWith_provides (c := c) hin hact ht hl₁ hnext (fun x hx => hown x ?_) ?_
      (.of_detached hcontent), fun hempty => ?_⟩
    · refine List.mem_append_right _ ?_
      rw [hv]
      exact hx
    · rw [show t₁.space.compiler = s'.space.compiler from hcompiler]
      exact hgrows
    · -- an empty chunk ends up as long as what is written to it, and this was asked for
      have hmoved := hsized.moved.stream
      rw [show (⟨t.space, t.stream, r⟩ : Scene Record).stream = .empty from hempty] at hmoved
      rw [show t₁.stream.content.length = k from hmoved.content_length]
      exact hsized.takes.asked hsteady (hle.trans hsized.moved.le) hsized.moved.sound hcontent
  · rw [hsubject] at hx
    exact List.mem_append_left _ hx

/-- A text behind a reference asks for one chunk of its length. -/
theorem writeTextBehind_provides (h : writeTextBehind s = .ok u s') (hs : s.space.Sound)
    (hfirst : first ≤ s.space.store.next) (hown : ∀ x ∈ s.subject.companions, x.id < first) :
    s.space.Provides first s'.space := by
  rw [writeTextBehind] at h
  simp only [bind_ok, Op.subject_ok] at h
  obtain ⟨slot, s, ⟨rfl, rfl⟩, h⟩ := h
  -- an absent text forgets its chunk, a present one asks for a chunk of its length
  cases hv : s.subject.value with
  | null =>
    simp only [hv] at h
    obtain ⟨chunk, t, hforget, hreference⟩ := bind_ok.mp h
    exact (forgetChunk_provides hforget).trans (writeChunkId_sent hreference).provides hfirst
  | text text =>
    simp only [hv] at h
    obtain ⟨chunk, t, hstore, hreference⟩ := bind_ok.mp h
    refine (storeBehind_provides hstore (fun t t' hwrite _ _ _ _ _ _ => ?_) hs hfirst
      fun x hx => hown x (List.mem_append_left _ hx)).trans
        (writeChunkId_sent hreference).provides hfirst
    have hsent := write_sent hwrite
    refine ⟨hsent.provides, fun hempty => ?_⟩
    have hmoved := hsent.stream
    rw [hempty] at hmoved
    exact hmoved.content_length
  | _ =>
    simp only [hv] at h
    obtain ⟨_, _, hfail, -⟩ := bind_ok.mp h
    exact (space_mismatch_fails hfail).elim

/-- A record behind a reference asks for its chunk and those behind it. -/
theorem writeRecordBehind_provides (hin : ProvidesWell first writeIn) {id : SchemaId}
    (h : writeRecordBehind writeIn id s = .ok u s') (hs : s.space.Sound)
    (hfirst : first ≤ s.space.store.next) (hown : ∀ x ∈ s.subject.companions, x.id < first)
    (hgrows : s'.space.compiler.Grows c)
    (hsame : s'.subject.value.detached = s.subject.value.detached) :
    s.space.Provides first s'.space := by
  rw [writeRecordBehind] at h
  simp only [bind_ok, Op.subject_ok, Op.catalog_ok] at h
  obtain ⟨slot, s, ⟨rfl, rfl⟩, cat, s, ⟨rfl, rfl⟩, h⟩ := h
  -- a null record asks for nothing and forgets the chunk it had
  cases hv : s.subject.value with
  | null =>
    simp only [hv] at h
    obtain ⟨chunk, t, hforget, hreference⟩ := bind_ok.mp h
    exact (forgetChunk_provides hforget).trans (writeChunkId_sent hreference).provides hfirst
  | record r =>
    simp only [hv] at h
    rcases ite_ok.mp h with ⟨hschema, hrun⟩ | ⟨-, hfail⟩
    · obtain ⟨l, s₁, hask, hrest⟩ := bind_ok.mp hrun
      obtain ⟨chunk, t, hstore, hreference⟩ := bind_ok.mp hrest
      obtain ⟨hstudied, hsubject, hl, hkey⟩ := space_studied (layout_knows hs id .standard) hask
      have hsent := writeChunkId_sent hreference
      rw [← hsubject] at hown
      rw [hsent.subject, ← hsubject] at hsame
      rw [hsent.space] at hgrows
      have hstored := storeRecordBehind_provides hin hstore (by rw [hsubject, hv]) hstudied.sound hl
        (by rwa [hstudied.learns.store]) hown hgrows hsame
      exact (hstudied.learns.provides.trans hstored hfirst).trans hsent.provides hfirst
    · obtain ⟨_, _, hfail, -⟩ := bind_ok.mp hfail
      exact (space_mismatch_fails hfail).elim
  | _ =>
    simp only [hv] at h
    obtain ⟨_, _, hfail, -⟩ := bind_ok.mp h
    exact (space_mismatch_fails hfail).elim

/-- A tag or the id of a type, and a reference. -/
theorem writeTagged_sent {tag : Nat} {chunk : ChunkId} (h : (do
      Op.stream (ByteSink.writeU32 tag)
      writeChunkId chunk : Op Slot Unit) s = .ok u s') : ∃ k, s.Sent s' k := by
  obtain ⟨_, t, hmark, hrest⟩ := bind_ok.mp h
  exact ⟨_, (writeU32_sent hmark).trans (writeChunkId_sent hrest)⟩

/-- A choice behind a reference asks for its chunk and those behind it. -/
theorem writeChoiceBehind_provides (hin : ProvidesWell first writeIn) {choice : ChoiceId}
    (h : writeChoiceBehind writeIn choice s = .ok u s') (hs : s.space.Sound)
    (hfirst : first ≤ s.space.store.next) (hown : ∀ x ∈ s.subject.companions, x.id < first)
    (hgrows : s'.space.compiler.Grows c)
    (hsame : s'.subject.value.detached = s.subject.value.detached) :
    s.space.Provides first s'.space := by
  rw [writeChoiceBehind] at h
  simp only [bind_ok, Op.subject_ok, Op.catalog_ok] at h
  obtain ⟨slot, s, ⟨rfl, rfl⟩, cat, s, ⟨rfl, rfl⟩, h⟩ := h
  -- as for a plain record, with the variant's layout and the tag sent before the reference
  cases hv : s.subject.value with
  | null =>
    simp only [hv] at h
    obtain ⟨chunk, t, hforget, hrest⟩ := bind_ok.mp h
    obtain ⟨_, t', hpair, hreference⟩ := bind_ok.mp hrest
    obtain ⟨rfl, rfl⟩ := pure_ok.mp hpair
    obtain ⟨k, hsent⟩ := writeTagged_sent hreference
    exact (forgetChunk_provides hforget).trans hsent.provides hfirst
  | record r =>
    simp only [hv] at h
    obtain ⟨tag, s₁, htag, hrest⟩ := bind_ok.mp h
    obtain ⟨-, rfl⟩ := space_tagOf_ok.mp htag
    obtain ⟨l, s₂, hask, hrest⟩ := bind_ok.mp hrest
    obtain ⟨hstudied, hsubject, hl, -⟩ := space_studied (variantLayout_knows hs choice tag) hask
    obtain ⟨chunk, t, hstore, hrest⟩ := bind_ok.mp hrest
    obtain ⟨_, t', hpair, hreference⟩ := bind_ok.mp hrest
    obtain ⟨rfl, rfl⟩ := pure_ok.mp hpair
    obtain ⟨k, hsent⟩ := writeTagged_sent hreference
    rw [← hsubject] at hown
    rw [hsent.subject, ← hsubject] at hsame
    rw [hsent.space] at hgrows
    have hstored := storeRecordBehind_provides hin hstore (by rw [hsubject, hv]) hstudied.sound hl
      (by rwa [hstudied.learns.store]) hown hgrows hsame
    exact (hstudied.learns.provides.trans hstored hfirst).trans hsent.provides hfirst
  | _ =>
    simp only [hv] at h
    obtain ⟨_, _, hfail, -⟩ := bind_ok.mp h
    exact (space_mismatch_fails hfail).elim

/-- An open record behind a reference asks for its chunk and those behind it. -/
theorem writeOpenBehind_provides (hin : ProvidesWell first writeIn)
    (h : writeOpenBehind writeIn s = .ok u s') (hs : s.space.Sound)
    (hfirst : first ≤ s.space.store.next) (hown : ∀ x ∈ s.subject.companions, x.id < first)
    (hgrows : s'.space.compiler.Grows c)
    (hsame : s'.subject.value.detached = s.subject.value.detached) :
    s.space.Provides first s'.space := by
  rw [writeOpenBehind] at h
  simp only [bind_ok, Op.subject_ok] at h
  obtain ⟨slot, s, ⟨rfl, rfl⟩, id, s₁, hask, h⟩ := h
  obtain ⟨hstudied, hsubject, -⟩ := space_studied (typeId_learning hs _) hask
  have hlearns := hstudied.learns
  rcases ite_ok.mp h with ⟨-, hrun⟩ | ⟨-, hrun⟩
  · -- no value is there, and nothing is asked for
    obtain ⟨chunk, t, hforget, hreference⟩ := bind_ok.mp hrun
    obtain ⟨k, hsent⟩ := writeTagged_sent hreference
    exact (hlearns.provides.trans (forgetChunk_provides hforget) hfirst).trans hsent.provides hfirst
  · obtain ⟨q, s₂, hplace, hrest⟩ := bind_ok.mp hrun
    obtain ⟨hstudied', hsubject', -⟩ :=
      space_studied (studies.openPlacement id _ hstudied.sound) hplace
    obtain ⟨hint, s₃, hsize, hrest⟩ := bind_ok.mp hrest
    obtain ⟨⟨hs₃, hlearns'', -⟩, hsubject'', hsteady⟩ :=
      space_studied (lasting.placedSize q _ _ hstudied'.sound) hsize
    obtain ⟨chunk, t, hstore, hreference⟩ := bind_ok.mp hrest
    obtain ⟨k, hsent⟩ := writeTagged_sent hreference
    have hlearns₃ := (hlearns.trans hstudied'.learns).trans hlearns''
    have hslot₃ : s₃.subject = s.subject := hsubject''.trans (hsubject'.trans hsubject)
    rw [hsent.subject] at hsame
    rw [hsent.space] at hgrows
    refine (hlearns₃.provides.trans (storeBehind_provides hstore
      (fun t t' hwrite hle ht hnext hslot hafter hcompiler => ?_) hs₃ (by rwa [hlearns₃.store])
      fun x hx => hown x ?_) hfirst).trans hsent.provides hfirst
    · obtain ⟨k, hsized⟩ := writeLoose_sized hin.sized hwrite ht
      have hcontent : t'.subject.value.detached = t.subject.value.detached := by
        rw [hafter, hslot, hslot₃, hsame]
      refine ⟨writeLoose_provides (c := c) hin hwrite ht hnext ?_ ?_ (.of_detached hcontent),
        fun hempty => ?_⟩
      · rw [hslot, hslot₃]
        exact hown
      · rw [hcompiler]
        exact hgrows
      · -- what has been written is as long as was asked for
        have hmoved := hsized.moved.stream
        rw [hempty] at hmoved
        rw [hmoved.content_length]
        have hnow := hsized.takes.size _ (q.reach_le _)
        rw [← placedSizeWithin_detached, Value.walkDepth, ← Value.depth_detached, hcontent,
          Value.depth_detached, placedSizeWithin_detached, hslot, hslot₃] at hnow
        exact hnow.unique hsized.moved.sound (hsteady.mono (hle.trans hsized.moved.le))
    · rw [hslot₃] at hx
      exact List.mem_append_left _ hx

end

/-! ## Values at any depth -/

/-- Writing values, however deep they are nested. -/
theorem writeWithin_provides (first depth : Nat) : ProvidesWell first (writeWithin depth) := by
  refine ⟨writeWithin_sized depth, ?_⟩
  induction depth with
  | zero =>
    intro p s s' u c h
    exact (throw_ok.mp h).elim
  | succ depth ih =>
    intro p s s' u c h hs hfirst hown hgrows hkept
    have hin : ProvidesWell first (writeWithin depth) := ⟨writeWithin_sized depth, ih⟩
    obtain ⟨k, hsized⟩ := writeWithin_sized _ _ _ _ _ h hs
    -- behind a reference the value stays what it was, but for its chunks
    have hbehind (hp : p.isBehind = true) : s'.subject.value.detached = s.subject.value.detached :=
      hkept.detached hp hsized.recast
    rw [writeWithin, bind_ok] at h
    obtain ⟨slot, s, hsubject, h⟩ := h
    obtain ⟨rfl, rfl⟩ := Op.subject_ok.mp hsubject
    cases p with
    | scalar kind => exact (writeScalar_sent h).provides
    | inlineText =>
      obtain ⟨k, hsent⟩ := writeText_sent h
      exact hsent.provides
    | handle id fixed =>
      obtain ⟨k, hsent⟩ := writeHandle_sent h
      exact hsent.provides
    | chunkText => exact writeTextBehind_provides h hs hfirst hown
    | inlineRecord id =>
      exact writeInner_provides hin h hs (fun _ _ => rfl) rfl hfirst hown hgrows hkept
    | fixedRecord id =>
      exact writeInner_provides hin h hs (fun _ _ => rfl) rfl hfirst hown hgrows hkept
    | chunkRecord id => exact writeRecordBehind_provides hin h hs hfirst hown hgrows (hbehind rfl)
    | inlineChoice choice => exact writeChoice_provides hin h hs hfirst hown hgrows hkept
    | chunkChoice choice =>
      exact writeChoiceBehind_provides hin h hs hfirst hown hgrows (hbehind rfl)
    | inlineOpen => exact writeOpen_provides hin h hs hfirst hown hgrows hkept
    | chunkOpen => exact writeOpenBehind_provides hin h hs hfirst hown hgrows (hbehind rfl)
    | wrapped wrapper carrier kind => exact writeWrapped_provides hin h hs hfirst hown hgrows hkept

/-! ## Whole records -/

section

variable {l : Layout} {s s' : Scene Record}

/-- A record's write asks for exactly the chunks it fills, with their exact sizes. -/
theorem writeRecord_provides {first : Nat} {c : Compiler} (hs : s.space.Sound)
    (hl : s.space.Knows l) (h : writeRecord l s = .ok () s') (hfirst : first ≤ s.space.store.next)
    (hown : ∀ x ∈ s.subject.companions, x.id < first) (hgrows : s'.space.compiler.Grows c)
    (hkept : s.subject.KeptBehind c l s'.subject) : s.space.Provides first s'.space := by
  rw [writeRecord, bind_ok] at h
  obtain ⟨r, s₁, hsubject, hrun⟩ := h
  obtain ⟨rfl, rfl⟩ := Op.subject_ok.mp hsubject
  exact writeRecordWith_provides (writeWithin_provides first _) hrun hs hl hfirst hown hgrows hkept

/-- Storing a record by itself asks for its own chunk besides. -/
theorem storeUnmanaged_provides {first : Nat} {handle : Handle} (hs : s.space.Sound)
    (h : storeUnmanaged s = .ok handle s') (hfirst : first ≤ s.space.store.next)
    (hown : ∀ x ∈ s.subject.companions, x.id < first)
    (hsame : s'.subject.detached = s.subject.detached) : s.space.Provides first s'.space := by
  rw [storeUnmanaged] at h
  simp only [bind_ok, Op.subject_ok, Op.catalog_ok] at h
  obtain ⟨r, s, ⟨rfl, rfl⟩, cat, s, ⟨rfl, rfl⟩, h⟩ := h
  rcases ite_ok.mp h with ⟨-, hrun⟩ | ⟨-, hfail⟩
  · obtain ⟨l, s₁, hask, hrest⟩ := bind_ok.mp hrun
    obtain ⟨hint, s₂, hsize, hrest⟩ := bind_ok.mp hrest
    obtain ⟨chunk, s₃, hput, hdone⟩ := bind_ok.mp hrest
    obtain ⟨rfl, rfl⟩ := pure_ok.mp hdone
    obtain ⟨hstudied, hsubject, hl, -⟩ :=
      space_studied (layout_knows hs s.subject.schema .standard) hask
    obtain ⟨⟨hs₂, hlearns, -⟩, hsubject', hsteady⟩ :=
      space_studied (lasting.recordSize l s.subject _ hstudied.sound) hsize
    have hlearns₂ := hstudied.learns.trans hlearns
    have hsubject₂ : s₂.subject = s.subject := hsubject'.trans hsubject
    have hl₂ := hl.mono hlearns.toLe
    refine hlearns₂.provides.trans (allocateWith_provides hput hs₂ (by rwa [hlearns₂.store])
      fun t t' hwrite hle ht hnext hempty hbefore hafter _ => ?_) hfirst
    have hbefore : t.subject = s.subject := hbefore.trans hsubject₂
    have hcontent : t'.subject.detached = t.subject.detached := by rw [hafter, hsame, hbefore]
    have hl' := hl₂.mono hle
    obtain ⟨k, hsized⟩ := writeRecord_sized ht hl' hwrite
    refine ⟨writeRecord_provides ht hl' hwrite hnext (by rwa [hbefore]) (.refl _)
      (.of_detached hcontent), ?_⟩
    -- the chunk is empty at first, and ends up as long as what is written
    have hmoved := hsized.moved.stream
    rw [hempty] at hmoved
    rw [hmoved.content_length]
    rw [hbefore] at hcontent
    exact hsized.takes.asked hsteady (hle.trans hsized.moved.le) hsized.moved.sound hcontent
  · exact (throw_ok.mp hfail).elim

/-- Every request of a write is for as many bytes as the new chunk holds when the write returns, and
the slack, if what stands behind references is left as it is. The same goes for a record that gets a
chunk of its own, if the record itself is left as it is. -/
theorem requests_exact (hs : s.space.Sound)
    (hown : ∀ x ∈ s.subject.companions, x.id < s.space.store.next) :
    (∀ l, s.space.Knows l → writeRecord l s = .ok () s' →
      s.subject.KeptBehind s'.space.compiler l s'.subject →
      ∃ contents, s.space.Requested s'.space contents) ∧
    (∀ handle, storeUnmanaged s = .ok handle s' → s'.subject.detached = s.subject.detached →
      ∃ contents, s.space.Requested s'.space contents) := by
  constructor
  · intro l hl h hkept
    exact (writeRecord_provides hs hl h (Nat.le_refl _) hown (.refl _) hkept).requested
  · intro handle h hsame
    exact (storeUnmanaged_provides hs h (Nat.le_refl _) hown hsame).requested

end

/-! ## Cabinets -/

/-- Drawers with bytes after their number, and cabinets with a label and a drawer behind them. -/
def cabinets : Catalog :=
  ⟨[⟨⟨"Drawer", .managed, [⟨"count", .varint, false, [], some (.lengthOf "bytes")⟩,
      ⟨"bytes", .array .u8 "count", false, [], none⟩]⟩, true⟩,
    ⟨⟨"Cabinet", .unmanaged, [⟨"label", .value .text .fixed, false, [], none⟩,
      ⟨"drawer", .value (.record ⟨0, 0⟩) .fixed, false, [], none⟩]⟩, true⟩], [], []⟩

/-- The question for the layout of cabinets. -/
def askCabinets : SpaceM Layout := SpaceM.layout ⟨1, 0⟩ .standard

/-- A workspace for cabinets, with some slack for every chunk. -/
def cabinetSpace : Workspace := .fresh cabinets { Config.standard with slack := 16 } none

/-- The layout of cabinets. -/
def cabinetLayout : Layout := (answer? askCabinets cabinetSpace).getD default

/-- A cabinet with two bytes in its drawer, and some number before them. -/
def cabinet (count : UInt64) : Scene Record :=
  ⟨after askCabinets cabinetSpace, .empty,
    ⟨⟨1, 0⟩, [.text "ab", .record ⟨⟨0, 0⟩, [.scalar (.u64 count),
      .list [.scalar (.u8 7), .scalar (.u8 8)]], [.null, .null]⟩], [.null, .null]⟩⟩

/-- The cabinet's types refer to types that they declare themselves. -/
theorem cabinets_closed : cabinets.Closed := by decide

/-- What the kernel works out: the drawer goes first, and so does its request. -/
theorem cabinet_runs : (answer? askCabinets cabinetSpace).isSome = true ∧
    (answer? (writeRecord cabinetLayout) (cabinet 2)).isSome = true ∧
    (answer? storeUnmanaged (cabinet 2)).isSome = true ∧
    (answer? (writeRecord cabinetLayout) (cabinet 0)).isSome = true ∧
    (cabinet 0).space.store.next = 1 ∧ (cabinet 0).space.heap.hints = [] ∧
    (cabinet 0).space.config.slack = 16 ∧
    (after (writeRecord cabinetLayout) (cabinet 0)).space.heap.hints = [17, 18] ∧
    (after (writeRecord cabinetLayout) (cabinet 0)).space.store.chunks =
      [(⟨1⟩, [2, 7, 8]), (⟨2⟩, [97, 98])] := by decide +kernel

/-- The cabinet's layout is known in its space, and its record names no chunk yet. -/
theorem cabinet_known (count : UInt64) : (cabinet count).space.Sound ∧
    (cabinet count).space.Knows cabinetLayout ∧
    ∀ x ∈ (cabinet count).subject.companions, x.id < (cabinet count).space.store.next := by
  obtain ⟨l, hask, hl⟩ := runs_to_after cabinet_runs.1
  obtain ⟨hs, -, hknows⟩ := SpaceM.layout_sound (Workspace.sound_fresh cabinets_closed _ _) hask
  refine ⟨hs, ?_, fun x hx => ?_⟩
  · rw [cabinetLayout, hl, Option.getD_some]
    exact hknows
  · rw [show (cabinet count).subject.companions = [] from rfl] at hx
    cases hx

/-- Writing a cabinet with the right number does not change it, nor does giving it a chunk. -/
theorem cabinet_settled :
    (after (writeRecord cabinetLayout) (cabinet 2)).subject.detached =
      (cabinet 2).subject.detached ∧
    (after storeUnmanaged (cabinet 2)).subject.detached = (cabinet 2).subject.detached :=
  ⟨by cbv, by cbv⟩

/-- A cabinet whose count is up to date asks for exactly what it fills. -/
theorem requests_exact_cabinet :
    (∃ s' contents, writeRecord cabinetLayout (cabinet 2) = .ok () s' ∧
      (cabinet 2).subject.KeptBehind s'.space.compiler cabinetLayout s'.subject ∧
      (cabinet 2).space.Requested s'.space contents) ∧
    ∃ handle s' contents, storeUnmanaged (cabinet 2) = .ok handle s' ∧
      s'.subject.detached = (cabinet 2).subject.detached ∧
      (cabinet 2).space.Requested s'.space contents := by
  obtain ⟨hs, hl, hown⟩ := cabinet_known 2
  obtain ⟨hwritten, hstored⟩ := cabinet_settled
  obtain ⟨u, hwrite, -⟩ := runs_to_after cabinet_runs.2.1
  obtain ⟨handle, hstore, -⟩ := runs_to_after cabinet_runs.2.2.1
  obtain ⟨contents, hrequested⟩ := (requests_exact hs hown).1 _ hl hwrite (.of_detached hwritten)
  obtain ⟨contents', hrequested'⟩ := (requests_exact hs hown).2 _ hstore hstored
  exact ⟨⟨_, contents, hwrite, .of_detached hwritten, hrequested⟩,
    handle, _, contents', hstore, hstored, hrequested'⟩

/-- Where the number in the drawer is not right yet, too few bytes are asked for. -/
theorem requests_not_exact :
    ¬∀ (l : Layout) (s s' : Scene Record), s.space.Sound → s.space.Knows l →
      (∀ x ∈ s.subject.companions, x.id < s.space.store.next) → writeRecord l s = .ok () s' →
        ∃ contents, s.space.Requested s'.space contents := by
  intro hall
  obtain ⟨hs, hl, hown⟩ := cabinet_known 0
  obtain ⟨-, -, -, hrun, hnext, hnone, hslack, hhints, hchunks⟩ := cabinet_runs
  obtain ⟨u, hwrite, -⟩ := runs_to_after hrun
  obtain ⟨contents, hrequested⟩ := hall _ _ _ hs hl hown hwrite
  have hasked := hrequested.hints
  rw [hhints, hnone, hslack, List.nil_append] at hasked
  cases contents with
  | nil => cases hasked
  | cons first rest =>
    have hfirst := hrequested.holds 0 first rfl
    rw [hnext, ChunkStore.content?, hchunks] at hfirst
    obtain rfl : [2, 7, 8] = first := Option.some.inj hfirst
    exact absurd (List.cons.inj hasked).1 (by decide)

end RecordLayout
