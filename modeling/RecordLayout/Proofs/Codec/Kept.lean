import Mathlib
import RecordLayout.Proofs.Codec.DeriveKept

/-!
# Chunks that a write keeps

A write of a tidy record whose chunks are all live names them all afterwards: a value behind a
reference is stored over the chunk that the slot has, and a slot without one gets a new one. The record
is tidy again, so this goes on from write to write.

Main results:

* `writeFields_kept` — fields in a row, by induction along the row;
* `storeBehind_kept` — values behind references, in the chunk of the slot or in a new one;
* `writeWithin_kept` — values, by induction on the depth;
* `writeRecord_kept` — whole records.
-/

namespace RecordLayout

/-! ## Fields that are written -/

/-- No chunk that was live is gone. -/
theorem live_of_ok {τ α : Type} [NamesChunks τ] {act : Op τ α} (hact : act.Leaves [])
    {s s' : Scene τ} {a : α} (h : act s = .ok a s') (hs : s.space.Sound) :
    s.space.store.live ⊆ s'.space.store.live := by
  have hlive := hact.tracks.live_subset hs.store
  rwa [outcome_of_ok h] at hlive

/-- What a write of a slot keeps. -/
structure SlotKept (p : Placement) (s s' : Scene Slot) : Prop where
  tidy : s'.subject.Tidy s'.space.compiler p
  own : ownChunk s.subject.chunk ⊆ ownChunk s'.subject.chunk
  inside : s.subject.value.companions ⊆ s'.subject.value.companions
  free : s.subject.value.HandleFree → s'.subject.value.HandleFree

/-- A way to write values keeps the chunks that are in use, where it succeeds. -/
structure KeepsWell (writeIn : WriteIn) : Prop where
  sized : SizesWell writeIn
  leaves : ∀ p, (writeIn p).Leaves []
  kept : ∀ p (s s' : Scene Slot) u, writeIn p s = .ok u s' → s.space.Sound →
    s.subject.Tidy s.space.compiler p → s.subject.companions ⊆ s.space.store.live → SlotKept p s s'

/-- What a write of fields of a record keeps. -/
structure RecordKept (l : Layout) (s s' : Scene Record) : Prop where
  tidy : s'.subject.Tidy s'.space.compiler l
  names : s.subject.companions ⊆ s'.subject.companions
  free : s.subject.HandleFree → s'.subject.HandleFree

theorem RecordKept.trans {l : Layout} {s t s' : Scene Record} (h : RecordKept l s t)
    (h' : RecordKept l t s') : RecordKept l s s' :=
  ⟨h'.tidy, List.Subset.trans h.names h'.names, fun hf => h'.free (h.free hf)⟩

/-- More may be known than before. -/
theorem RecordKept.of_same {l : Layout} {s s' : Scene Record} (hsame : s'.subject = s.subject)
    (hgrows : s.space.compiler.Grows s'.space.compiler)
    (ht : s.subject.Tidy s.space.compiler l) : RecordKept l s s' := by
  refine ⟨?_, ?_, ?_⟩
  · rw [hsame]
    exact ht.mono hgrows
  · rw [hsame]
    exact List.Subset.refl _
  · rw [hsame]
    exact fun hf => hf

section

variable {writeIn : WriteIn} {l : Layout} {f : BoundField} {s s' : Scene Record} {u : Unit}

/-- A field in which no value is placed leaves bytes only. -/
theorem writePlain_sent (hplain : ∀ p marker, f.encoding ≠ .placed p marker)
    (h : writeFieldWith writeIn f s = .ok u s') : ∃ k, s.Sent s' k := by
  rw [writeFieldWith, Op.inField_ok] at h
  simp only [bind_ok, Op.subject_ok] at h
  obtain ⟨r, s, ⟨rfl, rfl⟩, h⟩ := h
  -- every encoding but a placed one ends in one plain send, after lookups that change nothing
  cases he : f.encoding with
  | scalar kind =>
    simp only [he] at h
    exact ⟨_, writeScalar_sent h⟩
  | ordinal =>
    simp only [he] at h
    obtain ⟨width, s₁, hask, hwrite⟩ := bind_ok.mp h
    obtain ⟨-, rfl⟩ := space_widthIn_ok.mp hask
    exact ⟨_, write_sent hwrite⟩
  | sized g =>
    simp only [he] at h
    obtain ⟨width, s₁, hask, hrest⟩ := bind_ok.mp h
    obtain ⟨-, rfl⟩ := space_widthIn_ok.mp hask
    obtain ⟨n, s₁, hcount, hwrite⟩ := bind_ok.mp hrest
    obtain ⟨-, rfl⟩ := space_countOf_ok.mp hcount
    rcases ite_ok.mp hwrite with ⟨-, hwrite⟩ | ⟨-, hfail⟩
    · exact ⟨_, writeNumber_sent hwrite⟩
    · exact (space_disagreement_fails hfail).elim
  | forced width =>
    simp only [he] at h
    obtain ⟨n, s₁, hcount, hwrite⟩ := bind_ok.mp h
    obtain ⟨-, rfl⟩ := space_countOf_ok.mp hcount
    rcases ite_ok.mp hwrite with ⟨-, hwrite⟩ | ⟨-, hfail⟩
    · exact ⟨_, writeNumber_sent hwrite⟩
    · exact (throw_ok.mp hfail).elim
  | varint =>
    simp only [he] at h
    obtain ⟨n, s₁, hcount, hwrite⟩ := bind_ok.mp h
    obtain ⟨-, rfl⟩ := space_countOf_ok.mp hcount
    exact ⟨_, writeVarint_sent hwrite⟩
  | array element g =>
    simp only [he] at h
    obtain ⟨count, s₁, hask, hrest⟩ := bind_ok.mp h
    obtain ⟨-, rfl⟩ := space_countOf_ok.mp hask
    obtain ⟨items, s₁, hitems, hwrite⟩ := bind_ok.mp hrest
    obtain ⟨-, rfl⟩ := space_itemsOf_ok.mp hitems
    rcases ite_ok.mp hwrite with ⟨-, hwrite⟩ | ⟨-, hfail⟩
    · exact ⟨_, writeScalars_sent hwrite⟩
    · exact (space_disagreement_fails hfail).elim
  | placed p marker => exact absurd he (hplain p marker)

/-- What a write of a field keeps, and which slots it leaves alone. -/
structure FieldKept (l : Layout) (f : BoundField) (s s' : Scene Record) : Prop
    extends RecordKept l s s' where
  others : ∀ i, i ≠ f.slot → s'.subject.slotAt i = s.subject.slotAt i

theorem FieldKept.of_same (hsame : s'.subject = s.subject)
    (hgrows : s.space.compiler.Grows s'.space.compiler)
    (ht : s.subject.Tidy s.space.compiler l) : FieldKept l f s s' :=
  ⟨.of_same hsame hgrows ht, fun _ _ => by rw [hsame]⟩

/-- A value that is there, after the bytes that say so. -/
theorem writePresent_kept (hin : KeepsWell writeIn) {p : Placement}
    {marker : Bool} {t : Scene Record} {j : Nat} (hsent : s.Sent t j)
    (h : Op.on (RecordOf.slotPart f.slot) (writeIn p) t = .ok u s') (hs : s.space.Sound)
    {schema : Schema} {kind : LayoutKind}
    (hfields : FieldsGood s.space.compiler schema kind l.fields) (hf : f ∈ l.fields)
    (he : f.encoding = .placed p marker) (ht : s.subject.Tidy s.space.compiler l)
    (hworked : f.derivation.isSome = true → (s.subject.slot f.slot).Flat)
    (hlive : (s.subject.slotAt f.slot).companions ⊆ s.space.store.live) : FieldKept l f s s' := by
  -- only the slot's own value is written; the rest of the record is carried over as it is
  obtain ⟨space, stream, subject⟩ := t
  obtain ⟨rfl, rfl, -⟩ := hsent
  obtain ⟨t', hact, rfl⟩ := Op.on_ok.mp h
  obtain ⟨k, hslot⟩ := hin.sized _ _ _ _ hact hs
  have hkept := hin.kept _ _ _ _ hact hs (ht.placed f hf p marker he) hlive
  have hvalue : (s.subject.setSlotAt f.slot t'.subject).slot f.slot = t'.subject.value :=
    RecordOf.slot_setSlot hslot.recast
  refine ⟨⟨?_, ?_, fun hfree => ?_⟩, fun i hi => RecordOf.slotAt_setSlotAt_of_ne hi _⟩
  · refine (ht.mono hslot.moved.le.compiler).setSlotAt hvalue (fun g hg heq => ?_)
      fun g hg heq q m hq => ?_
    · obtain rfl := hfields.eq_of_slot hg hf heq
      -- the field may be derived, in which case its slot is flat and names no chunk
      refine ⟨fun hplain => absurd he (hplain _ _), fun hderived => ?_⟩
      have hflat := hworked hderived
      rw [hflat.recast hslot.recast]
      exact hflat.companions
    · obtain rfl := hfields.eq_of_slot hg hf heq
      rw [he] at hq
      obtain ⟨rfl, -⟩ := Encoding.placed.inj hq
      exact hkept.tidy
  · exact RecordOf.companions_subset_setSlotAt hkept.own hkept.inside
  · exact hfree.setSlotAt (hkept.free (hfree.slot _)) _

variable {schema : Schema} {kind : LayoutKind}

theorem writeFieldWith_kept (hin : KeepsWell writeIn)
    (h : writeFieldWith writeIn f s = .ok u s') (hs : s.space.Sound)
    (hfields : FieldsGood s.space.compiler schema kind l.fields) (hf : f ∈ l.fields)
    (ht : s.subject.Tidy s.space.compiler l)
    (hworked : f.derivation.isSome = true → (s.subject.slot f.slot).Flat)
    (hlive : (s.subject.slotAt f.slot).companions ⊆ s.space.store.live) : FieldKept l f s s' := by
  by_cases hplaced : ∃ p marker, f.encoding = .placed p marker
  · obtain ⟨p, marker, he⟩ := hplaced
    rw [writeFieldWith, Op.inField_ok] at h
    simp only [bind_ok, Op.subject_ok, he] at h
    obtain ⟨r, s, ⟨rfl, rfl⟩, h⟩ := h
    rcases ite_ok.mp h with ⟨-, hfail⟩ | ⟨-, hrun⟩
    · exact (throw_ok.mp hfail).elim
    rcases ite_ok.mp hrun with ⟨-, hwrite⟩ | ⟨-, hwrite⟩
    · -- an absent value
      obtain ⟨_, s₁, hmark, hrest⟩ := bind_ok.mp hwrite
      have hsent := write_sent hmark
      obtain ⟨size, s₂, hask, hzeros⟩ := bind_ok.mp hrest
      have hs₁ : s₁.space.Sound := by rwa [hsent.space]
      obtain ⟨hstudied, hsubject, -⟩ := space_studied (inlineSize_learning hs₁ p) hask
      have hsent' := writeZeros_sent hzeros
      refine .of_same (by rw [hsent'.subject, hsubject, hsent.subject]) ?_ ht
      rw [hsent'.space, ← hsent.space]
      exact hstudied.learns.compiler
    · have hpresent {t : Scene Record} {j : Nat} (hsent : s.Sent t j)
          (h : Op.on (RecordOf.slotPart f.slot) (writeIn p) t = .ok u s') : FieldKept l f s s' :=
        writePresent_kept hin hsent h hs hfields hf he ht hworked hlive
      cases marker with
      | true =>
        obtain ⟨_, t, hmark, hrest⟩ := bind_ok.mp hwrite
        exact hpresent (write_sent hmark) hrest
      | false => exact hpresent (.refl s) hwrite
  -- an encoding that is not placed sends bytes and leaves the record as it is
  · simp only [not_exists] at hplaced
    obtain ⟨k, hsent⟩ := writePlain_sent hplaced h
    exact .of_same hsent.subject (by rw [hsent.space]; exact .refl _) ht

/-- By induction along the row: the chunks of the fields that are still to be written are live, and
their slots have not been touched. -/
theorem writeFields_kept (hin : KeepsWell writeIn) {fields : List BoundField}
    (h : writeFields writeIn fields s = .ok u s') (hs : s.space.Sound)
    (hfields : FieldsGood s.space.compiler schema kind l.fields) (hsub : fields ⊆ l.fields)
    (hrow : InRow fields) (ht : s.subject.Tidy s.space.compiler l)
    (hworked : s.subject.Worked fields)
    (hlive : ∀ f ∈ fields, (s.subject.slotAt f.slot).companions ⊆ s.space.store.live) :
    RecordKept l s s' := by
  induction fields generalizing s with
  | nil =>
    obtain ⟨-, rfl⟩ := pure_ok.mp h
    exact .of_same rfl (.refl _) ht
  | cons f rest ih =>
    obtain ⟨_, t, hfirst, hrest⟩ := bind_ok.mp h
    obtain ⟨hapart, hrow'⟩ := List.pairwise_cons.mp hrow
    obtain ⟨hf, hsub'⟩ := List.cons_subset.mp hsub
    obtain ⟨k, hone⟩ := writeFieldWith_sized hin.sized hfirst hs
    have hkept := writeFieldWith_kept hin hfirst hs hfields hf ht
      (hworked f List.mem_cons_self) (hlive f List.mem_cons_self)
    -- writing the field frees nothing
    have hmore : s.space.store.live ⊆ t.space.store.live :=
      live_of_ok (leaves.writeFieldWith hin.leaves f) hfirst hs
    have hsame (g : BoundField) (hg : g ∈ rest) :
        t.subject.slotAt g.slot = s.subject.slotAt g.slot := hkept.others _ (hapart g hg).1.symm
    refine hkept.toRecordKept.trans (ih hrest hone.moved.sound
      (hfields.grows hone.moved.le.compiler) hsub' hrow' hkept.tidy (fun g hg hderived => ?_) fun g hg => ?_)
    · have hflat := hworked g (List.mem_cons_of_mem _ hg) hderived
      rw [RecordOf.slot_eq_slotAt] at hflat ⊢
      rwa [hsame g hg]
    · rw [hsame g hg]
      exact List.Subset.trans (hlive g (List.mem_cons_of_mem _ hg)) hmore

/-! ## Records that are written -/

theorem writeRow_kept (hin : KeepsWell writeIn)
    (h : writeFields writeIn l.fields s = .ok u s') (hs : s.space.Sound) (hl : s.space.Knows l)
    (ht : s.subject.Tidy s.space.compiler l)
    (hworked : s.subject.Worked l.fields) (hlive : s.subject.companions ⊆ s.space.store.live) :
    RecordKept l s s' :=
  writeFields_kept hin h hs (hl.good hs).fields (List.Subset.refl _)
    (hl.good hs).fields.inRow ht hworked fun f _ =>
      List.Subset.trans (s.subject.companions_slotAt f.slot) hlive

theorem writeBody_kept (hin : KeepsWell writeIn) (h : writeBody writeIn l s = .ok u s')
    (hs : s.space.Sound) (hl : s.space.Knows l) (ht : s.subject.Tidy s.space.compiler l)
    (hlive : s.subject.companions ⊆ s.space.store.live) : RecordKept l s s' := by
  rw [writeBody] at h
  obtain ⟨_, s₁, hderive, hrest⟩ := bind_ok.mp h
  obtain ⟨hstudied, hrefreshed⟩ := deriveRecord_ok hderive hs hl
  have hkeeps := deriveRecord_keeps hderive hs hl
  have hworked := deriveRecord_works hderive hs hl
  obtain ⟨config, s₂, hconfig, hwrite⟩ := bind_ok.mp hrest
  obtain ⟨rfl, rfl⟩ := Op.config_ok.mp hconfig
  -- deriving has refreshed the record; the row is then written from what it has left
  have hderived : RecordKept l s s₂ := ⟨hkeeps.tidy ht, hkeeps.names ht, hkeeps.free⟩
  have hl₁ := hl.mono hstudied.learns.toLe
  have hlive₁ : s₂.subject.companions ⊆ s₂.space.store.live := by
    rw [hstudied.learns.store]
    exact List.Subset.trans hrefreshed.companions.subset hlive
  refine hderived.trans ?_
  rcases ite_ok.mp hwrite with ⟨-, hwrite⟩ | ⟨-, hwrite⟩
  · -- the record is measured, and what is written must be of that size
    rw [writeChecked] at hwrite
    simp only [bind_ok, Op.subject_ok, Op.position_ok] at hwrite
    obtain ⟨r, s₂, ⟨rfl, rfl⟩, size, s₃, hcheck, start, s₃, ⟨rfl, rfl⟩, _, s₄, hrow, stop, s₄,
      ⟨rfl, rfl⟩, hdone⟩ := hwrite
    obtain ⟨hstudied', hsubject, -⟩ :=
      space_studied (studies.checkedSize l _ _ hstudied.sound) hcheck
    have hsame : RecordKept l s₂ s₃ := .of_same hsubject hstudied'.learns.compiler hderived.tidy
    rcases ite_ok.mp hdone with ⟨-, hfail⟩ | ⟨-, hpure⟩
    · exact (throw_ok.mp hfail).elim
    · obtain ⟨-, rfl⟩ := pure_ok.mp hpure
      refine hsame.trans (writeRow_kept hin hrow hstudied'.sound
        (hl₁.mono hstudied'.learns.toLe) hsame.tidy (by rw [hsubject]; exact hworked) ?_)
      rw [hsubject, hstudied'.learns.store]
      exact hlive₁
  · exact writeRow_kept hin hwrite hstudied.sound hl₁ hderived.tidy hworked hlive₁

theorem writeRecordWith_kept (hin : KeepsWell writeIn)
    (h : writeRecordWith writeIn l s = .ok u s') (hs : s.space.Sound) (hl : s.space.Knows l)
    (ht : s.subject.Tidy s.space.compiler l)
    (hlive : s.subject.companions ⊆ s.space.store.live) : RecordKept l s s' := by
  rw [writeRecordWith] at h
  simp only [bind_ok, Op.subject_ok, space_requireSchema_ok] at h
  obtain ⟨r, s, ⟨rfl, rfl⟩, _, s, ⟨hschema, rfl⟩, h⟩ := h
  rw [guardingChunks] at h
  simp only [bind_ok, Op.subject_ok, Op.onFailure_ok, rollback_ok] at h
  obtain ⟨r, s, ⟨rfl, rfl⟩, t, hbody, rfl⟩ := h
  have hs₁ : s.space.openScope.Sound := ⟨hs.compiler, hs.store⟩
  have hkept := writeBody_kept hin hbody hs₁ hl ht hlive
  obtain ⟨journal, hkeep⟩ := t.space.keepScope_eq
  refine ⟨?_, hkept.names, hkept.free⟩
  show t.subject.Tidy t.space.keepScope.compiler l
  rw [hkeep]
  exact hkept.tidy

end

/-! ## Values in place -/

/-- What a write of the value of a slot keeps; the value is there afterwards. -/
structure ValueKept (p : Placement) (s s' : Scene Slot) : Prop where
  chunk : s'.subject.chunk = s.subject.chunk
  tidy : s'.subject.value.Tidy s'.space.compiler p
  inside : s.subject.value.companions ⊆ s'.subject.value.companions
  free : s.subject.value.HandleFree → s'.subject.value.HandleFree
  there : s'.subject.value ≠ .null

section

variable {p : Placement} {s t s' : Scene Slot} {u : Unit}

/-- The chunk behind the slot is as it was. -/
theorem ValueKept.slotKept (h : ValueKept p s s') (hbacked : s.subject.Backed p) :
    SlotKept p s s' := by
  refine ⟨⟨?_, h.tidy⟩, ?_, h.inside, h.free⟩
  · rw [Slot.Backed, h.chunk]
    exact hbacked.imp_right fun hbehind => ⟨hbehind.1, h.there⟩
  · rw [h.chunk]
    exact List.Subset.refl _

/-- Nothing but the bytes is new. -/
theorem SlotKept.of_sent {k : Nat} (h : s.Sent s' k) (ht : s.subject.Tidy s.space.compiler p) :
    SlotKept p s s' := by
  obtain ⟨space, stream, subject⟩ := s'
  obtain ⟨rfl, rfl, -⟩ := h
  exact ⟨ht, List.Subset.refl _, List.Subset.refl _, fun hf => hf⟩

theorem SlotKept.before_sent {k : Nat} (h : SlotKept p s t) (hsent : t.Sent s' k) :
    SlotKept p s s' := by
  obtain ⟨space, stream, subject⟩ := s'
  obtain ⟨rfl, rfl, -⟩ := hsent
  exact ⟨h.tidy, h.own, h.inside, h.free⟩

theorem SlotKept.after_same (h : SlotKept p t s') (hsubject : t.subject = s.subject) :
    SlotKept p s s' := by
  obtain ⟨htidy, hown, hinside, hfree⟩ := h
  rw [hsubject] at hown hinside hfree
  exact ⟨htidy, hown, hinside, hfree⟩

theorem ValueKept.after_same (h : ValueKept p t s') (hsubject : t.subject = s.subject) :
    ValueKept p s s' := by
  obtain ⟨hchunk, htidy, hinside, hfree, hthere⟩ := h
  rw [hsubject] at hchunk hinside hfree
  exact ⟨hchunk, htidy, hinside, hfree, hthere⟩

variable {writeIn : WriteIn}

/-- The record of a value, in its layout. -/
theorem writeInside_kept (hin : KeepsWell writeIn) {l : Layout}
    (h : Op.on Slot.recordPart (writeRecordWith writeIn l) s = .ok u s') (hs : s.space.Sound)
    (hl : s.space.Knows l) (hkey : s.subject.value.innerRecord.schema = l.schema →
      p.innerKey? s.space.catalog s.subject.value = some l.key)
    (hinner : s.subject.value = .record s.subject.value.innerRecord ∨
      ∃ wrapper, s.subject.value = .wrapped wrapper s.subject.value.innerRecord)
    (ht : s.subject.value.Tidy s.space.compiler p)
    (hlive : s.subject.value.companions ⊆ s.space.store.live) : ValueKept p s s' := by
  obtain ⟨t, hact, rfl⟩ := Op.on_ok.mp h
  obtain ⟨k, hrecord, hschema⟩ := writeRecordWith_sized hin.sized hact hs hl
  -- the value's layout is the one that decides what it may name
  have hkey := hkey hschema
  have hkept := writeRecordWith_kept hin hact hs hl (ht.inner hkey hl)
    (List.Subset.trans s.subject.value.companions_innerRecord hlive)
  have hvalue := Value.Keeps.inner hinner hrecord.moved.le.compiler hkey hl
    ⟨fun _ => hkept.tidy, fun _ => hkept.names, hkept.free⟩ hrecord.recast.schema
  refine ⟨rfl, hvalue.tidy ht, hvalue.names ht, hvalue.free, ?_⟩
  show s.subject.value.setInnerRecord t.subject ≠ .null
  rcases hinner with hv | ⟨wrapper, hv⟩
  -- a record that was written is there
  · rw [hv]
    exact nofun
  · rw [hv]
    exact nofun

/-- The record of a value in a layout that has just been asked for, after some bytes. -/
theorem writeAsked_kept (hin : KeepsWell writeIn) {layout : SpaceM Layout} {k : Nat}
    (hsent : s.Sent t k)
    (h : (Op.space layout >>= fun l => Op.on Slot.recordPart (writeRecordWith writeIn l)) t =
      .ok u s') (hlayout : p.AsksFor s.subject.value layout s.space)
    (hinner : s.subject.value = .record s.subject.value.innerRecord ∨
      ∃ wrapper, s.subject.value = .wrapped wrapper s.subject.value.innerRecord)
    (ht : s.subject.Tidy s.space.compiler p)
    (hlive : s.subject.companions ⊆ s.space.store.live) : SlotKept p s s' := by
  obtain ⟨space, stream, subject⟩ := t
  obtain ⟨rfl, rfl, -⟩ := hsent
  obtain ⟨l, t₁, hask, hrecord⟩ := bind_ok.mp h
  -- what was assumed of the slot holds in the space that knows the layout
  obtain ⟨hstudied, hsubject, hl, hkey⟩ :=
    space_studied (s := ⟨s.space, stream, s.subject⟩) hlayout hask
  have hsubject : t₁.subject = s.subject := hsubject
  have hkept : ValueKept p t₁ s' := by
    refine writeInside_kept hin hrecord hstudied.sound hl ?_ ?_ ?_ ?_
    · rw [hsubject, hstudied.learns.catalog]
      exact hkey
    · rw [hsubject]
      exact hinner
    · rw [hsubject]
      exact ht.inside.mono hstudied.learns.compiler
    · rw [hsubject, hstudied.learns.store]
      exact List.Subset.trans (List.subset_append_right _ _) hlive
  exact (hkept.after_same hsubject).slotKept ht.backed

theorem writeInner_kept (hin : KeepsWell writeIn) {id : SchemaId} {kind : LayoutKind}
    (h : writeInner writeIn id kind s = .ok u s') (hs : s.space.Sound)
    (hkey : ∀ cat r, p.innerKey? cat (.record r) = some (r.schema, kind))
    (ht : s.subject.Tidy s.space.compiler p)
    (hlive : s.subject.companions ⊆ s.space.store.live) : SlotKept p s s' := by
  rw [writeInner] at h
  simp only [bind_ok, Op.subject_ok, Op.catalog_ok] at h
  obtain ⟨slot, s, ⟨rfl, rfl⟩, c, s, ⟨rfl, rfl⟩, h⟩ := h
  cases hv : s.subject.value with
  | record r =>
    simp only [hv] at h
    rcases ite_ok.mp h with ⟨hschema, hrun⟩ | ⟨-, hfail⟩
    · refine writeAsked_kept hin (.refl s) hrun (Placement.asksFor_layout hs fun _ => ?_)
        (.inl (by rw [hv]; rfl)) ht hlive
      rw [hv, hkey, hschema]
    · exact (space_mismatch_fails hfail).elim
  | _ =>
    simp only [hv] at h
    exact (space_mismatch_fails h).elim

theorem writeWrapped_kept (hin : KeepsWell writeIn) {wrapper : WrapperId} {carrier : SchemaId}
    {kind : LayoutKind} (h : writeWrapped writeIn wrapper carrier kind s = .ok u s') (hs : s.space.Sound)
    (ht : s.subject.Tidy s.space.compiler (.wrapped wrapper carrier kind))
    (hlive : s.subject.companions ⊆ s.space.store.live) :
    SlotKept (.wrapped wrapper carrier kind) s s' := by
  rw [writeWrapped] at h
  simp only [bind_ok, Op.subject_ok, Op.catalog_ok] at h
  obtain ⟨slot, s, ⟨rfl, rfl⟩, c, s, ⟨rfl, rfl⟩, h⟩ := h
  cases hv : s.subject.value with
  | wrapped found r =>
    simp only [hv] at h
    rcases ite_ok.mp h with ⟨-, hrun⟩ | ⟨-, hfail⟩
    · refine writeAsked_kept hin (.refl s) hrun (Placement.asksFor_layout hs fun _ => ?_)
        -- a wrapped record is measured by the wrapper's carrier
        (.inr ⟨found, by rw [hv]; rfl⟩) ht hlive
      rw [hv]
      rfl
    · exact (space_mismatch_fails hfail).elim
  | _ =>
    simp only [hv] at h
    exact (space_mismatch_fails h).elim

theorem writeChoice_kept (hin : KeepsWell writeIn) {choice : ChoiceId}
    (h : writeChoice writeIn choice s = .ok u s') (hs : s.space.Sound)
    (ht : s.subject.Tidy s.space.compiler (.inlineChoice choice))
    (hlive : s.subject.companions ⊆ s.space.store.live) : SlotKept (.inlineChoice choice) s s' := by
  rw [writeChoice] at h
  simp only [bind_ok, Op.subject_ok, Op.catalog_ok] at h
  obtain ⟨slot, s, ⟨rfl, rfl⟩, c, s, ⟨rfl, rfl⟩, h⟩ := h
  cases hv : s.subject.value with
  | null =>
    simp only [hv] at h
    exact .of_sent (writeVarint_sent h) ht
  | record r =>
    simp only [hv] at h
    obtain ⟨tag, s₁, hask, hrest⟩ := bind_ok.mp h
    -- the tag is looked up by the record's schema
    obtain ⟨-, rfl⟩ := space_tagOf_ok.mp hask
    obtain ⟨_, t, hmark, hrun⟩ := bind_ok.mp hrest
    refine writeAsked_kept hin (writeVarint_sent hmark) hrun
      (Placement.asksFor_variant hs ?_) (.inl (by rw [hv]; rfl)) ht hlive
    rw [hv]
    rfl
  | _ =>
    simp only [hv] at h
    exact (space_mismatch_fails h).elim

/-- A value of open type, as its type is placed. -/
theorem writeLoose_kept (hin : KeepsWell writeIn) {q : Placement}
    (h : Op.on Slot.loosePart (writeIn q) s = .ok u s') (hs : s.space.Sound)
    (hne : s.subject.value ≠ .null) (hsame : ∀ v, v.type? = s.subject.value.type? →
      q.innerKey? s.space.catalog v = p.innerKey? s.space.catalog v)
    (ht : s.subject.value.Tidy s.space.compiler p)
    (hlive : s.subject.value.companions ⊆ s.space.store.live) : ValueKept p s s' := by
  obtain ⟨t, hact, rfl⟩ := Op.on_ok.mp h
  obtain ⟨k, hslot⟩ := hin.sized _ _ _ _ hact hs
  have hrecast : s.subject.value.Recast s.space.catalog t.subject.value := hslot.recast
  have hkept := hin.kept _ _ _ _ hact hs ⟨.inl rfl, ht.congr (hsame _ rfl)⟩ hlive
  refine ⟨rfl, hkept.tidy.inside.congr ?_, hkept.inside, hkept.free, fun hnull => hne ?_⟩
  · show p.innerKey? t.space.catalog t.subject.value = q.innerKey? t.space.catalog t.subject.value
    rw [hslot.moved.le.catalog]
    exact (hsame _ hrecast.type?).symm
  · have hisNull := hrecast.isNull
    rw [show t.subject.value = .null from hnull] at hisNull
    exact Value.isNull_iff.mp hisNull.symm

/-- The record inside a value of open type stands as the type is placed. -/
theorem Workspace.Sound.innerKey?_typed {w w' : Workspace} (hs' : w'.Sound)
    {type known : ValueType} {i : Nat} {q : Placement}
    (hgives : w.types.Gives w.catalog type i) (hknown : w.types.resolve (i + 1) = .ok known)
    (hanswer : w'.compiler.placementAnswer (known.key, .flexible) = some q) {v : Value}
    (htype : v.type? = some type) :
    q.innerKey? w'.catalog v = Placement.inlineOpen.innerKey? w'.catalog v := by
  obtain ⟨known', hknown', hkey⟩ := hgives.resolve
  rw [hknown] at hknown'
  cases hknown'
  rw [hs'.openPlacement hanswer, hkey]
  exact Placement.innerKey?_flexible htype

theorem writeOpen_kept (hin : KeepsWell writeIn) (h : writeOpen writeIn s = .ok u s')
    (hs : s.space.Sound) (ht : s.subject.Tidy s.space.compiler .inlineOpen)
    (hlive : s.subject.companions ⊆ s.space.store.live) : SlotKept .inlineOpen s s' := by
  rw [writeOpen] at h
  simp only [bind_ok, Op.subject_ok] at h
  obtain ⟨slot, s, ⟨rfl, rfl⟩, id, s₁, hask, _, s₂, hmark, h⟩ := h
  obtain ⟨hstudied, hsubject, hid⟩ := space_studied (typeId_gives hs _) hask
  have hsent := writeVarint_sent hmark
  have hsame : s₂.subject = s.subject := hsent.subject.trans hsubject
  have hs₂ : s₂.space.Sound := hsent.space ▸ hstudied.sound
  have hlearns : s.space.Learns s₂.space := hsent.space ▸ hstudied.learns
  have ht₂ : s₂.subject.Tidy s₂.space.compiler .inlineOpen := by
    rw [hsame]
    exact ht.mono hlearns.compiler
  rcases hid with ⟨rfl, hnull⟩ | ⟨type, i, htype, rfl, hgives⟩
  · -- no value is there
    obtain ⟨-, rfl⟩ := pure_ok.mp h
    exact (SlotKept.of_sent (.refl s₂) ht₂).after_same hsame
  · rw [if_neg (Nat.succ_ne_zero i)] at h
    obtain ⟨q, s₃, hplace, hloose⟩ := bind_ok.mp h
    obtain ⟨hstudied', hsubject', known, hknown, hanswer⟩ :=
      space_studied (openPlacement_learning hs₂ _) hplace
    -- a value of some type is not absent
    have hthere : s₃.subject.value ≠ .null := by
      rw [hsubject', hsame]
      intro hnull
      rw [hnull] at htype
      cases htype
    rw [← hsent.space] at hgives
    have hkept := writeLoose_kept (p := .inlineOpen) hin hloose hstudied'.sound hthere
      (fun v hv => hstudied'.sound.innerKey?_typed hgives hknown hanswer
        (hv.trans (by rw [hsubject', hsame, htype])))
      (by rw [hsubject']; exact ht₂.inside.mono hstudied'.learns.compiler)
      (by
        rw [hsubject', hsame, hstudied'.learns.store, hlearns.store]
        exact List.Subset.trans (List.subset_append_right _ _) hlive)
    exact (hkept.after_same (hsubject'.trans hsame)).slotKept ht.backed

/-! ## Values behind references -/

/-- What a write of the value of a slot keeps elsewhere, where it succeeds. -/
def StoresWell (p : Placement) (body : Op Slot Unit) (s : Scene Slot) : Prop :=
  ∀ (t t' : Scene Slot) u, body t = .ok u t' → s.space.Le t.space → t.subject = s.subject →
    t.space.Sound → s.space.store.live ⊆ t.space.store.live → ValueKept p t t'

/-- A chunk that is in use is live, so that it is never replaced by another. -/
theorem storeBehind_kept {hint : Nat} {body : Op Slot Unit} {chunk : ChunkId}
    (h : storeBehind hint body s = .ok chunk s') (hbody : StoresWell p body s) (hs : s.space.Sound)
    (hbehind : p.isBehind = true) (hown : ownChunk s.subject.chunk ⊆ s.space.store.live) :
    SlotKept p s s' := by
  rw [storeBehind] at h
  simp only [bind_ok, Op.subject_ok] at h
  obtain ⟨slot, s, ⟨rfl, rfl⟩, live, s₁, hlive, h⟩ := h
  obtain ⟨w, hask, rfl⟩ := Op.space_ok.mp hlive
  cases hask
  rcases ite_ok.mp h with ⟨-, h⟩ | ⟨hnone, h⟩
  · -- the chunk of the slot is filled again
    obtain ⟨_, s₁, hchunk, hpure⟩ := bind_ok.mp h
    obtain ⟨rfl, rfl⟩ := pure_ok.mp hpure
    obtain ⟨content, t, -, hrun, rfl⟩ := withChunk_ok.mp hchunk
    obtain ⟨t₁, after, hact, -, rfl⟩ := inTransaction_ok.mp hrun
    obtain ⟨_, t₂, hfill, hcut⟩ := bind_ok.mp hact
    have hkept := hbody _ _ _ hfill (.refl _) rfl hs (List.Subset.refl _)
    rw [Op.cutHere_ok] at hcut
    subst hcut
    exact ⟨⟨.inr ⟨hbehind, hkept.there⟩, hkept.tidy⟩,
      (congrArg ownChunk hkept.chunk).symm ▸ List.Subset.refl _, hkept.inside, hkept.free⟩
  · -- there is no chunk yet
    have hnull : s.subject.chunk = .null := by
      by_contra hne
      have hmem := hown (mem_ownChunk.mpr ⟨rfl, hne⟩)
      simp [ChunkStore.contains_iff.mpr hmem, ChunkId.isNull_iff, hne] at hnone
    obtain ⟨found, s₁, hchunk, hrest⟩ := bind_ok.mp h
    obtain ⟨_, s₂, hset, hpure⟩ := bind_ok.mp hrest
    obtain ⟨rfl, rfl⟩ := pure_ok.mp hpure
    rw [Op.modifySubject_ok] at hset
    subst hset
    obtain ⟨heap, t, hstore, rfl, hscope, rfl⟩ := allocateWith_ok hchunk
    obtain ⟨t₁, hfill, rfl⟩ := rollback_ok.mp hscope
    obtain ⟨content, t₂, -, hrun, rfl⟩ := withChunk_ok.mp hfill
    have hs₁ : Workspace.Sound ({ s.space with heap }.openScope) := by
      refine ⟨hs.compiler, ?_⟩
      show heap.store.Sound
      rw [hstore]
      exact (ChunkStore.Writes.allocate hs.store []).sound hs.store
    have hmore : s.space.store.live ⊆ heap.store.live := by
      rw [hstore]
      exact (ChunkStore.Gains.allocate hs.store).live.subset
    have hkept := hbody _ _ _ hrun ⟨.refl _, .refl _, rfl⟩ rfl hs₁ hmore
    have hend := (t₂.space.setStore (t₂.space.store.close ⟨s.space.store.next⟩
      t₂.stream)).keepScope_note_eq ⟨s.space.store.next⟩
    obtain ⟨journal, hend⟩ := hend
    -- the new chunk is live from here on, and the slot that named none before names it
    refine ⟨⟨.inr ⟨hbehind, hkept.there⟩, ?_⟩, ?_, hkept.inside, hkept.free⟩
    · show t₂.subject.value.Tidy (((t₂.space.setStore (t₂.space.store.close _ _)).keepScope).note
        _).compiler p
      rw [hend]
      exact hkept.tidy
    · rw [hnull]
      exact List.nil_subset _

/-- A value that is not there has no chunk either. -/
theorem forgetChunk_kept {chunk : ChunkId} (h : forgetChunk s = .ok chunk s')
    (hv : s.subject.value = .null) (ht : s.subject.Tidy s.space.compiler p) : SlotKept p s s' := by
  have hnull : s.subject.chunk = .null := by
    rcases ht.backed with hnull | ⟨-, hne⟩
    · exact hnull
    · exact absurd hv hne
  rw [forgetChunk] at h
  obtain ⟨_, t, hset, hpure⟩ := bind_ok.mp h
  obtain ⟨rfl, rfl⟩ := pure_ok.mp hpure
  rw [Op.modifySubject_ok] at hset
  subst hset
  refine ⟨⟨.inl rfl, ht.inside⟩, ?_, List.Subset.refl _, fun hf => hf⟩
  rw [hnull]
  exact List.Subset.refl _

theorem storeRecordBehind_kept (hin : KeepsWell writeIn) {l : Layout} {r : Record} {chunk : ChunkId}
    (h : storeRecordBehind writeIn l r s = .ok chunk s') (hv : s.subject.value = .record r)
    (hs : s.space.Sound) (hl : s.space.Knows l) (hbehind : p.isBehind = true)
    (hkey : ∀ cat, r.schema = l.schema → p.innerKey? cat (.record r) = some l.key)
    (ht : s.subject.Tidy s.space.compiler p)
    (hlive : s.subject.companions ⊆ s.space.store.live) : SlotKept p s s' := by
  obtain ⟨hint, s₁, hask, hstore⟩ := bind_ok.mp h
  obtain ⟨hstudied, hsubject, -⟩ := space_studied (studies.recordSize l r _ hs) hask
  have hlearns := hstudied.learns
  -- measuring the record changes neither the slot nor the store
  rw [← hsubject] at ht hlive hv
  rw [← hlearns.store] at hlive
  refine (storeBehind_kept hstore (fun t t' u hwrite hle hslot hst hmore => ?_) hstudied.sound
    hbehind (List.Subset.trans (List.subset_append_left _ _) hlive)).after_same hsubject
  refine writeInside_kept hin hwrite hst (hl.mono (hlearns.toLe.trans hle)) ?_ ?_ ?_ ?_
  · rw [hslot, hv]
    exact hkey _
  · rw [hslot, hv]
    exact .inl rfl
  · rw [hslot]
    exact ht.inside.mono (hlearns.toLe.trans hle).compiler
  · rw [hslot]
    exact List.Subset.trans (List.Subset.trans (List.subset_append_right _ _) hlive) hmore

theorem writeTextBehind_kept (h : writeTextBehind s = .ok u s') (hs : s.space.Sound)
    (ht : s.subject.Tidy s.space.compiler .chunkText)
    (hlive : s.subject.companions ⊆ s.space.store.live) : SlotKept .chunkText s s' := by
  rw [writeTextBehind] at h
  simp only [bind_ok, Op.subject_ok] at h
  obtain ⟨slot, s, ⟨rfl, rfl⟩, h⟩ := h
  -- an absent text forgets its chunk, a present one is stored in it
  cases hv : s.subject.value with
  | null =>
    simp only [hv] at h
    obtain ⟨chunk, t, hforget, hreference⟩ := bind_ok.mp h
    exact (forgetChunk_kept hforget hv ht).before_sent (writeChunkId_sent hreference)
  | text text =>
    simp only [hv] at h
    obtain ⟨chunk, t, hstore, hreference⟩ := bind_ok.mp h
    refine (storeBehind_kept hstore (fun t t' u hwrite _ hslot _ _ => ?_) hs rfl
      (List.Subset.trans (List.subset_append_left _ _) hlive)).before_sent
        (writeChunkId_sent hreference)
    have hsent := write_sent hwrite
    have hvalue : t'.subject = t.subject := hsent.subject
    rw [← hslot] at hv
    refine ⟨by rw [hvalue], .bare ?_, ?_, fun hfree => ?_, ?_⟩
    · rw [hvalue, hv]
      rfl
    · rw [hvalue]
      exact List.Subset.refl _
    · rwa [hvalue]
    · rw [hvalue, hv]
      intro hnull
      cases hnull
  | _ =>
    simp only [hv] at h
    obtain ⟨_, _, hfail, -⟩ := bind_ok.mp h
    exact (space_mismatch_fails hfail).elim

theorem writeRecordBehind_kept (hin : KeepsWell writeIn) {id : SchemaId}
    (h : writeRecordBehind writeIn id s = .ok u s') (hs : s.space.Sound)
    (ht : s.subject.Tidy s.space.compiler (.chunkRecord id))
    (hlive : s.subject.companions ⊆ s.space.store.live) : SlotKept (.chunkRecord id) s s' := by
  rw [writeRecordBehind] at h
  simp only [bind_ok, Op.subject_ok, Op.catalog_ok] at h
  obtain ⟨slot, s, ⟨rfl, rfl⟩, c, s, ⟨rfl, rfl⟩, h⟩ := h
  -- an absent record forgets its chunk, a present one is stored in it with the layout of its schema
  cases hv : s.subject.value with
  | null =>
    simp only [hv] at h
    obtain ⟨chunk, t, hforget, hreference⟩ := bind_ok.mp h
    exact (forgetChunk_kept hforget hv ht).before_sent (writeChunkId_sent hreference)
  | record r =>
    simp only [hv] at h
    rcases ite_ok.mp h with ⟨hschema, hrun⟩ | ⟨-, hfail⟩
    · obtain ⟨l, s₁, hask, hrest⟩ := bind_ok.mp hrun
      obtain ⟨chunk, t, hstore, hreference⟩ := bind_ok.mp hrest
      obtain ⟨hstudied, hsubject, hl, hkey⟩ := space_studied (layout_knows hs id .standard) hask
      have hkept := storeRecordBehind_kept (p := .chunkRecord id) hin hstore
        (by rw [hsubject, hv]) hstudied.sound hl rfl
        (fun cat hsame => by rw [hkey, ← hschema]; rfl)
        (by rw [hsubject]; exact ht.mono hstudied.learns.compiler)
        (by rw [hsubject, hstudied.learns.store]; exact hlive)
      exact (hkept.after_same hsubject).before_sent (writeChunkId_sent hreference)
    · obtain ⟨_, _, hfail, -⟩ := bind_ok.mp hfail
      exact (space_mismatch_fails hfail).elim
  | _ =>
    simp only [hv] at h
    obtain ⟨_, _, hfail, -⟩ := bind_ok.mp h
    exact (space_mismatch_fails hfail).elim

/-- A tag or the id of a type, and a reference, after what it refers to. -/
theorem SlotKept.before_tagged (h : SlotKept p s t) {tag : Nat} {chunk : ChunkId}
    (hreference : (do
      Op.stream (ByteSink.writeU32 tag)
      writeChunkId chunk : Op Slot Unit) t = .ok u s') : SlotKept p s s' := by
  obtain ⟨_, t', hmark, hrest⟩ := bind_ok.mp hreference
  exact (h.before_sent (writeU32_sent hmark)).before_sent (writeChunkId_sent hrest)

theorem writeChoiceBehind_kept (hin : KeepsWell writeIn) {choice : ChoiceId}
    (h : writeChoiceBehind writeIn choice s = .ok u s') (hs : s.space.Sound)
    (ht : s.subject.Tidy s.space.compiler (.chunkChoice choice))
    (hlive : s.subject.companions ⊆ s.space.store.live) : SlotKept (.chunkChoice choice) s s' := by
  rw [writeChoiceBehind] at h
  simp only [bind_ok, Op.subject_ok, Op.catalog_ok] at h
  obtain ⟨slot, s, ⟨rfl, rfl⟩, c, s, ⟨rfl, rfl⟩, h⟩ := h
  -- as for a plain record, with the variant's layout and the tag sent before the reference
  cases hv : s.subject.value with
  | null =>
    simp only [hv] at h
    obtain ⟨chunk, t, hforget, hrest⟩ := bind_ok.mp h
    obtain ⟨_, t', hpair, hreference⟩ := bind_ok.mp hrest
    obtain ⟨rfl, rfl⟩ := pure_ok.mp hpair
    exact (forgetChunk_kept hforget hv ht).before_tagged hreference
  | record r =>
    simp only [hv] at h
    obtain ⟨tag, s₁, htag, hrest⟩ := bind_ok.mp h
    obtain ⟨-, rfl⟩ := space_tagOf_ok.mp htag
    obtain ⟨l, s₂, hask, hrest⟩ := bind_ok.mp hrest
    obtain ⟨hstudied, hsubject, hl, variant, -, hkey⟩ :=
      space_studied (variantLayout_knows hs choice tag) hask
    obtain ⟨chunk, t, hstore, hrest⟩ := bind_ok.mp hrest
    obtain ⟨_, t', hpair, hreference⟩ := bind_ok.mp hrest
    obtain ⟨rfl, rfl⟩ := pure_ok.mp hpair
    have hkept := storeRecordBehind_kept (p := .chunkChoice choice) hin hstore
      (by rw [hsubject, hv]) hstudied.sound hl rfl
      (fun cat hsame => by
        rw [hkey]
        exact congrArg (fun id => some (id, LayoutKind.standard))
          (hsame.trans (congrArg Prod.fst hkey)))
      (by rw [hsubject]; exact ht.mono hstudied.learns.compiler)
      (by rw [hsubject, hstudied.learns.store]; exact hlive)
    exact (hkept.after_same hsubject).before_tagged hreference
  | _ =>
    simp only [hv] at h
    obtain ⟨_, _, hfail, -⟩ := bind_ok.mp h
    exact (space_mismatch_fails hfail).elim

theorem writeOpenBehind_kept (hin : KeepsWell writeIn) (h : writeOpenBehind writeIn s = .ok u s')
    (hs : s.space.Sound) (ht : s.subject.Tidy s.space.compiler .chunkOpen)
    (hlive : s.subject.companions ⊆ s.space.store.live) : SlotKept .chunkOpen s s' := by
  rw [writeOpenBehind] at h
  simp only [bind_ok, Op.subject_ok] at h
  obtain ⟨slot, s, ⟨rfl, rfl⟩, id, s₁, hask, h⟩ := h
  obtain ⟨hstudied, hsubject, hid⟩ := space_studied (typeId_gives hs _) hask
  have hlearns := hstudied.learns
  have ht₁ : s₁.subject.Tidy s₁.space.compiler .chunkOpen := by
    rw [hsubject]
    exact ht.mono hlearns.compiler
  rcases hid with ⟨rfl, hnull⟩ | ⟨type, i, htype, rfl, hgives⟩
  · -- no value is there
    obtain ⟨chunk, t, hforget, hreference⟩ := bind_ok.mp h
    exact ((forgetChunk_kept hforget (by rw [hsubject, hnull]) ht₁).after_same
      hsubject).before_tagged hreference
  · rw [if_neg (Nat.succ_ne_zero i)] at h
    obtain ⟨q, s₂, hplace, hrest⟩ := bind_ok.mp h
    obtain ⟨hstudied', hsubject', known, hknown, hanswer⟩ :=
      space_studied (openPlacement_learning hstudied.sound _) hplace
    obtain ⟨hint, s₃, hsize, hrest⟩ := bind_ok.mp hrest
    obtain ⟨hstudied'', hsubject'', -⟩ :=
      space_studied (studies.placedSize q _ _ hstudied'.sound) hsize
    obtain ⟨chunk, t, hstore, hreference⟩ := bind_ok.mp hrest
    have hsame : s₃.subject = s.subject := hsubject''.trans (hsubject'.trans hsubject)
    have hlearns₃ := (hlearns.trans hstudied'.learns).trans hstudied''.learns
    rw [← hlearns₃.store, ← hsame] at hlive
    refine SlotKept.before_tagged (.after_same (storeBehind_kept hstore
      (fun t t' u hwrite hle hslot hst hmore => ?_) hstudied''.sound rfl
      (List.Subset.trans (List.subset_append_left _ _) hlive)) hsame) hreference
    -- the type of the value is the one its number stands for, so the placement asked for is the
    -- value's
    have hle₂ : s₂.space.Le t.space := hstudied''.learns.toLe.trans hle
    refine writeLoose_kept hin hwrite hst ?_ ?_ ?_ ?_
    · -- a value of some type is not absent
      rw [hslot, hsame]
      intro hnull
      rw [hnull] at htype
      cases htype
    · exact fun v hv => hst.innerKey?_typed hgives hknown
        (hle₂.compiler.placementAnswer hanswer) (hv.trans (by rw [hslot, hsame, htype]))
    · rw [hslot, hsame]
      exact ht.inside.mono (hlearns₃.toLe.trans hle).compiler
    · rw [hslot]
      exact List.Subset.trans (List.Subset.trans (List.subset_append_right _ _) hlive) hmore

/-! ## Values at any depth -/

/-- An inline text leaves bytes only. -/
theorem writeText_sent (h : writeText s.subject.value s = .ok u s') : ∃ k, s.Sent s' k := by
  cases hv : s.subject.value with
  | null =>
    rw [hv] at h
    exact ⟨_, writeVarint_sent h⟩
  | text text =>
    rw [hv, writeText] at h
    obtain ⟨_, t, hlength, hbytes⟩ := bind_ok.mp h
    exact ⟨_, (writeVarint_sent hlength).trans (write_sent hbytes)⟩
  | _ =>
    rw [hv] at h
    exact (space_mismatch_fails h).elim

/-- A handle leaves bytes only. -/
theorem writeHandle_sent {id : SchemaId} {fixed : Bool} {v : Value}
    (h : writeHandle id fixed v s = .ok u s') : ∃ k, s.Sent s' k := by
  have hwritten {chunk : ChunkId} (h : (if fixed then writeChunkId chunk
      else writeVarint chunk.id : Op Slot Unit) s = .ok u s') : ∃ k, s.Sent s' k := by
    rcases ite_ok.mp h with ⟨-, hwrite⟩ | ⟨-, hwrite⟩
    · exact ⟨_, writeChunkId_sent hwrite⟩
    · exact ⟨_, writeVarint_sent hwrite⟩
  rw [writeHandle] at h
  obtain ⟨c, t, hcat, hrest⟩ := bind_ok.mp h
  obtain ⟨-, rfl⟩ := Op.catalog_ok.mp hcat
  cases v with
  | null => exact hwritten hrest
  | handle hd =>
    simp only at hrest
    split at hrest
    · exact hwritten hrest
    · obtain ⟨_, _, hfail, -⟩ := bind_ok.mp hrest
      exact (space_mismatch_fails hfail).elim
  | _ =>
    obtain ⟨_, _, hfail, -⟩ := bind_ok.mp hrest
    exact (space_mismatch_fails hfail).elim

/-- Writing values keeps what is in use, however deep they are nested. -/
theorem writeWithin_kept (depth : Nat) : KeepsWell (writeWithin depth) := by
  -- the induction is on the depth; plain sends keep the slot; every other placement has a lemma of
  -- its own
  refine ⟨writeWithin_sized depth, fun p => leaves.writeWithin depth p, ?_⟩
  induction depth with
  | zero =>
    intro p s s' u h
    exact (throw_ok.mp h).elim
  | succ depth ih =>
    intro p s s' u h hs ht hlive
    have hin : KeepsWell (writeWithin depth) :=
      ⟨writeWithin_sized depth, fun p => leaves.writeWithin depth p, ih⟩
    rw [writeWithin, bind_ok] at h
    obtain ⟨slot, s, hsubject, h⟩ := h
    obtain ⟨rfl, rfl⟩ := Op.subject_ok.mp hsubject
    cases p with
    | scalar kind => exact .of_sent (writeScalar_sent h) ht
    | inlineText =>
      obtain ⟨k, hsent⟩ := writeText_sent h
      exact .of_sent hsent ht
    | handle id fixed =>
      obtain ⟨k, hsent⟩ := writeHandle_sent h
      exact .of_sent hsent ht
    | chunkText => exact writeTextBehind_kept h hs ht hlive
    | inlineRecord id => exact writeInner_kept hin h hs (fun _ _ => rfl) ht hlive
    | fixedRecord id => exact writeInner_kept hin h hs (fun _ _ => rfl) ht hlive
    | chunkRecord id => exact writeRecordBehind_kept hin h hs ht hlive
    | inlineChoice choice => exact writeChoice_kept hin h hs ht hlive
    | chunkChoice choice => exact writeChoiceBehind_kept hin h hs ht hlive
    | inlineOpen => exact writeOpen_kept hin h hs ht hlive
    | chunkOpen => exact writeOpenBehind_kept hin h hs ht hlive
    | wrapped wrapper carrier kind => exact writeWrapped_kept hin h hs ht hlive

end

/-- A write of a record all of whose chunks are in use leaves them in use: the record names them
still, and it names no others that are not. -/
theorem writeRecord_kept {l : Layout} {s s' : Scene Record} {u : Unit}
    (h : writeRecord l s = .ok u s') (hs : s.space.Sound) (hl : s.space.Knows l)
    (ht : s.subject.Tidy s.space.compiler l)
    (hlive : s.subject.companions ⊆ s.space.store.live) : RecordKept l s s' := by
  rw [writeRecord] at h
  obtain ⟨r, s₁, hsubject, hrun⟩ := bind_ok.mp h
  obtain ⟨rfl, rfl⟩ := Op.subject_ok.mp hsubject
  exact writeRecordWith_kept (writeWithin_kept _) hrun hs hl ht hlive

end RecordLayout
