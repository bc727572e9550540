import RecordLayout.Proofs.Codec.RoundTrip
import RecordLayout.Proofs.Size.Takes

/-!
# Sizes of what is written

A write that succeeds moves the cursor by what the record takes as it is after the write, whether or
not the write is checked. Nothing is asked of the stream or of the chunks behind the slots.

Main results:

* `writeFieldWith_sized`, `writeFields_sized` — fields, by induction along the row;
* `writeWithin_sized` — values in their placements, by induction on the depth;
* `writeRecord_size` — records;
* `writeRecord_size_not_in_words` — a range with a bound that is too large for a word.
-/

namespace RecordLayout

open ChunkStore

/-! ## Operations that move the cursor -/

/-- The cursor has moved past `k` bytes. If it stood inside the stream, they have been put where it
stood. -/
structure ByteStream.Advances (b b' : ByteStream) (k : Nat) : Prop where
  position : b'.position = b.position + k
  puts : b.Writable → ∃ data, data.length = k ∧ b.Puts data b'

theorem ByteStream.Advances.refl (b : ByteStream) : b.Advances b 0 :=
  ⟨rfl, fun hw => ⟨[], rfl, .refl hw⟩⟩

/-- Two moves forward in a row are one move over the sum of their bytes. -/
theorem ByteStream.Advances.trans {b b' b'' : ByteStream} {j k : Nat} (h : b.Advances b' j)
    (h' : b'.Advances b'' k) : b.Advances b'' (j + k) := by
  refine ⟨by rw [h'.position, h.position, Nat.add_assoc], fun hw => ?_⟩
  obtain ⟨first, rfl, hfirst⟩ := h.puts hw
  obtain ⟨second, rfl, hsecond⟩ := h'.puts hfirst.writable
  exact ⟨first ++ second, List.length_append, hfirst.trans hsecond⟩

section

variable {τ υ ω : Type} {s s' : Scene τ} {u : Unit}

/-- Bytes have been written, and more may be known; what the chunks hold may have changed. -/
structure Scene.Moved (s : Scene τ) (s' : Scene υ) (k : Nat) : Prop where
  sound : s'.space.Sound
  le : s.space.Le s'.space
  stream : s.stream.Advances s'.stream k

theorem Scene.Moved.refl (hs : s.space.Sound) : s.Moved s 0 := ⟨hs, .refl _, .refl _⟩

/-- Moves compose, and their byte counts add up. -/
theorem Scene.Moved.trans {t : Scene υ} {s'' : Scene ω} {j k : Nat} (h : s.Moved t j)
    (h' : t.Moved s'' k) : s.Moved s'' (j + k) :=
  ⟨h'.sound, h.le.trans h'.le, h.stream.trans h'.stream⟩

/-- Compiling a layout or checking a value moves the cursor by nothing. -/
theorem Scene.Studied.moved (h : s.Studied s') : s.Moved s' 0 :=
  ⟨h.sound, h.learns.toLe, by rw [h.stream]; exact .refl _⟩

/-- So many bytes have been written, and nothing else has changed. -/
structure Scene.Sent (s s' : Scene τ) (k : Nat) : Prop where
  space : s'.space = s.space
  subject : s'.subject = s.subject
  stream : s.stream.Advances s'.stream k

theorem Scene.Sent.refl (s : Scene τ) : s.Sent s 0 := ⟨rfl, rfl, .refl _⟩

/-- Two plain sends in a row are one send of both lengths. -/
theorem Scene.Sent.trans {t : Scene τ} {j k : Nat} (h : s.Sent t j) (h' : t.Sent s' k) :
    s.Sent s' (j + k) :=
  ⟨h'.space.trans h.space, h'.subject.trans h.subject, h.stream.trans h'.stream⟩

/-- A plain send from a sound space is in particular a move. -/
theorem Scene.Sent.moved {k : Nat} (h : s.Sent s' k) (hs : s.space.Sound) : s.Moved s' k :=
  ⟨by rwa [h.space], by rw [h.space]; exact .refl _, h.stream⟩

/-! ## Plain values -/

/-- Writing a piece of data sends exactly its bytes. -/
theorem write_sent {data : Bytes} (h : (Op.write data : Op τ Unit) s = .ok u s') :
    s.Sent s' data.length := by
  obtain ⟨b, hput, rfl⟩ := Op.write_ok.mp h
  exact ⟨rfl, rfl, ByteStream.position_put hput, fun hw => ⟨data, rfl, ByteStream.put_puts hw hput⟩⟩

/-- Padding by `n` sends `n` bytes. -/
theorem writeZeros_sent {n : Nat} (h : (writeZeros n : Op τ Unit) s = .ok u s') : s.Sent s' n := by
  induction n using Nat.strong_induction_on generalizing s with
  | _ n ih =>
    rw [writeZeros] at h
    split at h
    · rename_i hzero
      obtain ⟨-, rfl⟩ := pure_ok.mp h
      rw [hzero]
      exact .refl s
    · obtain ⟨_, t, hfirst, hrest⟩ := bind_ok.mp h
      have hsent := write_sent hfirst
      rw [List.length_replicate] at hsent
      have hboth := hsent.trans (ih (n - min n 64) (by omega) hrest)
      rwa [show min n 64 + (n - min n 64) = n by omega] at hboth

/-- A length prefix takes as many bytes as its varint has groups of seven bits. -/
theorem writeVarint_sent {n : Nat} (h : (writeVarint n : Op τ Unit) s = .ok u s') :
    s.Sent s' (Varint.length (UInt64.ofNat n)) := by
  rw [← Varint.length_encode]
  exact write_sent h

/-- A number of four bytes sends four. -/
theorem writeU32_sent {n : Nat} (h : (Op.stream (ByteSink.writeU32 n) : Op τ Unit) s = .ok u s') :
    s.Sent s' 4 := by
  have hsent : s.Sent s' (leBytes 4 n).length := write_sent h
  rwa [length_leBytes] at hsent

/-- A chunk's identifier always takes its fixed width. -/
theorem writeChunkId_sent {chunk : ChunkId} (h : (writeChunkId chunk : Op τ Unit) s = .ok u s') :
    s.Sent s' ChunkId.fixedBytes := by
  have hsent := write_sent h
  rwa [ChunkId.encode, length_leBytes] at hsent

/-- An integer takes the bytes of the width chosen for it, whatever its value. -/
theorem writeNumber_sent {width : Width} {n : Nat}
    (h : (writeNumber width n : Op τ Unit) s = .ok u s') : s.Sent s' width.bytes := by
  rw [writeNumber, ByteSink.writeWord, if_neg (Nat.not_lt.mpr width.bytes_le)] at h
  have hsent := write_sent h
  rwa [length_leBytes] at hsent

/-- A scalar takes the bytes of its kind. -/
theorem writeScalar_sent {kind : ScalarKind} {v : Value}
    (h : (writeScalar kind v : Op τ Unit) s = .ok u s') : s.Sent s' kind.bytes := by
  cases v with
  | scalar x =>
    rw [writeScalar] at h
    rcases ite_ok.mp h with ⟨hkind, h⟩ | ⟨-, h⟩
    · have hsent := write_sent h
      rwa [Scalar.length_encode, hkind] at hsent
    · exact (space_mismatch_fails h).elim
  | _ => exact (space_mismatch_fails h).elim

/-- An array of scalars takes one stride per item. -/
theorem writeScalars_sent {kind : ScalarKind} {items : List Value}
    (h : (writeScalars kind items : Op τ Unit) s = .ok u s') :
    s.Sent s' (items.length * kind.bytes) := by
  rw [writeScalars] at h
  induction items generalizing s with
  | nil =>
    obtain ⟨-, rfl⟩ := pure_ok.mp h
    rw [List.length_nil, Nat.zero_mul]
    exact .refl s
  | cons v rest ih =>
    obtain ⟨_, t, hfirst, hrest⟩ := bind_ok.mp h
    have hboth := (writeScalar_sent hfirst).trans (ih hrest)
    rwa [List.length_cons, Nat.succ_mul, Nat.add_comm]

end

/-! ## Values that are written -/

/-- The type of a value does not depend on derived fields. -/
theorem Value.Recast.type? {cat : Catalog} {v v' : Value} (h : v.Recast cat v') :
    v'.type? = v.type? := by
  cases h with
  | same => rfl
  | record hschema _ _ => rw [Value.type?, hschema, Value.type?]
  | wrapped _ _ _ => rfl

/-- What a write of a slot tells of its size. -/
structure SlotSized (p : Placement) (s s' : Scene Slot) (k : Nat) : Prop where
  moved : s.Moved s' k
  recast : s.subject.value.Recast s.space.catalog s'.subject.value
  takes : p.Takes s'.space s'.subject.value k

/-- A way to write values moves the cursor by what they take, where it succeeds. -/
def SizesWell (writeIn : WriteIn) : Prop :=
  ∀ p (s s' : Scene Slot) u, writeIn p s = .ok u s' → s.space.Sound → ∃ k, SlotSized p s s' k

/-- What a write of a field tells of its size. -/
structure FieldSized (f : BoundField) (s s' : Scene Record) (k : Nat) : Prop where
  moved : s.Moved s' k
  schema : s'.subject.schema = s.subject.schema
  length : s'.subject.slots.length = s.subject.slots.length
  recast : (s.subject.slot f.slot).Recast s.space.catalog (s'.subject.slot f.slot)
  others : ∀ i, i ≠ f.slot → s'.subject.slot i = s.subject.slot i
  takes : FieldTakes s'.space s'.subject f k

/-- What a write of fields in a row tells of their sizes. -/
structure FieldsSized (fields : List BoundField) (s s' : Scene Record) (sizes : List Nat) :
    Prop where
  moved : s.Moved s' sizes.sum
  recast : s.subject.Recast s.space.catalog s'.subject
  others : ∀ i, i ∉ fields.map (·.slot) → s'.subject.slot i = s.subject.slot i
  takes : List.Forall₂ (FieldTakes s'.space s'.subject) fields sizes

/-- What a write of a record tells of its size. -/
structure RecordSized (l : Layout) (s s' : Scene Record) (k : Nat) : Prop where
  moved : s.Moved s' k
  recast : s.subject.Recast s.space.catalog s'.subject
  takes : RecordTakes s'.space l s'.subject k

/-! ## Fields -/

section

variable {writeIn : WriteIn} {f : BoundField} {s s' : Scene Record} {u : Unit} {k : Nat}

/-- A field of which only the bytes are new. -/
theorem FieldSized.of_sent (h : s.Sent s' k) (hs : s.space.Sound)
    (htakes : FieldTakes s.space s.subject f k) : FieldSized f s s' k := by
  refine ⟨h.moved hs, by rw [h.subject], by rw [h.subject], ?_, fun i _ => by rw [h.subject], ?_⟩
  · rw [h.subject]
    exact .same _
  · rw [h.space, h.subject]
    exact htakes

/-- Setting one slot leaves every other slot of the record alone. -/
theorem RecordOf.slot_setSlotAt_of_ne {r : Record} {i j : Nat} (h : j ≠ i) (slot : Slot) :
    (r.setSlotAt i slot).slot j = r.slot j := by
  rw [RecordOf.slot_eq_slotAt, RecordOf.slotAt_setSlotAt_of_ne h, ← RecordOf.slot_eq_slotAt]

/-- An absent value. -/
theorem writeAbsent_sized {p : Placement} (h : (do
      Op.write [0]
      let inline ← Op.compile (p.inlineSize Compiler.layout)
      writeZeros (inline.getD 0) : Op Record Unit) s = .ok u s') (hs : s.space.Sound)
    (he : f.encoding = .placed p true) (hnull : (s.subject.slot f.slot).isNull = true) :
    ∃ k, FieldSized f s s' k := by
  obtain ⟨_, s₁, hmark, hrest⟩ := bind_ok.mp h
  have hsent := write_sent hmark
  obtain ⟨size, s₂, hask, hzeros⟩ := bind_ok.mp hrest
  have hs₁ : s₁.space.Sound := by rwa [hsent.space]
  obtain ⟨hstudied, hsubject, rfl, hset⟩ := space_studied (inlineSize_learning hs₁ p) hask
  have hsent' := writeZeros_sent hzeros
  have hsame : s'.subject = s.subject := by rw [hsent'.subject, hsubject, hsent.subject]
  have hmoved := (hsent.moved hs).trans (hstudied.moved.trans (hsent'.moved hstudied.sound))
  rw [Nat.zero_add] at hmoved
  refine ⟨_, hmoved, by rw [hsame], by rw [hsame], ?_, fun i _ => by rw [hsame], ?_⟩
  · rw [hsame]
    exact .same _
  · rw [hsame, hsent'.space]
    exact .absent hstudied.sound he (Value.isNull_iff.mp hnull) hset

/-- A value that is there, after the bytes that say so. -/
theorem writePresent_sized (hin : SizesWell writeIn) {p : Placement} {t : Scene Record} {j : Nat}
    (hsent : s.Sent t j) (h : Op.on (RecordOf.slotPart f.slot) (writeIn p) t = .ok u s')
    (hs : s.space.Sound) (htakes : ∀ {w r k}, p.Takes w (r.slot f.slot) k →
      (r.slot f.slot).isNull = (s.subject.slot f.slot).isNull → FieldTakes w r f (j + k)) :
    ∃ k, FieldSized f s s' k := by
  obtain ⟨t', hact, rfl⟩ := Op.on_ok.mp h
  obtain ⟨k, hslot⟩ := hin _ _ _ _ hact (by rwa [hsent.space])
  have hrecast : (s.subject.slot f.slot).Recast s.space.catalog t'.subject.value := by
    have hslot := hslot.recast
    rw [hsent.subject, hsent.space] at hslot
    exact hslot
  -- the slot is set in the record as it was before, since what was sent first left it alone
  have hself : (s.subject.setSlotAt f.slot t'.subject).slot f.slot = t'.subject.value :=
    RecordOf.slot_setSlot hrecast
  have hmoved : t.Moved (⟨t'.space, t'.stream, t.subject.setSlotAt f.slot t'.subject⟩ :
      Scene Record) k := ⟨hslot.moved.sound, hslot.moved.le, hslot.moved.stream⟩
  refine ⟨j + k, (hsent.moved hs).trans hmoved, ?_, ?_, ?_, fun i hi => ?_, ?_⟩
  · show t.subject.schema = s.subject.schema
    rw [hsent.subject]
  · show (t.subject.setSlotAt f.slot t'.subject).slots.length = s.subject.slots.length
    rw [hsent.subject, RecordOf.slots_length_setSlotAt]
  · show (s.subject.slot f.slot).Recast _ ((t.subject.setSlotAt f.slot t'.subject).slot f.slot)
    rw [hsent.subject, hself]
    exact hrecast
  · show (t.subject.setSlotAt f.slot t'.subject).slot i = s.subject.slot i
    rw [hsent.subject, RecordOf.slot_setSlotAt_of_ne hi]
  · show FieldTakes t'.space (t.subject.setSlotAt f.slot t'.subject) f (j + k)
    rw [hsent.subject]
    refine htakes ?_ ?_
    · rw [hself]
      exact hslot.takes
    · rw [hself, hrecast.isNull]

/-- Writing one field recasts the record it belongs to: only that field's slot may change. -/
theorem FieldSized.record (h : FieldSized f s s' k) : s.subject.Recast s.space.catalog s'.subject := by
  refine ⟨h.schema, h.length, fun i _ => ?_⟩
  by_cases hi : i = f.slot
  · rw [hi]
    exact h.recast
  · rw [h.others i hi]
    exact .same _

/-- A field written through any writer that sizes well takes the bytes that its slot is said to
take. -/
theorem writeFieldWith_sized (hin : SizesWell writeIn)
    (h : writeFieldWith writeIn f s = .ok u s') (hs : s.space.Sound) :
    ∃ k, FieldSized f s s' k := by
  rw [writeFieldWith, Op.inField_ok] at h
  simp only [bind_ok, Op.subject_ok] at h
  obtain ⟨r, s, ⟨rfl, rfl⟩, h⟩ := h
  cases he : f.encoding with
  | scalar kind =>
    simp only [he] at h
    exact ⟨_, .of_sent (writeScalar_sent h) hs (.scalar he)⟩
  | ordinal =>
    simp only [he] at h
    obtain ⟨width, s₁, hask, hwrite⟩ := bind_ok.mp h
    obtain ⟨-, rfl⟩ := space_widthIn_ok.mp hask
    exact ⟨_, .of_sent (write_sent hwrite) hs (.ordinal he)⟩
  | sized g =>
    simp only [he] at h
    obtain ⟨width, s₁, hask, hrest⟩ := bind_ok.mp h
    obtain ⟨hwidth, rfl⟩ := space_widthIn_ok.mp hask
    obtain ⟨n, s₁, hcount, hwrite⟩ := bind_ok.mp hrest
    obtain ⟨-, rfl⟩ := space_countOf_ok.mp hcount
    rcases ite_ok.mp hwrite with ⟨-, hwrite⟩ | ⟨-, hfail⟩
    · exact ⟨_, .of_sent (writeNumber_sent hwrite) hs (.sized he hwidth)⟩
    · exact (space_disagreement_fails hfail).elim
  | forced width =>
    simp only [he] at h
    obtain ⟨n, s₁, hcount, hwrite⟩ := bind_ok.mp h
    obtain ⟨-, rfl⟩ := space_countOf_ok.mp hcount
    rcases ite_ok.mp hwrite with ⟨-, hwrite⟩ | ⟨-, hfail⟩
    · exact ⟨_, .of_sent (writeNumber_sent hwrite) hs (.forced he)⟩
    · exact (throw_ok.mp hfail).elim
  | varint =>
    simp only [he] at h
    obtain ⟨n, s₁, hcount, hwrite⟩ := bind_ok.mp h
    obtain ⟨hn, rfl⟩ := space_countOf_ok.mp hcount
    exact ⟨_, .of_sent (writeVarint_sent hwrite) hs (.varint he hn)⟩
  | array element g =>
    simp only [he] at h
    obtain ⟨count, s₁, hask, hrest⟩ := bind_ok.mp h
    obtain ⟨hcount, rfl⟩ := space_countOf_ok.mp hask
    obtain ⟨items, s₁, hitems, hwrite⟩ := bind_ok.mp hrest
    obtain ⟨hlist, rfl⟩ := space_itemsOf_ok.mp hitems
    rcases ite_ok.mp hwrite with ⟨hlen, hwrite⟩ | ⟨-, hfail⟩
    · refine ⟨_, .of_sent (writeScalars_sent hwrite) hs (.array he hlist ?_)⟩
      rw [hcount, hlen]
    · exact (space_disagreement_fails hfail).elim
  | placed p marker =>
    simp only [he] at h
    rcases ite_ok.mp h with ⟨-, hfail⟩ | ⟨-, hrun⟩
    · exact (throw_ok.mp hfail).elim
    rcases ite_ok.mp hrun with ⟨habsent, hwrite⟩ | ⟨hthere, hwrite⟩
    · obtain ⟨hnull, rfl⟩ : (s.subject.slot f.slot).isNull = true ∧ marker = true := by
        simpa using habsent
      exact writeAbsent_sized hwrite hs he hnull
    · cases marker with
      | true =>
        -- the marker comes first
        obtain ⟨_, t, hmark, hrest⟩ := bind_ok.mp hwrite
        refine writePresent_sized hin (write_sent hmark) hrest hs fun htakes hnull => ?_
        have hpresent : (s.subject.slot f.slot).isNull = false := by simpa using hthere
        exact .present he (hnull.trans hpresent) htakes
      | false =>
        refine writePresent_sized hin (.refl s) hwrite hs fun htakes _ => ?_
        rw [Nat.zero_add]
        exact .plain he htakes

/-! ## Fields in a row -/

/-- A run of fields takes the bytes of its fields, one size for each in their order. -/
theorem writeFields_sized (hin : SizesWell writeIn) {fields : List BoundField}
    (h : writeFields writeIn fields s = .ok u s') (hs : s.space.Sound) (hrow : InRow fields) :
    ∃ sizes, FieldsSized fields s s' sizes := by
  -- each field's size is about the slot as its own write left it; `InRow` keeps the later writes
  -- off it
  induction fields generalizing s with
  | nil =>
    obtain ⟨-, rfl⟩ := pure_ok.mp h
    exact ⟨[], .refl hs, .refl _ _, fun _ _ => rfl, .nil⟩
  | cons f rest ih =>
    obtain ⟨_, t, hfirst, hrest⟩ := bind_ok.mp h
    obtain ⟨hapart, hrow'⟩ := List.pairwise_cons.mp hrow
    obtain ⟨k, hone⟩ := writeFieldWith_sized hin hfirst hs
    obtain ⟨sizes, hmore⟩ := ih hrest hone.moved.sound hrow'
    have hboth := hone.moved.trans hmore.moved
    rw [← List.sum_cons] at hboth
    have hmore_recast := hmore.recast
    rw [hone.moved.le.catalog] at hmore_recast
    refine ⟨k :: sizes, hboth, hone.record.trans hmore_recast, fun i hi => ?_, ?_⟩
    · rw [List.map_cons, List.mem_cons, not_or] at hi
      rw [hmore.others i hi.2, hone.others i hi.1]
    · -- the slot of the first field and the one that decides its size are left as they were
      refine .cons (hone.takes.transfer hmore.moved.le (hmore.others _ ?_) fun g hg =>
        hmore.others _ ?_) hmore.takes
      · rintro hmem
        obtain ⟨g, hg, heq⟩ := List.mem_map.mp hmem
        exact (hapart g hg).1 heq.symm
      · rintro hmem
        obtain ⟨g', hg', rfl⟩ := List.mem_map.mp hmem
        exact (hapart g' hg').2 hg

/-! ## Records -/

variable {l : Layout}

/-- All fields of a known layout together take what the record they leave is said to take. -/
theorem writeRow_sized (hin : SizesWell writeIn) (h : writeFields writeIn l.fields s = .ok u s')
    (hs : s.space.Sound) (hl : s.space.Knows l) : ∃ k, RecordSized l s s' k := by
  obtain ⟨sizes, hrow⟩ := writeFields_sized hin h hs (hl.good hs).fields.inRow
  exact ⟨_, hrow.moved, hrow.recast, .of_fields hrow.moved.sound (hl.mono hrow.moved.le) hrow.takes⟩

/-- Studying before a write moves nothing. -/
theorem RecordSized.after_studying {t : Scene Record} (h : RecordSized l t s' k)
    (hstudied : s.Studied t) (hrecast : s.subject.Recast s.space.catalog t.subject) :
    RecordSized l s s' k := by
  have hmoved := hstudied.moved.trans h.moved
  rw [Nat.zero_add] at hmoved
  have hmore := h.recast
  rw [hstudied.learns.catalog] at hmore
  exact ⟨hmoved, hrecast.trans hmore, h.takes⟩

/-- The checked body differs from the plain row by a validation, which sends nothing. -/
theorem writeChecked_sized (hin : SizesWell writeIn) (h : writeChecked writeIn l s = .ok u s')
    (hs : s.space.Sound) (hl : s.space.Knows l) : ∃ k, RecordSized l s s' k := by
  rw [writeChecked] at h
  simp only [bind_ok, Op.subject_ok, Op.position_ok] at h
  obtain ⟨r, s, ⟨rfl, rfl⟩, size, s₁, hcheck, start, s₁, ⟨rfl, rfl⟩, _, s₂, hwrite, stop, s₂,
    ⟨rfl, rfl⟩, hrest⟩ := h
  obtain ⟨hstudied, hsubject, -⟩ := space_studied (studies.checkedSize l _ _ hs) hcheck
  obtain ⟨k, hsized⟩ := writeRow_sized hin hwrite hstudied.sound (hl.mono hstudied.learns.toLe)
  rcases ite_ok.mp hrest with ⟨-, hfail⟩ | ⟨-, hpure⟩
  · exact (throw_ok.mp hfail).elim
  · obtain ⟨-, rfl⟩ := pure_ok.mp hpure
    exact ⟨k, hsized.after_studying hstudied (by rw [hsubject]; exact .refl _ _)⟩

/-- The header and the padding of a layout count towards the record's size. -/
theorem writeBody_sized (hin : SizesWell writeIn) (h : writeBody writeIn l s = .ok u s')
    (hs : s.space.Sound) (hl : s.space.Knows l) : ∃ k, RecordSized l s s' k := by
  rw [writeBody] at h
  obtain ⟨_, s₁, hderive, hrest⟩ := bind_ok.mp h
  obtain ⟨hstudied, hrefreshed⟩ := deriveRecord_ok hderive hs hl
  obtain ⟨config, s₂, hconfig, hwrite⟩ := bind_ok.mp hrest
  obtain ⟨rfl, rfl⟩ := Op.config_ok.mp hconfig
  have hl₁ := hl.mono hstudied.learns.toLe
  have hboth : ∃ k, RecordSized l s₂ s' k := by
    rcases ite_ok.mp hwrite with ⟨-, hwrite⟩ | ⟨-, hwrite⟩
    · exact writeChecked_sized hin hwrite hstudied.sound hl₁
    · exact writeRow_sized hin hwrite hstudied.sound hl₁
  obtain ⟨k, hsized⟩ := hboth
  exact ⟨k, hsized.after_studying hstudied hrefreshed.recast⟩

/-- The record form around the body takes the size of the record left in place, whose schema is the
layout's. -/
theorem writeRecordWith_sized (hin : SizesWell writeIn)
    (h : writeRecordWith writeIn l s = .ok u s') (hs : s.space.Sound) (hl : s.space.Knows l) :
    ∃ k, RecordSized l s s' k ∧ s.subject.schema = l.schema := by
  rw [writeRecordWith] at h
  simp only [bind_ok, Op.subject_ok, space_requireSchema_ok] at h
  obtain ⟨r, s, ⟨rfl, rfl⟩, _, s, ⟨hschema, rfl⟩, h⟩ := h
  rw [guardingChunks] at h
  simp only [bind_ok, Op.subject_ok, Op.onFailure_ok, rollback_ok] at h
  obtain ⟨r, s, ⟨rfl, rfl⟩, t, hbody, rfl⟩ := h
  have hs₁ : s.space.openScope.Sound := ⟨hs.compiler, hs.store⟩
  obtain ⟨k, hsized⟩ := writeBody_sized hin hbody hs₁ hl
  obtain ⟨journal, hkeep⟩ := t.space.keepScope_eq
  have hle : t.space.Le t.space.keepScope := by
    rw [hkeep]
    exact ⟨.refl _, .refl _, rfl⟩
  have hsound : t.space.keepScope.Sound := by
    rw [hkeep]
    exact ⟨hsized.moved.sound.compiler, hsized.moved.sound.store⟩
  have hopen : s.space.Le t.space :=
    ⟨hsized.moved.le.compiler, hsized.moved.le.types, hsized.moved.le.config⟩
  exact ⟨k, ⟨⟨hsound, hopen.trans hle, hsized.moved.stream⟩, hsized.recast,
    hsized.takes.mono hle⟩, hschema⟩

end

/-! ## Values in place -/

section

variable {writeIn : WriteIn} {p : Placement} {s s' : Scene Slot} {u : Unit} {k : Nat}

/-- A slot of which only the bytes are new. -/
theorem SlotSized.of_sent (h : s.Sent s' k) (hs : s.space.Sound)
    (htakes : p.Takes s.space s.subject.value k) : SlotSized p s s' k := by
  refine ⟨h.moved hs, ?_, ?_⟩
  · rw [h.subject]
    exact .same _
  · rw [h.space, h.subject]
    exact htakes

/-- What was done before a write of a slot without touching it. -/
theorem SlotSized.after {t : Scene Slot} {j : Nat} {p' : Placement} (h : SlotSized p t s' k)
    (hmoved : s.Moved t j) (hsubject : t.subject = s.subject)
    (htakes : p.Takes s'.space s'.subject.value k → p'.Takes s'.space s'.subject.value (j + k)) :
    SlotSized p' s s' (j + k) := by
  refine ⟨hmoved.trans h.moved, ?_, htakes h.takes⟩
  rw [← hsubject, ← hmoved.le.catalog]
  exact h.recast

/-- An inline text takes its length prefix and its UTF-8 bytes. -/
theorem writeText_sized (h : writeText s.subject.value s = .ok u s') (hs : s.space.Sound) :
    ∃ k, SlotSized .inlineText s s' k := by
  cases hv : s.subject.value with
  | null =>
    rw [hv] at h
    refine ⟨1, .of_sent (writeVarint_sent h) hs ?_⟩
    rw [hv]
    exact .noText
  | text text =>
    rw [hv, writeText] at h
    obtain ⟨_, t, hlength, hbytes⟩ := bind_ok.mp h
    refine ⟨_, .of_sent ((writeVarint_sent hlength).trans (write_sent hbytes)) hs ?_⟩
    rw [hv]
    exact .text text
  | _ =>
    rw [hv] at h
    exact (space_mismatch_fails h).elim

/-- A handle takes its fixed width, or the varint of the chunk it names. -/
theorem writeHandle_sized {id : SchemaId} {fixed : Bool}
    (h : writeHandle id fixed s.subject.value s = .ok u s') (hs : s.space.Sound) :
    ∃ k, SlotSized (.handle id fixed) s s' k := by
  rw [writeHandle] at h
  obtain ⟨c, t, hcat, hrest⟩ := bind_ok.mp h
  clear h
  obtain ⟨-, rfl⟩ := Op.catalog_ok.mp hcat
  -- a handle is written as the reference to its chunk, or as its id where sizes may vary
  have hwritten {chunk : ChunkId} (h : (if fixed then writeChunkId chunk
      else writeVarint chunk.id : Op Slot Unit) t = .ok u s')
      (htakes : fixed = false →
        (Placement.handle id false).Takes t.space t.subject.value
          (Varint.length (UInt64.ofNat chunk.id))) :
      ∃ k, SlotSized (.handle id fixed) t s' k := by
    cases fixed with
    | true => exact ⟨_, .of_sent (writeChunkId_sent h) hs (.fixedHandle id _)⟩
    | false => exact ⟨_, .of_sent (writeVarint_sent h) hs (htakes rfl)⟩
  cases hv : t.subject.value with
  | null =>
    rw [hv] at hrest
    refine hwritten hrest fun _ => ?_
    rw [hv]
    exact .noHandle id
  | handle hd =>
    rw [hv] at hrest
    simp only at hrest
    split at hrest
    · refine hwritten hrest fun _ => ?_
      rw [hv]
      exact .handle id hd
    · obtain ⟨_, _, hfail, -⟩ := bind_ok.mp hrest
      exact (space_mismatch_fails hfail).elim
  | _ =>
    rw [hv] at hrest
    obtain ⟨_, _, hfail, -⟩ := bind_ok.mp hrest
    exact (space_mismatch_fails hfail).elim

/-- Values that are made from one record and are recast with it. -/
structure Recasts (wrap : Record → Value) : Prop extends Wraps wrap where
  recast : ∀ {cat : Catalog} {r r' : Record}, r.Recast cat r' → (wrap r).Recast cat (wrap r')

/-- A slot holding a record is recast through the record. -/
theorem recasts_record : Recasts .record := ⟨wraps_record, fun h => h.record⟩

/-- A wrapped slot is recast through the record that carries it. -/
theorem recasts_wrapped (wrapper : WrapperId) : Recasts (.wrapped wrapper) :=
  ⟨wraps_wrapped wrapper, fun h => h.wrapped wrapper⟩

/-- The record of a value, in a layout that has just been asked for, after some bytes. -/
theorem writeAsked_sized (hin : SizesWell writeIn) {wrap : Record → Value} (hwrap : Recasts wrap)
    {layout : SpaceM Layout} {t : Scene Slot} {r : Record} {key : LayoutKey} {j : Nat}
    (hsent : s.Sent t j) (hs : s.space.Sound)
    (h : (Op.space layout >>= fun l => Op.on Slot.recordPart (writeRecordWith writeIn l)) t =
      .ok u s') (hv : s.subject.value = wrap r)
    (hlayout : Learning layout s.space fun l w => w.Knows l ∧ l.key = key)
    (htakes : ∀ {w l r k}, s.space.Le w → w.compiler.answer key = some l → r.schema = key.1 →
      RecordTakes w l r k → p.Takes w (wrap r) (j + k)) : ∃ k, SlotSized p s s' k := by
  obtain ⟨l, t₁, hask, hrecord⟩ := bind_ok.mp h
  rw [← hsent.space] at hlayout
  obtain ⟨hstudied, hsubject, hl, hkey⟩ := space_studied hlayout hask
  obtain ⟨t', hact, rfl⟩ := Op.on_ok.mp hrecord
  have hsame : t₁.subject = s.subject := hsubject.trans hsent.subject
  -- the record inside the value is written, and put back in its place
  have hget : Slot.recordPart.get t₁.subject = r := by
    rw [hsame]
    show s.subject.value.innerRecord = r
    rw [hv, hwrap.inner]
  rw [hget] at hact
  obtain ⟨k, hsized, hschema⟩ := writeRecordWith_sized hin hact hstudied.sound hl
  have hvalue : (Slot.recordPart.set t'.subject t₁.subject).value = wrap t'.subject := by
    rw [hsame]
    show s.subject.value.setInnerRecord t'.subject = wrap t'.subject
    rw [hv, hwrap.set]
  have hmoved : s.Moved t' (j + (0 + k)) := (hsent.moved hs).trans
    (hstudied.moved.trans ⟨hsized.moved.sound, hsized.moved.le, hsized.moved.stream⟩)
  rw [Nat.zero_add] at hmoved
  refine ⟨j + k, ⟨hmoved.sound, hmoved.le, hmoved.stream⟩, ?_, ?_⟩
  · rw [hvalue, hv, ← hsent.space, ← hstudied.learns.catalog]
    exact hwrap.recast hsized.recast
  · rw [hvalue]
    have hknown := hl.mono hsized.moved.le
    rw [Workspace.Knows, hkey] at hknown
    exact htakes hmoved.le hknown (by rw [hsized.recast.schema, hschema, ← hkey]; rfl) hsized.takes

/-- A record in a slot takes what the record takes, for every placement that measures it so. -/
theorem writeInner_sized (hin : SizesWell writeIn) {id : SchemaId} {kind : LayoutKind}
    (h : writeInner writeIn id kind s = .ok u s') (hs : s.space.Sound)
    (htakes : ∀ {w l r k}, w.compiler.answer (id, kind) = some l → r.schema = id →
      RecordTakes w l r k → p.Takes w (.record r) k) : ∃ k, SlotSized p s s' k := by
  rw [writeInner] at h
  simp only [bind_ok, Op.subject_ok, Op.catalog_ok] at h
  obtain ⟨slot, s, ⟨rfl, rfl⟩, c, s, ⟨rfl, rfl⟩, h⟩ := h
  cases hv : s.subject.value with
  | record r =>
    simp only [hv] at h
    rcases ite_ok.mp h with ⟨-, hrun⟩ | ⟨-, hfail⟩
    · refine writeAsked_sized hin recasts_record (.refl s) hs hrun hv (layout_knows hs id kind)
        fun _ hl hschema hrecord => ?_
      rw [Nat.zero_add]
      exact htakes hl hschema hrecord
    · exact (space_mismatch_fails hfail).elim
  | _ =>
    simp only [hv] at h
    exact (space_mismatch_fails h).elim

/-- A wrapped value takes the bytes of its carrier. -/
theorem writeWrapped_sized (hin : SizesWell writeIn) {wrapper : WrapperId} {carrier : SchemaId}
    {kind : LayoutKind} (h : writeWrapped writeIn wrapper carrier kind s = .ok u s')
    (hs : s.space.Sound) : ∃ k, SlotSized (.wrapped wrapper carrier kind) s s' k := by
  rw [writeWrapped] at h
  simp only [bind_ok, Op.subject_ok, Op.catalog_ok] at h
  obtain ⟨slot, s, ⟨rfl, rfl⟩, c, s, ⟨rfl, rfl⟩, h⟩ := h
  cases hv : s.subject.value with
  | wrapped found r =>
    simp only [hv] at h
    rcases ite_ok.mp h with ⟨rfl, hrun⟩ | ⟨-, hfail⟩
    · refine writeAsked_sized hin (recasts_wrapped found) (.refl s) hs hrun hv
        (layout_knows hs carrier kind) fun _ hl _ hrecord => ?_
      rw [Nat.zero_add]
      exact .wrapped hl hrecord
    · exact (space_mismatch_fails hfail).elim
  | _ =>
    simp only [hv] at h
    exact (space_mismatch_fails h).elim

/-- An inline choice takes its tag and the padded body of the variant it holds. -/
theorem writeChoice_sized (hin : SizesWell writeIn) {choice : ChoiceId}
    (h : writeChoice writeIn choice s = .ok u s') (hs : s.space.Sound) :
    ∃ k, SlotSized (.inlineChoice choice) s s' k := by
  rw [writeChoice] at h
  simp only [bind_ok, Op.subject_ok, Op.catalog_ok] at h
  obtain ⟨slot, s, ⟨rfl, rfl⟩, c, s, ⟨rfl, rfl⟩, h⟩ := h
  cases hv : s.subject.value with
  | null =>
    simp only [hv] at h
    refine ⟨1, .of_sent (writeVarint_sent h) hs ?_⟩
    rw [hv]
    exact .noChoice choice
  | record r =>
    simp only [hv] at h
    obtain ⟨tag, s₁, hask, hrest⟩ := bind_ok.mp h
    obtain ⟨htag, rfl⟩ := space_tagOf_ok.mp hask
    obtain ⟨_, t, hmark, hrun⟩ := bind_ok.mp hrest
    -- the variant with the tag of the record
    have hkey : Learning (SpaceM.variantLayout choice tag) s₁.space fun l w =>
        w.Knows l ∧ l.key = (r.schema, .standard) := by
      refine (variantLayout_knows hs choice tag).mono fun l w _ _ hl => ?_
      obtain ⟨hknows, v, hvariant, hkey⟩ := hl
      obtain ⟨i, rfl, hdeclared⟩ := Choice.variants_of_tagOf? htag
      rw [Choice.variant?, if_neg (Nat.succ_ne_zero i), Nat.add_sub_cancel, hdeclared] at hvariant
      cases hvariant
      exact ⟨hknows, hkey⟩
    refine writeAsked_sized hin recasts_record (writeVarint_sent hmark) hs hrun hv hkey
      fun hle hl hschema hrecord => ?_
    have hsame : _ = r.schema := hschema
    rw [← hsame] at hl htag
    rw [← hle.catalog] at htag
    exact .choice htag hl hrecord
  | _ =>
    simp only [hv] at h
    exact (space_mismatch_fails h).elim

/-- The value of a slot as one that no chunk backs. -/
theorem writeLoose_sized (hin : SizesWell writeIn)
    (h : Op.on Slot.loosePart (writeIn p) s = .ok u s') (hs : s.space.Sound) :
    ∃ k, SlotSized p s s' k := by
  obtain ⟨t, hact, rfl⟩ := Op.on_ok.mp h
  obtain ⟨k, hsized⟩ := hin _ _ _ _ hact hs
  exact ⟨k, ⟨hsized.moved.sound, hsized.moved.le, hsized.moved.stream⟩, hsized.recast,
    hsized.takes⟩

/-- An open slot takes its type's number and the record behind it. -/
theorem writeOpen_sized (hin : SizesWell writeIn) (h : writeOpen writeIn s = .ok u s')
    (hs : s.space.Sound) : ∃ k, SlotSized .inlineOpen s s' k := by
  rw [writeOpen] at h
  simp only [bind_ok, Op.subject_ok] at h
  -- the type number comes first, so the record starts where the number's varint ends
  obtain ⟨slot, s, ⟨rfl, rfl⟩, id, s₁, hask, _, s₂, hmark, h⟩ := h
  obtain ⟨hstudied, hsubject, hid⟩ := space_studied (typeId_gives hs _) hask
  have hsent := writeVarint_sent hmark
  have hmoved := hstudied.moved.trans (hsent.moved hstudied.sound)
  have hsame : s₂.subject = s.subject := hsent.subject.trans hsubject
  rw [Nat.zero_add] at hmoved
  rcases hid with ⟨rfl, hnull⟩ | ⟨type, i, htype, rfl, hgives⟩
  · obtain ⟨-, rfl⟩ := pure_ok.mp h
    refine ⟨_, hmoved, by rw [hsame]; exact .same _, ?_⟩
    rw [hsame, hnull]
    exact .noOpen
  · rw [if_neg (Nat.succ_ne_zero i)] at h
    obtain ⟨p, s₃, hplace, hloose⟩ := bind_ok.mp h
    obtain ⟨hstudied', hsubject', known, hknown, hanswer⟩ :=
      space_studied (openPlacement_learning hmoved.sound _) hplace
    obtain ⟨k, hsized⟩ := writeLoose_sized hin hloose hstudied'.sound
    have hboth := hmoved.trans hstudied'.moved
    have hle : s₁.space.Le s'.space := by
      rw [← hsent.space]
      exact hstudied'.learns.toLe.trans hsized.moved.le
    refine ⟨_, hsized.after hboth (hsubject'.trans hsame) fun htakes => ?_⟩
    have hrecast := hsized.recast.type?
    rw [hsubject', hsame, htype] at hrecast
    have hgives' := hgives.extend hle.types
    rw [← hle.catalog] at hgives'
    exact .typed hsized.moved.sound hrecast hgives'
      ((hstudied'.learns.toLe.trans hsized.moved.le).resolve hknown)
      (hsized.moved.le.compiler.placementAnswer hanswer) htakes

/-! ## Values behind references -/

/-- A value has been put behind its slot. -/
structure Put (s s' : Scene Slot) : Prop where
  moved : s.Moved s' 0
  recast : s.subject.value.Recast s.space.catalog s'.subject.value

/-- A reference written after some studying is a reference written. -/
theorem Put.after_studying {t : Scene Slot} (h : Put t s') (hstudied : s.Studied t)
    (hsubject : t.subject = s.subject) : Put s s' := by
  have hrecast := h.recast
  rw [hsubject, hstudied.learns.catalog] at hrecast
  exact ⟨hstudied.moved.trans h.moved, hrecast⟩

/-- What a write of the value of a slot does elsewhere, where it succeeds. -/
def PutsWell (body : Op Slot Unit) (s : Scene Slot) : Prop :=
  ∀ (t t' : Scene Slot) u, body t = .ok u t' → s.space.Le t.space → t.subject = s.subject →
    t.space.Sound → t'.space.Sound ∧ t.space.Le t'.space ∧
      s.subject.value.Recast s.space.catalog t'.subject.value

/-- Replacing a chunk's content keeps the space sound: layouts and types do not read it. -/
theorem Workspace.Sound.setContent {w : Workspace} (hs : w.Sound) (chunk : ChunkId)
    (content : Bytes) : (w.setStore (w.store.setContent chunk content)).Sound := by
  refine ⟨hs.compiler, hs.store.next_pos, ?_, fun c hc => ?_⟩
  · show (w.store.setContent chunk content).live.Nodup
    rw [live_setContent]
    exact hs.store.nodup
  · have hlive : c ∈ (w.store.setContent chunk content).live := hc
    rw [live_setContent] at hlive
    exact hs.store.bounds c hlive

/-- A chunk stored behind a slot puts the chunk's identifier in place and nothing else. -/
theorem storeBehind_sized {hint : Nat} {body : Op Slot Unit} {chunk : ChunkId}
    (h : storeBehind hint body s = .ok chunk s') (hbody : PutsWell body s) (hs : s.space.Sound) :
    Put s s' := by
  rw [storeBehind] at h
  simp only [bind_ok, Op.subject_ok] at h
  obtain ⟨slot, s, ⟨rfl, rfl⟩, live, s₁, hlive, h⟩ := h
  obtain ⟨w, hask, rfl⟩ := Op.space_ok.mp hlive
  cases hask
  rcases ite_ok.mp h with ⟨-, h⟩ | ⟨-, h⟩
  · obtain ⟨_, s₁, hchunk, hpure⟩ := bind_ok.mp h
    obtain ⟨rfl, rfl⟩ := pure_ok.mp hpure
    obtain ⟨content, t, -, hrun, rfl⟩ := withChunk_ok.mp hchunk
    obtain ⟨t₁, after, hact, -, rfl⟩ := inTransaction_ok.mp hrun
    obtain ⟨_, t₂, hfill, hcut⟩ := bind_ok.mp hact
    obtain ⟨hsound, hle, hrecast⟩ := hbody _ _ _ hfill (.refl _) rfl hs
    rw [Op.cutHere_ok] at hcut
    subst hcut
    exact ⟨⟨hsound.setContent _ _, hle.trans ⟨.refl _, .refl _, rfl⟩, .refl _⟩, hrecast⟩
  · obtain ⟨found, s₁, hchunk, hrest⟩ := bind_ok.mp h
    obtain ⟨_, s₂, hset, hpure⟩ := bind_ok.mp hrest
    obtain ⟨rfl, rfl⟩ := pure_ok.mp hpure
    rw [Op.modifySubject_ok] at hset
    subst hset
    obtain ⟨heap, t, hstore, rfl, hscope, rfl⟩ := allocateWith_ok hchunk
    obtain ⟨t₁, hfill, rfl⟩ := rollback_ok.mp hscope
    obtain ⟨content, t₂, -, hrun, rfl⟩ := withChunk_ok.mp hfill
    -- the workspace in which the new chunk is filled
    have hs₁ : Workspace.Sound ({ s.space with heap }.openScope) := by
      refine ⟨hs.compiler, ?_⟩
      show heap.store.Sound
      rw [hstore]
      exact (Writes.allocate hs.store []).sound hs.store
    obtain ⟨hsound, hle, hrecast⟩ := hbody _ _ _ hrun ⟨.refl _, .refl _, rfl⟩ rfl hs₁
    have hclosed := hsound.setContent ⟨s.space.store.next⟩ t₂.stream.content
    have hend : ∃ journal, ((t₂.space.setStore (t₂.space.store.close ⟨s.space.store.next⟩
        t₂.stream)).keepScope).note ⟨s.space.store.next⟩ =
          { t₂.space.setStore (t₂.space.store.setContent ⟨s.space.store.next⟩
            t₂.stream.content) with journal } := by
      rw [ChunkStore.close]
      obtain ⟨kept, hkeep⟩ := (t₂.space.setStore
        (t₂.space.store.setContent ⟨s.space.store.next⟩ t₂.stream.content)).keepScope_eq
      rw [hkeep]
      exact Workspace.note_eq _ _
    obtain ⟨journal, hend⟩ := hend
    refine ⟨⟨?_, ?_, .refl _⟩, hrecast⟩
    · show Workspace.Sound (((t₂.space.setStore (t₂.space.store.close _ _)).keepScope).note _)
      rw [hend]
      exact ⟨hclosed.compiler, hclosed.store⟩
    · show s.space.Le (((t₂.space.setStore (t₂.space.store.close _ _)).keepScope).note _)
      rw [hend]
      exact ⟨hle.compiler, hle.types, hle.config⟩

/-- Storing a record behind a slot moves the stream only through the reference. -/
theorem storeRecordBehind_sized (hin : SizesWell writeIn) {l : Layout} {r : Record}
    {chunk : ChunkId} (h : storeRecordBehind writeIn l r s = .ok chunk s')
    (hv : s.subject.value = .record r) (hs : s.space.Sound) (hl : s.space.Knows l) : Put s s' := by
  obtain ⟨hint, s₁, hask, hstore⟩ := bind_ok.mp h
  obtain ⟨hstudied, hsubject, -⟩ := space_studied (studies.recordSize l r _ hs) hask
  have hput := storeBehind_sized hstore (fun t t' u hwrite hle hslot ht => by
    obtain ⟨t₁, hact, rfl⟩ := Op.on_ok.mp hwrite
    have hvalue : t.subject.value = .record r := by rw [hslot, hsubject, hv]
    obtain ⟨k, hsized, -⟩ := writeRecordWith_sized hin hact ht
      (hl.mono (hstudied.learns.toLe.trans hle))
    refine ⟨hsized.moved.sound, hsized.moved.le, ?_⟩
    show s₁.subject.value.Recast _ (t.subject.value.setInnerRecord t₁.subject)
    have hrecast := hsized.recast
    rw [show (Slot.recordPart.get t.subject) = t.subject.value.innerRecord from rfl, hvalue,
      show t.space.catalog = s₁.space.catalog from hle.catalog] at hrecast
    rw [hsubject, hv, hvalue]
    exact hrecast.record) hstudied.sound
  exact hput.after_studying hstudied hsubject

/-- A reference is written after what it refers to. -/
theorem SlotSized.of_put {t : Scene Slot} (h : Put s t) (hsent : t.Sent s' k)
    (htakes : ∀ w v, p.Takes w v k) : SlotSized p s s' k := by
  have hmoved := h.moved.trans (hsent.moved h.moved.sound)
  rw [Nat.zero_add] at hmoved
  refine ⟨hmoved, ?_, htakes _ _⟩
  rw [hsent.subject]
  exact h.recast

/-- Clearing a reference puts the null identifier in the slot. -/
theorem forgetChunk_put {chunk : ChunkId} (h : forgetChunk s = .ok chunk s') (hs : s.space.Sound) :
    Put s s' := by
  rw [forgetChunk] at h
  obtain ⟨_, t, hset, hpure⟩ := bind_ok.mp h
  obtain ⟨rfl, rfl⟩ := pure_ok.mp hpure
  rw [Op.modifySubject_ok] at hset
  subst hset
  exact ⟨⟨hs, .refl _, .refl _⟩, .same _⟩

/-- A reference after what it refers to. -/
theorem writeReference_sized {t : Scene Slot} {chunk : ChunkId} (h : Put s t)
    (hreference : writeChunkId chunk t = .ok u s')
    (htakes : ∀ w v, p.Takes w v ChunkId.fixedBytes) : ∃ k, SlotSized p s s' k :=
  ⟨_, .of_put h (writeChunkId_sent hreference) htakes⟩

/-- A tag or the id of a type, and a reference, after what it refers to. -/
theorem writeTagged_sized {t : Scene Slot} {tag : Nat} {chunk : ChunkId} (h : Put s t)
    (hreference : (do
      Op.stream (ByteSink.writeU32 tag)
      writeChunkId chunk : Op Slot Unit) t = .ok u s')
    (htakes : ∀ w v, p.Takes w v Placement.taggedBytes) : ∃ k, SlotSized p s s' k := by
  obtain ⟨_, t', hmark, hrest⟩ := bind_ok.mp hreference
  exact ⟨_, .of_put h ((writeU32_sent hmark).trans (writeChunkId_sent hrest)) htakes⟩

/-- A text behind a reference takes the reference's fixed bytes. -/
theorem writeTextBehind_sized (h : writeTextBehind s = .ok u s') (hs : s.space.Sound) :
    ∃ k, SlotSized .chunkText s s' k := by
  rw [writeTextBehind] at h
  simp only [bind_ok, Op.subject_ok] at h
  obtain ⟨slot, s, ⟨rfl, rfl⟩, h⟩ := h
  -- the reference has its fixed size whether a text is stored behind it or not
  cases hv : s.subject.value with
  | null =>
    simp only [hv] at h
    obtain ⟨chunk, t, hforget, hreference⟩ := bind_ok.mp h
    exact writeReference_sized (forgetChunk_put hforget hs) hreference fun _ v => .chunkText v
  | text text =>
    simp only [hv] at h
    obtain ⟨chunk, t, hstore, hreference⟩ := bind_ok.mp h
    have hput := storeBehind_sized hstore (fun t t' u hwrite _ hslot ht => by
      have hbytes := write_sent hwrite
      refine ⟨by rwa [hbytes.space], by rw [hbytes.space]; exact .refl _, ?_⟩
      rw [hbytes.subject, hslot]
      exact .same _) hs
    exact writeReference_sized hput hreference fun _ v => .chunkText v
  | _ =>
    simp only [hv] at h
    obtain ⟨_, _, hfail, -⟩ := bind_ok.mp h
    exact (space_mismatch_fails hfail).elim

/-- A record behind a reference takes the reference's fixed bytes, null or not. -/
theorem writeRecordBehind_sized (hin : SizesWell writeIn) {id : SchemaId}
    (h : writeRecordBehind writeIn id s = .ok u s') (hs : s.space.Sound) :
    ∃ k, SlotSized (.chunkRecord id) s s' k := by
  rw [writeRecordBehind] at h
  simp only [bind_ok, Op.subject_ok, Op.catalog_ok] at h
  obtain ⟨slot, s, ⟨rfl, rfl⟩, c, s, ⟨rfl, rfl⟩, h⟩ := h
  -- the reference has its fixed size whether a record is stored behind it or not
  cases hv : s.subject.value with
  | null =>
    simp only [hv] at h
    obtain ⟨chunk, t, hforget, hreference⟩ := bind_ok.mp h
    exact writeReference_sized (forgetChunk_put hforget hs) hreference fun _ v => .chunkRecord id v
  | record r =>
    simp only [hv] at h
    rcases ite_ok.mp h with ⟨-, hrun⟩ | ⟨-, hfail⟩
    · obtain ⟨l, s₁, hask, hrest⟩ := bind_ok.mp hrun
      obtain ⟨chunk, t, hstore, hreference⟩ := bind_ok.mp hrest
      obtain ⟨hstudied, hsubject, hl, -⟩ := space_studied (layout_knows hs id .standard) hask
      have hput := storeRecordBehind_sized hin hstore (by rw [hsubject, hv]) hstudied.sound hl
      exact writeReference_sized (hput.after_studying hstudied hsubject) hreference
        fun _ v => .chunkRecord id v
    · obtain ⟨_, _, hfail, -⟩ := bind_ok.mp hfail
      exact (space_mismatch_fails hfail).elim
  | _ =>
    simp only [hv] at h
    obtain ⟨_, _, hfail, -⟩ := bind_ok.mp h
    exact (space_mismatch_fails hfail).elim

/-- A choice behind a reference takes its tag besides the reference. -/
theorem writeChoiceBehind_sized (hin : SizesWell writeIn) {choice : ChoiceId}
    (h : writeChoiceBehind writeIn choice s = .ok u s') (hs : s.space.Sound) :
    ∃ k, SlotSized (.chunkChoice choice) s s' k := by
  rw [writeChoiceBehind] at h
  simp only [bind_ok, Op.subject_ok, Op.catalog_ok] at h
  obtain ⟨slot, s, ⟨rfl, rfl⟩, c, s, ⟨rfl, rfl⟩, h⟩ := h
  -- the tag is counted with the reference; what is stored behind it is not
  cases hv : s.subject.value with
  | null =>
    simp only [hv] at h
    obtain ⟨chunk, t, hforget, hrest⟩ := bind_ok.mp h
    obtain ⟨_, t', hpair, hreference⟩ := bind_ok.mp hrest
    obtain ⟨rfl, rfl⟩ := pure_ok.mp hpair
    exact writeTagged_sized (forgetChunk_put hforget hs) hreference fun _ v => .chunkChoice choice v
  | record r =>
    simp only [hv] at h
    obtain ⟨tag, s₁, htag, hrest⟩ := bind_ok.mp h
    obtain ⟨-, rfl⟩ := space_tagOf_ok.mp htag
    obtain ⟨l, s₂, hask, hrest⟩ := bind_ok.mp hrest
    obtain ⟨hstudied, hsubject, hl, -⟩ := space_studied (variantLayout_knows hs choice tag) hask
    obtain ⟨chunk, t, hstore, hrest⟩ := bind_ok.mp hrest
    obtain ⟨_, t', hpair, hreference⟩ := bind_ok.mp hrest
    obtain ⟨rfl, rfl⟩ := pure_ok.mp hpair
    have hput := storeRecordBehind_sized hin hstore (by rw [hsubject, hv]) hstudied.sound hl
    exact writeTagged_sized (hput.after_studying hstudied hsubject) hreference
      fun _ v => .chunkChoice choice v
  | _ =>
    simp only [hv] at h
    obtain ⟨_, _, hfail, -⟩ := bind_ok.mp h
    exact (space_mismatch_fails hfail).elim

/-- An open record behind a reference takes its type number besides the reference. -/
theorem writeOpenBehind_sized (hin : SizesWell writeIn) (h : writeOpenBehind writeIn s = .ok u s')
    (hs : s.space.Sound) : ∃ k, SlotSized .chunkOpen s s' k := by
  rw [writeOpenBehind] at h
  simp only [bind_ok, Op.subject_ok] at h
  obtain ⟨slot, s, ⟨rfl, rfl⟩, id, s₁, hask, h⟩ := h
  obtain ⟨hstudied, hsubject, -⟩ := space_studied (typeId_learning hs _) hask
  -- no value sends the number zero; a value sends its type's number and is stored behind the
  -- reference
  rcases ite_ok.mp h with ⟨-, hrun⟩ | ⟨-, hrun⟩
  · obtain ⟨chunk, t, hforget, hreference⟩ := bind_ok.mp hrun
    have hput := forgetChunk_put hforget hstudied.sound
    exact writeTagged_sized (hput.after_studying hstudied hsubject) hreference
      fun _ v => .chunkOpen v
  · obtain ⟨p, s₂, hplace, hrest⟩ := bind_ok.mp hrun
    obtain ⟨hstudied', hsubject', -⟩ :=
      space_studied (studies.openPlacement id _ hstudied.sound) hplace
    obtain ⟨hint, s₃, hsize, hrest⟩ := bind_ok.mp hrest
    obtain ⟨hstudied'', hsubject'', -⟩ :=
      space_studied (studies.placedSize p _ _ hstudied'.sound) hsize
    obtain ⟨chunk, t, hstore, hreference⟩ := bind_ok.mp hrest
    have hput := storeBehind_sized hstore (fun t t' u hwrite hle hslot ht => by
      obtain ⟨k, hsized⟩ := writeLoose_sized hin hwrite ht
      refine ⟨hsized.moved.sound, hsized.moved.le, ?_⟩
      rw [← hslot, ← hle.catalog]
      exact hsized.recast) hstudied''.sound
    exact writeTagged_sized (hput.after_studying ((hstudied.trans hstudied').trans hstudied'')
      (hsubject''.trans (hsubject'.trans hsubject))) hreference fun _ v => .chunkOpen v

end

/-! ## Values at any depth -/

/-- Writing values, however deep they are nested. -/
theorem writeWithin_sized (depth : Nat) : SizesWell (writeWithin depth) := by
  -- the induction is on the depth; each placement has a lemma of its own
  induction depth with
  | zero =>
    intro p s s' u h
    exact (throw_ok.mp h).elim
  | succ depth ih =>
    intro p s s' u h hs
    rw [writeWithin, bind_ok] at h
    obtain ⟨slot, s, hsubject, h⟩ := h
    obtain ⟨rfl, rfl⟩ := Op.subject_ok.mp hsubject
    cases p with
    | scalar kind => exact ⟨_, .of_sent (writeScalar_sent h) hs (.scalar kind _)⟩
    | inlineText => exact writeText_sized h hs
    | handle id fixed => exact writeHandle_sized h hs
    | chunkText => exact writeTextBehind_sized h hs
    | inlineRecord id => exact writeInner_sized ih h hs .inlineRecord
    | fixedRecord id => exact writeInner_sized ih h hs .fixedRecord
    | chunkRecord id => exact writeRecordBehind_sized ih h hs
    | inlineChoice choice => exact writeChoice_sized ih h hs
    | chunkChoice choice => exact writeChoiceBehind_sized ih h hs
    | inlineOpen => exact writeOpen_sized ih h hs
    | chunkOpen => exact writeOpenBehind_sized ih h hs
    | wrapped wrapper carrier kind => exact writeWrapped_sized ih h hs

/-! ## Written records -/

/-- What has been written is the size of the record as it is now: all of it, field by field, and
within the range of the layout, as it is kept in words, if its bounds are words. A layout of fixed
width allows one size only. -/
structure ExactlySized (l : Layout) (s s' : Scene Record) (k : Nat) : Prop where
  written : s.stream.Advances s'.stream k
  record : ∃ w, recordSize l s'.subject s'.space = .ok k w
  fields : ∃ w, sumOf (fun f => fieldSize f s'.subject) l.fields s'.space = .ok k w
  range : l.size.inWords = true → l.size.toWords.contains k = true
  fixed : l.kind.isFixed = true → l.size = .fixed k

/-- A record written with the writer of any depth takes the size of the record left behind. -/
theorem writeRecord_sized {l : Layout} {s s' : Scene Record} {u : Unit} (hs : s.space.Sound)
    (hl : s.space.Knows l) (h : writeRecord l s = .ok u s') : ∃ k, RecordSized l s s' k := by
  rw [writeRecord, bind_ok] at h
  obtain ⟨r, s₁, hsubject, hrun⟩ := h
  obtain ⟨rfl, rfl⟩ := Op.subject_ok.mp hsubject
  obtain ⟨k, hsized, -⟩ := writeRecordWith_sized (writeWithin_sized _) hrun hs hl
  exact ⟨k, hsized⟩

/-- A write that succeeds has written what the record takes, whether or not it was checked. -/
theorem writeRecord_size {l : Layout} {s s' : Scene Record} (hs : s.space.Sound)
    (hl : s.space.Knows l) (h : writeRecord l s = .ok () s') : ∃ k, ExactlySized l s s' k := by
  rw [writeRecord, bind_ok] at h
  obtain ⟨r, s₁, hsubject, hrun⟩ := h
  obtain ⟨rfl, rfl⟩ := Op.subject_ok.mp hsubject
  obtain ⟨k, hsized, -⟩ := writeRecordWith_sized (writeWithin_sized _) hrun hs hl
  -- the measures hold in the space that the write has left, which knows the layout still
  have hs' := hsized.moved.sound
  have hgood := (hl.mono hsized.moved.le).good hs'
  have hdepth : 2 * s'.subject.depth ≤ s'.subject.walkDepth := Nat.le_add_right _ _
  obtain ⟨w, hrecord, -⟩ := hsized.takes.size _ hdepth _ (.refl _) hs'
  obtain ⟨w', hfields, -⟩ := hsized.takes.fields _ hdepth _ (.refl _) hs'
  refine ⟨k, hsized.moved.stream, ⟨w, hrecord⟩, ⟨w', hfields⟩, fun hwords => ?_, fun hkind => ?_⟩
  -- within the words the bounds given out are those of the unbounded sum
  · rw [SizeRange.toWords_of_inWords hwords]
    exact hsized.takes.range
  -- a fixed layout has only fields of fixed size, so its range is a single size
  have hfixed : l.size.isFixed = true := by
    rw [hgood.size]
    refine SizeRange.isFixed_sum_of_all fun range hrange => ?_
    obtain ⟨f, hf, rfl⟩ := List.mem_map.mp hrange
    obtain ⟨decl, hfield⟩ := hgood.fields.declared hf
    exact (hfield.sized.isFixed_iff hs'.compiler.good).mpr (hgood.fixed hkind f hf)
  obtain ⟨n, hn⟩ := SizeRange.isFixed_iff.mp hfixed
  have hrange := hsized.takes.range
  rw [hn, SizeRange.contains_fixed] at hrange
  rw [hn, hrange]

/-- Two texts that are to be written without checks. -/
def twoTextsUnchecked : Scene Record :=
  ⟨after askTwoTexts (.fresh twoTexts { Config.standard with validateWrites := false } none), .empty,
    ⟨⟨0, 0⟩, [.text "left", .text "right"], [.null, .null]⟩⟩

/-- The run. What is set about checks makes no difference to the layout. -/
theorem twoTextsUnchecked_runs :
    answer? askTwoTexts (.fresh twoTexts { Config.standard with validateWrites := false } none) =
      some twoTextsLayout ∧
    (answer? (writeRecord twoTextsLayout) twoTextsUnchecked).isSome = true ∧
    (after (writeRecord twoTextsLayout) twoTextsUnchecked).stream.position = 16 := by
  decide +kernel

/-- Two texts written without validation take sixteen bytes, as measured beforehand. -/
theorem writeRecord_size_two_texts :
    twoTextsUnchecked.space.Sound ∧ twoTextsUnchecked.space.Knows twoTextsLayout ∧
      twoTextsUnchecked.space.config.validateWrites = false ∧
      ∃ s', writeRecord twoTextsLayout twoTextsUnchecked = .ok () s' ∧
        ExactlySized twoTextsLayout twoTextsUnchecked s' 16 := by
  obtain ⟨hsame, hsome, hposition⟩ := twoTextsUnchecked_runs
  obtain ⟨l, hask, hl⟩ := runs_to_after (by rw [hsame]; rfl)
  have hlayout : l = twoTextsLayout := by
    rw [hl] at hsame
    exact Option.some.inj hsame
  obtain ⟨hs, hlearns, hknows⟩ :=
    SpaceM.layout_sound (Workspace.sound_fresh twoTexts_closed _ _) hask
  rw [hlayout] at hknows
  obtain ⟨u, hrun, -⟩ := runs_to_after hsome
  obtain ⟨k, hsized⟩ := writeRecord_size hs hknows hrun
  have hk : k = 16 := by
    have hwritten := hsized.written.position
    rw [hposition] at hwritten
    exact (Nat.zero_add k).symm.trans hwritten.symm
  rw [hk] at hsized
  have hunchecked : twoTextsUnchecked.space.config.validateWrites = false :=
    congrArg Config.validateWrites hlearns.config
  exact ⟨hs, hknows, hunchecked, _, hrun, hsized⟩

/-! ## Bounds that are no words -/

/-- A number at the bottom, levels of four records each that may be missing, and a number beside the
highest level. The pads let the upper bound of level `k` be `16 * 4 ^ k - 2`. -/
def tower (height : Nat) : Catalog :=
  let number : FieldDecl := ⟨"number", .varint, false, [], none⟩
  let pad (kind : ScalarKind) : FieldDecl := ⟨"pad", .scalar kind, false, [], none⟩
  let below (level : Nat) (name : String) : FieldDecl :=
    ⟨name, .value (.record ⟨level, 0⟩) .flexible, true, [], none⟩
  ⟨[⟨⟨"Ground", .managed, [number, pad .u32]⟩, true⟩] ++
    (List.range height).map (fun level => ⟨⟨"Level", .managed,
      pad .u16 :: ["north", "east", "south", "west"].map (below level)⟩, true⟩) ++
    [⟨⟨"Top", .managed, [below height "below", number]⟩, true⟩], [], []⟩

/-- Writes a number of ten bytes, on top of nothing, to an empty stream, and says in which range the
size should be, and what it is. Writes are not checked. -/
def writeTop (height : Nat) : Option (SizeRange × Nat) :=
  let unchecked : Config := { Config.standard with validateWrites := false }
  let top : Record :=
    ⟨⟨height + 1, 0⟩, [.null, .scalar (.u64 18446744073709551615)], [.null, .null]⟩
  match SpaceM.layout ⟨height + 1, 0⟩ .standard (.fresh (tower height) unchecked none) with
  | .ok l w => match writeRecord l ⟨w, .empty, top⟩ with
    | .ok _ s => some (l.size.toWords, s.stream.position)
    | .error _ _ => none
  | .error _ _ => none

/-- The tower refers to types that it declares itself. -/
theorem tower_closed (height : Nat) : (tower height).Closed := by
  refine ⟨fun d hd f hf type rule hshape => ?_, fun _ h => (nomatch h), fun _ h => (nomatch h)⟩
  have hlength : (tower height).schemas.length = height + 2 := by simp [tower]
  -- the ground holds numbers only; each level holds the one below it, and so does the top
  rcases List.mem_append.mp hd with hd | hd
  · rcases List.mem_append.mp hd with hd | hd
    · rw [List.mem_singleton.mp hd] at hf
      simp only [List.mem_cons, List.not_mem_nil, or_false] at hf
      rcases hf with rfl | rfl <;> exact FieldShape.noConfusion hshape
    · obtain ⟨level, hlevel, rfl⟩ := List.mem_map.mp hd
      have hlt := List.mem_range.mp hlevel
      simp only [List.map_cons, List.map_nil, List.mem_cons, List.not_mem_nil, or_false] at hf
      have hbelow : level < (tower height).schemas.length := by omega
      have hknown : (tower height).HasSchema ⟨level, 0⟩ := ⟨hbelow, Nat.zero_le 1⟩
      rcases hf with rfl | rfl | rfl | rfl | rfl <;> cases hshape <;> exact hknown
  · rw [List.mem_singleton.mp hd] at hf
    simp only [List.mem_cons, List.not_mem_nil, or_false] at hf
    rcases hf with rfl | rfl
    · cases hshape
      have hbelow : height < (tower height).schemas.length := by omega
      exact (⟨hbelow, Nat.zero_le 1⟩ : (tower height).HasSchema ⟨height, 0⟩)
    · cases hshape

/-- What is said of the number on top is said of a write that succeeds. -/
theorem writeTop_some {height n : Nat} {range : SizeRange}
    (h : writeTop height = some (range, n)) :
    ∃ l s s', s.space.Sound ∧ s.space.Knows l ∧ writeRecord l s = .ok () s' ∧
      s.stream.position = 0 ∧ l.size.toWords = range ∧ s'.stream.position = n := by
  unfold writeTop at h
  dsimp only at h
  split at h
  · rename_i l w hask
    split at h
    · rename_i s' hwrite
      obtain ⟨hrange, hposition⟩ := Prod.mk.inj (Option.some.inj h)
      obtain ⟨hs, -, hknows⟩ :=
        SpaceM.layout_sound (Workspace.sound_fresh (tower_closed height) _ _) hask
      exact ⟨l, _, s', hs, hknows, hwrite, rfl, hrange, hposition⟩
    · cases h
  · cases h

/-- With thirty levels, the upper bound of the top is no word, and what is kept of it is less than what
is written. -/
theorem writeRecord_size_not_in_words :
    ¬∀ (l : Layout) (s s' : Scene Record), s.space.Sound → s.space.Knows l →
      writeRecord l s = .ok () s' →
        ∃ k, s.stream.Advances s'.stream k ∧ l.size.toWords.contains k = true := by
  intro hall
  have hrun : writeTop 30 = some (.between 2 (some 9), 11) := by decide +kernel
  obtain ⟨l, s, s', hs, hknows, hwrite, hstart, hrange, hposition⟩ := writeTop_some hrun
  obtain ⟨k, hadvances, hin⟩ := hall l s s' hs hknows hwrite
  have hk : k = 11 := by
    have hat := hadvances.position
    rw [hposition, hstart] at hat
    exact (Nat.zero_add k).symm.trans hat.symm
  rw [hk, hrange] at hin
  exact absurd hin (by decide)

end RecordLayout
