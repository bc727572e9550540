import Mathlib
import RecordLayout.Proofs.Codec.Laid

/-!
# What writing does

A write that succeeds leaves bytes and chunks in which the record stands as it is after the write:
with its derived fields worked out, and with the chunks that its values are kept in.

Main results:

* `writeFields_written` — fields in a row, by induction along the row;
* `writeWithin_written` — values in their placements, by induction on the depth;
* `writeRecord_written` — records.
-/

namespace RecordLayout

open ChunkStore

/-! ## Relations between what was written and where it stands -/

/-- Placements that keep the value in a chunk behind its slot. -/
def Placement.isBehind : Placement → Bool
  | .chunkText | .chunkRecord _ | .chunkChoice _ | .chunkOpen => true
  | _ => false

/-- What a write of a slot leaves behind. -/
structure SlotWritten (n : Nat) (p : Placement) (s s' : Scene Slot) (b : Bytes) (F : List ChunkId) :
    Prop where
  laid : Laid s.space s.stream s'.space s'.stream s.subject.companions s'.subject.companions b F
  stands : Stands s'.space n p s'.subject.value b F
  ready : s'.subject.value.Ready s'.space.catalog
  scalar : ∀ x, s'.subject.value = .scalar x → s.subject.value = .scalar x
  chunk : p.isBehind = false → s'.subject.chunk = s.subject.chunk

/-- A way to write values does it well, where it succeeds. -/
def WritesWell (n : Nat) (writeIn : WriteIn) : Prop :=
  ∀ p (s s' : Scene Slot) u, writeIn p s = .ok u s' → s.space.Sound → s.stream.Writable →
    s.subject.value.Ready s.space.catalog → Owns s.space s.subject.companions →
    ∃ b F, SlotWritten n p s s' b F

/-- What a write of a field leaves behind. -/
structure FieldWritten (n : Nat) (f : BoundField) (s s' : Scene Record) (b : Bytes)
    (F : List ChunkId) : Prop where
  schema : s'.subject.schema = s.subject.schema
  others : ∀ i, i ≠ f.slot → s'.subject.slotAt i = s.subject.slotAt i
  laid : Laid s.space s.stream s'.space s'.stream (s.subject.slotAt f.slot).companions
    (s'.subject.slotAt f.slot).companions b F
  encodes : Encodes (Stands s'.space n) s'.space s'.subject.slot f.encoding
    (s'.subject.slot f.slot) b F
  ready : s'.subject.Ready s'.space.catalog

/-- What a write of fields in a row leaves behind. -/
structure FieldsWritten (n : Nat) (fields : List BoundField) (s s' : Scene Record) (b : Bytes)
    (F : List ChunkId) : Prop where
  schema : s'.subject.schema = s.subject.schema
  others : ∀ i, i ∉ fields.map (·.slot) → s'.subject.slotAt i = s.subject.slotAt i
  laid : Laid s.space s.stream s'.space s'.stream
    (fields.flatMap fun f => (s.subject.slotAt f.slot).companions)
    (fields.flatMap fun f => (s'.subject.slotAt f.slot).companions) b F
  held : FieldsHeld (Stands s'.space n) s'.space s'.subject fields b F
  ready : s'.subject.Ready s'.space.catalog

/-- What a write of a record leaves behind. -/
structure RecordWritten (n : Nat) (key : LayoutKey) (s s' : Scene Record) (b : Bytes)
    (F : List ChunkId) : Prop where
  schema : s'.subject.schema = s.subject.schema
  laid : Laid s.space s.stream s'.space s'.stream s.subject.companions s'.subject.companions b F
  form : RecordForm (Stands s'.space n) s'.space key s'.subject b F
  held : ∃ l, s'.space.compiler.answer key = some l ∧
    FieldsHeld (Stands s'.space n) s'.space s'.subject l.fields b F
  ready : s'.subject.Ready s'.space.catalog

/-! ## Fields -/

/-- Numbers in the width of another field, in a set width or of variable length. -/
def Encoding.isCount : Encoding → Bool
  | .sized _ | .forced _ | .varint => true
  | _ => false

/-- A slot that is encoded as a count is declared as a number. -/
theorem FieldGood.isNumber {c : Compiler} {s : Schema} {kind : LayoutKind} {decl : FieldDecl}
    {f : BoundField} (h : FieldGood c s kind decl f) (hcount : f.encoding.isCount = true) :
    decl.shape.isNumber = true := by
  -- counts are numbers whose size depends on their value: varints and those sized by another field
  have hbound {e : Encoding} (he : boundEncoding? c s kind decl = some e)
      (hcount : e.isCount = true) : decl.shape.isNumber = true := by
    rw [boundEncoding?] at he
    cases hshape : decl.shape with
    | varint => rfl
    | sized size => rfl
    | scalar k =>
      rw [hshape] at he
      cases he
      cases hcount
    | width =>
      rw [hshape] at he
      cases he
      cases hcount
    | array element count =>
      simp only [hshape] at he
      split at he
      · cases he
      · obtain ⟨i, -, rfl⟩ := Option.map_eq_some_iff.mp he
        cases hcount
    | value type rule =>
      simp only [hshape] at he
      obtain ⟨p, -, rfl⟩ := Option.map_eq_some_iff.mp he
      cases hcount
  rcases h.encoding with hsame | ⟨w, w', hforced, -⟩
  · exact hbound hsame hcount
  · exact hbound hforced rfl

/-- What a count field of a well-made record holds. -/
theorem FieldGood.count {c : Compiler} {kind : LayoutKind} {decl : FieldDecl} {f : BoundField}
    {r : Record} {n : Nat} (h : FieldGood c (c.catalog.schema r.schema) kind decl f)
    (hr : r.Ready c.catalog) (hcount : f.encoding.isCount = true)
    (hn : (r.slot f.slot).toNat? = some n) :
    ∃ m : UInt64, r.slot f.slot = .scalar (.u64 m) ∧ n = m.toNat := by
  cases hv : r.slot f.slot with
  | scalar x =>
    obtain ⟨m, rfl⟩ := hr.number h.declared (h.isNumber hcount) hv
    rw [hv] at hn
    exact ⟨m, rfl, (Option.some.inj hn).symm⟩
  | _ =>
    rw [hv] at hn
    cases hn

section

variable {n : Nat} {writeIn : WriteIn}

/-- A field of which only the bytes are new. -/
theorem FieldWritten.of_wrote {f : BoundField} {s s' : Scene Record} {b : Bytes}
    (h : s.Wrote b s') (hs : s.space.Sound) (hready : s.subject.Ready s.space.catalog)
    (hown : Owns s.space (s.subject.slotAt f.slot).companions)
    (hencodes : Encodes (Stands s.space n) s.space s.subject.slot f.encoding
      (s.subject.slot f.slot) b []) : FieldWritten n f s s' b [] := by
  obtain ⟨space, stream, subject⟩ := s'
  obtain ⟨rfl, rfl, hputs⟩ := h
  exact ⟨rfl, fun _ _ => rfl, .plain (.refl _) hs hputs hown.nodup, hencodes, hready⟩

/-- An absent value. -/
theorem writeAbsent_written {f : BoundField} {p : Placement} {s s' : Scene Record} {u : Unit}
    (h : (do
      Op.write [0]
      let inline ← Op.compile (p.inlineSize Compiler.layout)
      writeZeros (inline.getD 0) : Op Record Unit) s = .ok u s') (hs : s.space.Sound)
    (hw : s.stream.Writable) (hready : s.subject.Ready s.space.catalog)
    (hown : Owns s.space (s.subject.slotAt f.slot).companions)
    (he : f.encoding = .placed p true) (hnull : (s.subject.slot f.slot).isNull = true) :
    ∃ b F, FieldWritten n f s s' b F := by
  -- the marker is sent, the size is asked for, and as many zeros follow
  obtain ⟨_, s₁, hmark, hrest⟩ := bind_ok.mp h
  obtain ⟨hspace₁, hsubject₁, hputs₁⟩ := write_wrote hmark hw
  obtain ⟨size, s₂, hask, hzeros⟩ := bind_ok.mp hrest
  have hs₁ : s₁.space.Sound := by rwa [hspace₁]
  obtain ⟨hstudied, hsubject₂, rfl, hset⟩ := space_studied (inlineSize_learning hs₁ p) hask
  have hwritable : s₂.stream.Writable := by
    rw [hstudied.stream]
    exact hputs₁.writable
  obtain ⟨hspace₃, hsubject₃, hputs₃⟩ := writeZeros_wrote hzeros hwritable
  have hsubject : s'.subject = s.subject := by rw [hsubject₃, hsubject₂, hsubject₁]
  have hlearns : s.space.Learns s'.space := by
    rw [hspace₃, ← hspace₁]
    exact hstudied.learns
  have hsound : s'.space.Sound := by
    rw [hspace₃]
    exact hstudied.sound
  rw [hstudied.stream] at hputs₃
  refine ⟨0 :: List.replicate ((p.sizeIn s₂.space.compiler).fixed?.getD 0) 0, [],
    by rw [hsubject], by rw [hsubject]; exact fun _ _ => rfl, ?_, ?_, ?_⟩
  · rw [hsubject]
    exact .plain hlearns hsound (hputs₁.trans hputs₃) hown.nodup
  · rw [hsubject, he, Value.isNull_iff.mp hnull, hspace₃]
    exact .absent hset
  · rw [hsubject, hlearns.catalog]
    exact hready

/-- A value that is there, after the bytes that say so. -/
theorem writePresent_written (hin : WritesWell n writeIn) {f : BoundField} {p : Placement}
    {s t s' : Scene Record} {b : Bytes} {u : Unit} (hwrote : s.Wrote b t)
    (h : Op.on (RecordOf.slotPart f.slot) (writeIn p) t = .ok u s') (hs : s.space.Sound)
    (hready : s.subject.Ready s.space.catalog)
    (hown : Owns s.space (s.subject.slotAt f.slot).companions) {kind : LayoutKind}
    {decl : FieldDecl} (hgood : FieldGood s.space.compiler
      (s.space.catalog.schema s.subject.schema) kind decl f)
    (hencodes : ∀ {w : Workspace} {v : Value} {c : Bytes} {F : List ChunkId},
      Stands w n p v c F → ∀ slots, Encodes (Stands w n) w slots f.encoding v (b ++ c) F) :
    ∃ b F, FieldWritten n f s s' b F := by
  obtain ⟨space, stream, subject⟩ := t
  obtain ⟨rfl, rfl, hputs⟩ := hwrote
  obtain ⟨t', hact, rfl⟩ := Op.on_ok.mp h
  obtain ⟨c, F, hwritten⟩ := hin _ _ _ _ hact hs hputs.writable (hready.slot _) hown
  have hlt : f.slot < s.subject.slots.length := by
    rw [hready.slots_length]
    exact (List.getElem?_eq_some_iff.mp hgood.declared).1
  -- the slot holds what the write has left in it
  have hself : (s.subject.setSlotAt f.slot t'.subject).slotAt f.slot = t'.subject :=
    RecordOf.slotAt_setSlotAt_self hlt hready.chunks_length _
  refine ⟨b ++ c, F, rfl, fun i hi => RecordOf.slotAt_setSlotAt_of_ne hi _, ?_, ?_, ?_⟩
  · show Laid _ _ _ _ _ ((s.subject.setSlotAt f.slot t'.subject).slotAt f.slot).companions _ _
    rw [hself]
    exact hwritten.laid.after_bytes hputs
  · show Encodes _ _ _ _ ((s.subject.setSlotAt f.slot t'.subject).slotAt f.slot).value _ _
    rw [hself]
    exact hencodes hwritten.stands _
  · show (s.subject.setSlotAt f.slot t'.subject).Ready t'.space.catalog
    rw [hwritten.laid.le.catalog]
    refine hready.setSlotAt ?_ fun decl' hdecl hnum x hx => ?_
    · have hvalue := hwritten.ready
      rwa [hwritten.laid.le.catalog] at hvalue
    · exact hready.number hdecl hnum (hwritten.scalar x hx)

/-- A field leaves its encoding in the stream, and what it stores behind it. -/
theorem writeFieldWith_written (hin : WritesWell n writeIn) {f : BoundField} {s s' : Scene Record}
    {u : Unit} (h : writeFieldWith writeIn f s = .ok u s') (hs : s.space.Sound)
    (hw : s.stream.Writable) (hready : s.subject.Ready s.space.catalog)
    (hown : Owns s.space (s.subject.slotAt f.slot).companions) {kind : LayoutKind}
    {decl : FieldDecl} (hgood : FieldGood s.space.compiler
      (s.space.catalog.schema s.subject.schema) kind decl f) :
    ∃ b F, FieldWritten n f s s' b F := by
  rw [writeFieldWith, Op.inField_ok] at h
  simp only [bind_ok, Op.subject_ok] at h
  obtain ⟨r, s, ⟨rfl, rfl⟩, h⟩ := h
  -- one case for each encoding; numbers leave their bytes, a placed value what its placement leaves
  cases he : f.encoding with
  | scalar k =>
    simp only [he] at h
    obtain ⟨x, hx, rfl, hwrote⟩ := writeScalar_wrote h hw
    refine ⟨_, [], .of_wrote hwrote hs hready hown ?_⟩
    rw [he, hx]
    exact .scalar x
  | ordinal =>
    simp only [he] at h
    obtain ⟨width, s₁, hask, hwrite⟩ := bind_ok.mp h
    obtain ⟨hslot, rfl⟩ := space_widthIn_ok.mp hask
    refine ⟨_, [], .of_wrote (write_wrote hwrite hw) hs hready hown ?_⟩
    rw [he, hslot]
    exact .ordinal width
  | sized g =>
    -- another field keeps the width, and the count must fit into it
    simp only [he] at h
    obtain ⟨width, s₁, hask, hrest⟩ := bind_ok.mp h
    obtain ⟨hslot, rfl⟩ := space_widthIn_ok.mp hask
    obtain ⟨m, s₁, hcount, hwrite⟩ := bind_ok.mp hrest
    obtain ⟨hm, rfl⟩ := space_countOf_ok.mp hcount
    obtain ⟨x, hx, rfl⟩ := hgood.count hready (by rw [he]; rfl) hm
    rcases ite_ok.mp hwrite with ⟨hfit, hwrite⟩ | ⟨-, hfail⟩
    · refine ⟨_, [], .of_wrote (writeNumber_wrote hwrite hw) hs hready hown ?_⟩
      rw [he, hx]
      exact .sized hslot hfit
    · exact (space_disagreement_fails hfail).elim
  | forced width =>
    simp only [he] at h
    obtain ⟨m, s₁, hcount, hwrite⟩ := bind_ok.mp h
    obtain ⟨hm, rfl⟩ := space_countOf_ok.mp hcount
    obtain ⟨x, hx, rfl⟩ := hgood.count hready (by rw [he]; rfl) hm
    rcases ite_ok.mp hwrite with ⟨hfit, hwrite⟩ | ⟨-, hfail⟩
    · refine ⟨_, [], .of_wrote (writeNumber_wrote hwrite hw) hs hready hown ?_⟩
      rw [he, hx]
      exact .forced hfit
    · exact (throw_ok.mp hfail).elim
  | varint =>
    simp only [he] at h
    obtain ⟨m, s₁, hcount, hwrite⟩ := bind_ok.mp h
    obtain ⟨hm, rfl⟩ := space_countOf_ok.mp hcount
    obtain ⟨x, hx, rfl⟩ := hgood.count hready (by rw [he]; rfl) hm
    have hwrote := writeVarint_wrote hwrite hw
    rw [UInt64.ofNat_toNat] at hwrote
    refine ⟨_, [], .of_wrote hwrote hs hready hown ?_⟩
    rw [he, hx]
    exact .varint x
  | array element g =>
    -- the list must be as long as another field says
    simp only [he] at h
    obtain ⟨count, s₁, hask, hrest⟩ := bind_ok.mp h
    obtain ⟨hcount, rfl⟩ := space_countOf_ok.mp hask
    obtain ⟨items, s₁, hitems, hwrite⟩ := bind_ok.mp hrest
    obtain ⟨hlist, rfl⟩ := space_itemsOf_ok.mp hitems
    rcases ite_ok.mp hwrite with ⟨hlen, hwrite⟩ | ⟨-, hfail⟩
    · obtain ⟨xs, rfl, hkinds, hwrote⟩ := writeScalars_wrote hwrite hw
      refine ⟨_, [], .of_wrote hwrote hs hready hown ?_⟩
      rw [he, hlist]
      refine .array ?_ hkinds
      rw [hcount, ← hlen, List.length_map]
    · exact (space_disagreement_fails hfail).elim
  | placed p marker =>
    simp only [he] at h
    rcases ite_ok.mp h with ⟨-, hfail⟩ | ⟨-, hrun⟩
    · exact (throw_ok.mp hfail).elim
    -- absent values are written as the marker alone, others behind it if there is one
    rcases ite_ok.mp hrun with ⟨habsent, hwrite⟩ | ⟨-, hwrite⟩
    · obtain ⟨hnull, rfl⟩ : (s.subject.slot f.slot).isNull = true ∧ marker = true := by
        simpa using habsent
      exact writeAbsent_written hwrite hs hw hready hown he hnull
    · have hplaced {t : Scene Record} {b : Bytes} (hwrote : s.Wrote b t)
          (h : Op.on (RecordOf.slotPart f.slot) (writeIn p) t = .ok u s') :=
        writePresent_written hin hwrote h hs hready hown hgood
      cases marker with
      | true =>
        obtain ⟨_, t, hmark, hrest⟩ := bind_ok.mp hwrite
        refine hplaced (write_wrote hmark hw) hrest fun hstands slots => ?_
        rw [he]
        exact .present hstands
      | false =>
        refine hplaced (.refl hw) hwrite fun hstands slots => ?_
        rw [he]
        exact .plain hstands

/-! ## Fields in a row -/

/-- The chunks of the fields after one are as they were. -/
theorem FieldWritten.companions_rest {f : BoundField} {rest : List BoundField}
    {s s₁ : Scene Record} {b : Bytes} {F : List ChunkId} (hone : FieldWritten n f s s₁ b F)
    (hrow : InRow (f :: rest)) :
    (rest.flatMap fun g => (s₁.subject.slotAt g.slot).companions) =
      rest.flatMap fun g => (s.subject.slotAt g.slot).companions :=
  List.flatMap_congr fun g hg => by
    rw [hone.others _ ((List.pairwise_cons.mp hrow).1 g hg).1.symm]

/-- A field and the fields after it. -/
theorem FieldWritten.cons {f : BoundField} {rest : List BoundField} {s s₁ s' : Scene Record}
    {b c : Bytes} {F G : List ChunkId} (hone : FieldWritten n f s s₁ b F)
    (hmore : FieldsWritten n rest s₁ s' c G)
    (hown : Owns s.space ((f :: rest).flatMap fun g => (s.subject.slotAt g.slot).companions))
    (hrow : InRow (f :: rest)) : FieldsWritten n (f :: rest) s s' (b ++ c) (F ++ G) := by
  rw [List.flatMap_cons] at hown
  obtain ⟨hapart, -⟩ := List.pairwise_cons.mp hrow
  have hleft := hown.sublist (List.sublist_append_left _ _)
  have hright := hown.sublist (List.sublist_append_right _ _)
  have hdisj := (List.nodup_append'.mp hown.nodup).2.2
  -- what comes after leaves the slot of the first field alone, and the one that decides its size
  have hnot : f.slot ∉ rest.map (·.slot) := by
    rintro hmem
    obtain ⟨g, hg, heq⟩ := List.mem_map.mp hmem
    exact (hapart g hg).1 heq.symm
  have hkept := hmore.others f.slot hnot
  have hlaid := hmore.laid
  rw [hone.companions_rest hrow] at hlaid
  refine ⟨hmore.schema.trans hone.schema, fun i hi => ?_, ?_, ?_, hmore.ready⟩
  · rw [List.map_cons, List.mem_cons, not_or] at hi
    rw [hmore.others i hi.2, hone.others i hi.1]
  · rw [List.flatMap_cons, List.flatMap_cons, hkept]
    exact hone.laid.trans hlaid hleft hright hdisj
  · refine .cons ?_ (by rw [hkept]; exact hone.laid.sub) hmore.held
    rw [RecordOf.slot_eq_slotAt, hkept, ← RecordOf.slot_eq_slotAt]
    refine hone.encodes.transfer hone.laid.sound hlaid.le (fun p v b hform => ?_) fun g hg => ?_
    · refine hform.stable hone.laid.sound hlaid.le fun x hx => ?_
      have hmem := hone.laid.sub hx
      exact hlaid.content? (hone.laid.disjoint hright hdisj hmem) (hone.laid.lt_next hleft hmem)
    · rw [RecordOf.slot_eq_slotAt, RecordOf.slot_eq_slotAt, hmore.others g]
      rintro hmem
      obtain ⟨g', hg', rfl⟩ := List.mem_map.mp hmem
      exact (hapart g' hg').2 hg

/-- What the fields after one need in order to be written after it. -/
theorem FieldWritten.next {f : BoundField} {rest : List BoundField} {s s₁ : Scene Record}
    {b : Bytes} {F : List ChunkId} (hone : FieldWritten n f s s₁ b F)
    (hown : Owns s.space ((f :: rest).flatMap fun g => (s.subject.slotAt g.slot).companions))
    (hrow : InRow (f :: rest)) :
    Owns s₁.space (rest.flatMap fun g => (s₁.subject.slotAt g.slot).companions) := by
  rw [hone.companions_rest hrow]
  rw [List.flatMap_cons] at hown
  exact (hown.sublist (List.sublist_append_right _ _)).mono hone.laid.writes.next_le

/-- A run of fields leaves the encodings of its fields one after the other. -/
theorem writeFields_written (hin : WritesWell n writeIn) {kind : LayoutKind}
    {fields : List BoundField} {s s' : Scene Record} {u : Unit}
    (h : writeFields writeIn fields s = .ok u s') (hs : s.space.Sound) (hw : s.stream.Writable)
    (hready : s.subject.Ready s.space.catalog)
    (hown : Owns s.space (fields.flatMap fun f => (s.subject.slotAt f.slot).companions))
    (hrow : InRow fields)
    (hgood : ∀ f ∈ fields, ∃ decl, FieldGood s.space.compiler
      (s.space.catalog.schema s.subject.schema) kind decl f) :
    ∃ b F, FieldsWritten n fields s s' b F := by
  induction fields generalizing s with
  | nil =>
    obtain ⟨-, rfl⟩ := pure_ok.mp h
    exact ⟨[], [], rfl, fun _ _ => rfl, .plain (.refl _) hs (.refl hw) List.nodup_nil, .nil, hready⟩
  | cons f rest ih =>
    obtain ⟨_, s₁, hfirst, hrest⟩ := bind_ok.mp h
    obtain ⟨decl, hdecl⟩ := hgood f List.mem_cons_self
    obtain ⟨b, F, hone⟩ := writeFieldWith_written hin hfirst hs hw hready
      (hown.sublist (List.sublist_append_left _ _)) hdecl
    -- what the first field has stored is nothing that the others own
    obtain ⟨c, G, hmore⟩ := ih hrest hone.laid.sound hone.laid.puts.writable hone.ready
      (hone.next hown hrow) (List.pairwise_cons.mp hrow).2 (by
        intro g hg
        obtain ⟨decl', hdecl'⟩ := hgood g (List.mem_cons_of_mem _ hg)
        rw [hone.laid.le.catalog, hone.schema]
        exact ⟨decl', hdecl'.grows hone.laid.le.compiler⟩)
    exact ⟨b ++ c, F ++ G, hone.cons hmore hown hrow⟩

/-! ## Records -/

/-- The chunks of a record, field by field. -/
theorem companions_perm_fields {c : Compiler} {kind : LayoutKind} {fields : List BoundField}
    {r : Record} (h : FieldsGood c (c.catalog.schema r.schema) kind fields)
    (hslots : r.slots.length = (c.catalog.schema r.schema).fields.length)
    (hchunks : r.chunks.length = r.slots.length) :
    (fields.flatMap fun f => (r.slotAt f.slot).companions).Perm r.companions := by
  have hperm := h.slots_perm
  rw [RecordOf.companions_eq_flatMap hchunks, hslots]
  refine List.Perm.trans (List.Perm.of_eq ?_) (hperm.flatMap_right fun i => (r.slotAt i).companions)
  rw [List.flatMap_map]

/-- All fields of a record. -/
theorem FieldsWritten.record {l : Layout} {s s' : Scene Record} {b : Bytes} {F : List ChunkId}
    (h : FieldsWritten n l.fields s s' b F) (hs : s.space.Sound) (hl : s.space.Knows l)
    (hschema : s.subject.schema = l.schema) (hready : s.subject.Ready s.space.catalog) :
    RecordWritten n l.key s s' b F := by
  have hfields := (hl.good hs).fields
  rw [← hschema] at hfields
  have hfields' := hfields.grows h.laid.le.compiler
  rw [← h.laid.le.compiler.catalog, ← h.schema] at hfields'
  have hl' := hl.mono h.laid.le
  have hperm := companions_perm_fields hfields hready.slots_length hready.chunks_length
  refine ⟨h.schema, ?_, ?_, ⟨l, hl', h.held⟩, h.ready⟩
  · exact h.laid.relist hperm.subset
      (companions_perm_fields hfields' h.ready.slots_length h.ready.chunks_length)
  · exact ⟨h.schema.trans hschema, h.ready.slots_length, h.ready.chunks_length, l, hl',
      h.held.row⟩

/-- All fields of a known layout leave the encoding of the record. -/
theorem writeRow_written (hin : WritesWell n writeIn) {l : Layout} {s s' : Scene Record} {u : Unit}
    (h : writeFields writeIn l.fields s = .ok u s') (hs : s.space.Sound) (hw : s.stream.Writable)
    (hl : s.space.Knows l) (hschema : s.subject.schema = l.schema)
    (hready : s.subject.Ready s.space.catalog) (hown : Owns s.space s.subject.companions) :
    ∃ b F, RecordWritten n l.key s s' b F := by
  have hfields := (hl.good hs).fields
  rw [← hschema] at hfields
  have hperm := companions_perm_fields hfields hready.slots_length hready.chunks_length
  obtain ⟨b, F, hrow⟩ := writeFields_written hin h hs hw hready
    ⟨hperm.nodup_iff.mpr hown.nodup, fun x hx => hown.known x (hperm.subset hx)⟩ hfields.inRow
    fun f hf => hfields.declared hf
  exact ⟨b, F, hrow.record hs hl hschema hready⟩

/-- Studying before a write changes nothing about it. -/
theorem RecordWritten.after_studying {key : LayoutKey} {s t s' : Scene Record} {b : Bytes}
    {F : List ChunkId} (h : RecordWritten n key t s' b F) (hstudied : s.Studied t)
    (hschema : t.subject.schema = s.subject.schema)
    (hsub : t.subject.companions.Sublist s.subject.companions) : RecordWritten n key s s' b F := by
  refine ⟨h.schema.trans hschema, ?_, h.form, h.held, h.ready⟩
  have hlaid := h.laid.after_learning hstudied.learns
  rw [hstudied.stream] at hlaid
  exact hlaid.relist hsub.subset (List.Perm.refl _)

/-- The checked body leaves what the row leaves: the check only asks. -/
theorem writeChecked_written (hin : WritesWell n writeIn) {l : Layout} {s s' : Scene Record}
    {u : Unit} (h : writeChecked writeIn l s = .ok u s') (hs : s.space.Sound)
    (hw : s.stream.Writable) (hl : s.space.Knows l) (hschema : s.subject.schema = l.schema)
    (hready : s.subject.Ready s.space.catalog) (hown : Owns s.space s.subject.companions) :
    ∃ b F, RecordWritten n l.key s s' b F := by
  rw [writeChecked] at h
  simp only [bind_ok, Op.subject_ok, Op.position_ok] at h
  obtain ⟨r, s, ⟨rfl, rfl⟩, size, s₁, hcheck, start, s₁, ⟨rfl, rfl⟩, _, s₂, hwrite, stop, s₂,
    ⟨rfl, rfl⟩, hrest⟩ := h
  obtain ⟨hstudied, hsubject, -⟩ := space_studied (studies.checkedSize l _ _ hs) hcheck
  -- the check has asked the space, and the row is written from what it has learnt
  have hstore := hstudied.learns.store
  obtain ⟨b, F, hwritten⟩ := writeRow_written hin hwrite hstudied.sound
    (by rw [hstudied.stream]; exact hw) (hl.mono hstudied.learns.toLe)
    (by rw [hsubject]; exact hschema)
    (by rw [hsubject, hstudied.learns.catalog]; exact hready)
    (by rw [hsubject]; exact hown.mono (by rw [hstore]))
  rcases ite_ok.mp hrest with ⟨-, hfail⟩ | ⟨-, hpure⟩
  · exact (throw_ok.mp hfail).elim
  · obtain ⟨-, rfl⟩ := pure_ok.mp hpure
    exact ⟨b, F, hwritten.after_studying hstudied (by rw [hsubject])
      (by rw [hsubject])⟩

/-- The body leaves the encoding of the derived record. -/
theorem writeBody_written (hin : WritesWell n writeIn) {l : Layout} {s s' : Scene Record} {u : Unit}
    (h : writeBody writeIn l s = .ok u s') (hs : s.space.Sound) (hw : s.stream.Writable)
    (hl : s.space.Knows l) (hschema : s.subject.schema = l.schema)
    (hready : s.subject.Ready s.space.catalog) (hown : Owns s.space s.subject.companions) :
    ∃ b F, RecordWritten n l.key s s' b F := by
  rw [writeBody] at h
  obtain ⟨_, s₁, hderive, hrest⟩ := bind_ok.mp h
  obtain ⟨hstudied, hrefreshed⟩ := deriveRecord_ok hderive hs hl
  obtain ⟨config, s₂, hconfig, hwrite⟩ := bind_ok.mp hrest
  obtain ⟨rfl, rfl⟩ := Op.config_ok.mp hconfig
  have hstore := hstudied.learns.store
  -- deriving has read nothing and allocated nothing, so all that was assumed of the record holds of
  -- it after
  have hboth : ∃ b F, RecordWritten n l.key s₂ s' b F := by
    have hw₁ : s₂.stream.Writable := by
      rw [hstudied.stream]
      exact hw
    have hready₁ : s₂.subject.Ready s₂.space.catalog := by
      rw [hstudied.learns.catalog]
      exact hrefreshed.ready hready
    have hown₁ : Owns s₂.space s₂.subject.companions :=
      (hown.sublist hrefreshed.companions).mono (by rw [hstore])
    have hschema₁ := hrefreshed.recast.schema.trans hschema
    have hl₁ := hl.mono hstudied.learns.toLe
    rcases ite_ok.mp hwrite with ⟨-, hwrite⟩ | ⟨-, hwrite⟩
    · exact writeChecked_written hin hwrite hstudied.sound hw₁ hl₁ hschema₁ hready₁ hown₁
    · exact writeRow_written hin hwrite hstudied.sound hw₁ hl₁ hschema₁ hready₁ hown₁
  obtain ⟨b, F, hwritten⟩ := hboth
  exact ⟨b, F, hwritten.after_studying hstudied hrefreshed.recast.schema hrefreshed.companions⟩

/-- A rollback scope is kept after the write. -/
theorem RecordWritten.of_scope {key : LayoutKey} {s t : Scene Record} {b : Bytes} {F : List ChunkId}
    (h : RecordWritten n key { s with space := s.space.openScope } t b F) :
    RecordWritten n key s { t with space := t.space.keepScope } b F := by
  obtain ⟨journal, hkeep⟩ := t.space.keepScope_eq
  have hle : t.space.Le t.space.keepScope := by
    rw [hkeep]
    exact ⟨.refl _, .refl _, rfl⟩
  -- keeping a frame hands its chunks on and leaves their contents
  have hstore (x : ChunkId) : t.space.keepScope.store.content? x = t.space.store.content? x := by
    rw [hkeep]
    rfl
  refine ⟨h.schema, h.laid.of_scope, ?_, ?_, ?_⟩
  · exact h.form.stable h.laid.sound hle fun x _ => hstore x
  · obtain ⟨l, hl, hheld⟩ := h.held
    exact ⟨l, hle.compiler.answer hl, hheld.stable h.laid.sound hle fun x _ => hstore x⟩
  · show t.subject.Ready t.space.keepScope.catalog
    rw [hle.catalog]
    exact h.ready

/-- A record leaves its encoding, with its derived fields up to date. -/
theorem writeRecordWith_written (hin : WritesWell n writeIn) {l : Layout} {s s' : Scene Record}
    {u : Unit} (h : writeRecordWith writeIn l s = .ok u s') (hs : s.space.Sound)
    (hw : s.stream.Writable) (hl : s.space.Knows l) (hready : s.subject.Ready s.space.catalog)
    (hown : Owns s.space s.subject.companions) :
    ∃ b F, RecordWritten n l.key s s' b F := by
  rw [writeRecordWith] at h
  simp only [bind_ok, Op.subject_ok, space_requireSchema_ok] at h
  obtain ⟨r, s, ⟨rfl, rfl⟩, _, s, ⟨hschema, rfl⟩, h⟩ := h
  rw [guardingChunks] at h
  simp only [bind_ok, Op.subject_ok, Op.onFailure_ok, rollback_ok] at h
  obtain ⟨r, s, ⟨rfl, rfl⟩, t, hbody, rfl⟩ := h
  have hs₁ : s.space.openScope.Sound := ⟨hs.compiler, hs.store⟩
  obtain ⟨b, F, hwritten⟩ := writeBody_written hin hbody hs₁ hw hl hschema hready
    ⟨hown.nodup, hown.known⟩
  exact ⟨b, F, hwritten.of_scope⟩

/-! ## Values in place -/

/-- Values that are made from one record. -/
structure Wraps (wrap : Record → Value) : Prop where
  inner : ∀ r, (wrap r).innerRecord = r
  set : ∀ r r', (wrap r).setInnerRecord r' = wrap r'
  companions : ∀ r, (wrap r).companions = RecordOf.companions r
  ready : ∀ cat r, (wrap r).Ready cat ↔ RecordOf.Ready cat r
  scalar : ∀ r x, wrap r ≠ .scalar x

/-- A record in a slot is the slot's value. -/
theorem wraps_record : Wraps .record :=
  ⟨fun _ => rfl, fun _ _ => rfl, fun _ => rfl, fun _ _ => Iff.rfl, fun _ _ h => nomatch h⟩

/-- A carrier in a slot is wrapped in the slot's value. -/
theorem wraps_wrapped (wrapper : WrapperId) : Wraps (.wrapped wrapper) :=
  ⟨fun _ => rfl, fun _ _ => rfl, fun _ => rfl, fun _ _ => Iff.rfl, fun _ _ h => nomatch h⟩

/-- A slot after the record of its value has been written. -/
structure InnerWritten (n : Nat) (wrap : Record → Value) (key : LayoutKey) (s s' : Scene Slot)
    (r r' : Record) (b : Bytes) (F : List ChunkId) : Prop where
  subject : s'.subject = ⟨wrap r', s.subject.chunk⟩
  schema : r'.schema = r.schema
  laid : Laid s.space s.stream s'.space s'.stream r.companions r'.companions b F
  form : RecordForm (Stands s'.space n) s'.space key r' b F
  ready : r'.Ready s'.space.catalog

/-- The record of a value. -/
theorem writeInner_written (hin : WritesWell n writeIn) {wrap : Record → Value} (hwrap : Wraps wrap)
    {l : Layout} {s s' : Scene Slot} {r : Record} {u : Unit} (hv : s.subject.value = wrap r)
    (h : Op.on Slot.recordPart (writeRecordWith writeIn l) s = .ok u s') (hs : s.space.Sound)
    (hw : s.stream.Writable) (hl : s.space.Knows l) (hready : r.Ready s.space.catalog)
    (hown : Owns s.space r.companions) : ∃ r' b F, InnerWritten n wrap l.key s s' r r' b F := by
  obtain ⟨space, stream, ⟨value, chunk⟩⟩ := s
  simp only at hv
  subst hv
  obtain ⟨t, hact, rfl⟩ := Op.on_ok.mp h
  have hget : Slot.recordPart.get ⟨wrap r, chunk⟩ = r := hwrap.inner r
  simp only [hget] at hact
  obtain ⟨b, F, hwritten⟩ := writeRecordWith_written hin hact hs hw hl hready hown
  refine ⟨t.subject, b, F, ?_, hwritten.schema, hwritten.laid, hwritten.form, hwritten.ready⟩
  exact congrArg (fun v => (⟨v, chunk⟩ : Slot)) (hwrap.set r t.subject)

/-- The record of a value in a layout that has just been asked for. -/
theorem writeAsked_written (hin : WritesWell n writeIn) {wrap : Record → Value} (hwrap : Wraps wrap)
    {layout : SpaceM Layout} {s s' : Scene Slot} {r : Record} {u : Unit}
    {post : Layout → Workspace → Prop}
    (h : (Op.space layout >>= fun l => Op.on Slot.recordPart (writeRecordWith writeIn l)) s =
      .ok u s') (hv : s.subject.value = wrap r) (hw : s.stream.Writable)
    (hlayout : Learning layout s.space fun l w => w.Knows l ∧ post l w)
    (hready : s.subject.value.Ready s.space.catalog) (hown : Owns s.space s.subject.companions) :
    ∃ l w r' b F, s.space.Le w ∧ post l w ∧ InnerWritten n wrap l.key s s' r r' b F := by
  obtain ⟨l, s₁, hask, hrecord⟩ := bind_ok.mp h
  obtain ⟨hstudied, hsubject, hl, hpost⟩ := space_studied hlayout hask
  have hstore := hstudied.learns.store
  rw [hv, hwrap.ready] at hready
  -- the record's chunks are those inside the value, without the slot's own
  have hown₁ : Owns s₁.space r.companions := by
    rw [Slot.companions, hv, hwrap.companions] at hown
    exact (hown.sublist (List.sublist_append_right _ _)).mono (by rw [hstore])
  obtain ⟨r', b, F, hwritten⟩ := writeInner_written hin hwrap (by rw [hsubject, hv]) hrecord
    hstudied.sound (by rw [hstudied.stream]; exact hw) hl
    (by rw [hstudied.learns.catalog]; exact hready) hown₁
  have hlaid := hwritten.laid.after_learning hstudied.learns
  rw [hstudied.stream] at hlaid
  refine ⟨l, s₁.space, r', b, F, hstudied.learns.toLe, hpost, ?_, hwritten.schema, hlaid,
    hwritten.form, hwritten.ready⟩
  rw [hwritten.subject, hsubject]

/-- A slot whose record stands in place, after some bytes. -/
theorem InnerWritten.slotWritten {wrap : Record → Value} (hwrap : Wraps wrap) {key : LayoutKey}
    {p : Placement} {s t s' : Scene Slot} {r r' : Record} {b c : Bytes} {F : List ChunkId}
    (h : InnerWritten n wrap key t s' r r' c F) (hwrote : s.Wrote b t)
    (hv : s.subject.value = wrap r) (hs : s.space.Sound) (hw : s.stream.Writable)
    (hown : Owns s.space s.subject.companions)
    (hstands : Stands s'.space (n + 1) p (wrap r') (b ++ c) F) :
    SlotWritten (n + 1) p s s' (b ++ c) F := by
  obtain ⟨space, stream, subject⟩ := t
  -- what was sent before the record stands before its encoding
  obtain ⟨rfl, rfl, hputs⟩ := hwrote
  have hvalue : s'.subject.value = wrap r' := by rw [h.subject]
  have hchunk : s'.subject.chunk = s.subject.chunk := by rw [h.subject]
  refine ⟨?_, ?_, ?_, fun x hx => ?_, fun _ => hchunk⟩
  · rw [Slot.companions, hv, hwrap.companions] at hown ⊢
    rw [Slot.companions, hvalue, hchunk, hwrap.companions]
    exact (h.laid.after_bytes hputs).beside hs hw hown
  · rw [hvalue]
    exact hstands
  · rw [hvalue, hwrap.ready]
    exact h.ready
  · rw [hvalue] at hx
    exact (hwrap.scalar _ _ hx).elim

/-- A slot of which only the bytes are new. -/
theorem SlotWritten.of_wrote {p : Placement} {s s' : Scene Slot} {b : Bytes} (h : s.Wrote b s')
    (hs : s.space.Sound) (hready : s.subject.value.Ready s.space.catalog)
    (hown : Owns s.space s.subject.companions)
    (hstands : Stands s.space n p s.subject.value b []) : SlotWritten n p s s' b [] := by
  obtain ⟨space, stream, subject⟩ := s'
  obtain ⟨rfl, rfl, hputs⟩ := h
  exact ⟨.plain (.refl _) hs hputs hown.nodup, hstands, hready, fun _ hx => hx, fun _ => rfl⟩

/-- A slot written after some studying is a slot written. -/
theorem SlotWritten.after_studying {p : Placement} {s t s' : Scene Slot} {b : Bytes}
    {F : List ChunkId} (h : SlotWritten n p t s' b F) (hstudied : s.Studied t)
    (hsubject : t.subject = s.subject) : SlotWritten n p s s' b F := by
  have hlaid := h.laid.after_learning hstudied.learns
  have hscalar := h.scalar
  have hchunk := h.chunk
  rw [hstudied.stream, hsubject] at hlaid
  rw [hsubject] at hscalar hchunk
  exact ⟨hlaid, h.stands, h.ready, hscalar, hchunk⟩

/-- A record in its slot leaves the record's encoding in place. -/
theorem writeInner_placed (hin : WritesWell n writeIn) {id : SchemaId} {kind : LayoutKind}
    {p : Placement} {s s' : Scene Slot} {u : Unit} (h : writeInner writeIn id kind s = .ok u s')
    (hs : s.space.Sound) (hw : s.stream.Writable)
    (hready : s.subject.value.Ready s.space.catalog) (hown : Owns s.space s.subject.companions)
    (hplaced : ∀ {w r b F}, RecordForm (Stands w n) w (id, kind) r b F →
      Placed (Stands w n) w p (.record r) b F) :
    ∃ b F, SlotWritten (n + 1) p s s' b F := by
  rw [writeInner] at h
  simp only [bind_ok, Op.subject_ok, Op.catalog_ok] at h
  obtain ⟨slot, s, ⟨rfl, rfl⟩, c, s, ⟨rfl, rfl⟩, h⟩ := h
  -- a slot of another value, or of another schema, is refused
  cases hv : s.subject.value with
  | record r =>
    simp only [hv] at h
    rcases ite_ok.mp h with ⟨hschema, hrun⟩ | ⟨-, hfail⟩
    · obtain ⟨l, w, r', b, F, hle, hkey, hwritten⟩ := writeAsked_written hin wraps_record hrun hv hw
        (layout_knows hs id kind) hready hown
      refine ⟨_, F, hwritten.slotWritten wraps_record (.refl hw) hv hs hw hown ?_⟩
      refine hplaced ?_
      rw [← hkey]
      exact hwritten.form
    · exact (space_mismatch_fails hfail).elim
  | _ =>
    simp only [hv] at h
    exact (space_mismatch_fails h).elim

/-- A wrapped value leaves its carrier's encoding in place. -/
theorem writeWrapped_placed (hin : WritesWell n writeIn) {wrapper : WrapperId} {carrier : SchemaId}
    {kind : LayoutKind} {s s' : Scene Slot} {u : Unit}
    (h : writeWrapped writeIn wrapper carrier kind s = .ok u s')
    (hs : s.space.Sound) (hw : s.stream.Writable)
    (hready : s.subject.value.Ready s.space.catalog) (hown : Owns s.space s.subject.companions) :
    ∃ b F, SlotWritten (n + 1) (.wrapped wrapper carrier kind) s s' b F := by
  rw [writeWrapped] at h
  simp only [bind_ok, Op.subject_ok, Op.catalog_ok] at h
  obtain ⟨slot, s, ⟨rfl, rfl⟩, c, s, ⟨rfl, rfl⟩, h⟩ := h
  -- a slot of another value, or of another wrapper, is refused
  cases hv : s.subject.value with
  | wrapped found r =>
    simp only [hv] at h
    rcases ite_ok.mp h with ⟨rfl, hrun⟩ | ⟨-, hfail⟩
    · obtain ⟨l, w, r', b, F, hle, hkey, hwritten⟩ := writeAsked_written hin (wraps_wrapped found)
        hrun hv hw (layout_knows hs carrier kind) hready hown
      refine ⟨_, F, hwritten.slotWritten (wraps_wrapped found) (.refl hw) hv hs hw hown ?_⟩
      refine Placed.wrapped ?_
      rw [← hkey]
      exact hwritten.form
    · exact (space_mismatch_fails hfail).elim
  | _ =>
    simp only [hv] at h
    exact (space_mismatch_fails h).elim

/-- An inline choice leaves its tag, the variant's encoding and the padding. -/
theorem writeChoice_placed (hin : WritesWell n writeIn) {choice : ChoiceId} {s s' : Scene Slot}
    {u : Unit} (h : writeChoice writeIn choice s = .ok u s') (hs : s.space.Sound)
    (hw : s.stream.Writable) (hready : s.subject.value.Ready s.space.catalog)
    (hown : Owns s.space s.subject.companions) :
    ∃ b F, SlotWritten (n + 1) (.inlineChoice choice) s s' b F := by
  rw [writeChoice] at h
  simp only [bind_ok, Op.subject_ok, Op.catalog_ok] at h
  obtain ⟨slot, s, ⟨rfl, rfl⟩, c, s, ⟨rfl, rfl⟩, h⟩ := h
  cases hv : s.subject.value with
  | null =>
    simp only [hv] at h
    refine ⟨_, [], .of_wrote (writeVarint_wrote h hw) hs hready hown ?_⟩
    rw [hv]
    exact Placed.noChoice
  | record r =>
    simp only [hv] at h
    obtain ⟨tag, s₁, hask, hrest⟩ := bind_ok.mp h
    obtain ⟨htag, rfl⟩ := space_tagOf_ok.mp hask
    obtain ⟨_, s₁, hmark, hrun⟩ := bind_ok.mp hrest
    have hwrote := writeVarint_wrote hmark hw
    obtain ⟨space, stream, subject⟩ := s₁
    obtain ⟨rfl, rfl, hputs⟩ := hwrote
    obtain ⟨l, w, r', b, F, hle, ⟨v, -, hkey⟩, hwritten⟩ := writeAsked_written hin wraps_record
      hrun hv hputs.writable (variantLayout_knows hs choice tag) hready hown
    refine ⟨_, F, hwritten.slotWritten wraps_record ⟨rfl, rfl, hputs⟩ hv hs hw hown ?_⟩
    have hform := hwritten.form
    -- the layout is that of the variant, and so the schema is that of the record
    have hvariant : r'.schema = v := by rw [hform.schema, hkey]
    rw [hkey, ← hvariant] at hform
    refine Placed.choice ?_ hform
    rw [hwritten.laid.le.catalog, hwritten.schema]
    exact htag
  | _ =>
    simp only [hv] at h
    exact (space_mismatch_fails h).elim

/-- The placement that follows the id of a type keeps nothing in a chunk behind the slot. -/
theorem Placement.isBehind_flexible (c : Catalog) (key : TypeKey) :
    (Placement.flexible c key).isBehind = false := by
  cases key with
  | record id =>
    rw [Placement.flexible]
    split <;> rfl
  | _ => rfl

/-- An open slot uses the flexible placement of the value's type. -/
theorem Workspace.Sound.openPlacement {w : Workspace} (hs : w.Sound) {key : TypeKey} {p : Placement}
    (h : w.compiler.placementAnswer (key, .flexible) = some p) :
    p = Placement.flexible w.catalog key :=
  (hs.compiler.good.placements _ _ _ h).flexible rfl

/-- What a write of the value of a slot, apart from its chunk, leaves behind. -/
structure LooseWritten (n : Nat) (p : Placement) (s s' : Scene Slot) (b : Bytes)
    (F : List ChunkId) : Prop where
  chunk : s'.subject.chunk = s.subject.chunk
  laid : Laid s.space s.stream s'.space s'.stream s.subject.value.companions
    s'.subject.value.companions b F
  stands : Stands s'.space n p s'.subject.value b F
  ready : s'.subject.value.Ready s'.space.catalog
  scalar : ∀ x, s'.subject.value = .scalar x → s.subject.value = .scalar x

/-- The value of a slot as one that no chunk backs. -/
theorem writeLoose_written (hin : WritesWell n writeIn) {p : Placement} {s s' : Scene Slot}
    {u : Unit} (h : Op.on Slot.loosePart (writeIn p) s = .ok u s') (hs : s.space.Sound)
    (hw : s.stream.Writable) (hready : s.subject.value.Ready s.space.catalog)
    (hown : Owns s.space s.subject.value.companions) (hbehind : p.isBehind = false) :
    ∃ b F, LooseWritten n p s s' b F := by
  obtain ⟨t, hact, rfl⟩ := Op.on_ok.mp h
  obtain ⟨b, F, hwritten⟩ := hin _ _ _ _ hact hs hw hready hown
  have hlaid := hwritten.laid
  have hchunk : t.subject.chunk = .null := hwritten.chunk hbehind
  rw [Slot.companions, Slot.companions, hchunk] at hlaid
  exact ⟨b, F, rfl, hlaid, hwritten.stands, hwritten.ready, hwritten.scalar⟩

/-- A value after the id of its type. -/
theorem writeTyped_written (hin : WritesWell n writeIn) {id : Nat} {s s' : Scene Slot} {u : Unit}
    (h : (Op.space (SpaceM.openPlacement id) >>= fun p => Op.on Slot.loosePart (writeIn p)) s =
      .ok u s') (hs : s.space.Sound) (hw : s.stream.Writable)
    (hready : s.subject.value.Ready s.space.catalog)
    (hown : Owns s.space s.subject.value.companions) :
    ∃ type p b F, s'.space.types.resolve id = .ok type ∧
      s'.space.compiler.placementAnswer (type.key, .flexible) = some p ∧
      LooseWritten n p s s' b F := by
  obtain ⟨p, s₁, hplace, hvalue⟩ := bind_ok.mp h
  obtain ⟨hstudied, hsubject, type, htype, hanswer⟩ :=
    space_studied (openPlacement_learning hs id) hplace
  -- the number stands for a type, and the placement asked for is that of the type
  have hresolve := hstudied.learns.resolve htype
  obtain ⟨b, F, hwritten⟩ := writeLoose_written hin hvalue hstudied.sound
    (by rw [hstudied.stream]; exact hw)
    (by rw [hsubject, hstudied.learns.catalog]; exact hready)
    (by rw [hsubject]; exact hown.mono (by rw [hstudied.learns.store]))
    (by rw [hstudied.sound.openPlacement hanswer]; exact Placement.isBehind_flexible _ _)
  have hle := hwritten.laid.le
  have hlaid := hwritten.laid.after_learning hstudied.learns
  have hchunk := hwritten.chunk
  have hscalar := hwritten.scalar
  rw [hstudied.stream, hsubject] at hlaid
  rw [hsubject] at hchunk hscalar
  exact ⟨type, p, b, F, hle.resolve hresolve, hle.compiler.placementAnswer hanswer, hchunk, hlaid,
    hwritten.stands, hwritten.ready, hscalar⟩

/-- An open slot leaves its type's number and the value's encoding. -/
theorem writeOpen_placed (hin : WritesWell n writeIn) {s s' : Scene Slot} {u : Unit}
    (h : writeOpen writeIn s = .ok u s') (hs : s.space.Sound) (hw : s.stream.Writable)
    (hready : s.subject.value.Ready s.space.catalog) (hown : Owns s.space s.subject.companions) :
    ∃ b F, SlotWritten (n + 1) .inlineOpen s s' b F := by
  rw [writeOpen] at h
  simp only [bind_ok, Op.subject_ok] at h
  obtain ⟨slot, s, ⟨rfl, rfl⟩, id, s₁, hask, _, s₂, hmark, h⟩ := h
  obtain ⟨hstudied, hsubject, hid⟩ := space_studied (typeId_learning hs _) hask
  have hw₁ : s₁.stream.Writable := by
    rw [hstudied.stream]
    exact hw
  have hready₁ : s₁.subject.value.Ready s₁.space.catalog := by
    rw [hsubject, hstudied.learns.catalog]
    exact hready
  have hown₁ : Owns s₁.space s₁.subject.companions := by
    rw [hsubject]
    exact hown.mono (by rw [hstudied.learns.store])
  have hwrote := writeVarint_wrote hmark hw₁
  rcases ite_ok.mp h with ⟨rfl, h⟩ | ⟨hne, h⟩
  · -- no value is there
    obtain ⟨-, rfl⟩ := pure_ok.mp h
    refine ⟨_, [], (SlotWritten.of_wrote hwrote hstudied.sound hready₁ hown₁ ?_).after_studying
      hstudied hsubject⟩
    rw [hsubject, Value.isNull_iff.mp (hid.mp rfl)]
    exact Placed.noOpen
  · -- the type is written, and the value behind it
    obtain ⟨space, stream, subject⟩ := s₂
    obtain ⟨rfl, rfl, hputs⟩ := hwrote
    obtain ⟨type, p, b, F, htype, hanswer, hwritten⟩ := writeTyped_written hin h hstudied.sound
      hputs.writable hready₁ (hown₁.sublist (List.sublist_append_right _ _))
    have hslot : SlotWritten (n + 1) .inlineOpen s₁ s' (Varint.encode (UInt64.ofNat id) ++ b) F := by
      refine ⟨?_, Placed.typed htype hanswer hwritten.stands, hwritten.ready, hwritten.scalar,
        fun _ => hwritten.chunk⟩
      rw [Slot.companions, Slot.companions, hwritten.chunk]
      exact (hwritten.laid.after_bytes hputs).beside hstudied.sound hw₁ hown₁
    exact ⟨_, F, hslot.after_studying hstudied hsubject⟩

/-! ## Values behind references -/

/-- The null reference. -/
theorem forgetChunk_ok {s s' : Scene Slot} {chunk : ChunkId} :
    forgetChunk s = .ok chunk s' ↔
      chunk = .null ∧ s' = { s with subject := { s.subject with chunk := .null } } := by
  rw [forgetChunk, bind_ok]
  constructor
  · rintro ⟨_, t, hset, hpure⟩
    obtain ⟨rfl, rfl⟩ := pure_ok.mp hpure
    exact ⟨rfl, Op.modifySubject_ok.mp hset⟩
  · rintro ⟨rfl, rfl⟩
    exact ⟨(), _, Op.modifySubject_ok.mpr rfl, rfl⟩

/-- A null value, whose slot has no chunk. -/
theorem SlotWritten.of_forgotten {p : Placement} {s t s' : Scene Slot} {b : Bytes}
    (ht : t = { s with subject := { s.subject with chunk := .null } }) (h : t.Wrote b s')
    (hnull : s.subject.value = .null) (hs : s.space.Sound)
    (hstands : Stands s.space n p .null b []) (hbehind : p.isBehind = true) :
    SlotWritten n p s s' b [] := by
  subst ht
  obtain ⟨space, stream, subject⟩ := s'
  obtain ⟨rfl, rfl, hputs⟩ := h
  obtain ⟨space, stream, ⟨value, chunk⟩⟩ := s
  simp only at hnull
  subst hnull
  refine ⟨?_, hstands, trivial, fun _ hx => hx, fun hnot => absurd hbehind (by simp [hnot])⟩
  have hlaid : Laid space stream space _ [] [] b [] := .plain (.refl _) hs hputs List.nodup_nil
  exact hlaid.relist (List.nil_subset _) (List.Perm.refl _)

/-- A value in a chunk, after which the reference is written. -/
theorem SlotWritten.of_stored {p : Placement} {s t s' : Scene Slot} {chunk : ChunkId} {b : Bytes}
    {F : List ChunkId} {holds : Workspace → Value → Bytes → List ChunkId → Prop}
    (h : StoredIn holds s chunk t F) (hwrote : t.Wrote b s')
    (hstands : ∀ v c, t.space.store.content? chunk = some c → holds t.space v c F →
      Stands t.space n p v b (chunk :: F) ∧ v.Ready t.space.catalog ∧
        ∀ x, v = .scalar x → s.subject.value = .scalar x)
    (hbehind : p.isBehind = true) : SlotWritten n p s s' b (chunk :: F) := by
  obtain ⟨c, hcontent, hholds⟩ := h.held
  obtain ⟨hplaced, hready, hscalar⟩ := hstands _ c hcontent hholds
  obtain ⟨space, stream, subject⟩ := s'
  obtain ⟨rfl, rfl, hputs⟩ := hwrote
  rw [h.stream] at hputs
  exact ⟨h.laid.before_bytes hputs, hplaced, hready, hscalar,
    fun hnot => absurd hbehind (by simp [hnot])⟩

/-- A text in a chunk. -/
def HoldsText (text : String) (_ : Workspace) (v : Value) (b : Bytes) (F : List ChunkId) : Prop :=
  v = .text text ∧ b = Utf8.encode text ∧ F = []

/-- A record of a schema in a chunk. -/
def HoldsRecord (n : Nat) (key : LayoutKey) (id : SchemaId) (w : Workspace) (v : Value) (b : Bytes)
    (F : List ChunkId) : Prop :=
  ∃ r, v = .record r ∧ r.schema = id ∧ RecordForm (Stands w n) w key r b F ∧ r.Ready w.catalog

/-- A value of open type in a chunk. -/
def HoldsValue (n : Nat) (p : Placement) (old : Value) (w : Workspace) (v : Value) (b : Bytes)
    (F : List ChunkId) : Prop :=
  Stands w n p v b F ∧ v.Ready w.catalog ∧ ∀ x, v = .scalar x → old = .scalar x

/-- A chunk that holds a text holds it in every later space. -/
theorem holdsText_lasting (text : String) : Lasting (HoldsText text) :=
  fun _ _ _ _ _ _ _ _ h => h

/-- A chunk that holds a record holds it in every later space. -/
theorem holdsRecord_lasting (n : Nat) (key : LayoutKey) (id : SchemaId) :
    Lasting (HoldsRecord n key id) := by
  rintro w w' v b F hs hle hstore ⟨r, rfl, hschema, hform, hready⟩
  refine ⟨r, rfl, hschema, hform.stable hs hle hstore, ?_⟩
  rw [hle.catalog]
  exact hready

/-- A chunk that holds a value holds it in every later space. -/
theorem holdsValue_lasting (n : Nat) (p : Placement) (old : Value) :
    Lasting (HoldsValue n p old) := by
  rintro w w' v b F hs hle hstore ⟨hstands, hready, hscalar⟩
  refine ⟨hstands.stable hs hle hstore, ?_, hscalar⟩
  rw [hle.catalog]
  exact hready

/-- What is stored after some studying is stored. -/
theorem StoredIn.after_studying {holds : Workspace → Value → Bytes → List ChunkId → Prop}
    {s t s' : Scene Slot} {chunk : ChunkId} {F : List ChunkId} (h : StoredIn holds t chunk s' F)
    (hstudied : s.Studied t) (hsubject : t.subject = s.subject) : StoredIn holds s chunk s' F := by
  have hlaid := h.laid.after_learning hstudied.learns
  rw [hstudied.stream, hsubject] at hlaid
  exact ⟨hlaid, h.stream.trans hstudied.stream, h.backed, h.held⟩

/-- A text behind a reference leaves the reference, and its bytes in the chunk. -/
theorem writeTextBehind_placed {s s' : Scene Slot} {u : Unit}
    (h : writeTextBehind s = .ok u s') (hs : s.space.Sound) (hw : s.stream.Writable)
    (hown : Owns s.space s.subject.companions)
    (hready : s.subject.value.Ready s.space.catalog) :
    ∃ b F, SlotWritten (n + 1) .chunkText s s' b F := by
  rw [writeTextBehind] at h
  simp only [bind_ok, Op.subject_ok] at h
  obtain ⟨slot, s, ⟨rfl, rfl⟩, h⟩ := h
  cases hv : s.subject.value with
  | null =>
    simp only [hv] at h
    obtain ⟨chunk, t, hstore, hreference⟩ := bind_ok.mp h
    obtain ⟨rfl, rfl⟩ := forgetChunk_ok.mp hstore
    exact ⟨_, [], .of_forgotten rfl (writeChunkId_wrote hreference hw) hv hs Placed.noChunkText rfl⟩
  | text text =>
    simp only [hv] at h
    obtain ⟨chunk, t, hstore, hreference⟩ := bind_ok.mp h
    -- the text is all that is written behind the slot
    obtain ⟨F, hstored⟩ := storeBehind_stored (holdsText_lasting text) hstore (by
      intro t t' u hwrite hle hsubject ht hstream hchunks
      obtain ⟨hspace, hsame, hputs⟩ := write_wrote hwrite hstream
      refine ⟨_, [], ?_, ⟨by rw [hsame, hsubject, hv], rfl, rfl⟩, by rw [hsame, hsubject]⟩
      rw [hsame, hsubject, hspace]
      exact .plain (.refl _) ht hputs hchunks.nodup) hs hw hown
    have hw' : t.stream.Writable := by
      rw [hstored.stream]
      exact hw
    rw [hv] at hready
    refine ⟨_, _, .of_stored hstored (writeChunkId_wrote hreference hw') ?_ rfl⟩
    rintro v c hcontent ⟨rfl, rfl, rfl⟩
    exact ⟨Placed.chunkText hcontent, hready, fun x hx => by cases hx⟩
  | _ =>
    simp only [hv] at h
    obtain ⟨_, _, hfail, -⟩ := bind_ok.mp h
    exact (space_mismatch_fails hfail).elim

/-- A record in a chunk behind its slot. -/
theorem storeRecordBehind_stored (hin : WritesWell n writeIn) {l : Layout} {r : Record}
    {s s' : Scene Slot} {chunk : ChunkId} (h : storeRecordBehind writeIn l r s = .ok chunk s')
    (hv : s.subject.value = .record r) (hs : s.space.Sound) (hw : s.stream.Writable)
    (hl : s.space.Knows l) (hready : r.Ready s.space.catalog)
    (hown : Owns s.space s.subject.companions) :
    ∃ F, StoredIn (HoldsRecord n l.key r.schema) s chunk s' F := by
  obtain ⟨hint, s₁, hask, hstore⟩ := bind_ok.mp h
  -- the record is measured first, which leaves all that is assumed of it
  obtain ⟨hstudied, hsubject, -⟩ := space_studied (studies.recordSize l r _ hs) hask
  obtain ⟨F, hstored⟩ := storeBehind_stored (holdsRecord_lasting n l.key r.schema) hstore (by
    intro t t' u hwrite hle hslot ht hstream hchunks
    have hvalue : t.subject.value = .record r := by rw [hslot, hsubject, hv]
    rw [hsubject, hv] at hchunks
    have hle' := hstudied.learns.toLe.trans hle
    obtain ⟨r', b, F, hwritten⟩ := writeInner_written hin wraps_record hvalue hwrite ht hstream
      (hl.mono hle') (by rw [hle'.catalog]; exact hready) hchunks
    refine ⟨b, F, ?_, ⟨r', by rw [hwritten.subject], hwritten.schema, hwritten.form,
      hwritten.ready⟩, ?_⟩
    · rw [hwritten.subject, hsubject, hv]
      exact hwritten.laid
    · rw [hwritten.subject, hslot]) hstudied.sound (by rw [hstudied.stream]; exact hw) (by
      rw [hsubject]
      exact hown.mono (by rw [hstudied.learns.store]))
  exact ⟨F, hstored.after_studying hstudied hsubject⟩

/-- A record behind a reference leaves the reference, and its encoding in the chunk. -/
theorem writeRecordBehind_placed (hin : WritesWell n writeIn) {id : SchemaId} {s s' : Scene Slot}
    {u : Unit} (h : writeRecordBehind writeIn id s = .ok u s') (hs : s.space.Sound)
    (hw : s.stream.Writable) (hready : s.subject.value.Ready s.space.catalog)
    (hown : Owns s.space s.subject.companions) :
    ∃ b F, SlotWritten (n + 1) (.chunkRecord id) s s' b F := by
  rw [writeRecordBehind] at h
  simp only [bind_ok, Op.subject_ok, Op.catalog_ok] at h
  obtain ⟨slot, s, ⟨rfl, rfl⟩, c, s, ⟨rfl, rfl⟩, h⟩ := h
  cases hv : s.subject.value with
  -- an absent record leaves the null reference, a present one the reference to its chunk
  | null =>
    simp only [hv] at h
    obtain ⟨chunk, t, hstore, hreference⟩ := bind_ok.mp h
    obtain ⟨rfl, rfl⟩ := forgetChunk_ok.mp hstore
    exact ⟨_, [], .of_forgotten rfl (writeChunkId_wrote hreference hw) hv hs Placed.noChunkRecord
      rfl⟩
  | record r =>
    simp only [hv] at h
    rcases ite_ok.mp h with ⟨hschema, hrun⟩ | ⟨-, hfail⟩
    · obtain ⟨l, s₁, hask, hrest⟩ := bind_ok.mp hrun
      obtain ⟨chunk, t, hput, hreference⟩ := bind_ok.mp hrest
      obtain ⟨hstudied, hsubject, hl, hkey⟩ := space_studied (layout_knows hs id .standard) hask
      rw [hv] at hready
      obtain ⟨F, hstored⟩ := storeRecordBehind_stored hin hput (by rw [hsubject, hv]) hstudied.sound
        (by rw [hstudied.stream]; exact hw) hl (by rw [hstudied.learns.catalog]; exact hready)
        (by rw [hsubject]; exact hown.mono (by rw [hstudied.learns.store]))
      have hstored' := hstored.after_studying hstudied hsubject
      have hw' : t.stream.Writable := by
        rw [hstored'.stream]
        exact hw
      refine ⟨_, _, .of_stored hstored' (writeChunkId_wrote hreference hw') ?_ rfl⟩
      -- what stands in the chunk is the record's own form, one level less deep than the reference
      -- to it
      rintro v c hcontent ⟨r', rfl, -, hform, hready'⟩
      rw [hkey] at hform
      exact ⟨Placed.chunkRecord hcontent hform, hready', fun x hx => by cases hx⟩
    · obtain ⟨_, _, hfail, -⟩ := bind_ok.mp hfail
      exact (space_mismatch_fails hfail).elim
  | _ =>
    simp only [hv] at h
    obtain ⟨_, _, hfail, -⟩ := bind_ok.mp h
    exact (space_mismatch_fails hfail).elim

/-- A choice behind a reference leaves tag and reference, and its encoding in the chunk. -/
theorem writeChoiceBehind_placed (hin : WritesWell n writeIn) {choice : ChoiceId}
    {s s' : Scene Slot} {u : Unit} (h : writeChoiceBehind writeIn choice s = .ok u s')
    (hs : s.space.Sound) (hw : s.stream.Writable) (hready : s.subject.value.Ready s.space.catalog)
    (hown : Owns s.space s.subject.companions) :
    ∃ b F, SlotWritten (n + 1) (.chunkChoice choice) s s' b F := by
  rw [writeChoiceBehind] at h
  simp only [bind_ok, Op.subject_ok, Op.catalog_ok] at h
  obtain ⟨slot, s, ⟨rfl, rfl⟩, c, s, ⟨rfl, rfl⟩, h⟩ := h
  cases hv : s.subject.value with
  | null =>
    -- no variant is chosen, and the chunk of the slot is forgotten
    simp only [hv] at h
    obtain ⟨chunk, t, hforget, hrest⟩ := bind_ok.mp h
    obtain ⟨rfl, rfl⟩ := forgetChunk_ok.mp hforget
    obtain ⟨pair, t, hpair, hrest⟩ := bind_ok.mp hrest
    obtain ⟨rfl, rfl⟩ := pure_ok.mp hpair
    obtain ⟨_, t, hmark, hreference⟩ := bind_ok.mp hrest
    have hwrote := writeU32_wrote hmark hw
    exact ⟨_, [], .of_forgotten rfl
      (hwrote.trans (writeChunkId_wrote hreference hwrote.puts.writable)) hv hs
      Placed.noChunkChoice rfl⟩
  | record r =>
    -- the record is stored behind; then come its tag and the chunk
    simp only [hv] at h
    obtain ⟨tag, s₁, htag, hrest⟩ := bind_ok.mp h
    obtain ⟨htag, rfl⟩ := space_tagOf_ok.mp htag
    obtain ⟨l, s₂, hask, hrest⟩ := bind_ok.mp hrest
    obtain ⟨hstudied, hsubject, hl, v, -, hkey⟩ :=
      space_studied (variantLayout_knows hs choice tag) hask
    obtain ⟨chunk, t, hput, hrest⟩ := bind_ok.mp hrest
    obtain ⟨pair, t', hpair, hrest⟩ := bind_ok.mp hrest
    obtain ⟨rfl, rfl⟩ := pure_ok.mp hpair
    obtain ⟨_, t', hmark, hreference⟩ := bind_ok.mp hrest
    rw [hv] at hready
    obtain ⟨F, hstored⟩ := storeRecordBehind_stored hin hput (by rw [hsubject, hv]) hstudied.sound
      (by rw [hstudied.stream]; exact hw) hl (by rw [hstudied.learns.catalog]; exact hready)
      (by rw [hsubject]; exact hown.mono (by rw [hstudied.learns.store]))
    have hstored' := hstored.after_studying hstudied hsubject
    have hwrote := writeU32_wrote hmark (by rw [hstored'.stream]; exact hw)
    refine ⟨_, _, .of_stored hstored'
      (hwrote.trans (writeChunkId_wrote hreference hwrote.puts.writable)) ?_ rfl⟩
    rintro v' c hcontent ⟨r', rfl, hschema, hform, hready'⟩
    -- the layout is that of the variant, and so the schema is that of the record
    have hvariant : r'.schema = v := by rw [hform.schema, hkey]
    rw [hkey, ← hvariant] at hform
    refine ⟨Placed.chunkChoice ?_ hcontent hform, hready', fun x hx => by cases hx⟩
    rw [hstored'.laid.le.catalog, hschema]
    exact htag
  | _ =>
    simp only [hv] at h
    obtain ⟨_, _, hfail, -⟩ := bind_ok.mp h
    exact (space_mismatch_fails hfail).elim

/-- An open record behind a reference leaves number and reference, and its encoding in the chunk. -/
theorem writeOpenBehind_placed (hin : WritesWell n writeIn) {s s' : Scene Slot} {u : Unit}
    (h : writeOpenBehind writeIn s = .ok u s') (hs : s.space.Sound) (hw : s.stream.Writable)
    (hready : s.subject.value.Ready s.space.catalog) (hown : Owns s.space s.subject.companions) :
    ∃ b F, SlotWritten (n + 1) .chunkOpen s s' b F := by
  rw [writeOpenBehind] at h
  simp only [bind_ok, Op.subject_ok] at h
  obtain ⟨slot, s, ⟨rfl, rfl⟩, id, s₁, hask, h⟩ := h
  obtain ⟨hstudied, hsubject, hid⟩ := space_studied (typeId_learning hs _) hask
  rcases ite_ok.mp h with ⟨rfl, h⟩ | ⟨hne, h⟩
  · -- no value is there, so there is no type and no chunk
    obtain ⟨chunk, t, hforget, hrest⟩ := bind_ok.mp h
    obtain ⟨rfl, rfl⟩ := forgetChunk_ok.mp hforget
    obtain ⟨_, t, hmark, hreference⟩ := bind_ok.mp hrest
    have hw₁ : s₁.stream.Writable := by
      rw [hstudied.stream]
      exact hw
    have hwrote := writeU32_wrote hmark hw₁
    have hslot : SlotWritten (n + 1) .chunkOpen s₁ s' _ [] := .of_forgotten rfl
      (hwrote.trans (writeChunkId_wrote hreference hwrote.puts.writable))
      (by rw [hsubject]; exact Value.isNull_iff.mp (hid.mp rfl)) hstudied.sound
      Placed.noChunkOpen rfl
    exact ⟨_, [], hslot.after_studying hstudied hsubject⟩
  · -- the value is written into its chunk; then come its type and the chunk
    obtain ⟨p, s₂, hplace, hrest⟩ := bind_ok.mp h
    obtain ⟨hstudied', hsubject', type, htype, hanswer⟩ :=
      space_studied (openPlacement_learning hstudied.sound id) hplace
    obtain ⟨hint, s₃, hsize, hrest⟩ := bind_ok.mp hrest
    obtain ⟨hstudied'', hsubject'', -⟩ :=
      space_studied (studies.placedSize p _ _ hstudied'.sound) hsize
    obtain ⟨chunk, t, hput, hrest⟩ := bind_ok.mp hrest
    obtain ⟨_, t', hmark, hreference⟩ := bind_ok.mp hrest
    have hall := (hstudied.trans hstudied').trans hstudied''
    have hsame : s₃.subject = s.subject := by rw [hsubject'', hsubject', hsubject]
    obtain ⟨F, hstored⟩ := storeBehind_stored (holdsValue_lasting n p s.subject.value) hput (by
      intro t t' u hwrite hle hslot ht hstream hchunks
      have hboth : t.subject = s.subject := hslot.trans hsame
      rw [hsame] at hchunks
      obtain ⟨b, F, hwritten⟩ := writeLoose_written hin hwrite ht hstream
        (by rw [hboth, hle.catalog, hall.learns.catalog]; exact hready)
        (by rw [hboth]; exact hchunks)
        (by rw [hstudied'.sound.openPlacement hanswer]; exact Placement.isBehind_flexible _ _)
      have hlaid := hwritten.laid
      have hscalar := hwritten.scalar
      rw [hboth] at hlaid hscalar
      rw [hsame]
      refine ⟨b, F, hlaid, ⟨hwritten.stands, hwritten.ready, hscalar⟩, ?_⟩
      rw [hwritten.chunk, hboth]) hall.sound (by rw [hall.stream]; exact hw) (by
        rw [hsame]
        exact hown.mono (by rw [hall.learns.store]))
    have hstored' := hstored.after_studying hall hsame
    have hwrote := writeU32_wrote hmark (by rw [hstored'.stream]; exact hw)
    refine ⟨_, _, .of_stored hstored'
      (hwrote.trans (writeChunkId_wrote hreference hwrote.puts.writable)) ?_ rfl⟩
    rintro v c hcontent ⟨hstands, hready', hscalar⟩
    have hle := hstudied''.learns.toLe.trans hstored.laid.le
    exact ⟨Placed.chunkTyped (hle.resolve (hstudied'.learns.resolve htype))
      (hle.compiler.placementAnswer hanswer) hcontent hstands, hready', hscalar⟩

/-! ## Values at any depth -/

/-- Writing values, however deep they are nested. -/
theorem writeWithin_written (depth : Nat) : WritesWell depth (writeWithin depth) := by
  -- the induction is on the depth; each placement has a lemma about what it leaves in the stream
  induction depth with
  | zero =>
    intro p s s' u h
    exact (throw_ok.mp h).elim
  | succ depth ih =>
    intro p s s' u h hs hw hready hown
    rw [writeWithin, bind_ok] at h
    obtain ⟨slot, s, hsubject, h⟩ := h
    obtain ⟨rfl, rfl⟩ := Op.subject_ok.mp hsubject
    cases p with
    | scalar kind =>
      obtain ⟨x, hx, rfl, hwrote⟩ := writeScalar_wrote h hw
      refine ⟨_, [], .of_wrote hwrote hs hready hown ?_⟩
      rw [hx]
      exact Placed.scalar x
    | inlineText =>
      rcases writeText_wrote h hw with ⟨hx, hwrote⟩ | ⟨text, hx, hwrote⟩
      · refine ⟨_, [], .of_wrote hwrote hs hready hown ?_⟩
        rw [hx]
        exact Placed.noText
      · rw [hx] at hready
        refine ⟨_, [], .of_wrote hwrote hs (by rw [hx]; exact hready) hown ?_⟩
        rw [hx]
        exact Placed.text hready
    | handle id fixed =>
      rcases writeHandle_wrote h hw with ⟨hx, hwrote⟩ | ⟨hd, hx, rfl, hwrote⟩
      · refine ⟨_, [], .of_wrote hwrote hs hready hown ?_⟩
        rw [hx]
        exact Placed.noHandle
      · rw [hx] at hready
        refine ⟨_, [], .of_wrote hwrote hs (by rw [hx]; exact hready) hown ?_⟩
        rw [hx]
        exact Placed.handle hready.1 hready.2
    | chunkText => exact writeTextBehind_placed h hs hw hown hready
    | inlineRecord id => exact writeInner_placed ih h hs hw hready hown .inlineRecord
    | fixedRecord id => exact writeInner_placed ih h hs hw hready hown .fixedRecord
    | chunkRecord id => exact writeRecordBehind_placed ih h hs hw hready hown
    | inlineChoice choice => exact writeChoice_placed ih h hs hw hready hown
    | chunkChoice choice => exact writeChoiceBehind_placed ih h hs hw hready hown
    | inlineOpen => exact writeOpen_placed ih h hs hw hready hown
    | chunkOpen => exact writeOpenBehind_placed ih h hs hw hready hown
    | wrapped wrapper carrier kind => exact writeWrapped_placed ih h hs hw hready hown

/-- Writing a record. -/
theorem writeRecord_written {l : Layout} {s s' : Scene Record} {u : Unit}
    (h : writeRecord l s = .ok u s') (hs : s.space.Sound) (hw : s.stream.Writable)
    (hl : s.space.Knows l) (hready : s.subject.Ready s.space.catalog)
    (hown : Owns s.space s.subject.companions) :
    ∃ n b F, RecordWritten n l.key s s' b F := by
  rw [writeRecord, bind_ok] at h
  obtain ⟨r, s₁, hsubject, hrun⟩ := h
  obtain ⟨rfl, rfl⟩ := Op.subject_ok.mp hsubject
  exact ⟨_, writeRecordWith_written (writeWithin_written _) hrun hs hw hl hready hown⟩

end

end RecordLayout
