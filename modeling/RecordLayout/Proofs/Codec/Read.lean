import Mathlib
import RecordLayout.Proofs.Codec.Derive
import RecordLayout.Proofs.Codec.Get
import RecordLayout.Proofs.Format.Depth
import RecordLayout.Proofs.Value.Built

/-!
# What reading gives

Reading gives what the bytes after the cursor are read as, moves the cursor past these bytes, and
leaves everything else as it was. Records of immutable schemas are read as drafts, whose layouts have
the same fields.

Main results:

* `readRow_runs` — fields in a row, by induction along the row;
* `readNewWith_runs` — records;
* `readWithin_runs` — values in their placements, by induction on the depth.
-/

namespace RecordLayout

open ByteStream
open Workspace (Runs)

/-- A way to read values gives what bytes are read as, if this passes the build checks. -/
def ReadsAll (w : Workspace) (form : Parse) (readIn : ReadIn) : Prop :=
  ∀ p v o b F t x, form p v o b F → v.Built w.catalog → t.Shows b →
    w.Runs (readIn p) t x v (t.ahead b.length) (o.getD x)

/-- A record after a slot has been read into it. -/
def RecordOf.took (r : Record) (i : Nat) (v : Value) (o : Option ChunkId) : Record :=
  r.setSlotAt i ⟨v, o.getD (r.chunk i)⟩

/-- Some slots have been read into a record as they are in `r`; the others are as they were. -/
structure Took (r : Record) (row : List Nat) (x x' : Record) : Prop where
  schema : x'.schema = x.schema
  slots : x'.slots.length = x.slots.length
  chunks : x'.chunks.length = x.chunks.length
  taken : ∀ i ∈ row, x'.slot i = r.slot i
  /-- A slot without a chunk has got the chunk that it has in `r`. -/
  behind : ∀ i ∈ row, x.chunk i = .null → x'.chunk i = r.chunk i
  others : ∀ i, i ∉ row → x'.slotAt i = x.slotAt i

namespace Took

variable {r x x' x'' : Record} {row row' : List Nat}

theorem refl (r x : Record) : Took r [] x x :=
  ⟨rfl, rfl, rfl, fun _ hi => absurd hi List.not_mem_nil,
    fun _ hi => absurd hi List.not_mem_nil, fun _ _ => rfl⟩

/-- One more slot. -/
theorem cons {i : Nat} (h : Took r [i] x x') (h' : Took r row x' x'') (hi : i ∉ row) :
    Took r (i :: row) x x'' := by
  -- the later fields leave the slot that the first one has taken
  have hkept : x''.slotAt i = x'.slotAt i := h'.others i hi
  have hother {j : Nat} (hj : j ≠ i) : x'.slotAt j = x.slotAt j :=
    h.others j fun hmem => hj (List.mem_singleton.mp hmem)
  refine ⟨h'.schema.trans h.schema, h'.slots.trans h.slots, h'.chunks.trans h.chunks,
    fun j hj => ?_, fun j hj hnull => ?_, fun j hj => ?_⟩
  · rcases List.mem_cons.mp hj with rfl | hmem
    · exact (congrArg Slot.value hkept).trans (h.taken j List.mem_cons_self)
    · exact h'.taken j hmem
  · rcases List.mem_cons.mp hj with rfl | hmem
    · exact (congrArg Slot.chunk hkept).trans (h.behind j List.mem_cons_self hnull)
    · have hne : j ≠ i := fun heq => hi (heq ▸ hmem)
      exact h'.behind j hmem ((congrArg Slot.chunk (hother hne)).trans hnull)
  · rw [List.mem_cons, not_or] at hj
    rw [h'.others j hj.2, hother hj.1]

/-- A new record in which every slot has been read. -/
theorem eq_of_new (h : Took r row x x') (hschema : x.schema = r.schema)
    (hslots : x.slots.length = r.slots.length) (hchunks : x.chunks.length = r.chunks.length)
    (hrow : ∀ i < r.slots.length, i ∈ row) (hboth : r.chunks.length = r.slots.length)
    (hnull : ∀ i, x.chunk i = .null) : x' = r := by
  -- every slot was taken, and every chunk that is not null with it
  have hs : x'.slots = r.slots := by
    refine List.ext_getElem (h.slots.trans hslots) fun i hi hi' => ?_
    have htaken := h.taken i (hrow i hi')
    rwa [RecordOf.slot, RecordOf.slot, List.getD_eq_getElem _ _ hi, List.getD_eq_getElem _ _ hi']
      at htaken
  have hc : x'.chunks = r.chunks := by
    refine List.ext_getElem (h.chunks.trans hchunks) fun i hi hi' => ?_
    have htaken := h.behind i (hrow i (hboth ▸ hi')) (hnull i)
    rwa [RecordOf.chunk, RecordOf.chunk, List.getD_eq_getElem _ _ hi, List.getD_eq_getElem _ _ hi']
      at htaken
  obtain ⟨schema, slots, chunks⟩ := r
  obtain ⟨schema', slots', chunks'⟩ := x'
  rw [RecordOf.mk.injEq]
  exact ⟨h.schema.trans hschema, hs, hc⟩

end Took

section

variable {w : Workspace} {form : Parse} {readIn : ReadIn} {t : ByteStream} {x : Record}

/-! ## Fields -/

/-- A plain value that is put into a slot. -/
theorem fillSlot_runs {read : Op Record Value} {i : Nat} {v : Value} {t' : ByteStream}
    (h : w.Runs read t x v t' x) : w.Runs (fillSlot i read) t x () t' (x.took i v none) := by
  have hset : x.took i v none = x.setSlot i v := (RecordOf.setSlot_eq_setSlotAt x i v).symm
  rw [hset]
  exact h.bind (.modifySubject _)

/-- A value in its placement that is put into a slot, with the chunk that it came from. -/
theorem fillPlaced_runs (hin : ReadsAll w form readIn) {p : Placement} {v : Value}
    {o : Option ChunkId} {b : Bytes} {F : List ChunkId} {i : Nat} (h : form p v o b F)
    (hbuilt : v.Built w.catalog) (hshows : t.Shows b) :
    w.Runs (fillSlot i (Op.on (RecordOf.chunkPart i) (readIn p))) t x () (t.ahead b.length)
      (x.took i v o) :=
  (Runs.on (p := RecordOf.chunkPart i) (hin p v o b F t (x.chunk i) h hbuilt hshows)).bind
    (.modifySubject _)

theorem readFieldWith_runs (hs : w.Sound) (hin : ReadsAll w form readIn) {f : BoundField}
    {slots : Nat → Value} {v : Value} {o : Option ChunkId} {b : Bytes} {F : List ChunkId}
    (h : SlotParse form w slots f.encoding v o b F) (hbuilt : v.Built w.catalog)
    (hshows : t.Shows b) (hgovernor : ∀ g, f.encoding.governor? = some g → x.slot g = slots g) :
    w.Runs (readFieldWith readIn f) t x () (t.ahead b.length) (x.took f.slot v o) := by
  rw [readFieldWith]
  refine Runs.inField (Runs.subject.bind ?_)
  generalize f.encoding = e at h hgovernor
  cases h with
  | scalar hlen hdecode => exact fillSlot_runs (readScalar_runs hlen hdecode hshows)
  | ordinal hbyte => exact fillSlot_runs (readWidth_runs hbyte hshows)
  | sized hwidth hlen =>
    refine Runs.bind (Runs.ask fun v => widthIn_ok.mpr ⟨?_, rfl⟩)
      (fillSlot_runs (readNumber_runs hlen hshows))
    rw [hgovernor _ rfl, hwidth]
  | forced hlen => exact fillSlot_runs (readNumber_runs hlen hshows)
  | @varint n b hspell =>
    refine fillSlot_runs ((readVarint_runs hspell hshows).bind ?_)
    rw [Value.ofNat, UInt64.ofNat_toNat]
    exact .pure _
  | array hcount hitems =>
    refine Runs.bind (Runs.ask fun v => countOf_ok.mpr ⟨?_, rfl⟩)
      (fillSlot_runs ((readScalars_runs hitems hshows).bind (.pure _)))
    rw [hgovernor _ rfl, hcount]
  | @absent p b hset hlen =>
    -- the marker says that nothing but the room for a value follows
    have hmarker : t.Shows [if false then 1 else 0] := hshows.left (b := [0])
    have hroom : (t.ahead 1).Shows b := hshows.right (b := [0])
    refine (readMarker_runs hmarker).bind ?_
    have hahead : t.ahead (0 :: b).length = (t.ahead 1).ahead b.length := by
      rw [ahead_ahead, List.length_cons, Nat.add_comm]
    rw [hahead, hlen]
    refine Runs.bind (Runs.space (Workspace.inlineSize_steady hs hset)) ?_
    exact (passBytes_runs hroom hlen).bind (.modifySubject _)
  | @present p v o b F hplaced =>
    have hmarker : t.Shows [if true then 1 else 0] := hshows.left (b := [1])
    have hfill := fillPlaced_runs hin (x := x) (i := f.slot) hplaced hbuilt
      (hshows.right (b := [1]))
    refine (readMarker_runs hmarker).bind ?_
    rwa [ahead_ahead, List.length_singleton, Nat.add_comm] at hfill
  | plain hplaced => exact Runs.bind (.pure true) (fillPlaced_runs hin hplaced hbuilt hshows)

theorem took_one {r : Record} {i : Nat} {o : Option ChunkId} (hi : i < x.slots.length)
    (hboth : x.chunks.length = x.slots.length) (hchunk : r.chunk i = o.getD .null) :
    Took r [i] x (x.took i (r.slot i) o) := by
  have hslot : (x.took i (r.slot i) o).slotAt i = ⟨r.slot i, o.getD (x.chunk i)⟩ :=
    RecordOf.slotAt_setSlotAt_self hi hboth _
  refine ⟨rfl, List.length_set, List.length_set, fun j hj => ?_, fun j hj hnull => ?_, fun j hj => ?_⟩
  · obtain rfl := List.mem_singleton.mp hj
    exact congrArg Slot.value hslot
  · obtain rfl := List.mem_singleton.mp hj
    rw [hchunk, ← hnull]
    exact congrArg Slot.chunk hslot
  · exact RecordOf.slotAt_setSlotAt_of_ne (fun heq => hj (List.mem_singleton.mpr heq)) _

/-! ## Fields in a row -/

theorem readRow_runs (hs : w.Sound) (hin : ReadsAll w form readIn) {r : Record}
    {fields : List BoundField} {b : Bytes} {F : List ChunkId} (h : RowParse form w r fields b F)
    (hbuilt : ∀ i, (r.slot i).Built w.catalog) (hshows : t.Shows b)
    (hrow : InRow fields) (hboth : x.chunks.length = x.slots.length)
    (hgovernor : ∀ before f after, fields = before ++ f :: after → ∀ g,
      f.encoding.governor? = some g → g ∈ before.map (·.slot) ∨ x.slot g = r.slot g)
    (hslots : ∀ f ∈ fields, f.slot < x.slots.length) :
    ∃ x', w.Runs (fields.forM (readFieldWith readIn)) t x () (t.ahead b.length) x' ∧
      Took r (fields.map (·.slot)) x x' := by
  induction h generalizing t x with
  | nil =>
    rw [List.length_nil, ahead_zero]
    exact ⟨x, .pure (), .refl r x⟩
  | @cons f rest o b c F G first behind _ ih =>
    obtain ⟨hapart, hrow'⟩ := List.pairwise_cons.mp hrow
    -- what governs the field has been read before, or was there
    have hread := readFieldWith_runs hs hin first (hbuilt _) hshows.left
      fun g hg => (hgovernor [] f rest rfl g hg).resolve_left (by simp)
    have htook : Took r [f.slot] x (x.took f.slot (r.slot f.slot) o) :=
      took_one (hslots f List.mem_cons_self) hboth behind
    obtain ⟨x', hrest, hmore⟩ := ih hshows.right hrow' (by rw [htook.chunks, htook.slots, hboth]) (by
        rintro before g after rfl i hi
        rcases hgovernor (f :: before) g after rfl i hi with hmem | hold
        · rcases List.mem_cons.mp hmem with rfl | hlater
          · exact Or.inr (htook.taken _ List.mem_cons_self)
          · exact Or.inl hlater
        · by_cases heq : i = f.slot
          · subst heq
            exact Or.inr (htook.taken _ List.mem_cons_self)
          · have hsame := htook.others i fun hmem => heq (List.mem_singleton.mp hmem)
            exact Or.inr ((congrArg Slot.value hsame).trans hold))
      (fun g hg => by rw [htook.slots]; exact hslots g (List.mem_cons_of_mem _ hg))
    refine ⟨x', ?_, htook.cons hmore fun hmem => ?_⟩
    · rw [List.length_append, ← ahead_ahead]
      exact hread.bind hrest
    · obtain ⟨g, hg, hsame⟩ := List.mem_map.mp hmem
      exact (hapart g hg).1 hsame.symm

/-! ## Records -/

theorem Schema.checkBuild_of_free {s : Schema} (h : s.isImmutable = false) (described : Schema)
    (slots : List Value) : s.checkBuild described slots = .ok () := by
  rw [Schema.checkBuild]
  rw [Schema.isImmutable] at h
  split
  · rename_i hkind
    rw [hkind] at h
    cases h
  · rfl

/-- Fields that stand for the same slots in the same way are read in the same way. -/
theorem RowParse.same {r r' : Record} {fields fields' : List BoundField} {b : Bytes}
    {F : List ChunkId} (hsame : List.Forall₂ SameField fields fields')
    (hslot : r'.slot = r.slot) (hchunk : r'.chunk = r.chunk) (h : RowParse form w r fields b F) :
    RowParse form w r' fields' b F := by
  induction h generalizing fields' with
  | nil =>
    cases hsame
    exact .nil
  | @cons f fields o b c F G first behind rest ih =>
    obtain ⟨⟩ | ⟨hfield, hrest⟩ := hsame
    refine .cons (o := o) ?_ ?_ (ih hrest)
    · rw [hfield.slot, hfield.encoding, hslot]
      exact first
    · rw [hfield.slot, hchunk]
      exact behind

/-- A record of the schema of the layout is read into one that is there, if the build check accepts
what this makes of it. -/
theorem readIntoWith_runs (hs : w.Sound) (hin : ReadsAll w form readIn) {l : Layout}
    (hl : w.Knows l) {r : Record} {b : Bytes} {F : List ChunkId}
    (h : RowParse form w r l.fields b F) (hbuilt : ∀ i, (r.slot i).Built w.catalog)
    (hshows : t.Shows b) (hschema : x.schema = l.schema)
    (hlen : x.slots.length = (w.catalog.schema l.schema).fields.length)
    (hboth : x.chunks.length = x.slots.length)
    (hcheck : ∀ x', Took r (l.fields.map (·.slot)) x x' →
      (w.catalog.schema l.schema).checkBuild (w.catalog.schema l.schema) x'.slots = .ok ()) :
    ∃ x', w.Runs (readIntoWith readIn l) t x () (t.ahead b.length) x' ∧
      Took r (l.fields.map (·.slot)) x x' := by
  have hfields := (hl.good hs).fields
  obtain ⟨x', hrun, htook⟩ := readRow_runs hs hin h hbuilt hshows hfields.inRow hboth
    (fun before f after heq g hg => Or.inl (hfields.governor_before heq hg))
    (fun f hf => by
      have hmem := hfields.slots_perm.mem_iff.mp (List.mem_map_of_mem hf)
      rw [hlen]
      exact List.mem_range.mp hmem)
  -- the layout's own check runs on what was read
  have hchecked := hcheck x' htook
  rw [← show x'.schema = l.schema from htook.schema.trans hschema] at hchecked
  refine ⟨x', ?_, htook⟩
  refine Runs.subject.bind (Runs.bind (a := ()) (Runs.ask fun v => requireSchema_ok.mpr ⟨hschema, rfl⟩)
    (hrun.bind (Runs.subject.bind (Runs.catalog.bind (.ofExcept ?_)))))
  rw [show x'.schema = l.schema from htook.schema.trans hschema] at hchecked ⊢
  exact hchecked

/-- The slots of a schema are those of the fields of its layout. -/
theorem FieldsGood.mem_slots {c : Compiler} {s : Schema} {kind : LayoutKind}
    {fields : List BoundField} (h : FieldsGood c s kind fields) {i : Nat} :
    i ∈ fields.map (·.slot) ↔ i < s.fields.length := by
  rw [h.slots_perm.mem_iff, List.mem_range]

/-- A new record of a schema without build check. -/
theorem readFreshWith_runs (hs : w.Sound) (hin : ReadsAll w form readIn) {l : Layout}
    (hl : w.Knows l) (hfree : (w.catalog.schema l.schema).isImmutable = false) {r : Record}
    {b : Bytes} {F : List ChunkId} (h : RowParse form w r l.fields b F)
    (hbuilt : ∀ i, (r.slot i).Built w.catalog) (hschema : r.schema = l.schema)
    (hlen : r.slots.length = (w.catalog.schema l.schema).fields.length)
    (hboth : r.chunks.length = r.slots.length) {τ : Type} {y : τ} (hshows : t.Shows b) :
    w.Runs (readFreshWith readIn l) t y r (t.ahead b.length) y := by
  -- a new record has no chunks
  have hblank : (w.catalog.newRecord l.schema).slots.length =
      (w.catalog.schema l.schema).fields.length := List.length_map _
  have hchunks : (w.catalog.newRecord l.schema).chunks.length =
      (w.catalog.newRecord l.schema).slots.length := List.length_map _
  have hnull (i : Nat) : (w.catalog.newRecord l.schema).chunk i = .null := by
    show ((w.catalog.newRecord l.schema).slots.map fun _ => ChunkId.null).getD i .null = .null
    rw [List.getD_eq_getElem?_getD, List.getElem?_map]
    cases (w.catalog.newRecord l.schema).slots[i]? <;> rfl
  obtain ⟨x', hrun, htook⟩ := readIntoWith_runs hs hin hl h hbuilt hshows
    (x := w.catalog.newRecord l.schema) rfl hblank hchunks
    fun x' _ => Schema.checkBuild_of_free hfree _ _
  have hsame : x' = r := htook.eq_of_new hschema.symm (hblank.trans hlen.symm)
    (by rw [hchunks, hblank, hboth, hlen])
    (fun i hi => (hl.good hs).fields.mem_slots.mpr (hlen ▸ hi)) hboth hnull
  subst hsame
  exact Runs.catalog.bind ((Runs.withSubject hrun).bind (.pure _))

/-- A new record. -/
theorem readNewWith_runs (hs : w.Sound) (hin : ReadsAll w form readIn) {l : Layout}
    (hl : w.Knows l) {r : Record} {b : Bytes} {F : List ChunkId}
    (h : RecordParse form w l.key r b F) (hbuilt : r.Built w.catalog) {τ : Type} {y : τ}
    (hshows : t.Shows b) : w.Runs (readNewWith readIn l) t y r (t.ahead b.length) y := by
  have hgood := hl.good hs
  have hdraft := hgood.draft
  have hschema : r.schema = l.schema := h.schema
  obtain ⟨l₁, hl₁, hfields⟩ := h.fields
  have hsame : l₁ = l := Option.some.inj (hl₁.symm.trans hl)
  subst hsame
  split at hdraft
  · obtain ⟨hname, hanswer⟩ := hdraft
    obtain ⟨draft, hdraft⟩ := Option.isSome_iff_exists.mp hanswer
    obtain ⟨hknows, hkey⟩ := hs.knows hdraft
    have hdid : draft.schema = l₁.schema.toDraft := congrArg Prod.fst hkey
    have hagree := hgood.fields.draft_agree hs.compiler.good
      (hs.compiler.good.layouts _ _ _ hdraft).fields
    have hcheck := (RecordOf.built_iff.mp hbuilt).1
    rw [hschema] at hcheck
    -- the draft is read, and then checked as a record of the schema
    have hread := readFreshWith_runs (r := r.retarget draft.schema) (y := y) hs hin hknows
      (by rw [hdid]; rfl) (.same (r := r) hagree rfl rfl hfields)
      hbuilt.slot rfl
      (by rw [hdid]; exact h.slots) h.chunks hshows
    have hback : r = (r.retarget draft.schema).retarget l₁.schema := by
      obtain ⟨schema, slots, chunks⟩ := r
      cases hschema
      rfl
    rw [readNewWith, hname]
    refine (Runs.space (Workspace.layout_steady hdraft)).bind (hread.bind (Runs.catalog.bind
      (Runs.bind (a := ()) (Runs.ofExcept ?_) ?_)))
    · rw [show (r.retarget draft.schema).schema = l₁.schema.toDraft from hdid]
      exact hcheck
    · rw [← hback]
      exact .pure r
  · rename_i hnot
    rw [readNewWith, hdraft]
    exact readFreshWith_runs hs hin hl (Bool.eq_false_iff.mpr hnot) hfields hbuilt.slot hschema h.slots
      h.chunks hshows

/-! ## Values -/

/-- The layout of a record that is read somewhere. -/
theorem RecordParse.layout (hs : w.Sound) {key : LayoutKey} {r : Record} {b : Bytes}
    {F : List ChunkId} (h : RecordParse form w key r b F) :
    ∃ l, w.compiler.answer key = some l ∧ w.Knows l ∧ RecordParse form w l.key r b F := by
  obtain ⟨l, hl, -⟩ := h.fields
  obtain ⟨hknows, hkey⟩ := hs.knows hl
  exact ⟨l, hl, hknows, by rw [hkey]; exact h⟩

variable {y : ChunkId}

/-- A record as a value, in a layout that is asked for. -/
theorem readRecordValue_runs (hs : w.Sound) (hin : ReadsAll w form readIn) {layout : SpaceM Layout}
    {key : LayoutKey} (hsteady : ∀ l, w.compiler.answer key = some l → w.Steady layout l)
    {r : Record} {b : Bytes} {F : List ChunkId} (h : RecordParse form w key r b F)
    (hbuilt : r.Built w.catalog) (hshows : t.Shows b) :
    w.Runs (readRecordValue readIn layout) t y (.record r) (t.ahead b.length) y := by
  obtain ⟨l, hl, hknows, hrecord⟩ := h.layout hs
  exact (Runs.space (hsteady l hl)).bind
    ((readNewWith_runs hs hin hknows hrecord hbuilt hshows).bind (.pure _))

theorem readWrapped_runs (hs : w.Sound) (hin : ReadsAll w form readIn) {wrapper : WrapperId}
    {carrier : SchemaId} {kind : LayoutKind} {r : Record} {b : Bytes} {F : List ChunkId}
    (h : RecordParse form w (carrier, kind) r b F) (hbuilt : r.Built w.catalog)
    (hshows : t.Shows b) :
    w.Runs (readWrapped readIn wrapper carrier kind) t y (.wrapped wrapper r) (t.ahead b.length)
      y := by
  obtain ⟨l, hl, hknows, hrecord⟩ := h.layout hs
  exact (Runs.space (Workspace.layout_steady hl)).bind
    ((readNewWith_runs hs hin hknows hrecord hbuilt hshows).bind (.pure _))

theorem readChoice_runs (hs : w.Sound) (hin : ReadsAll w form readIn) {choice : ChoiceId}
    {tag : Nat} {id : SchemaId} {r : Record} {b c : Bytes} {F : List ChunkId}
    (htag : SpellsTag b tag) (hne : tag ≠ 0)
    (hvariant : (w.catalog.choice choice).variant? tag = some id)
    (h : RecordParse form w (id, .standard) r c F) (hbuilt : r.Built w.catalog)
    (hshows : t.Shows (b ++ c)) :
    w.Runs (readChoice readIn choice) t y (.record r) (t.ahead (b ++ c).length) y := by
  rw [List.length_append, ← ahead_ahead]
  refine (readTag_runs htag hshows.left).bind ?_
  rw [if_neg hne]
  exact readRecordValue_runs hs hin (fun l => Workspace.variantLayout_steady hvariant) h
    hbuilt hshows.right

theorem readOpen_runs (hin : ReadsAll w form readIn) {id : Nat} {type : ValueType} {p : Placement}
    {v : Value} {o : Option ChunkId} {b c : Bytes} {F : List ChunkId} (hid : SpellsTag b id)
    (hne : id ≠ 0) (htype : w.types.resolve id = .ok type)
    (hplace : w.compiler.placementAnswer (type.key, .flexible) = some p) (h : form p v o c F)
    (hbuilt : v.Built w.catalog) (hshows : t.Shows (b ++ c)) :
    w.Runs (readOpen readIn) t y v (t.ahead (b ++ c).length) y := by
  rw [List.length_append, ← ahead_ahead]
  refine (readTag_runs hid hshows.left).bind ?_
  rw [if_neg hne]
  exact (Runs.space (Workspace.openPlacement_steady htype hplace)).bind
    ((Runs.withSubject (hin p v o c F _ .null h hbuilt hshows.right)).bind (.pure _))

/-! ## Values behind references -/

theorem shows_ofBytes_self (b : Bytes) : (ByteStream.ofBytes b).Shows b :=
  ⟨trivial, List.prefix_rfl⟩

/-- A reference that leads nowhere. -/
theorem readNull_runs {b : Bytes} (hchunk : ChunkId.null.Spelled b) (hshows : t.Shows b)
    {next : ChunkId → Op ChunkId Value} :
    w.Runs (do
      let chunk ← readChunkId
      noteChunk chunk
      if chunk.isNull then pure .null else next chunk) t y .null (t.ahead b.length) .null :=
  (readChunkId_runs hchunk hshows).bind ((Runs.setSubject _).bind (.pure _))

theorem readTextBehind_runs {chunk : ChunkId} {b content : Bytes} {text : String}
    (hchunk : chunk.Spelled b) (hne : chunk ≠ .null)
    (hcontent : w.store.content? chunk = some content) (hdecode : Utf8.decode content = .ok text)
    (hshows : t.Shows b) :
    w.Runs readTextBehind t y (.text text) (t.ahead b.length) chunk := by
  -- all bytes of the chunk
  have hread : w.Runs (Op.stream fun s => ByteSource.readBytes s.remaining s : Op ChunkId Bytes)
      (.ofBytes content) chunk content ((ByteStream.ofBytes content).ahead content.length) chunk := by
    refine .stream ?_
    rw [remaining_shown (s := .ofBytes content) trivial]
    exact readBytes_shows (shows_ofBytes_self content)
  refine (readChunkId_runs hchunk hshows).bind ((Runs.setSubject chunk).bind ?_)
  rw [if_neg fun hnull => hne (ChunkId.isNull_iff.mp hnull)]
  exact .withChunk hcontent (hread.bind (decodeText_runs hdecode))

/-- A record at the front of a chunk, in a layout that has been asked for. -/
theorem readChunkRecord_runs (hs : w.Sound) (hin : ReadsAll w form readIn) {l : Layout}
    (hl : w.Knows l) {chunk : ChunkId} {r : Record} {b d : Bytes} {F : List ChunkId}
    (h : RecordParse form w l.key r b F) (hbuilt : r.Built w.catalog)
    (hcontent : w.store.content? chunk = some (b ++ d)) :
    w.Runs (withChunk chunk (readRecordValue readIn (pure l))) t y (.record r) t y :=
  .withChunk hcontent ((Runs.space (.pure l)).bind
    ((readNewWith_runs hs hin hl h hbuilt (shows_ofBytes b d)).bind (.pure _)))

theorem readRecordBehind_runs (hs : w.Sound) (hin : ReadsAll w form readIn) {id : SchemaId}
    {chunk : ChunkId} {r : Record} {b c d : Bytes} {F : List ChunkId} (hchunk : chunk.Spelled b)
    (hne : chunk ≠ .null) (hcontent : w.store.content? chunk = some (c ++ d))
    (h : RecordParse form w (id, .standard) r c F) (hbuilt : r.Built w.catalog)
    (hshows : t.Shows b) :
    w.Runs (readRecordBehind readIn id) t y (.record r) (t.ahead b.length) chunk := by
  obtain ⟨l, hl, hknows, hrecord⟩ := h.layout hs
  refine (readChunkId_runs hchunk hshows).bind ((Runs.setSubject chunk).bind ?_)
  rw [if_neg fun hnull => hne (ChunkId.isNull_iff.mp hnull)]
  exact (Runs.space (Workspace.layout_steady hl)).bind
    (readChunkRecord_runs hs hin hknows hrecord hbuilt hcontent)

theorem readChoiceBehind_runs (hs : w.Sound) (hin : ReadsAll w form readIn) {choice : ChoiceId}
    {tag : Nat} {id : SchemaId} {chunk : ChunkId} {r : Record} {b c d : Bytes} {F : List ChunkId}
    (htagged : SpellsTagged b tag chunk) (htag : tag ≠ 0) (hne : chunk ≠ .null)
    (hvariant : (w.catalog.choice choice).variant? tag = some id)
    (hcontent : w.store.content? chunk = some (c ++ d))
    (h : RecordParse form w (id, .standard) r c F) (hbuilt : r.Built w.catalog)
    (hshows : t.Shows b) :
    w.Runs (readChoiceBehind readIn choice) t y (.record r) (t.ahead b.length) chunk := by
  obtain ⟨l, hl, hknows, hrecord⟩ := h.layout hs
  refine Runs.catalog.bind ((readTagged_runs htagged (Or.inr hne) hshows).bind ?_)
  show w.Runs (if tag = 0 then _ else _ : Op ChunkId Value) _ _ _ _ _
  rw [if_neg htag]
  exact (Runs.space (Workspace.variantLayout_steady hvariant hl)).bind
    (readChunkRecord_runs hs hin hknows hrecord hbuilt hcontent)

theorem readOpenBehind_runs (hin : ReadsAll w form readIn) {id : Nat} {type : ValueType}
    {p : Placement} {v : Value} {o : Option ChunkId} {chunk : ChunkId} {b c d : Bytes}
    {F : List ChunkId} (htagged : SpellsTagged b id chunk) (hid : id ≠ 0) (hne : chunk ≠ .null)
    (htype : w.types.resolve id = .ok type)
    (hplace : w.compiler.placementAnswer (type.key, .flexible) = some p)
    (hcontent : w.store.content? chunk = some (c ++ d)) (h : form p v o c F)
    (hbuilt : v.Built w.catalog) (hshows : t.Shows b) :
    w.Runs (readOpenBehind readIn) t y v (t.ahead b.length) chunk := by
  refine (readTagged_runs htagged (Or.inr hne) hshows).bind ?_
  show w.Runs (if id = 0 then _ else _ : Op ChunkId Value) _ _ _ _ _
  rw [if_neg hid]
  exact (Runs.space (Workspace.openPlacement_steady htype hplace)).bind
    ((Runs.withChunk hcontent
      (Runs.withSubject (hin p v o c F _ .null h hbuilt (shows_ofBytes c d)))).bind (.pure _))

/-! ## Values at any depth -/

/-- Reading values, however deep they are nested. -/
theorem readWithin_runs (hs : w.Sound) (n : Nat) : ReadsAll w (Parses w n) (readWithin n) := by
  -- the induction is on the depth, then on the way the bytes parse
  induction n with
  | zero => exact fun _ _ _ _ _ _ _ h => h.elim
  | succ n ih =>
    intro p v o b F t y h hbuilt hshows
    cases h with
    | scalar hlen hdecode => exact readScalar_runs hlen hdecode hshows
    | noText hlen => exact readText_null hlen hshows
    | text hlen hne hc hdecode => exact readText_runs hlen hne hc hdecode hshows
    | inlineRecord hrecord =>
      exact readRecordValue_runs hs ih (fun l => Workspace.layout_steady) hrecord hbuilt hshows
    | fixedRecord hrecord =>
      exact readRecordValue_runs hs ih (fun l => Workspace.layout_steady) hrecord hbuilt hshows
    | wrapped hrecord => exact readWrapped_runs hs ih hrecord hbuilt hshows
    | noHandle hchunk => exact readHandle_null hchunk hshows
    | handle hchunk hne => exact readHandle_runs hchunk hne hshows
    | noChoice htag _ => exact (readTag_runs htag hshows).bind (.pure _)
    | choice htag hne hvariant hrecord _ =>
      exact readChoice_runs hs ih htag hne hvariant hrecord hbuilt hshows
    | noOpen hid => exact (readTag_runs hid hshows).bind (.pure _)
    | typed hid hne htype hplace hplaced =>
      exact readOpen_runs ih hid hne htype hplace hplaced hbuilt hshows
    | noChunkText hchunk =>
      rw [readWithin, readTextBehind]
      exact readNull_runs hchunk hshows
    | chunkText hchunk hne hcontent hdecode =>
      exact readTextBehind_runs hchunk hne hcontent hdecode hshows
    | noChunkRecord hchunk =>
      rw [readWithin, readRecordBehind]
      exact readNull_runs hchunk hshows
    | chunkRecord hchunk hne hcontent hrecord =>
      exact readRecordBehind_runs hs ih hchunk hne hcontent hrecord hbuilt hshows
    | noChunkChoice htagged =>
      exact Runs.catalog.bind ((readTagged_runs htagged (Or.inl rfl) hshows).bind (.pure _))
    | chunkChoice htagged htag hne hvariant hcontent hrecord =>
      exact readChoiceBehind_runs hs ih htagged htag hne hvariant hcontent hrecord hbuilt hshows
    | noChunkOpen htagged => exact (readTagged_runs htagged (Or.inl rfl) hshows).bind (.pure _)
    | chunkTyped htagged hid hne htype hplace hcontent hplaced =>
      exact readOpenBehind_runs ih htagged hid hne htype hplace hcontent hplaced hbuilt hshows

/-! ## Whole values -/

/-- Every walk over stored bytes goes as deep. -/
theorem readDepth_runs {τ : Type} {z : τ} :
    w.Runs (readDepth : Op τ Nat) t z (w.readerDepth t.remaining) t z := by
  intro v hv
  refine ⟨v, ?_, .refl v, hv.sound⟩
  rw [readDepth, Workspace.readerDepth, hv.store, hv.catalog]

theorem readNew_runs (hs : w.Sound) {l : Layout} (hl : w.Knows l) {r : Record} {b : Bytes}
    {F : List ChunkId} (h : RecordParse (Parses w (w.readerDepth t.remaining)) w l.key r b F)
    (hbuilt : r.Built w.catalog) {τ : Type} {z : τ} (hshows : t.Shows b) :
    w.Runs (readNew l) t z r (t.ahead b.length) z :=
  readDepth_runs.bind (readNewWith_runs hs (readWithin_runs hs _) hl h hbuilt hshows)

end

end RecordLayout
