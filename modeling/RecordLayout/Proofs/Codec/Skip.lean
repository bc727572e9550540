import Mathlib
import RecordLayout.Codec.Skip
import RecordLayout.Proofs.Codec.Read

/-!
# What skipping passes

Skipping moves past exactly the bytes that reading takes. The merged steps that skip a record are
right because what is seen as a fixed size is the number of bytes, and because every field that
decides the size of another one stands before it and is read.

The readers count bytes in 64 bits, so that there must be fewer than `2 ^ 64` of them.

Main results:

* `Governed` — what is known of the fields passed so far, kept by each step;
* `followSteps_runs` — the steps past fields in a row, by induction along the row;
* `skipWithin_runs` — values in their placements, by induction on the depth.
-/

namespace RecordLayout

open ByteStream
open Workspace (Runs)

/-- A way to move past values passes the bytes that values are read from. -/
def SkipsAll {τ : Type} (w : Workspace) (form : Parse) (skipIn : Placement → Op τ Unit) : Prop :=
  ∀ p v o b F t x, form p v o b F → t.Shows b → b.length < 2 ^ 64 →
    w.Runs (skipIn p) t x () (t.ahead b.length) x

/-- Values that decide sizes: widths and numbers. -/
def Value.Decides : Value → Prop
  | .width _ | .scalar _ => True
  | _ => False

theorem Value.Decides.built {v : Value} (h : v.Decides) (cat : Catalog) : v.Built cat := by
  cases v with
  | width _ => trivial
  | scalar _ => trivial
  | _ => exact h.elim

theorem Value.decides_of_toNat? {v : Value} {n : Nat} (h : v.toNat? = some n) : v.Decides := by
  cases v with
  | scalar _ => trivial
  | _ => cases h

/-- What decides a size is a width or a number. -/
theorem RowParse.governor_decides {w : Workspace} {form : Parse} {r : Record}
    {fields : List BoundField} {b : Bytes} {F : List ChunkId} (h : RowParse form w r fields b F)
    {f : BoundField} (hf : f ∈ fields) {g : Nat} (hg : f.encoding.governor? = some g) :
    (r.slot g).Decides := by
  induction h with
  | nil => exact absurd hf List.not_mem_nil
  | @cons f' fields o b c F G first _ _ ih =>
    rcases List.mem_cons.mp hf with rfl | hmem
    · generalize f.encoding = e at first hg
      generalize r.slot f.slot = own at first
      -- the governor of a sized number is read as a width, that of an array as a count
      cases first with
      | sized hwidth _ =>
        cases hg
        rw [hwidth]
        trivial
      | array hcount _ =>
        cases hg
        exact Value.decides_of_toNat? hcount
      | _ => cases hg
    · exact ih hmem

/-- A record that holds what has been read so far: of the fields passed, those that decide sizes are
in their slots as they are in `r`. -/
structure Governed (w : Workspace) (l : Layout) (r : Record) (before : List BoundField)
    (governing : Option Record) : Prop where
  slots : (governing.getD (w.catalog.newRecord l.schema)).slots.length =
    (w.catalog.schema l.schema).fields.length
  chunks : (governing.getD (w.catalog.newRecord l.schema)).chunks.length =
    (governing.getD (w.catalog.newRecord l.schema)).slots.length
  known : ∀ f ∈ before, f.governs = true →
    ∃ q, governing = some q ∧ q.slot f.slot = r.slot f.slot

namespace Governed

variable {w : Workspace} {l : Layout} {r : Record} {before after : List BoundField}
  {f : BoundField} {governing : Option Record}

/-- Nothing has been passed. -/
theorem start : Governed w l r [] none :=
  ⟨List.length_map _, List.length_map _, fun _ h => absurd h List.not_mem_nil⟩

/-- It depends on the catalog and on the slots of the fields passed. -/
theorem congr (h : Governed w l r before governing) {v : Workspace} (hcat : v.catalog = w.catalog)
    {r' : Record} (hslots : ∀ f ∈ before, r'.slot f.slot = r.slot f.slot) :
    Governed v l r' before governing := by
  refine ⟨by rw [hcat]; exact h.slots, by rw [hcat]; exact h.chunks, fun f hf hgoverns => ?_⟩
  rw [hslots f hf]
  exact h.known f hf hgoverns

/-- A field that decides no size is passed. -/
theorem pass (h : Governed w l r before governing) (hf : f.governs = false) :
    Governed w l r (before ++ [f]) governing := by
  refine ⟨h.slots, h.chunks, fun g hg hgoverns => ?_⟩
  rcases List.mem_append.mp hg with hmem | hmem
  · exact h.known g hmem hgoverns
  · rw [List.mem_singleton.mp hmem, hf] at hgoverns
    cases hgoverns

/-- The field that decides the size of the next one is in its slot. -/
theorem governor (h : Governed w l r before governing) (hs : w.Sound) (hl : w.Knows l)
    (hsplit : l.fields = before ++ f :: after) {g : Nat} (hg : f.encoding.governor? = some g) :
    ∃ q, governing = some q ∧ q.slot g = r.slot g := by
  have hfields := (hl.good hs).fields
  obtain ⟨f', hf', rfl⟩ := List.mem_map.mp (hfields.governor_before hsplit hg)
  have hmem : f' ∈ l.fields := by
    rw [hsplit]
    exact List.mem_append_left _ hf'
  refine h.known f' hf' ((hfields.governs_iff hmem).mpr ⟨f, ?_, hg⟩)
  rw [hsplit]
  exact List.mem_append_right _ List.mem_cons_self

/-- A field that decides sizes is read. -/
theorem read (h : Governed w l r before governing) (hs : w.Sound) (hl : w.Knows l)
    (hmem : f ∈ l.fields) (hbuilt : (r.slot f.slot).Built w.catalog)
    (hgovernor : ∀ g, f.encoding.governor? = some g →
      ∃ q, governing = some q ∧ q.slot g = r.slot g)
    {form : Parse} {readIn : ReadIn} (hin : ReadsAll w form readIn) {o : Option ChunkId} {b : Bytes}
    {F : List ChunkId} (hparse : SlotParse form w r.slot f.encoding (r.slot f.slot) o b F)
    {t : ByteStream} (hshows : t.Shows b) :
    ∃ q, w.Runs (readFieldWith readIn f) t (governing.getD (w.catalog.newRecord l.schema)) ()
      (t.ahead b.length) q ∧ Governed w l r (before ++ [f]) (some q) := by
  -- the record that governs, or an empty one if nothing has been read yet
  let q := governing.getD (w.catalog.newRecord l.schema)
  have hrun := readFieldWith_runs hs hin (x := q) hparse hbuilt hshows fun g hg => by
    obtain ⟨q', hq', hslot⟩ := hgovernor g hg
    show (governing.getD _).slot g = r.slot g
    rw [hq', Option.getD_some, hslot]
  have hlt : f.slot < q.slots.length := by
    have hfields := (hl.good hs).fields
    show f.slot < (governing.getD _).slots.length
    rw [h.slots]
    exact hfields.mem_slots.mp (List.mem_map_of_mem hmem)
  have hslot : (q.took f.slot (r.slot f.slot) o).slotAt f.slot = ⟨r.slot f.slot, _⟩ :=
    RecordOf.slotAt_setSlotAt_self hlt h.chunks _
  refine ⟨q.took f.slot (r.slot f.slot) o, hrun, ?_, ?_, ?_⟩
  · exact List.length_set.trans h.slots
  · exact List.length_set.trans (h.chunks.trans List.length_set.symm)
  · intro g hg hgoverns
    refine ⟨_, rfl, ?_⟩
    by_cases heq : g.slot = f.slot
    · rw [heq]
      exact congrArg Slot.value hslot
    · have hother : (q.took f.slot (r.slot f.slot) o).slotAt g.slot = q.slotAt g.slot :=
        RecordOf.slotAt_setSlotAt_of_ne heq _
      rcases List.mem_append.mp hg with hmem | hmem
      · obtain ⟨q', hq', hknown⟩ := h.known g hmem hgoverns
        refine (congrArg Slot.value hother).trans ?_
        show (governing.getD _).slot g.slot = r.slot g.slot
        rw [hq', Option.getD_some, hknown]
      · exact absurd (congrArg BoundField.slot (List.mem_singleton.mp hmem)) heq

end Governed

section

variable {τ : Type} {w : Workspace} {form : Parse} {readIn : ReadIn} {skipIn : Placement → Op τ Unit}
  {t : ByteStream} {y : τ}

/-! ## Fields -/

theorem skipText_runs {n : UInt64} {b c : Bytes} (hlen : Varint.Spells b n)
    (hc : c.length = n.toNat - 1) (hshows : t.Shows (b ++ c)) :
    w.Runs (skipText : Op τ Unit) t y () (t.ahead (b ++ c).length) y := by
  rw [List.length_append, ← ahead_ahead, hc]
  exact (readVarint_runs hlen hshows.left).bind (passBytes_runs hshows.right hc)

theorem governingRecord_runs {f : BoundField} {governing : Option Record} {q : Record}
    (h : governing = some q) : w.Runs (governingRecord f governing : Op τ Record) t y q t y := by
  subst h
  exact .pure q

theorem skipFieldWith_runs (hs : w.Sound) (hskip : SkipsAll w form skipIn) {f : BoundField}
    {governing : Option Record} {slots : Nat → Value} {v : Value} {o : Option ChunkId} {b : Bytes}
    {F : List ChunkId} (h : SlotParse form w slots f.encoding v o b F) (hshows : t.Shows b)
    (hlt : b.length < 2 ^ 64)
    (hgovernor : ∀ g, f.encoding.governor? = some g →
      ∃ q, governing = some q ∧ q.slot g = slots g) :
    w.Runs (skipFieldWith skipIn f governing) t y () (t.ahead b.length) y := by
  rw [skipFieldWith]
  refine Runs.inField ?_
  generalize f.encoding = e at h hgovernor
  cases h with
  | scalar hlen _ =>
    rw [hlen]
    exact passBytes_runs hshows hlen
  | ordinal _ => exact passBytes_runs hshows rfl
  | sized hwidth hlen =>
    -- how wide it is stands in the record that governs
    obtain ⟨q, hq, hslot⟩ := hgovernor _ rfl
    rw [hlen]
    refine (governingRecord_runs hq).bind
      (Runs.bind (Runs.ask fun v => widthIn_ok.mpr ⟨?_, rfl⟩) (passBytes_runs hshows hlen))
    rw [hslot, hwidth]
  | forced hlen =>
    rw [hlen]
    exact passBytes_runs hshows hlen
  | varint hspell => exact (readVarint_runs hspell hshows).bind (.pure ())
  | array hcount hitems =>
    obtain ⟨q, hq, hslot⟩ := hgovernor _ rfl
    have hlen := hitems.length
    refine (governingRecord_runs hq).bind
      (Runs.bind (Runs.ask fun v => countOf_ok.mpr ⟨(congrArg _ hslot).trans hcount, rfl⟩) ?_)
    rw [if_pos (by rw [← hlen]; exact hlt), hlen]
    exact passBytes_runs hshows hlen
  | @absent p b hset hlen =>
    -- an absent value leaves the room that it would take
    have hmarker : t.Shows [if false then 1 else 0] := hshows.left (b := [0])
    have hroom : (t.ahead 1).Shows b := hshows.right (b := [0])
    rw [List.length_cons, Nat.add_comm, ← ahead_ahead, hlen]
    refine (readMarker_runs hmarker).bind ?_
    refine Runs.bind (Runs.space (Workspace.inlineSize_steady hs hset)) ?_
    exact passBytes_runs hroom hlen
  | @present p v o b F hplaced =>
    have hmarker : t.Shows [if true then 1 else 0] := hshows.left (b := [1])
    rw [List.length_cons] at hlt
    rw [List.length_cons, Nat.add_comm, ← ahead_ahead]
    refine (readMarker_runs hmarker).bind ?_
    exact hskip _ _ _ _ _ _ _ hplaced (hshows.right (b := [1])) (Nat.lt_of_succ_lt hlt)
  | plain hplaced => exact Runs.bind (.pure true) (hskip _ _ _ _ _ _ _ hplaced hshows hlt)

/-! ## Fields in a row -/

/-- The step past what is left of the fields of fixed size. -/
theorem flush_runs {l : Layout} {governing : Option Record} {steps : List SkipStep} {c : Bytes}
    {t' : ByteStream} (hshows : t.Shows c)
    (h : w.Runs (followSteps readIn skipIn l governing steps) (t.ahead c.length) y () t' y) :
    w.Runs (followSteps readIn skipIn l governing (skipSteps.flush c.length ++ steps)) t y ()
      t' y := by
  rw [skipSteps.flush]
  split
  · rename_i hzero
    rwa [hzero, ahead_zero] at h
  · exact (passBytes_runs hshows rfl).bind h

/-- The steps past fields in a row move past what the fields are read from, and past the bytes of
fixed size before them that are still to be passed. -/
theorem followSteps_runs (hs : w.Sound) (hform : form.Fixed w) (hin : ReadsAll w form readIn)
    (hskip : SkipsAll w form skipIn) {l : Layout} (hl : w.Knows l) {r : Record}
    {fields : List BoundField} {b : Bytes} {F : List ChunkId} (h : RowParse form w r fields b F)
    {before : List BoundField} (hsplit : l.fields = before ++ fields) {governing : Option Record}
    (hgoverned : Governed w l r before governing)
    (hbuilt : ∀ f ∈ fields, f.governs = true → (r.slot f.slot).Built w.catalog) {c : Bytes}
    (hshows : t.Shows (c ++ b)) (hlt : b.length < 2 ^ 64) :
    w.Runs (followSteps readIn skipIn l governing (skipSteps c.length before.length fields)) t y ()
      (t.ahead (c ++ b).length) y := by
  induction h generalizing before governing c t with
  | nil =>
    rw [List.append_nil] at hshows ⊢
    rw [skipSteps]
    rw [← List.append_nil (skipSteps.flush _)]
    exact flush_runs hshows (.pure ())
  | @cons f rest o b d F G first _ _ ih =>
    rw [List.length_append] at hlt
    have hnext : l.fields = (before ++ [f]) ++ rest := by rw [hsplit, List.append_assoc]; rfl
    have hbuilt' : ∀ g ∈ rest, g.governs = true → (r.slot g.slot).Built w.catalog :=
      fun g hg => hbuilt g (List.mem_cons_of_mem _ hg)
    have hplace : l.fields.getD before.length default = f := by
      rw [hsplit, List.getD_eq_getElem?_getD, List.getElem?_append_right (Nat.le_refl _),
        Nat.sub_self]
      rfl
    have hcount : (before ++ [f]).length = before.length + 1 := List.length_append
    have hahead : t.ahead (c ++ (b ++ d)).length =
        ((t.ahead c.length).ahead b.length).ahead d.length := by
      rw [ahead_ahead, ahead_ahead, List.length_append, List.length_append]
    have hroom : (t.ahead c.length).Shows (b ++ d) := hshows.right
    rw [skipSteps]
    split
    · -- a field that decides sizes is read
      rename_i hgoverns
      obtain ⟨q, hread, hgoverned'⟩ := hgoverned.read hs hl (by rw [hsplit]; simp)
        (hbuilt f List.mem_cons_self hgoverns)
        (fun g hg => hgoverned.governor hs hl hsplit hg) hin first hroom.left
      have hrest := ih hnext hgoverned' hbuilt' (c := []) hroom.right (by omega)
      rw [hcount] at hrest
      rw [hahead]
      refine flush_runs hshows.left (Runs.catalog.bind (Runs.bind (a := ((), q)) ?_ hrest))
      rw [hplace]
      exact .withSubject hread
    · rename_i hnot
      have hgoverned' := hgoverned.pass (f := f) (Bool.eq_false_iff.mpr hnot)
      split
      · -- a field of fixed size is left for later
        rename_i n hsize
        obtain ⟨decl, hfield⟩ := (hl.good hs).fields.declared (f := f) (by rw [hsplit]; simp)
        have hb : b.length = n := first.fixed hform
          (by rw [hfield.sized.eq_sizeIn (by rw [hsize]; rfl), hsize])
        have hrest := ih hnext hgoverned' hbuilt' (c := c ++ b) (by rwa [List.append_assoc]) (by omega)
        rwa [List.length_append, hb, hcount, List.append_assoc] at hrest
      · -- a field of another size is passed
        have hpass := skipFieldWith_runs hs hskip (y := y) first hroom.left (by omega)
          fun g hg => hgoverned.governor hs hl hsplit hg
        have hrest := ih hnext hgoverned' hbuilt' (c := []) hroom.right (by omega)
        rw [hcount] at hrest
        rw [hahead]
        refine flush_runs hshows.left (Runs.bind (a := ()) ?_ hrest)
        rw [hplace]
        exact hpass

/-! ## Records -/

theorem skipRecordWith_runs (hs : w.Sound) (hform : form.Fixed w) (hin : ReadsAll w form readIn)
    (hskip : SkipsAll w form skipIn) {l : Layout} (hl : w.Knows l) {r : Record} {b : Bytes}
    {F : List ChunkId} (h : RowParse form w r l.fields b F) (hshows : t.Shows b)
    (hlt : b.length < 2 ^ 64) :
    w.Runs (skipRecordWith readIn skipIn l) t y () (t.ahead b.length) y := by
  rw [skipRecordWith, (hl.good hs).skips]
  refine followSteps_runs hs hform hin hskip hl h (List.nil_append _).symm .start
    (fun f hf hgoverns => ?_) (c := []) hshows hlt
  obtain ⟨user, huser, hown⟩ := ((hl.good hs).fields.governs_iff hf).mp hgoverns
  exact (h.governor_decides huser hown).built _

/-- The fields of a record that is read in a layout. -/
theorem RecordParse.row {l : Layout} (hl : w.Knows l) {r : Record} {b : Bytes} {F : List ChunkId}
    (h : RecordParse form w l.key r b F) : RowParse form w r l.fields b F := by
  obtain ⟨l', hl', hrow⟩ := h.fields
  rw [← Option.some.inj (hl'.symm.trans hl)]
  exact hrow

/-- A record in a layout that is asked for. -/
theorem skipInner_runs (hs : w.Sound) (hform : form.Fixed w) (hin : ReadsAll w form readIn)
    (hskip : SkipsAll w form skipIn) {layout : SpaceM Layout} {key : LayoutKey}
    (hsteady : ∀ l, w.compiler.answer key = some l → w.Steady layout l) {r : Record} {b : Bytes}
    {F : List ChunkId} (h : RecordParse form w key r b F) (hshows : t.Shows b)
    (hlt : b.length < 2 ^ 64) :
    w.Runs (skipInner readIn skipIn layout) t y () (t.ahead b.length) y := by
  obtain ⟨l, hl, hknows, hrecord⟩ := h.layout hs
  exact (Runs.space (hsteady l hl)).bind
    (skipRecordWith_runs hs hform hin hskip hknows (hrecord.row hknows) hshows hlt)

/-! ## Values at any depth -/

/-- Moving past values, however deep they are nested. -/
theorem skipWithin_runs (hs : w.Sound) (n : Nat) :
    SkipsAll w (Parses w n) (skipWithin n : Placement → Op τ Unit) := by
  induction n with
  | zero => exact fun _ _ _ _ _ _ _ h => h.elim
  | succ n ih =>
    intro p v o b F t y h hshows hlt
    have hform := Parses.fixed hs n
    have hin := readWithin_runs hs n
    cases h with
    | scalar hlen _ =>
      rw [hlen]
      exact passBytes_runs hshows hlen
    | noText hlen =>
      have hskip := skipText_runs (w := w) (y := y) (c := []) hlen rfl
        (by rwa [List.append_nil])
      rwa [List.append_nil] at hskip
    | text hlen _ hc _ => exact skipText_runs hlen hc hshows
    | inlineRecord hrecord =>
      exact skipInner_runs hs hform hin ih (fun l => Workspace.layout_steady) hrecord hshows hlt
    | fixedRecord hrecord =>
      exact skipInner_runs hs hform hin ih (fun l => Workspace.layout_steady) hrecord hshows hlt
    | wrapped hrecord =>
      exact skipInner_runs hs hform hin ih (fun l => Workspace.layout_steady) hrecord hshows hlt
    | noHandle hchunk => exact (readHandleChunk_runs hchunk hshows).bind (.pure ())
    | handle hchunk _ => exact (readHandleChunk_runs hchunk hshows).bind (.pure ())
    | noChoice htag _ => exact (readTag_runs htag hshows).bind (.pure ())
    | choice htag hne hvariant hrecord _ =>
      -- the tag tells which record is to be passed
      rw [List.length_append] at hlt
      rw [List.length_append, ← ahead_ahead]
      refine (readTag_runs htag hshows.left).bind ?_
      rw [if_neg hne]
      exact skipInner_runs hs hform hin ih (fun l => Workspace.variantLayout_steady hvariant)
        hrecord hshows.right (by omega)
    | noOpen hid => exact (readTag_runs hid hshows).bind (.pure ())
    | typed hid hne htype hplace hplaced =>
      -- the type tells which value is to be passed
      rw [List.length_append] at hlt
      rw [List.length_append, ← ahead_ahead]
      refine (readTag_runs hid hshows.left).bind ?_
      rw [if_neg hne]
      exact (Runs.space (Workspace.openPlacement_steady htype hplace)).bind
        (ih _ _ _ _ _ _ _ hplaced hshows.right (by omega))
    | noChunkText hchunk | chunkText hchunk _ _ _ | noChunkRecord hchunk
    | chunkRecord hchunk _ _ _ =>
      rw [hchunk.1]
      exact passBytes_runs hshows hchunk.1
    | noChunkChoice htagged | chunkChoice htagged _ _ _ _ _ | noChunkOpen htagged
    | chunkTyped htagged _ _ _ _ _ _ =>
      rw [htagged.length]
      exact passBytes_runs hshows htagged.length

/-! ## Whole values -/

theorem skipRecord_runs (hs : w.Sound) {l : Layout} (hl : w.Knows l) {r : Record} {b : Bytes}
    {F : List ChunkId} (h : RecordParse (Parses w (w.readerDepth t.remaining)) w l.key r b F)
    (hshows : t.Shows b) (hlt : b.length < 2 ^ 64) :
    w.Runs (skipRecord l : Op τ Unit) t y () (t.ahead b.length) y :=
  readDepth_runs.bind (skipRecordWith_runs hs (Parses.fixed hs _) (readWithin_runs hs _)
    (skipWithin_runs hs _) hl (h.row hl) hshows hlt)

end

end RecordLayout
