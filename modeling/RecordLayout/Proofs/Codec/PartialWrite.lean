import Mathlib
import RecordLayout.Proofs.Codec.PartialRead
import RecordLayout.Proofs.Size.Written

/-!
# What partial writes leave behind

A partial write goes over a record that ends its stream. It puts new bytes for the fields of its plan
and moves past the others. Moving past bytes is the same as putting them where they are, so that in
the end a partial write has done what a write of all fields would have done.

This works because of what a plan takes together. A field that is left alone keeps its bytes, its
chunks and the field that decides its size; a field that is written and whose size can change takes
everything behind it along, and then the stream is cut after the last field.

Main results:

* `Left.passed` — a field that is left alone stands as if it had been written;
* `writeWanted_written` — fields in a row, by induction along the row.
-/

namespace RecordLayout

open ByteStream ChunkStore
open Workspace (Runs)

/-! ## Streams that end with some bytes -/

namespace ByteStream

/-- The bytes from the cursor to the end of the stream. -/
structure Ends (s : ByteStream) (b : Bytes) : Prop where
  writable : s.Writable
  rest : s.shown.drop s.position = b

variable {s s' : ByteStream} {b c : Bytes}

theorem Ends.shows (h : s.Ends (b ++ c)) : s.Shows b :=
  ⟨h.writable.coherent, c, h.rest.symm⟩

/-- Bytes that are passed might as well have been put there. -/
theorem Shows.puts (h : s.Shows b) (hs : s.Writable) : s.Puts b (s.ahead b.length) := by
  refine ⟨?_, position_ahead _ _, coherent_setPosition h.coherent _⟩
  obtain ⟨c, hc⟩ := h.prefixed
  rw [shown_ahead, spliced, ← List.drop_drop, ← hc, List.drop_left,
    Nat.sub_eq_zero_of_le hs.inside, List.replicate_zero, List.append_nil, List.append_assoc, hc,
    List.take_append_drop]

/-- What is left of the end after bytes have been put before it. -/
theorem Ends.put (h : s.Ends b) (hputs : s.Puts c s') : s'.Ends (b.drop c.length) := by
  refine ⟨hputs.writable, ?_⟩
  have hbefore : (s.shown.take s.position ++ c).length = s.position + c.length := by
    rw [List.length_append, List.length_take, Nat.min_eq_left h.writable.inside]
  rw [hputs.shown, hputs.position, spliced, Nat.sub_eq_zero_of_le h.writable.inside,
    List.replicate_zero, List.append_nil, List.drop_left' hbefore, ← List.drop_drop, h.rest]

/-- What stands before the cursor after bytes have been put. -/
theorem Puts.before (h : s.Puts b s') (hs : s.Writable) :
    s'.shown.take s'.position = s.shown.take s.position ++ b := by
  rw [h.shown, h.position, spliced, Nat.sub_eq_zero_of_le hs.inside, List.replicate_zero,
    List.append_nil]
  refine List.take_left' ?_
  rw [List.length_append, List.length_take, Nat.min_eq_left hs.inside]

/-- Cutting a stream at its cursor. -/
theorem shown_cut (h : s.Writable) : (s.setSize s.position).shown = s.shown.take s.position := by
  rw [shown_setSize, resized, Nat.sub_eq_zero_of_le h.inside, List.replicate_zero,
    List.append_nil]

/-- A stream whose cursor stands at its end. -/
theorem Ends.take (h : s.Ends []) : s.shown.take s.position = s.shown := by
  have hall := List.take_append_drop s.position s.shown
  rwa [h.rest, List.append_nil] at hall

end ByteStream

/-! ## Fields that are left alone -/

/-- What a write of a field leaves behind, with everything that was put into it. -/
structure FieldRewritten (n : Nat) (f : BoundField) (s s' : Scene Record) (b : Bytes)
    (F : List ChunkId) : Prop extends FieldWritten n f s s' b F where
  recast : (s.subject.slot f.slot).Recast s.space.catalog (s'.subject.slot f.slot)

/-- A write of a field that is taken leaves the slots alone that are not. -/
theorem FieldRewritten.apart {taken : List BoundField} {n : Nat} {f : BoundField}
    {s s' : Scene Record} {b : Bytes} {F : List ChunkId} (h : FieldRewritten n f s s' b F)
    (hf : f ∈ taken) {i : Nat} (hi : i ∉ Plan.slots taken) :
    s'.subject.slotAt i = s.subject.slotAt i :=
  h.others i fun heq => hi (heq ▸ List.mem_map_of_mem hf)

theorem FieldRewritten.slots {n : Nat} {f : BoundField} {s s' : Scene Record} {b : Bytes}
    {F : List ChunkId} (h : FieldRewritten n f s s' b F) (i : Nat) :
    (s.subject.slot i).Recast s.space.catalog (s'.subject.slot i) := by
  by_cases hi : i = f.slot
  · rw [hi]
    exact h.recast
  · rw [RecordOf.slot_eq_slotAt, RecordOf.slot_eq_slotAt, h.others i hi]
    exact .same _

/-- A field that is not among those taken, and neither is the field that decides its size; in `w` it
stood as a field of `r` in chunks of its own. -/
structure Left (taken : List BoundField) (w : Workspace) (n : Nat) (r : Record) (f : BoundField)
    (b : Bytes) (F : List ChunkId) : Prop where
  apart : f.slot ∉ Plan.slots taken
  governor : ∀ g, f.encoding.governor? = some g → g ∉ Plan.slots taken
  stood : Encodes (Stands w n) w r.slot f.encoding (r.slot f.slot) b F
  nodup : F.Nodup
  own : F ⊆ (r.slotAt f.slot).companions

/-- Nothing that belongs to the fields that are not taken has changed since `w`, as far as they are
still ahead. -/
structure Untouched (taken : List BoundField) (w : Workspace) (r : Record)
    (fields : List BoundField) (v : Workspace) (x : Record) : Prop where
  le : w.Le v
  slots : ∀ i, i ∉ Plan.slots taken → x.slotAt i = r.slotAt i
  chunks : ∀ f ∈ fields, f.slot ∉ Plan.slots taken → ∀ c ∈ (r.slotAt f.slot).companions,
    v.store.content? c = w.store.content? c

section

variable {taken : List BoundField} {w v v' : Workspace} {n : Nat} {r x : Record} {f : BoundField}
  {fields : List BoundField} {b c : Bytes} {F : List ChunkId} {t : ByteStream}

theorem Untouched.slot (h : Untouched taken w r fields v x) {i : Nat} (hi : i ∉ Plan.slots taken) :
    x.slot i = r.slot i :=
  congrArg Slot.value (h.slots i hi)

theorem Untouched.learns (h : Untouched taken w r (f :: fields) v x) (hv : v.Learns v') :
    Untouched taken w r fields v' x := by
  refine ⟨h.le.trans hv.toLe, h.slots, fun g hg hnot c hc => ?_⟩
  rw [hv.store]
  exact h.chunks g (List.mem_cons_of_mem _ hg) hnot c hc

/-- Writing a field that is taken touches none of the others. -/
theorem Untouched.written {m : Nat} {s s₁ : Scene Record}
    (h : Untouched taken w r (f :: fields) s.space s.subject) (hf : f.slot ∈ Plan.slots taken)
    (hone : FieldWritten m f s s₁ b F)
    (hown : Owns s.space ((f :: fields).flatMap fun g => (s.subject.slotAt g.slot).companions)) :
    Untouched taken w r fields s₁.space s₁.subject := by
  rw [List.flatMap_cons] at hown
  refine ⟨h.le.trans hone.laid.le, fun i hi => ?_, fun g hg hnot c hc => ?_⟩
  · rw [hone.others i fun heq => hi (heq ▸ hf), h.slots i hi]
  · -- the chunks of the other fields are not those of this one
    rw [← h.chunks g (List.mem_cons_of_mem _ hg) hnot c hc]
    rw [← h.slots _ hnot] at hc
    have hmem : c ∈ fields.flatMap fun g => (s.subject.slotAt g.slot).companions :=
      List.mem_flatMap.mpr ⟨g, hg, hc⟩
    exact hone.laid.content? (fun hin => (List.nodup_append'.mp hown.nodup).2.2 hin hmem)
      (hown.known c (List.mem_append_right _ hmem))

namespace Left

/-- What its bytes are read as. -/
theorem parses (h : Left taken w n r f b F) (hs : w.Sound) (hfit : w.Fits)
    (hold : Untouched taken w r fields v x) (hf : f ∈ fields) (hv : v.Sound) :
    ∃ x' o, SlotParse (Parses v n) v x.slot f.encoding x' o b F ∧
      x'.detached = (x.slot f.slot).detached := by
  rw [hold.slot h.apart]
  exact h.stood.parses_later hs hv hold.le hfit
    (fun c hc => hold.chunks f hf h.apart c (h.own hc)) fun g hg => hold.slot (h.governor g hg)

/-- A field that is passed stands as if it had been written. -/
theorem passed (h : Left taken w n r f b F) (hs : w.Sound)
    (hold : Untouched taken w r fields v x) (hf : f ∈ fields) (hlearns : v.Learns v')
    (hv : v'.Sound) (ht : t.Ends (b ++ c)) (hready : x.Ready v.catalog)
    (hown : (x.slotAt f.slot).companions.Nodup) :
    FieldRewritten n f ⟨v, t, x⟩ ⟨v', t.ahead b.length, x⟩ b F := by
  have hstore := hlearns.store
  have hle := hold.le.trans hlearns.toLe
  refine ⟨⟨rfl, fun _ _ => rfl, ?_, ?_, ?_⟩, .same _⟩
  -- nothing was stored since, so what stands in the chunks is what stood there
  · have hlaid : Laid v t v' (t.ahead b.length) (x.slotAt f.slot).companions
        (x.slotAt f.slot).companions b [] :=
      .plain hlearns hv (ht.shows.puts ht.writable) hown
    refine ⟨hlaid.le, hlaid.sound, hlaid.puts, hlaid.writes, h.nodup, ?_, ?_, hlaid.kept_sub, hown⟩
    · rw [hold.slots _ h.apart]
      exact h.own
    · exact fun y hy => absurd (hlaid.fresh hy) List.not_mem_nil
  · show Encodes (Stands v' n) v' x.slot f.encoding (x.slot f.slot) b F
    rw [hold.slot h.apart]
    refine h.stood.transfer hs hle (fun p y d hstands => hstands.stable hs hle fun y hy => ?_)
      fun g hg => hold.slot (h.governor g hg)
    rw [hstore]
    exact hold.chunks f hf h.apart y (h.own hy)
  · show x.Ready v'.catalog
    rw [hlearns.catalog]
    exact hready

end Left

end

/-! ## Fields in a row -/

section

variable {taken : List BoundField} {n m : Nat} {f : BoundField} {fields : List BoundField}
  {s s₁ s' : Scene Record} {b c : Bytes} {F G : List ChunkId}

theorem FieldWritten.mono (h : FieldWritten n f s s' b F) (hle : n ≤ m) :
    FieldWritten m f s s' b F :=
  { h with encodes := h.encodes.mono h.laid.sound hle }

theorem FieldsWritten.mono (h : FieldsWritten n fields s s' b F) (hle : n ≤ m) :
    FieldsWritten m fields s s' b F := by
  refine { h with held := ?_ }
  have hs := h.laid.sound
  have hheld := h.held
  clear h
  induction hheld with
  | nil => exact .nil
  | cons first own _ ih => exact .cons (first.mono hs hle) own ih

/-- All fields in a row stand as if they had been written, and the stream ends after them. Slots of
fields that are not taken are as they were. -/
structure RowRewritten (taken : List BoundField) (n : Nat) (fields : List BoundField)
    (s s' : Scene Record) (b : Bytes) (F : List ChunkId) : Prop where
  written : ∃ t, FieldsWritten n fields s { s' with stream := t } b F
  others : ∀ i, i ∉ Plan.slots taken → s'.subject.slotAt i = s.subject.slotAt i
  recast : ∀ i, (s.subject.slot i).Recast s.space.catalog (s'.subject.slot i)
  coherent : s'.stream.Coherent
  shown : s'.stream.shown = s.stream.shown.take s.stream.position ++ b

theorem RowRewritten.cons (hmore : RowRewritten taken m fields s₁ s' c G)
    (hone : FieldRewritten n f s s₁ b F)
    (hothers : ∀ i, i ∉ Plan.slots taken → s₁.subject.slotAt i = s.subject.slotAt i) (hw : s.stream.Writable)
    (hown : Owns s.space ((f :: fields).flatMap fun g => (s.subject.slotAt g.slot).companions))
    (hrow : InRow (f :: fields)) :
    RowRewritten taken (max n m) (f :: fields) s s' (b ++ c) (F ++ G) := by
  obtain ⟨t, hwritten⟩ := hmore.written
  refine ⟨⟨t, ?_⟩, fun i hi => (hmore.others i hi).trans (hothers i hi), fun i => ?_,
    hmore.coherent, ?_⟩
  · have hfirst := hone.toFieldWritten.mono (Nat.le_max_left n m)
    exact hfirst.cons (hwritten.mono (Nat.le_max_right n m)) hown hrow
  · have hrest := hmore.recast i
    rw [hone.laid.le.catalog] at hrest
    exact (hone.slots i).trans hrest
  · rw [hmore.shown, hone.laid.puts.before hw, List.append_assoc]

end

/-- What a partial write finds ahead: the fields in a row, those among them that it writes, and the
bytes up to the end of the stream. New bytes go where as many old ones are, until a field is written
that can take another number of bytes; from there on all fields are written, over whatever there is. -/
inductive Ahead (l : Layout) (taken : List BoundField) (w : Workspace) (n : Nat) (r : Record) :
    List BoundField → List BoundField → Bytes → Prop
  | nil : Ahead l taken w n r [] [] []
  | left {f : BoundField} {fields wanted : List BoundField} {b c : Bytes} {F : List ChunkId}
    (first : Left taken w n r f b F) (rest : Ahead l taken w n r fields wanted c) :
    Ahead l taken w n r (f :: fields) wanted (b ++ c)
  | renewed {f : BoundField} {fields wanted : List BoundField} {b c : Bytes}
    (hsize : f.size = .fixed b.length) (rest : Ahead l taken w n r fields wanted c) :
    Ahead l taken w n r (f :: fields) (f :: wanted) (b ++ c)
  | moved {f : BoundField} {fields : List BoundField} {b : Bytes}
    (hsize : l.size.isFixed = false) : Ahead l taken w n r (f :: fields) (f :: fields) b

section

variable {l : Layout} {taken : List BoundField} {w : Workspace} {n : Nat} {r : Record}

theorem Ahead.sublist {fields wanted : List BoundField} {b : Bytes}
    (h : Ahead l taken w n r fields wanted b) : wanted.Sublist fields := by
  induction h with
  | nil => exact .slnil
  | left _ _ ih => exact ih.cons _
  | renewed _ _ ih => exact ih.cons_cons _
  | moved _ => exact .refl _

/-- Fields that can be written over a stored record: with them are taken those that need one of them,
and those behind one whose size can change. -/
structure Layout.TakesAlong (l : Layout) (taken : List BoundField) : Prop where
  sublist : taken.Sublist l.fields
  dependents : ∀ f ∈ taken, ∀ g ∈ l.fields, f.slot ∈ g.needs → g ∈ taken
  moved : ∀ before f after, l.fields = before ++ f :: after → f ∈ taken → f.size.isFixed = false →
    after ⊆ taken

theorem Plan.Writes.takesAlong {plan : Plan} (h : plan.Writes l) : l.TakesAlong plan.write :=
  ⟨h.sublist, h.dependents, h.moved⟩

/-- What a partial write finds ahead where a record has been written. A field that is left alone is not
needed by one that is taken, and neither is the field that decides its size. -/
theorem FieldsHeld.ahead (hs : w.Sound) (hfit : w.Fits) (hl : w.Knows l)
    (htakes : l.TakesAlong taken) {remaining : Nat} {before fields wanted : List BoundField}
    {b : Bytes} {F : List ChunkId} (h : FieldsHeld (Stands w n) w r fields b F) (hF : F.Nodup)
    (hb : b.length ≤ remaining) (hsplit : l.fields = before ++ fields)
    (hwanted : wanted.Sublist fields) (hall : ∀ f ∈ fields, f ∈ taken ↔ f ∈ wanted) :
    Ahead l taken w (w.readerDepth remaining) r fields wanted b := by
  have hfields := (hl.good hs).fields
  induction h generalizing before wanted with
  | nil =>
    obtain rfl := List.eq_nil_of_sublist_nil hwanted
    exact .nil
  | @cons f fields b c F G first own rest ih =>
    have hmem : f ∈ l.fields := by rw [hsplit]; simp
    have hnext : l.fields = (before ++ [f]) ++ fields := by rw [hsplit, List.append_assoc]; rfl
    have hslots : ((f :: fields).map (·.slot)).Nodup := by
      have hnodup := hfields.slots_nodup
      rw [hsplit, List.map_append] at hnodup
      exact (List.nodup_append'.mp hnodup).2.1
    obtain ⟨hnew, hnodup⟩ := List.nodup_cons.mp (List.Nodup.of_map _ hslots)
    obtain ⟨hF₁, hF₂, -⟩ := List.nodup_append'.mp hF
    rw [List.length_append] at hb
    have hstands : Encodes (Stands w (w.readerDepth remaining)) w r.slot f.encoding (r.slot f.slot) b F :=
      first.shallow hs hl hmem hF₁ (by omega)
    rcases wanted_cases hwanted hslots with ⟨wanted, rfl, hbehind⟩ | ⟨hbehind, -⟩
    · have htaken : f ∈ taken := (hall f List.mem_cons_self).mpr List.mem_cons_self
      cases hsize : f.size with
      | fixed m =>
        obtain ⟨x, o, hparse, -⟩ :=
          hstands.parses_later hs hs (.refl w) hfit (fun _ _ => rfl) fun _ _ => rfl
        obtain ⟨decl, hfield⟩ := hfields.declared hmem
        obtain rfl : b.length = m := hparse.fixed (Parses.fixed hs _)
          (by rw [hfield.sized.eq_sizeIn (by rw [hsize]; rfl), hsize])
        refine .renewed hsize (ih hF₂ (by omega) hnext hbehind fun g hg => ?_)
        have hne : g ≠ f := fun heq => hnew (heq ▸ hg)
        rw [hall g (List.mem_cons_of_mem _ hg), List.mem_cons, or_iff_right hne]
      | between least most =>
        have hvaries : f.size.isFixed = false := by rw [hsize]; rfl
        have hmoved := htakes.moved before f fields hsplit htaken hvaries
        -- everything after it is written, too
        have hrest : fields ⊆ wanted := fun g hg => by
          have hne : g ≠ f := fun heq => hnew (heq ▸ hg)
          have hin := (hall g (List.mem_cons_of_mem _ hg)).mp (hmoved hg)
          exact (List.mem_cons.mp hin).resolve_left hne
        rw [hbehind.eq_of_length_le (hnodup.subperm hrest).length_le]
        refine .moved (Bool.eq_false_iff.mpr fun hfixed => ?_)
        rw [(hl.good hs).size] at hfixed
        have hown := SizeRange.isFixed_sum hfixed _ (List.mem_map.mpr ⟨f, hmem, rfl⟩)
        rw [hvaries] at hown
        cases hown
    · have hleft : f ∉ taken := fun hin =>
        hnew (hbehind.subset ((hall f List.mem_cons_self).mp hin))
      have hapart : f.slot ∉ Plan.slots taken := fun hslot => by
        obtain ⟨g, hg, heq⟩ := List.mem_map.mp hslot
        rw [List.inj_on_of_nodup_map hfields.slots_nodup (htakes.sublist.subset hg) hmem heq] at hg
        exact hleft hg
      refine .left ⟨hapart, fun g hg hslot => ?_, hstands, hF₁, own⟩
        (ih hF₂ (by omega) hnext hbehind fun g hg => hall g (List.mem_cons_of_mem _ hg))
      -- a field that is taken takes those along whose size it decides
      obtain ⟨governor, hgovernor, rfl⟩ := List.mem_map.mp hslot
      exact hleft (htakes.dependents governor hgovernor f hmem (hfields.governor_mem hmem hg))

/-- If no more fields are written, the others stand where they are. -/
theorem Ahead.passed (hs : w.Sound) {fields : List BoundField} {b : Bytes}
    (h : Ahead l taken w n r fields [] b) {s : Scene Record}
    (hold : Untouched taken w r fields s.space s.subject) (hspace : s.space.Sound)
    (hends : s.stream.Ends b) (hready : s.subject.Ready s.space.catalog)
    (hown : Owns s.space (fields.flatMap fun g => (s.subject.slotAt g.slot).companions))
    (hrow : InRow fields) : ∃ F, RowRewritten taken n fields s s b F := by
  generalize hnone : ([] : List BoundField) = wanted at h
  induction h generalizing s with
  | nil =>
    refine ⟨[], ⟨s.stream, rfl, fun _ _ => rfl, ?_, .nil, hready⟩, fun _ _ => rfl,
      fun _ => .same _, hends.writable.coherent, ?_⟩
    · exact .plain (.refl _) hspace (.refl hends.writable) List.nodup_nil
    · rw [List.append_nil, hends.take]
  | @left f fields wanted b c F first rest ih =>
    obtain ⟨v, t, x⟩ := s
    have hone := first.passed hs hold List.mem_cons_self (.refl v) hspace hends hready
      (hown.sublist (List.sublist_append_left _ _)).nodup
    -- the rest stands where the first field ends
    have hends' : (t.ahead b.length).Ends c := by
      have hrest := hends.put hone.laid.puts
      rwa [List.drop_left] at hrest
    obtain ⟨G, hmore⟩ := ih (s := ⟨v, t.ahead b.length, x⟩) (hold.learns (.refl v)) hspace hends'
      hready (hone.next hown hrow) (List.pairwise_cons.mp hrow).2 hnone
    have hboth := hmore.cons hone (fun _ _ => rfl) hends.writable hown hrow
    rw [Nat.max_self] at hboth
    refine ⟨F ++ G, hboth.written, hboth.others, hboth.recast, hends.writable.coherent, ?_⟩
    exact (shown_ahead t b.length).symm.trans hboth.shown
  | renewed _ _ _ => cases hnone
  | moved _ => cases hnone

/-- Writing one field. -/
theorem writeField_written {f : BoundField} {s s' : Scene Record} {u : Unit}
    (h : writeField f s = .ok u s') (hs : s.space.Sound) (hw : s.stream.Writable)
    (hready : s.subject.Ready s.space.catalog)
    (hown : Owns s.space (s.subject.slotAt f.slot).companions) {kind : LayoutKind}
    {decl : FieldDecl} (hgood : FieldGood s.space.compiler
      (s.space.catalog.schema s.subject.schema) kind decl f) :
    ∃ m b F, FieldRewritten m f s s' b F ∧ f.size.contains b.length = true := by
  rw [writeField, bind_ok] at h
  obtain ⟨r, s₁, hsubject, hrun⟩ := h
  obtain ⟨rfl, rfl⟩ := Op.subject_ok.mp hsubject
  obtain ⟨b, F, hwritten⟩ := writeFieldWith_written (writeWithin_written _) hrun hs hw hready hown hgood
  obtain ⟨k, hsized⟩ := writeFieldWith_sized (writeWithin_sized _) hrun hs
  refine ⟨_, b, F, ⟨hwritten, hsized.recast⟩, ?_⟩
  -- the cursor has moved past what the field takes
  have hk : k = b.length := by
    have hmoved := hsized.moved.stream.position
    have hput := hwritten.laid.puts.position
    omega
  have hgood' := hgood.grows hsized.moved.le.compiler
  rw [← hk]
  exact hsized.takes.contains hgood'

/-- A width or a number is its own content. -/
theorem Value.Decides.eq_of_detached {v v' : Value} (h : v.Decides)
    (heq : v'.detached = v.detached) : v' = v := by
  cases v with
  | width _ => exact Value.detached_eq_width heq
  | scalar x =>
    cases v' with
    | scalar y => exact heq
    | _ => cases heq
  | _ => exact h.elim

/-- What decides a size is a width or a number. -/
theorem FieldsForm.governor_decides {form : Form} {slots : Nat → Value} {fields : List BoundField}
    {b : Bytes} {F : List ChunkId} (h : FieldsForm form w slots fields b F) {f : BoundField}
    (hf : f ∈ fields) {g : Nat} (hg : f.encoding.governor? = some g) : (slots g).Decides := by
  obtain ⟨b', F', hfield⟩ := h.mem hf
  generalize f.encoding = e at hfield hg
  generalize slots f.slot = own at hfield
  cases hfield with
  | sized hwidth _ =>
    cases hg
    rw [hwidth]
    trivial
  | array hcount _ =>
    cases hg
    exact Value.decides_of_toNat? hcount
  | _ => cases hg

/-- The stream after a field has been written: cut there if the field is the last one and the size of
the record can change. -/
def Layout.cutAfter (l : Layout) (fields : List BoundField) (t : ByteStream) : ByteStream :=
  if fields.isEmpty && !l.size.isFixed then t.setSize t.position else t

theorem Layout.cutAfter_cons (l : Layout) (f : BoundField) (fields : List BoundField)
    (t : ByteStream) : l.cutAfter (f :: fields) t = t := rfl

/-- Fields are known by their slots. -/
theorem writeWanted_slots {governing : Option Record} {fields wanted wanted' : List BoundField}
    (h : Plan.slots wanted = Plan.slots wanted') :
    writeWanted n l governing fields wanted = writeWanted n l governing fields wanted' := by
  -- the loop looks at the wanted fields only through their slots
  induction fields generalizing governing wanted wanted' with
  | nil =>
    cases wanted with
    | nil =>
      obtain rfl := List.map_eq_nil_iff.mp h.symm
      rfl
    | cons f rest =>
      obtain ⟨f', rest', rfl, -, -⟩ := List.map_eq_cons_iff.mp h.symm
      rfl
  | cons g fields ih =>
    cases wanted with
    | nil =>
      obtain rfl := List.map_eq_nil_iff.mp h.symm
      rfl
    | cons f rest =>
      obtain ⟨f', rest', rfl, hslot, hrest⟩ := List.map_eq_cons_iff.mp h.symm
      have hsame : Plan.slots (f :: rest) = Plan.slots (f' :: rest') := h
      have hrest : Plan.slots rest = Plan.slots rest' := hrest.symm
      unfold writeWanted
      simp only [hslot, ih hrest, ih hsame]

/-- A field that is written, and what is done after it. -/
theorem writeWanted_cons_ok {governing : Option Record} {f : BoundField}
    {fields wanted : List BoundField} {s s' : Scene Record} {u : Unit}
    (h : writeWanted n l governing (f :: fields) (f :: wanted) s = .ok u s') :
    ∃ s₁, writeField f s = .ok () s₁ ∧ writeWanted n l governing fields wanted
      { s₁ with stream := l.cutAfter fields s₁.stream } = .ok u s' := by
  rw [writeWanted, if_pos rfl] at h
  obtain ⟨_, s₁, hwrite, hrest⟩ := bind_ok.mp h
  refine ⟨s₁, hwrite, ?_⟩
  rw [Layout.cutAfter]
  rcases ite_ok.mp hrest with ⟨hcut, hrest⟩ | ⟨hcut, hrest⟩
  · obtain ⟨_, s₂, hdone, hrest⟩ := bind_ok.mp hrest
    rw [Op.cutHere_ok] at hdone
    subst hdone
    rwa [if_pos hcut]
  · rwa [if_neg hcut]

/-- A field that is written, and the fields after it. If it is the last one, nothing is left behind
it: either there was nothing, or the stream has been cut. -/
theorem FieldRewritten.rewritten {m : Nat} {governing : Option Record} {f : BoundField}
    {fields wanted : List BoundField} {s s₁ s' : Scene Record} {b : Bytes} {F : List ChunkId}
    {u : Unit} (hone : FieldRewritten m f s s₁ b F) (htaken : f ∈ taken) (hw : s.stream.Writable)
    (hown : Owns s.space ((f :: fields).flatMap fun g => (s.subject.slotAt g.slot).companions))
    (hrow : InRow (f :: fields)) (hwanted : wanted.Sublist fields)
    (hrest : writeWanted n l governing fields wanted
      { s₁ with stream := l.cutAfter fields s₁.stream } = .ok u s')
    (hlast : fields = [] → l.size.isFixed = true → s₁.stream.Ends [])
    (hmore : fields ≠ [] → writeWanted n l governing fields wanted s₁ = .ok u s' →
      ∃ m c G, RowRewritten taken m fields s₁ s' c G) :
    ∃ m c G, RowRewritten taken m (f :: fields) s s' c G := by
  cases fields with
  | nil =>
    -- what was behind the last field has been cut, or was never there
    obtain rfl := List.eq_nil_of_sublist_nil hwanted
    obtain ⟨-, rfl⟩ := pure_ok.mp hrest
    have hnil : FieldsWritten m [] s₁ s₁ [] [] :=
      ⟨rfl, fun _ _ => rfl, .plain (.refl _) hone.laid.sound (.refl hone.laid.puts.writable)
        List.nodup_nil, .nil, hone.ready⟩
    have hwritten := hone.cons hnil hown hrow
    refine ⟨m, _, _, ⟨s₁.stream, hwritten⟩, fun _ => hone.apart htaken, hone.slots, ?_, ?_⟩
    · show (l.cutAfter [] s₁.stream).Coherent
      rw [Layout.cutAfter]
      split
      · exact coherent_setSize hone.laid.puts.coherent _
      · exact hone.laid.puts.coherent
    · show (l.cutAfter [] s₁.stream).shown = _
      rw [List.append_nil, ← hone.laid.puts.before hw, Layout.cutAfter]
      split
      · exact shown_cut hone.laid.puts.writable
      · rename_i hkeep
        have hfixed : l.size.isFixed = true := by simpa using hkeep
        exact (hlast rfl hfixed).take.symm
  | cons g rest =>
    rw [Layout.cutAfter_cons] at hrest
    obtain ⟨m', c, G, hrewritten⟩ := hmore (List.cons_ne_nil _ _) hrest
    exact ⟨_, _, _, hrewritten.cons hone (fun _ => hone.apart htaken) hw hown hrow⟩

/-- The fields of a layout in a later workspace, for a record of its schema. -/
theorem Workspace.Knows.declared (hl : w.Knows l) (hs : w.Sound) {v : Workspace} (hle : w.Le v)
    {x : Record} (hschema : x.schema = l.schema) {f : BoundField} (hf : f ∈ l.fields) :
    ∃ decl, FieldGood v.compiler (v.catalog.schema x.schema) l.kind decl f := by
  obtain ⟨decl, hgood⟩ := (hl.good hs).fields.declared hf
  rw [hschema, hle.catalog]
  exact ⟨decl, hgood.grows hle.compiler⟩

/-- Writing all fields in a row, over whatever there is: the stream is cut after the last one. -/
theorem writeWanted_all (hs : w.Sound) (hl : w.Knows l) (hsize : l.size.isFixed = false)
    {governing : Option Record} {f : BoundField} {fields : List BoundField}
    {s s' : Scene Record} {u : Unit}
    (h : writeWanted n l governing (f :: fields) (f :: fields) s = .ok u s')
    (hle : w.Le s.space) (hspace : s.space.Sound) (hw : s.stream.Writable)
    (hsub : (f :: fields) ⊆ l.fields) (htaken : (f :: fields) ⊆ taken) (hrow : InRow (f :: fields))
    (hready : s.subject.Ready s.space.catalog) (hschema : s.subject.schema = l.schema)
    (hown : Owns s.space ((f :: fields).flatMap fun g => (s.subject.slotAt g.slot).companions)) :
    ∃ m c F, RowRewritten taken m (f :: fields) s s' c F := by
  induction fields generalizing f s with
  | nil =>
    obtain ⟨s₁, hwrite, hrest⟩ := writeWanted_cons_ok h
    obtain ⟨decl, hgood⟩ := hl.declared hs hle hschema (hsub List.mem_cons_self)
    obtain ⟨m, b, F, hone, -⟩ := writeField_written hwrite hspace hw hready
      (hown.sublist (List.sublist_append_left _ _)) hgood
    -- the stream is cut behind the last field, as the layout is of no fixed size
    exact hone.rewritten (htaken List.mem_cons_self) hw hown hrow (.refl _) hrest
      (fun _ hfixed => by rw [hsize] at hfixed; cases hfixed) fun hne => absurd rfl hne
  | cons g fields ih =>
    obtain ⟨s₁, hwrite, hrest⟩ := writeWanted_cons_ok h
    obtain ⟨decl, hgood⟩ := hl.declared hs hle hschema (hsub List.mem_cons_self)
    obtain ⟨m, b, F, hone, -⟩ := writeField_written hwrite hspace hw hready
      (hown.sublist (List.sublist_append_left _ _)) hgood
    refine hone.rewritten (htaken List.mem_cons_self) hw hown hrow (.refl _) hrest
      (fun hnil => nomatch hnil) fun _ hrest => ?_
    exact ih hrest (hle.trans hone.laid.le) hone.laid.sound hone.laid.puts.writable
      (fun g hg => hsub (List.mem_cons_of_mem _ hg))
      (fun g hg => htaken (List.mem_cons_of_mem _ hg)) (List.pairwise_cons.mp hrow).2 hone.ready
      (hone.schema.trans hschema) (hone.next hown hrow)

/-- Writing the wanted ones among fields in a row that end the stream. -/
theorem writeWanted_written (hs : w.Sound) (hfit : w.Fits) (hl : w.Knows l)
    (hdecides : ∀ g ∈ l.fields, ∀ i, g.encoding.governor? = some i → (r.slot i).Decides)
    {governing : Option Record} {before passed fields wanted : List BoundField}
    {s s' : Scene Record} {b : Bytes} {u : Unit}
    (h : writeWanted n l governing fields wanted s = .ok u s')
    (hahead : Ahead l taken w n r fields wanted b)
    (hold : Untouched taken w r fields s.space s.subject) (hspace : s.space.Sound)
    (hsplit : l.fields = before ++ fields)
    (hpassed : ∀ g, g ∈ passed ↔ g ∈ before ∧ g.slot ∉ Plan.slots taken)
    (hgoverned : Governed s.space l s.subject passed governing) (hwanted : wanted ⊆ taken)
    (hends : s.stream.Ends b) (hlt : b.length < 2 ^ 64)
    (hready : s.subject.Ready s.space.catalog) (hschema : s.subject.schema = l.schema)
    (hown : Owns s.space (fields.flatMap fun g => (s.subject.slotAt g.slot).companions)) :
    ∃ m c F, RowRewritten taken m fields s s' c F := by
  have hfields := (hl.good hs).fields
  have hrow : InRow fields := by
    have hall := hfields.inRow
    rw [hsplit] at hall
    exact hall.sublist (List.sublist_append_right _ _)
  -- what the fields after one need is there after this one
  have hnext {front rest : List BoundField} {f : BoundField} (h : l.fields = front ++ f :: rest) :
      l.fields = (front ++ [f]) ++ rest := by
    rw [h, List.append_assoc]
    rfl
  induction hahead generalizing governing before passed s with
  | nil =>
    obtain ⟨-, rfl⟩ := pure_ok.mp h
    obtain ⟨F, hdone⟩ := (Ahead.nil (l := l)).passed hs hold hspace hends hready hown hrow
    exact ⟨n, [], F, hdone⟩
  | @left f fields wanted b c F first rest ih =>
    have hmem : f ∈ l.fields := by rw [hsplit]; simp
    cases wanted with
    | nil =>
      -- nothing more is written
      obtain ⟨-, rfl⟩ := pure_ok.mp h
      obtain ⟨F, hdone⟩ := (Ahead.left first rest).passed hs hold hspace hends hready hown hrow
      exact ⟨n, _, F, hdone⟩
    | cons g wanted =>
      have hne : g.slot ≠ f.slot := fun heq =>
        first.apart (heq ▸ List.mem_map_of_mem (hwanted List.mem_cons_self))
      rw [writeWanted, if_neg hne] at h
      rw [List.length_append] at hlt
      obtain ⟨v, t, x⟩ := s
      obtain ⟨x', o, hparse, hx'⟩ := first.parses hs hfit hold List.mem_cons_self hspace
      have hshows : t.Shows b := hends.shows
      have hknown : ∀ i, f.encoding.governor? = some i →
          ∃ q, governing = some q ∧ q.slot i = x.slot i := by
        intro i hi
        obtain ⟨f', hf', rfl⟩ := List.mem_map.mp (hfields.governor_before hsplit hi)
        refine hgoverned.known f' ((hpassed f').mpr ⟨hf', first.governor _ hi⟩) ?_
        refine (hfields.governs_iff ?_).mpr ⟨f, hmem, hi⟩
        rw [hsplit]
        exact List.mem_append_left _ hf'
      -- the field has been passed, and the walk goes on behind it
      have hgo {v' : Workspace} {governing' : Option Record} (hlearns : v.Learns v')
          (hv : v'.Sound) (hgoverned' : Governed v l x (passed ++ [f]) governing')
          (hrest : writeWanted n l governing' fields (g :: wanted) ⟨v', t.ahead b.length, x⟩ =
            .ok u s') : ∃ m c F, RowRewritten taken m (f :: fields) ⟨v, t, x⟩ s' c F := by
        have hone := first.passed hs hold List.mem_cons_self hlearns hv hends hready
          (hown.sublist (List.sublist_append_left _ _)).nodup
        have hends' : (t.ahead b.length).Ends c := by
          have hleft := hends.put hone.laid.puts
          rwa [List.drop_left] at hleft
        have hpassed' : ∀ g, g ∈ passed ++ [f] ↔ g ∈ before ++ [f] ∧ g.slot ∉ Plan.slots taken := by
          intro g
          rw [List.mem_append, List.mem_append, List.mem_singleton, hpassed]
          constructor
          · rintro (⟨hg, hnot⟩ | rfl)
            · exact ⟨Or.inl hg, hnot⟩
            · exact ⟨Or.inr rfl, first.apart⟩
          · rintro ⟨hg | rfl, hnot⟩
            · exact Or.inl ⟨hg, hnot⟩
            · exact Or.inr rfl
        obtain ⟨m, d, G, hmore⟩ := ih hrest (hold.learns hlearns) hv (hnext hsplit) hpassed'
          (hgoverned'.congr hlearns.catalog fun _ _ => rfl) hwanted hends' (by omega) hone.ready
          hschema (hone.next hown hrow) (List.pairwise_cons.mp hrow).2
        exact ⟨_, _, _, hmore.cons hone (fun _ _ => rfl) hends.writable hown hrow⟩
      rcases ite_ok.mp h with ⟨hgoverns, h⟩ | ⟨hnot, h⟩
      · -- a field that decides sizes is read on the way
        obtain ⟨user, huser, hdecided⟩ := (hfields.governs_iff hmem).mp hgoverns
        have hvalue : (x.slot f.slot).Decides := by
          rw [hold.slot first.apart]
          exact hdecides user huser _ hdecided
        obtain rfl := hvalue.eq_of_detached hx'
        obtain ⟨q, hread, hgoverned'⟩ := hgoverned.read hspace (hl.mono hold.le) hmem
          (hvalue.built _) hknown (readWithin_runs hspace n) hparse hshows
        simp only [bind_ok, Op.catalog_ok] at h
        obtain ⟨cat, s₁, ⟨rfl, rfl⟩, ⟨_, q'⟩, s₂, hrun, hrest⟩ := h
        obtain ⟨heq, v', rfl, hlearns, hv⟩ := (Runs.withSubject hread).of_ok hspace hrun
        cases heq
        exact hgo hlearns hv hgoverned' hrest
      · -- the field is skipped
        obtain ⟨_, s₁, hskip, hrest⟩ := bind_ok.mp h
        obtain ⟨-, v', rfl, hlearns, hv⟩ := (skipFieldWith_runs hspace (skipWithin_runs hspace n)
          hparse hshows (by omega) hknown).of_ok hspace hskip
        exact hgo hlearns hv (hgoverned.pass (Bool.eq_false_iff.mpr hnot)) hrest
  | @renewed f fields wanted b c hsize rest ih =>
    obtain ⟨s₁, hwrite, hrest⟩ := writeWanted_cons_ok h
    have hmem : f ∈ l.fields := by rw [hsplit]; simp
    have hin : f ∈ taken := hwanted List.mem_cons_self
    have htaken : f.slot ∈ Plan.slots taken := List.mem_map_of_mem hin
    obtain ⟨decl, hgood⟩ := hl.declared hs hold.le hschema hmem
    obtain ⟨m, d, F, hone, hsized⟩ := writeField_written hwrite hspace hends.writable hready
      (hown.sublist (List.sublist_append_left _ _)) hgood
    -- there are as many bytes as there were
    rw [hsize, SizeRange.contains_fixed] at hsized
    have hends' : s₁.stream.Ends c := by
      have hleft := hends.put hone.laid.puts
      rwa [hsized, List.drop_left] at hleft
    rw [List.length_append] at hlt
    refine hone.rewritten hin hends.writable hown hrow rest.sublist hrest (fun hnil _ => ?_)
      fun _ hrest => ?_
    · subst hnil
      cases rest
      exact hends'
    · have hpassed' : ∀ g, g ∈ passed ↔ g ∈ before ++ [f] ∧ g.slot ∉ Plan.slots taken := by
        intro g
        rw [List.mem_append, List.mem_singleton, hpassed]
        constructor
        · rintro ⟨hg, hnot⟩
          exact ⟨Or.inl hg, hnot⟩
        · rintro ⟨hg | rfl, hnot⟩
          · exact ⟨hg, hnot⟩
          · exact absurd htaken hnot
      refine ih hrest (hold.written htaken hone.toFieldWritten hown) hone.laid.sound (hnext hsplit) hpassed'
        (hgoverned.congr hone.laid.le.catalog fun g hg => ?_)
        (fun g hg => hwanted (List.mem_cons_of_mem _ hg)) hends' (by omega) hone.ready
        (hone.schema.trans hschema) (hone.next hown hrow) (List.pairwise_cons.mp hrow).2
      -- fields that have been passed are not taken
      refine congrArg Slot.value (hone.others g.slot fun heq => ((hpassed g).mp hg).2 ?_)
      rw [heq]
      exact htaken
  | @moved f fields b hsize =>
    refine writeWanted_all hs hl hsize h hold.le hspace hends.writable (fun g hg => ?_) hwanted hrow
      hready hschema hown
    rw [hsplit]
    exact List.mem_append_right _ hg

end

end RecordLayout
