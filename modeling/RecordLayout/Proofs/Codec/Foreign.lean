import Mathlib
import RecordLayout.Proofs.Codec.PartialFailure
import RecordLayout.Proofs.Codec.Update

/-!
# Plans of another layout

A plan names the fields that it writes by their slots, so a plan of one layout can be given to another
layout of the same schema, which has the same slots in perhaps another order and with other encodings.
If the slots do not come in the order of its fields, the plan is refused. Else it is taken as if it were
an own plan.

What fields need and what they are derived from is declared with the schema, so the plan is closed under
that in both layouts. Where sizes can change is not: a plan of a layout of fixed width leaves out what
stands behind such a field, and then the new bytes run into it. The record is updated if the plan takes
along what stands behind: `Plan.Carries`.

Main results:

* `Plan.Writes.carries` — plans that take along what stands behind;
* `Plan.Of.takesAlong` — which fields a plan of another layout takes;
* `writePlanned_unwritten` — partial writes that fail, for any plan;
* `writePlanned_takesPlans` — a plan of another layout updates the record, or the stream stays as it was;
* `writePlanned_not_takesPlans` — plans that do not take along what stands behind.
-/

namespace RecordLayout

open ByteStream ChunkStore Op

/-! ## Two layouts of one schema -/

section

variable {w : Workspace} {l l' : Layout} {plan : Plan}

/-- Fields in one slot need the same slots, and are derived in the same way. -/
theorem Workspace.Knows.alike (hl : w.Knows l) (hl' : w.Knows l') (hs : w.Sound)
    (hschema : l'.schema = l.schema) {f f' : BoundField} (hf : f ∈ l.fields) (hf' : f' ∈ l'.fields)
    (hslot : f'.slot = f.slot) : f'.needs = f.needs ∧ f'.derivation = f.derivation := by
  obtain ⟨decl, hgood⟩ := (hl.good hs).fields.declared hf
  obtain ⟨decl', hgood'⟩ := (hl'.good hs).fields.declared hf'
  -- both come from the declaration in this slot
  rw [hschema] at hgood'
  have hdecl := hgood'.declared
  rw [hslot, hgood.declared] at hdecl
  obtain rfl := Option.some.inj hdecl
  have hneeds := hgood'.needs.symm.trans hgood.needs
  have hderivation := hgood'.derivation.symm.trans hgood.derivation
  exact ⟨Option.some.inj hneeds, Option.some.inj hderivation⟩

/-- Every field has a counterpart in the same slot. -/
theorem Workspace.Knows.counterpart (hl : w.Knows l) (hl' : w.Knows l') (hs : w.Sound)
    (hschema : l'.schema = l.schema) {f : BoundField} (hf : f ∈ l.fields) :
    ∃ f' ∈ l'.fields, f'.slot = f.slot := by
  have hperm := (hl.good hs).fields.slots_perm
  have hperm' := (hl'.good hs).fields.slots_perm
  rw [hschema] at hperm'
  have hmem := (hperm.trans hperm'.symm).subset (List.mem_map_of_mem hf)
  exact List.mem_map.mp hmem

/-- No field needs itself. -/
theorem FieldsGood.not_mem_needs {c : Compiler} {s : Schema} {kind : LayoutKind}
    {fields : List BoundField} (h : FieldsGood c s kind fields) {f : BoundField} (hf : f ∈ fields) :
    f.slot ∉ f.needs := by
  intro hself
  obtain ⟨before, after, hsplit⟩ := List.append_of_mem hf
  have hbefore := h.needs_before hsplit hself
  have hnodup := h.slots_nodup
  rw [hsplit, List.map_append, List.map_cons, List.nodup_append] at hnodup
  exact hnodup.2.2 f.slot hbefore f.slot List.mem_cons_self rfl

/-! ## Own fields for the fields of a plan -/

/-- The fields of a layout in the slots of some fields. -/
def Layout.own (l : Layout) (fields : List BoundField) : List BoundField :=
  l.fields.filter fun f => (Plan.slots fields).contains f.slot

theorem Layout.mem_own {fields : List BoundField} {f : BoundField} :
    f ∈ l.own fields ↔ f ∈ l.fields ∧ f.slot ∈ Plan.slots fields := by
  rw [Layout.own, List.mem_filter, List.contains_eq_mem, decide_eq_true_eq]

/-- Among items that are all different, some of them in order can be picked out again. -/
theorem filter_mem_sublist {items picked : List Nat} (h : picked.Sublist items) (hnodup : items.Nodup) :
    items.filter (fun i => picked.contains i) = picked := by
  have hsame : (items.filter fun i => picked.contains i).Perm picked := by
    rw [List.perm_ext_iff_of_nodup (hnodup.filter _) (hnodup.sublist h)]
    intro i
    rw [List.mem_filter, List.contains_eq_mem, decide_eq_true_eq]
    exact and_iff_right_of_imp fun hi => h.subset hi
  -- a sublist of the same length is the list itself
  have hsub := h.filter fun i => picked.contains i
  rw [List.filter_eq_self.mpr fun i hi => by simpa using hi] at hsub
  exact (hsub.eq_of_length hsame.length_eq.symm).symm

/-- Fields whose slots come in the order of the layout have the slots of its own fields for them. -/
theorem Layout.slots_own {fields : List BoundField} (hnodup : (Plan.slots l.fields).Nodup)
    (h : (Plan.slots fields).Sublist (Plan.slots l.fields)) :
    Plan.slots (l.own fields) = Plan.slots fields := by
  have hpick : Plan.slots (l.own fields) =
      (Plan.slots l.fields).filter fun i => (Plan.slots fields).contains i := by
    show _ = (l.fields.map (·.slot)).filter _
    rw [List.filter_map]
    rfl
  rw [hpick, filter_mem_sublist h hnodup]

end

/-! ## What a plan takes in another layout -/

/-- The plan takes along what stands behind a field that it takes and whose size can change. -/
def Plan.Carries (l : Layout) (plan : Plan) : Prop :=
  ∀ before f after, l.fields = before ++ f :: after → f.slot ∈ Plan.slots plan.write →
    f.size.isFixed = false → ∀ g ∈ after, g.slot ∈ Plan.slots plan.write

section

variable {w : Workspace} {l l' : Layout} {plan : Plan}

/-- Every plan takes along what stands behind in its own layout. -/
theorem Plan.Writes.carries (h : plan.Writes l) (hslots : (l.fields.map (·.slot)).Nodup) :
    plan.Carries l := by
  intro before f after hsplit hf hvaries g hg
  obtain ⟨f', hf', hslot⟩ := List.mem_map.mp hf
  have hmem : f ∈ l.fields := by rw [hsplit]; simp
  obtain rfl : f' = f := List.inj_on_of_nodup_map hslots (h.sublist.subset hf') hmem hslot
  exact List.mem_map_of_mem (h.moved before f' after hsplit hf' hvaries hg)

/-- The own fields for those of a plan of another layout can be written over a stored record, if the
plan takes along what stands behind. What fields need is the same in both layouts. -/
theorem Plan.Of.takesAlong (hs : w.Sound) (hl : w.Knows l) (hl' : w.Knows l')
    (hschema : l'.schema = l.schema) (hplan : plan.Of l') (hcarries : plan.Carries l) :
    l.TakesAlong (l.own plan.write) := by
  have hwrites := hplan.writes (hl'.good hs).fields.slots_nodup
  refine ⟨List.filter_sublist, ?_, ?_⟩
  · intro f hf g hg hneeds
    obtain ⟨f', hf', hslot⟩ := List.mem_map.mp (Layout.mem_own.mp hf).2
    obtain ⟨g', hg', hslot'⟩ := hl.counterpart hl' hs hschema hg
    -- the counterpart needs the same slots, so the plan has taken it
    rw [← (hl.alike hl' hs hschema hg hg' hslot').1, ← hslot] at hneeds
    have htaken := hwrites.dependents f' hf' g' hg' hneeds
    refine Layout.mem_own.mpr ⟨hg, ?_⟩
    rw [← hslot']
    exact List.mem_map_of_mem htaken
  · intro before f after hsplit hf hvaries g hg
    have hmem : g ∈ l.fields := by
      rw [hsplit]
      exact List.mem_append_right _ (List.mem_cons_of_mem _ hg)
    exact Layout.mem_own.mpr
      ⟨hmem, hcarries before f after hsplit (Layout.mem_own.mp hf).2 hvaries g hg⟩

/-- A plan that takes one field takes no array of another layout, because it would take the count too. -/
theorem Plan.Of.one_not_array_elsewhere (hs : w.Sound) (hl : w.Knows l) (hl' : w.Knows l')
    (hschema : l'.schema = l.schema) (hplan : plan.Of l') {f f' : BoundField}
    (hone : plan.write = [f']) (hf : f ∈ l.fields) (hslot : f'.slot = f.slot) (element : ScalarKind)
    (governor : Nat) : f.encoding ≠ .array element governor := by
  intro hencoding
  have hfields := (hl'.good hs).fields
  have hwrites := hplan.writes hfields.slots_nodup
  have hwrite : f' ∈ plan.write := hone ▸ List.mem_singleton_self f'
  have hf' := hwrites.sublist.subset hwrite
  have hneeds : governor ∈ f'.needs := by
    rw [(hl.alike hl' hs hschema hf hf' hslot).1]
    exact (hl.good hs).fields.governor_mem hf (by rw [hencoding, Encoding.governor?])
  obtain ⟨before, after, hsplit⟩ := List.append_of_mem hf'
  obtain ⟨g, hg, rfl⟩ := List.mem_map.mp (hfields.needs_before hsplit hneeds)
  have hmem : g ∈ l'.fields := hsplit ▸ List.mem_append_left _ hg
  have htaken := hwrites.needs f' hwrite g hmem hneeds
  -- the field would be its own count
  rw [hone, List.mem_singleton] at htaken
  exact hfields.not_mem_needs hf' (htaken ▸ hneeds)

end

/-- A partial write passes all its fields only if they come in the order of the layout. -/
theorem writeWanted_inOrder {depth : Nat} {l : Layout} {governing : Option Record}
    {fields wanted : List BoundField} {s s' : Scene Record} {u : Unit}
    (h : writeWanted depth l governing fields wanted s = .ok u s') :
    (Plan.slots wanted).Sublist (Plan.slots fields) := by
  -- the walk goes through the fields, so the wanted slots come off in the fields' order
  induction fields generalizing governing wanted s with
  | nil =>
    cases wanted with
    | nil => exact .slnil
    | cons first wanted => cases h
  | cons f fields ih =>
    cases wanted with
    | nil => exact List.nil_sublist _
    | cons first wanted =>
      by_cases hslot : first.slot = f.slot
      · have hsame : Plan.slots (first :: wanted) = Plan.slots (f :: wanted) := by
          simp only [Plan.slots, List.map_cons, hslot]
        rw [writeWanted_slots hsame] at h
        obtain ⟨s₁, -, hrest⟩ := writeWanted_cons_ok h
        rw [hsame]
        exact (ih hrest).cons_cons _
      · -- the field is read or skipped, and all are still wanted behind it
        rw [writeWanted, if_neg hslot] at h
        refine .cons _ ?_
        rcases ite_ok.mp h with ⟨-, h⟩ | ⟨-, h⟩
        · obtain ⟨c, s₁, -, h⟩ := bind_ok.mp h
          obtain ⟨r, s₂, -, hrest⟩ := bind_ok.mp h
          exact ih hrest
        · obtain ⟨_, s₁, -, hrest⟩ := bind_ok.mp h
          exact ih hrest

/-! ## Plans that are refused -/

/-- A partial write that fails leaves the stream as it was, if it writes several fields or if the field
that it finds in the slot of its one field is written whole once the derived values are worked out. -/
theorem writePlanned_unwritten {l : Layout} {plan : Plan} {s : Scene Record} (hs : s.space.Sound)
    (hbuf : s.stream.Buffered)
    (hwhole : ∀ (u : PUnit) (x y : Scene Record), x.subject = s.subject →
      plan.derived.forM deriveField x = .ok u y → 1 < plan.write.length ∨
        ∀ f ∈ plan.write, ∀ g ∈ l.fields, f.slot = g.slot → g.WrittenWhole (y.subject.slot g.slot) ∧
          ∀ element governor, g.encoding ≠ .array element governor) :
    (writePlanned l plan).Unwritten s := by
  have hschema : Reads True (Op.space (requireSchema l s.subject) : Op Record Unit) :=
    requireSchema_reads l s.subject
  have hderive : Reads False (plan.derived.forM deriveField) := .forM deriveField_reads _
  have hconfig : Reads True (Op.config : Op Record Config) := .still fun _ => rfl
  have hdepth : Reads True (readDepth : Op Record Nat) := .still fun _ => rfl
  refine .subject_bind (.reads_bind hschema hs hbuf fun _ t _ ht hbuf hsame => ?_)
  refine .reads_bind hderive ht hbuf fun u y hrun hy hbuf _ => ?_
  have hstill := hwhole u t y (hsame trivial) hrun
  refine .reads_bind hconfig hy hbuf fun config z _ hz hbuf hsame => .subject_bind ?_
  -- checked or not, the walk begins where the derived values are worked out
  have hwalk (x : Scene Record) (hx : x.space.Sound) (hbuf : x.stream.Buffered)
      (hsubject : x.subject = y.subject) : (readDepth >>= fun depth => guardingChunks
        (if 1 < plan.write.length
          then inTransaction (writeWanted depth l none l.fields plan.write)
          else writeWanted depth l none l.fields plan.write)).Unwritten x := by
    refine .reads_bind hdepth hx hbuf fun depth x' _ hx' hbuf hsame => ?_
    refine writeSlots_unwritten hx' hbuf ?_
    rw [hsame trivial, hsubject]
    exact hstill
  dsimp only
  split
  · have hcheck : Reads True (Op.space (checkPlanned plan z.subject) : Op Record Unit) :=
      .space (idle.checkPlanned _ _) (studies.checkPlanned _ _)
    exact .reads_bind hcheck hz hbuf fun _ x _ hx hbuf hsame' =>
      hwalk x hx hbuf ((hsame' trivial).trans (hsame trivial))
  · exact hwalk z hz hbuf (hsame trivial)

section

variable {l l' : Layout} {plan : Plan}

/-- A plan of another layout that fails leaves the stream as it was, if it writes several fields or if
its one field is written whole. -/
theorem Plan.Of.unwritten_elsewhere {s : Scene Record} (hs : s.space.Sound) (hl : s.space.Knows l)
    (hl' : s.space.Knows l') (hschema : l'.schema = l.schema) (hplan : plan.Of l')
    (hbuf : s.stream.Buffered)
    (hwhole : 1 < plan.write.length ∨ ∀ f ∈ l.own plan.write, f.WrittenWhole (s.subject.slot f.slot)) :
    (writePlanned l plan).Unwritten s := by
  refine writePlanned_unwritten hs hbuf fun u x y hsubject hrun => ?_
  by_cases hmany : 1 < plan.write.length
  · exact .inl hmany
  · refine .inr fun f' hf' f hf hslot => ?_
    obtain ⟨g, hone⟩ := List.length_eq_one_iff.mp
      (show plan.write.length = 1 by have := List.length_pos_of_mem hf'; omega)
    obtain rfl : f' = g := by rwa [hone, List.mem_singleton] at hf'
    -- the field that stands in this slot is derived in the same way
    have hmem' := (hplan.writes (hl'.good hs).fields.slots_nodup).sublist.subset hf'
    have halike := (hl.alike hl' hs hschema hf hmem' hslot).2
    have hown : f ∈ l.own plan.write :=
      Layout.mem_own.mpr ⟨hf, hslot ▸ List.mem_map_of_mem hf'⟩
    refine ⟨BoundField.WrittenWhole.derivedAlike hone halike ?_ hrun,
      hplan.one_not_array_elsewhere hs hl hl' hschema hone hf hslot⟩
    rw [hsubject]
    exact hwhole.resolve_left hmany f hown

end

/-! ## Plans that are taken -/

section

variable {w : Workspace} {l l' : Layout} {plan : Plan} {n : Nat} {r : Record} {b : Bytes}
  {F : List ChunkId} {s s' : Scene Record} {u : Unit}

/-- What a plan of another layout leaves behind where a record is stored: the fields of the plan are
known by their slots, and the walk has found them in its own order. -/
theorem writePlanned_writtenElsewhere (hs : w.Sound) (hl : w.Knows l)
    (hl' : s.space.Knows l') (hschema : l'.schema = l.schema) (hplan : plan.Of l')
    (hcarries : plan.Carries l) (hstored : FieldsHeld (Stands w n) w r l.fields b F) (hF : F.Nodup)
    (hr : r.Ready w.catalog) (hrschema : r.schema = l.schema) (hkeeps : w.Keeps r s.space)
    (h : writePlanned l plan s = .ok u s')
    (hslots : ∀ i, i ∉ Plan.slots plan.write → s.subject.slotAt i = r.slotAt i)
    (hready : s.subject.Ready s.space.catalog) (hown : Owns s.space s.subject.companions)
    (hends : s.stream.Ends b) (hlt : b.length < 2 ^ 64) :
    ∃ y m c G, PartlyWritten l plan r s s' y m c G := by
  have hl₀ := hl.mono hkeeps.toLe
  have hfields' := (hl'.good hkeeps.sound).fields
  have hwrites := hplan.writes hfields'.slots_nodup
  obtain ⟨y, v, t₀, t, hwalked⟩ := writePlanned_ok h hkeeps.sound
    (fun f hf => hschema ▸ hfields'.declared
      (hwrites.sublist.subset (List.mem_of_mem_filter hf))) hends.writable.coherent
  -- the walk has gone through, so the slots come in order and the own fields can stand for the plan
  have hinOrder := Layout.slots_own (hl.good hs).fields.slots_nodup (writeWanted_inOrder hwalked.run)
  have htakes := hplan.takesAlong hkeeps.sound hl₀ hl' hschema hcarries
  exact ⟨y, hwalked.partlyWritten hinOrder htakes hs hl hstored hF hr hrschema hkeeps hslots hready
    hown hends hlt⟩

/-- A record that has been written to the end of a stream is what the stream ends with. -/
theorem RecordWritten.ends {key : LayoutKey} (h : RecordWritten n key s s' b F)
    (hs : s.stream.Writable) (hend : s'.stream.position = s'.stream.shown.length) :
    (s'.stream.setPosition s.stream.position).Ends b := by
  have hputs := h.laid.puts
  have hbefore := hputs.before hs
  rw [hend, List.take_length] at hbefore
  have hlen : (s.stream.shown.take s.stream.position).length = s.stream.position := by
    rw [List.length_take, Nat.min_eq_left hs.inside]
  refine ⟨⟨coherent_setPosition hputs.coherent _, ?_⟩, ?_⟩
  · rw [shown_setPosition, position_setPosition, ← hend, hputs.position]
    omega
  · rw [shown_setPosition, position_setPosition, hbefore, List.drop_left' hlen]

end

/-- A record has been written by `l` from `s` to `s'` and ends its stream, and new values have been set
since in the fields that a plan of `l'` was asked for. A partial write by `l` with this plan, if it is
one of those `taken`, updates what is stored, or it fails and the stream is as it was. As for plans of
`l` itself, the latter is not said of one field whose value has parts of its own. -/
def TakesPlans (l l' : Layout) (taken : Plan → Prop) (s s' : Scene Record) : Prop :=
  ∀ (v : Workspace) (plan : Plan) (x : Record), s'.space.Keeps s'.subject v → v.Knows l' →
    plan.Of l' → taken plan →
      (∀ i, i ∉ Plan.slots plan.requested → x.slotAt i = s'.subject.slotAt i) →
        x.Ready v.catalog → Owns v x.companions →
          let start : Scene Record := ⟨v, s'.stream.setPosition s.stream.position, x⟩
          (∀ t, writePlanned l plan start = .ok () t → t.subject.Accepted t.space.catalog →
            t.space.Fits → Updated l plan s'.subject start t) ∧
          (∀ e t, writePlanned l plan start = .error e t → s'.stream.Buffered →
            (1 < plan.write.length ∨ ∀ f ∈ l.own plan.write, f.WrittenWhole (x.slot f.slot)) →
              s'.stream.Looked t.stream)

/-- A plan of another layout of the same schema updates the record or leaves the stream as it was, if it
takes along what stands behind the fields whose size can change. -/
theorem writePlanned_takesPlans {l l' : Layout} {s s' : Scene Record} (hs : Prepared l s)
    (hown : Owns s.space s.subject.companions) (h : Completed l s s')
    (hend : s'.stream.position = s'.stream.shown.length) (hlt : s'.stream.shown.length < 2 ^ 64)
    (hschema : l'.schema = l.schema) : TakesPlans l l' (Plan.Carries l) s s' := by
  -- what was written stands in the stream, field by field, whatever layout is then used for the
  -- update
  obtain ⟨n, b, F, hwritten⟩ := writeRecord_written h.run hs.space hs.stream hs.layout hs.subject hown
  have hsound := hwritten.laid.sound
  have hl := hs.layout.mono hwritten.laid.le
  intro v plan x hkeeps hl' hof hcarries hothers hready howned
  have hlv := hl.mono hkeeps.toLe
  refine ⟨fun t hrun hacc hfit => ?_, fun e t hfails hbuf hwhole => ?_⟩
  · -- the record is stored from the cursor on, and there is nothing behind it
    have hends := hwritten.ends hs.stream hend
    have hshort : b.length < 2 ^ 64 := by
      have hposition := hwritten.laid.puts.position
      omega
    have hstored : FieldsHeld (Stands s'.space n) s'.space s'.subject l.fields b F := by
      obtain ⟨k, hk, hheld⟩ := hwritten.held
      rwa [Option.some.inj (hk.symm.trans hl)] at hheld
    have hrequested := (hof.writes (hl'.good hkeeps.sound).fields.slots_nodup).requested
    have hslots : ∀ i, i ∉ Plan.slots plan.write → x.slotAt i = s'.subject.slotAt i := by
      intro i hi
      refine hothers i fun hmem => hi ?_
      exact List.map_subset _ hrequested hmem
    obtain ⟨y, m, c, G, hpartly⟩ := writePlanned_writtenElsewhere hsound hl hl' hschema hof hcarries
      hstored hwritten.laid.nodup hwritten.ready hwritten.form.schema hkeeps hrun hslots hready howned
      hends hshort
    exact hpartly.updated hlv hends.writable.inside hacc hfit
  -- on failure nothing was written to the stream, so it differs from the stored one by the cursor
  -- only
  · have hbuf' := (staysOn_setPosition s'.stream s.stream.position).buffered hbuf
    have hlooked := hof.unwritten_elsewhere hkeeps.sound hlv hl' hschema hbuf' hwhole e t hfails
    exact Looked.trans ⟨_, rfl⟩ hlooked

/-! ## Two texts in a row -/

/-- A schema with two texts that stand in a row in the standard layout, and behind references in the fixed
one. -/
def inlineTexts : Catalog :=
  ⟨[⟨⟨"Pair", .managed, [⟨"a", .value .text .flexible, false, [], none⟩,
    ⟨"b", .value .text .flexible, false, [], none⟩]⟩, true⟩], [], []⟩

/-- The questions for both layouts. -/
def askInlineTexts : SpaceM (Layout × Layout) := do
  let l ← SpaceM.layout ⟨0, 0⟩ .standard
  let l' ← SpaceM.layout ⟨0, 0⟩ .fixed
  pure (l, l')

/-- Both layouts. -/
def inlineTextsLayouts : Layout × Layout :=
  (answer? askInlineTexts (.fresh inlineTexts .standard none)).getD default

/-- Two texts that are to be written to an empty stream. -/
def inlineTextsScene : Scene Record :=
  ⟨after askInlineTexts (.fresh inlineTexts .standard none), .empty,
    ⟨⟨0, 0⟩, [.text "left", .text "right"], [.null, .null]⟩⟩

/-- What is left after writing them by the standard layout. -/
def inlineTextsWritten : Scene Record := after (writeRecord inlineTextsLayouts.1) inlineTextsScene

/-- One of the texts is another one now, and the cursor stands at the front of the record. -/
def inlineTextsAssigned (i : Nat) (text : String) : Scene Record :=
  ⟨inlineTextsWritten.space, inlineTextsWritten.stream.setPosition inlineTextsScene.stream.position,
    inlineTextsWritten.subject.setSlot i (.text text)⟩

/-- The plan that the fixed layout has for one of the texts. -/
def fixedTextPlan (i : Nat) : Plan := .one inlineTextsLayouts.2 i

/-- What is left after writing the text by the standard layout with the plan of the fixed one. -/
def inlineTextsUpdated (i : Nat) (text : String) : Scene Record :=
  after (writePlanned inlineTextsLayouts.1 (fixedTextPlan i)) (inlineTextsAssigned i text)

theorem inlineTexts_closed : inlineTexts.Closed := by decide

/-- The runs. The texts are written by the standard layout. By the plan of the fixed one, the second text
is replaced by a shorter one, and the first by a longer one, which runs into the second. -/
theorem inlineTexts_runs :
    (answer? askInlineTexts (.fresh inlineTexts .standard none)).isSome = true ∧
    ((writeRecord inlineTextsLayouts.1).StoresTexts inlineTextsScene ∧
      (∀ v ∈ inlineTextsWritten.subject.slots, (v.text?).isSome = true) ∧
      inlineTextsWritten.stream.position = inlineTextsWritten.stream.shown.length ∧
      inlineTextsWritten.stream.shown.length < 2 ^ 64) ∧
    (inlineTextsLayouts.2.fields.length = 2 ∧
      inlineTextsLayouts.2.schema = inlineTextsLayouts.1.schema ∧
      Plan.slots inlineTextsLayouts.1.fields = [0, 1] ∧
      Plan.slots (fixedTextPlan 1).write = [1]) ∧
    (∀ case ∈ [(0, "lefts"), (1, "r")], case.1 ∈ Plan.slots (fixedTextPlan case.1).requested ∧
      (inlineTextsAssigned case.1 case.2).subject.companions = [] ∧
      (writePlanned inlineTextsLayouts.1 (fixedTextPlan case.1)).StoresTexts
        (inlineTextsAssigned case.1 case.2)) ∧
    (answer? (readNew inlineTextsLayouts.1) (⟨(inlineTextsUpdated 0 "lefts").space,
      (inlineTextsUpdated 0 "lefts").stream.setPosition
        (inlineTextsAssigned 0 "lefts").stream.position, ()⟩ : Scene Unit)).isNone = true := by
  decide +kernel

theorem inlineTexts_prepared : Prepared inlineTextsLayouts.1 inlineTextsScene ∧
    inlineTextsScene.space.Knows inlineTextsLayouts.2 ∧ inlineTextsScene.space.catalog = inlineTexts := by
  obtain ⟨both, hask, hboth⟩ := runs_to_after inlineTexts_runs.1
  have hlayouts : inlineTextsLayouts = both := by rw [inlineTextsLayouts, hboth, Option.getD_some]
  -- the two layouts are asked for one after the other, each in the space the one before has left
  obtain ⟨l, w, hfirst, hrest⟩ := bind_ok.mp hask
  obtain ⟨l', w', hsecond, hpure⟩ := bind_ok.mp hrest
  obtain ⟨rfl, hw⟩ := pure_ok.mp hpure
  obtain ⟨hs, hlearns, hknows⟩ :=
    SpaceM.layout_sound (Workspace.sound_fresh inlineTexts_closed _ _) hfirst
  obtain ⟨hs', hlearns', hknows'⟩ := SpaceM.layout_sound hs hsecond
  rw [hw] at hs' hlearns' hknows'
  have hcatalog : inlineTextsScene.space.catalog = inlineTexts :=
    hlearns'.catalog.trans hlearns.catalog
  refine ⟨⟨hs', ?_, ⟨trivial, Nat.le_refl _⟩, ?_⟩, ?_, hcatalog⟩
  · rw [hlayouts]
    exact hknows.mono hlearns'.toLe
  · rw [hcatalog]
    -- both fields are texts, so only their lengths have to be checked
    refine RecordOf.ready_of_no_scalars rfl rfl fun v hv => ?_
    rcases List.mem_cons.mp hv with rfl | hmem
    · refine ⟨?_, fun _ => nofun⟩
      show (Utf8.encode "left").length + 1 < 2 ^ 64
      decide
    · rw [List.mem_singleton.mp hmem]
      refine ⟨?_, fun _ => nofun⟩
      show (Utf8.encode "right").length + 1 < 2 ^ 64
      decide
  · rw [hlayouts]
    exact hknows'

theorem inlineTexts_completed :
    Completed inlineTextsLayouts.1 inlineTextsScene inlineTextsWritten :=
  inlineTexts_runs.2.1.1.completed

/-- A text is written with the plan of the fixed layout. -/
theorem inlineTexts_updated {taken : Plan → Prop} {i : Nat} {text : String}
    (htakes : TakesPlans inlineTextsLayouts.1 inlineTextsLayouts.2 taken inlineTextsScene
      inlineTextsWritten)
    (hcase : i = 0 ∧ text = "lefts" ∨ i = 1 ∧ text = "r") (htaken : taken (fixedTextPlan i)) :
    Updated inlineTextsLayouts.1 (fixedTextPlan i) inlineTextsWritten.subject
      (inlineTextsAssigned i text) (inlineTextsUpdated i text) := by
  obtain ⟨hs, hl', hcatalog⟩ := inlineTexts_prepared
  obtain ⟨n, b, F, hwritten⟩ := writeRecord_written inlineTexts_completed.run hs.space hs.stream
    hs.layout hs.subject ⟨List.nodup_nil, fun c hc => nomatch hc⟩
  obtain ⟨-, ⟨-, htexts, -⟩, ⟨hlength, -⟩, hcases, -⟩ := inlineTexts_runs
  have hplace : i < inlineTextsLayouts.2.fields.length := by
    rw [hlength]
    rcases hcase with ⟨rfl, -⟩ | ⟨rfl, -⟩ <;> decide
  obtain ⟨hrequested, hnone, hstores⟩ := hcases (i, text) (by
    rcases hcase with ⟨rfl, rfl⟩ | ⟨rfl, rfl⟩ <;> simp)
  -- only the text at this slot has been assigned
  have hothers : ∀ j, j ∉ Plan.slots (fixedTextPlan i).requested →
      (inlineTextsAssigned i text).subject.slotAt j = inlineTextsWritten.subject.slotAt j := by
    intro j hj
    show (inlineTextsWritten.subject.setSlot i (.text text)).slotAt j = _
    have hne : j ≠ i := by
      rintro rfl
      exact hj hrequested
    rw [RecordOf.setSlot_eq_setSlotAt]
    exact RecordOf.slotAt_setSlotAt_of_ne hne _
  have hready : (inlineTextsAssigned i text).subject.Ready inlineTextsWritten.space.catalog := by
    have hlength : (Utf8.encode text).length + 1 < 2 ^ 64 := by
      rcases hcase with ⟨-, rfl⟩ | ⟨-, rfl⟩ <;> decide
    refine RecordOf.ready_of_no_scalars
      ((RecordOf.slots_length_setSlot _ _ _).trans hwritten.ready.slots_length)
      (hwritten.ready.chunks_length.trans (RecordOf.slots_length_setSlot _ _ _).symm) fun v hv => ?_
    rcases List.mem_or_eq_of_mem_set hv with hv | rfl
    · refine ⟨(RecordOf.ready_iff.mp hwritten.ready).2.2.2 v hv, ?_⟩
      rintro x rfl
      cases htexts _ hv
    · exact ⟨hlength, fun _ => nofun⟩
  have howns : Owns inlineTextsWritten.space (inlineTextsAssigned i text).subject.companions := by
    rw [hnone]
    exact ⟨List.nodup_nil, fun c hc => nomatch hc⟩
  have hkeeps : inlineTextsWritten.space.Keeps inlineTextsWritten.subject inlineTextsWritten.space :=
    ⟨.refl _, hwritten.laid.sound, inlineTexts_completed.fits, fun _ _ => rfl⟩
  -- the write itself is computed
  exact (htakes _ _ _ hkeeps (hl'.mono hwritten.laid.le) (.one hplace) htaken hothers hready howns).1 _
    hstores.run hstores.accepted hstores.fits

/-- The second text stands last, so there is nothing behind it to take along. -/
theorem inlineTexts_carries : (fixedTextPlan 1).Carries inlineTextsLayouts.1 := by
  obtain ⟨-, -, ⟨-, -, hfields, hwrite⟩, -⟩ := inlineTexts_runs
  intro before f after hsplit hf hvaries g hg
  rw [hwrite, List.mem_singleton] at hf
  rw [hsplit, Plan.slots, List.map_append, List.map_cons, hf] at hfields
  -- the fixed layout has two fields, so the second one is the last
  have hlast : after.map (·.slot) = [] := by
    cases before with
    | nil => cases hfields
    | cons first before =>
      obtain ⟨-, hrest⟩ := List.cons.inj hfields
      cases before with
      | nil => exact (List.cons.inj hrest).2
      | cons second before =>
        obtain ⟨-, hnone⟩ := List.cons.inj hrest
        exact absurd hnone (by simp)
  rw [List.map_eq_nil_iff.mp hlast] at hg
  cases hg

theorem writePlanned_takesPlans_inline_texts :
    Prepared inlineTextsLayouts.1 inlineTextsScene ∧
      Completed inlineTextsLayouts.1 inlineTextsScene inlineTextsWritten ∧
        Updated inlineTextsLayouts.1 (fixedTextPlan 1) inlineTextsWritten.subject
          (inlineTextsAssigned 1 "r") (inlineTextsUpdated 1 "r") := by
  have hown : Owns inlineTextsScene.space inlineTextsScene.subject.companions :=
    ⟨List.nodup_nil, fun c hc => nomatch hc⟩
  obtain ⟨-, ⟨-, -, hend, hshort⟩, ⟨-, hschema, -⟩, -⟩ := inlineTexts_runs
  exact ⟨inlineTexts_prepared.1, inlineTexts_completed, inlineTexts_updated
    (writePlanned_takesPlans inlineTexts_prepared.1 hown inlineTexts_completed hend hshort hschema)
    (.inr ⟨rfl, rfl⟩) inlineTexts_carries⟩

/-- The first text gets longer and runs into the second one, and the record is not read back. -/
theorem writePlanned_not_takesPlans :
    ¬∀ (l l' : Layout) (s s' : Scene Record), Prepared l s → Owns s.space s.subject.companions →
      Completed l s s' → s'.stream.position = s'.stream.shown.length →
        s'.stream.shown.length < 2 ^ 64 → l'.schema = l.schema →
          TakesPlans l l' (fun _ => True) s s' := by
  intro hall
  have hown : Owns inlineTextsScene.space inlineTextsScene.subject.companions :=
    ⟨List.nodup_nil, fun c hc => nomatch hc⟩
  obtain ⟨-, ⟨-, -, hend, hshort⟩, ⟨-, hschema, -⟩, -, hnone⟩ := inlineTexts_runs
  have htakes := hall _ inlineTextsLayouts.2 _ _ inlineTexts_prepared.1 hown inlineTexts_completed
    hend hshort hschema
  obtain ⟨r, u, hrun, -, -⟩ := (inlineTexts_updated htakes (.inl ⟨rfl, rfl⟩) trivial).reads
  -- the last byte of the new text is taken for the length of the second one
  rw [answer?_of_ok hrun] at hnone
  cases hnone

end RecordLayout
