import Mathlib
import RecordLayout.Codec.Partial
import RecordLayout.Proofs.Codec.RoundTrip
import RecordLayout.Proofs.Codec.Skip
import RecordLayout.Proofs.Plan.Book

/-!
# What partial reads fill

A partial read goes over the same bytes as a read of the whole record. It fills the slots of its plan
with what a full read gives there and leaves all others alone. It can move past the other fields
because every field that decides a size is among those that a plan reads.

Main results:

* `readWanted_runs` — fields in a row, by induction along the row;
* `readPlannedHere_runs` — a plan of a layout, into a record of its schema;
* `readPlanned_writeRecord` — over a record that has been written, into a record of the schema or
  of its draft.
-/

namespace RecordLayout

open ByteStream
open Workspace (Runs)

/-! ## Fields in a row -/

/-- The wanted ones among the fields ahead: the next field is the first of them, or all are behind
it. -/
theorem wanted_cases {f : BoundField} {fields wanted : List BoundField}
    (hwanted : wanted.Sublist (f :: fields)) (hslots : ((f :: fields).map (·.slot)).Nodup) :
    (∃ rest, wanted = f :: rest ∧ rest.Sublist fields) ∨
      wanted.Sublist fields ∧ wanted.head?.any (·.slot == f.slot) = false := by
  rcases List.sublist_cons_iff.mp hwanted with hbehind | ⟨rest, rfl, hrest⟩
  · refine Or.inr ⟨hbehind, ?_⟩
    cases wanted with
    | nil => rfl
    | cons g rest =>
      have hg : g ∈ fields := hbehind.subset List.mem_cons_self
      refine beq_false_of_ne fun heq => ?_
      rw [List.map_cons, List.nodup_cons, ← heq] at hslots
      exact hslots.1 (List.mem_map_of_mem hg)
  · exact Or.inl ⟨rest, rfl, hrest⟩

section

variable {w : Workspace} {t : ByteStream} {x : Record}

/-- Reading the wanted ones among fields in a row, if these include all that decide sizes. -/
theorem readWanted_runs (hs : w.Sound) {l : Layout} (hl : w.Knows l) {depth : Nat} {r : Record}
    {fields : List BoundField} {b : Bytes} {F : List ChunkId}
    (h : RowParse (Parses w depth) w r fields b F) (hbuilt : ∀ i, (r.slot i).Built w.catalog)
    {before : List BoundField}
    (hsplit : l.fields = before ++ fields) {wanted : List BoundField}
    (hwanted : wanted.Sublist fields) (hgovernors : ∀ f ∈ fields, f.governs = true → f ∈ wanted)
    (hpassed : ∀ f ∈ before, f.governs = true → x.slot f.slot = r.slot f.slot)
    (hlen : x.slots.length = (w.catalog.schema l.schema).fields.length)
    (hboth : x.chunks.length = x.slots.length) (hshows : t.Shows b) (hlt : b.length < 2 ^ 64) :
    ∃ x', w.Runs (readWanted depth l fields wanted) t x () (t.ahead b.length) x' ∧
      Took r (wanted.map (·.slot)) x x' := by
  have hfields := (hl.good hs).fields
  -- the induction is on the parsed fields, with the fields before them in `before`
  induction h generalizing before wanted x t with
  | nil =>
    rw [List.length_nil, ahead_zero, List.eq_nil_of_sublist_nil hwanted]
    exact ⟨x, .pure (), .refl r x⟩
  | @cons f fields o b c F G first behind _ ih =>
    rw [List.length_append] at hlt
    have hnext : l.fields = (before ++ [f]) ++ fields := by rw [hsplit, List.append_assoc]; rfl
    have hmem : f ∈ l.fields := by rw [hsplit]; simp
    have hslots : ((f :: fields).map (·.slot)).Nodup := by
      have hall := hfields.slots_nodup
      rw [hsplit, List.map_append, List.nodup_append'] at hall
      exact hall.2.1
    have hapart {g : BoundField} (hg : g ∈ fields) : g.slot ≠ f.slot := by
      rw [List.map_cons, List.nodup_cons] at hslots
      exact fun heq => hslots.1 (heq ▸ List.mem_map_of_mem hg)
    -- the field's governor stands before it and was read, as the plan reads every field that
    -- decides a size
    have hknown {g : Nat} (hg : f.encoding.governor? = some g) : x.slot g = r.slot g := by
      obtain ⟨f', hf', rfl⟩ := List.mem_map.mp (hfields.governor_before hsplit hg)
      exact hpassed f' hf'
        ((hfields.governs_iff (by rw [hsplit]; exact List.mem_append_left _ hf')).mpr ⟨f, hmem, hg⟩)
    rw [readWanted, List.length_append, ← ahead_ahead]
    rcases wanted_cases hwanted hslots with ⟨rest, rfl, hrest⟩ | ⟨hbehind, hnot⟩
    · -- the field is read
      have htook : Took r [f.slot] x (x.took f.slot (r.slot f.slot) o) :=
        took_one (by rw [hlen]; exact hfields.mem_slots.mp (List.mem_map_of_mem hmem)) hboth behind
      have hread := readFieldWith_runs hs (readWithin_runs hs depth) (x := x) first (hbuilt _)
        hshows.left fun g hg => hknown hg
      obtain ⟨x', hrun, hmore⟩ := ih hnext hrest
        (fun g hg hgoverns => (List.mem_cons.mp (hgovernors g (List.mem_cons_of_mem _ hg)
          hgoverns)).resolve_left fun heq => hapart hg (congrArg _ heq))
        (fun g hg hgoverns => by
          by_cases heq : g.slot = f.slot
          · rw [heq]
            exact htook.taken _ List.mem_cons_self
          · have hold := htook.others g.slot fun hin => heq (List.mem_singleton.mp hin)
            rcases List.mem_append.mp hg with hbefore | hlast
            · exact (congrArg Slot.value hold).trans (hpassed g hbefore hgoverns)
            · exact absurd (congrArg BoundField.slot (List.mem_singleton.mp hlast)) heq)
        (htook.slots.trans hlen) (by rw [htook.chunks, htook.slots, hboth]) hshows.right (by omega)
      refine ⟨x', ?_, htook.cons hmore fun hin => ?_⟩
      · rw [if_pos (by rw [List.head?_cons, Option.any_some]; exact beq_self_eq_true _)]
        exact hread.bind hrun
      · obtain ⟨g, hg, hsame⟩ := List.mem_map.mp hin
        exact hapart (hrest.subset hg) hsame
    · -- the field is passed, and decides no size
      have hpass : w.Runs (skipFieldWith (skipWithin depth) f (some x)) t x () (t.ahead b.length)
          x :=
        skipFieldWith_runs hs (skipWithin_runs hs depth) first hshows.left (by omega)
          fun g hg => ⟨x, rfl, hknown hg⟩
      obtain ⟨x', hrun, htook⟩ := ih hnext hbehind
        (fun g hg hgoverns => hgovernors g (List.mem_cons_of_mem _ hg) hgoverns)
        (fun g hg hgoverns => by
          rcases List.mem_append.mp hg with hbefore | hlast
          · exact hpassed g hbefore hgoverns
          · rw [List.mem_singleton.mp hlast] at hgoverns
            exact absurd rfl (hapart (hbehind.subset (hgovernors f List.mem_cons_self hgoverns))))
        hlen hboth hshows.right (by omega)
      refine ⟨x', ?_, htook⟩
      rw [if_neg (by rw [hnot]; exact Bool.false_ne_true)]
      exact Runs.subject.bind (hpass.bind hrun)

/-! ## Plans -/

/-- A plan of a layout that has been compiled reads all that decides sizes. -/
theorem Workspace.Knows.reads {l : Layout} (hl : w.Knows l) (hs : w.Sound) {plan : Plan}
    (h : plan.Of l) : plan.Reads l :=
  have hfields := (hl.good hs).fields
  h.reads hfields.slots_nodup (fun _ hf _ => hfields.governor_mem hf)
    fun _ hf hgoverns => (hfields.governs_iff hf).mp hgoverns

/-- The fields of a plan of a layout are read into a record of its schema. A plan that takes all
fields has the build check done on what this makes of the record. -/
theorem readPlannedHere_runs (hs : w.Sound) {l : Layout} (hl : w.Knows l) {plan : Plan}
    (hplan : plan.Of l) {r : Record} {b : Bytes} {F : List ChunkId}
    (h : RowParse (Parses w (w.readerDepth t.remaining)) w r l.fields b F)
    (hbuilt : ∀ i, (r.slot i).Built w.catalog) (hschema : x.schema = l.schema)
    (hlen : x.slots.length = (w.catalog.schema l.schema).fields.length)
    (hboth : x.chunks.length = x.slots.length) (hshows : t.Shows b) (hlt : b.length < 2 ^ 64)
    (hcheck : ∀ x', Took r (l.fields.map (·.slot)) x x' →
      (w.catalog.schema l.schema).checkBuild (w.catalog.schema l.schema) x'.slots = .ok ()) :
    ∃ x', w.Runs (readPlannedHere l plan) t x () (t.ahead b.length) x' ∧
      Took r (Plan.slots plan.read) x x' := by
  have hreads := hl.reads hs hplan
  rw [readPlannedHere]
  split
  -- a full plan reads all fields at once, any other goes field by field
  · rename_i hfull
    obtain ⟨x', hrun, htook⟩ := readIntoWith_runs hs (readWithin_runs hs _) hl h hbuilt hshows hschema
      hlen hboth hcheck
    refine ⟨x', readDepth_runs.bind hrun, ?_⟩
    rw [hreads.full hfull]
    exact htook
  · obtain ⟨x', hrun, htook⟩ := readWanted_runs hs hl h hbuilt (List.nil_append _).symm
      hreads.sublist hreads.governors (fun f hf => absurd hf List.not_mem_nil) hlen hboth hshows hlt
    refine ⟨x', ?_, htook⟩
    exact Runs.subject.bind (Runs.bind (a := ()) (Runs.ask fun v => requireSchema_ok.mpr ⟨hschema, rfl⟩)
      (readDepth_runs.bind hrun))

end

/-! ## A record that has been written -/

/-- The plans that are kept for a layout, and for its draft if it has one, are their own. -/
structure Workspace.PlansKept (v : Workspace) (l : Layout) : Prop where
  own : (v.plans.book l.key).Good l
  draft : ∀ d, v.compiler.answer (l.schema.toDraft, l.kind) = some d → l.draft = some l.schema.toDraft →
    v.plans.Kept l d

/-- A record to read into: of the schema of the layout, or of the draft of an immutable schema. A
record of an immutable schema itself must pass the build check if all of it is read. -/
structure Target (l : Layout) (cat : Catalog) (r x : Record) : Prop where
  schema : x.schema = l.schema ∨ l.draft = some x.schema
  slots : x.slots.length = (cat.schema l.schema).fields.length
  chunks : x.chunks.length = x.slots.length
  built : x.schema = l.schema → ∀ slots : List Value,
    slots.map Value.detached = r.slots.map Value.detached →
      (cat.schema l.schema).checkBuild (cat.schema l.schema) slots = .ok ()

/-- The slots of some fields are as in another record, and everything else is as before. -/
structure Filled (fields : List BoundField) (r x x' : Record) : Prop where
  schema : x'.schema = x.schema
  taken : ∀ f ∈ fields, (x'.slot f.slot).detached = (r.slot f.slot).detached
  others : ∀ i, i ∉ Plan.slots fields → x'.slotAt i = x.slotAt i

/-- Over the bytes that have been written, with anything after them, every request for fields of the
layout fills the fields of its plan, and takes no byte more. This holds in every later workspace that
has left the chunks as they are and is `ready`; and plans that are kept stay right. -/
def ReadsPartly (ready : Workspace → Prop) (l : Layout) (s s' : Scene Record) : Prop :=
  ∃ b, s.stream.Puts b s'.stream ∧ (b.length < 2 ^ 64 → ∀ (v : Workspace) (names : List String)
    (x : Record) (suffix : Bytes), s'.space.Later v → ready v →
      names ≠ [] → (∀ name ∈ names, (l.field? name).isSome = true) →
        Target l s'.space.catalog s'.subject x → ∃ plan v' t,
          SpaceM.plan (planNames l names) v = .ok plan v' ∧
          (∀ name ∈ names, ∃ f ∈ plan.read, l.field? name = some f) ∧
          readPlanned l plan ⟨v', .ofBytes (b ++ suffix), x⟩ = .ok () t ∧
          Filled plan.read s'.subject x t.subject ∧ t.stream = .memory (b ++ suffix) b.length ∧
          s'.space.Later t.space ∧ (v.PlansKept l → t.space.PlansKept l))

section

variable {w : Workspace} {l : Layout}

theorem SpaceM.plan_ok {α : Type} {act : PlanM α} {v v' : Workspace} {a : α} :
    SpaceM.plan act v = .ok a v' ↔
      ∃ plans, act v.plans = .ok a plans ∧ v' = { v with plans := plans } :=
  within_ok

/-- The draft of an immutable schema, with the same fields. -/
theorem Workspace.Knows.draft (hl : w.Knows l) (hs : w.Sound) {id : SchemaId}
    (h : l.draft = some id) : id = l.schema.toDraft ∧ ∃ d,
      w.compiler.answer (l.schema.toDraft, l.kind) = some d ∧ w.Knows d ∧
        d.schema = l.schema.toDraft ∧ d.key ≠ l.key ∧ SameFields l d := by
  have hgood := hl.good hs
  have hdraft := hgood.draft
  split at hdraft
  · rename_i himmutable
    obtain ⟨hname, hanswer⟩ := hdraft
    obtain ⟨d, hd⟩ := Option.isSome_iff_exists.mp hanswer
    obtain ⟨hknows, hkey⟩ := hs.knows hd
    have hdid : d.schema = l.schema.toDraft := congrArg Prod.fst hkey
    refine ⟨Option.some.inj (h.symm.trans hname), d, hd, hknows, hdid, fun heq => ?_, ?_⟩
    · -- the draft of a draft is another one
      have hzero := Catalog.draft_eq_zero himmutable
      have hsame : d.schema = l.schema := congrArg Prod.fst heq
      rw [hdid] at hsame
      exact absurd ((congrArg SchemaId.draft hsame).trans hzero) (Nat.succ_ne_zero _)
    · exact hgood.fields.draft_agree hs.compiler.good
        (hs.compiler.good.layouts _ _ _ hd).fields
  · rw [h] at hdraft
    cases hdraft

/-- Records of one content have slots of one content. -/
theorem RecordOf.slot_detached {r r' : Record} (h : r'.detached = r.detached) (i : Nat) :
    (r'.slot i).detached = (r.slot i).detached := by
  have hslots := congrArg (fun values : List Value => values.getD i Value.null.detached)
    (RecordOf.detached_eq_iff.mp h).2.1
  simp only [List.getD_map] at hslots
  exact hslots

/-- What has been read into a record, for a record of the same content. -/
theorem Took.filled {r r' x x' : Record} {fields : List BoundField}
    (h : Took r' (Plan.slots fields) x x') (hr : r'.detached = r.detached) :
    Filled fields r x x' := by
  refine ⟨h.schema, fun f hf => ?_, h.others⟩
  rw [h.taken f.slot (List.mem_map_of_mem hf), RecordOf.slot_detached hr]

/-- What has been read completely has the content of what was written. -/
theorem Took.detached {c : Compiler} {s : Schema} {kind : LayoutKind} {fields : List BoundField}
    (hfields : FieldsGood c s kind fields) {r r' x x' : Record}
    (h : Took r' (fields.map (·.slot)) x x') (hr : r'.detached = r.detached)
    (hlen : r.slots.length = s.fields.length) (hx : x.slots.length = s.fields.length) :
    x'.slots.map Value.detached = r.slots.map Value.detached := by
  have hboth : x'.slots.length = r.slots.length := h.slots.trans (hx.trans hlen.symm)
  refine RecordOf.map_detached_eq hboth fun i hi => ?_
  rw [h.taken i (hfields.mem_slots.mpr (by rw [← hlen, ← hboth]; exact hi)),
    RecordOf.slot_detached hr]

/-- A partial read in any later workspace, of what stands there. -/
theorem readPlanned_later {n : Nat} (hs : w.Sound) (hfit : w.Fits) (hl : w.Knows l) {r : Record}
    {b : Bytes} {F : List ChunkId} (hform : RecordForm (Stands w n) w l.key r b F) (hF : F.Nodup)
    (hacc : r.Accepted w.catalog) (hlt : b.length < 2 ^ 64) {v : Workspace} (hv : w.Later v)
    (hkept : v.PlansKept l) {plan : Plan} (hplan : plan.Of l) (hne : plan.requested ≠ [])
    (hnamed : ∀ f ∈ plan.requested, l.field? f.name = some f) {x : Record}
    (hx : Target l w.catalog r x) (suffix : Bytes) :
    ∃ t, readPlanned l plan ⟨v, .ofBytes (b ++ suffix), x⟩ = .ok () t ∧
      Filled plan.read r x t.subject ∧ t.stream = .memory (b ++ suffix) b.length ∧
        w.Later t.space ∧ t.space.PlansKept l := by
  have hgood := hl.good hs
  have hshows := shows_ofBytes b suffix
  obtain ⟨r', hparse, hr⟩ := hform.parses_ahead hs hfit hF hshows.length_le
  have hbuilt := (hacc.built hr).slot
  have hrow := hparse.row hl
  have hlen : r.slots.length = (w.catalog.schema l.schema).fields.length := by
    rw [hform.slots, show r.schema = l.schema from hform.schema]
  by_cases hdraft : l.draft = some x.schema
  · -- into a record of the draft, by the plan that stands for this one
    obtain ⟨hid, d, hd, hknows, hschema, hkeys, hsame⟩ := hl.draft hs hdraft
    rw [hid] at hdraft
    have hask : w.Steady (draftLayout l) d := by
      rw [draftLayout, hdraft]
      exact Workspace.layout_steady hd
    -- the layout of the draft is asked for, and again when the plan is carried over to it
    obtain ⟨v₁, hfirst, hs₁, hlearns₁⟩ := hask v hv.toLe hv.sound
    have hv₁ := hv.learns hlearns₁ hs₁
    obtain ⟨v₂, hagain, hs₂, hlearns₂⟩ := hask v₁ hv₁.toLe hs₁
    have hv₂ := hv₁.learns hlearns₂ hs₂
    have hplans : v₂.plans = v.plans := hlearns₂.plans.trans hlearns₁.plans
    have hbooks : v₂.plans.Kept l d := by
      rw [hplans]
      exact hkept.draft d (hv.compiler.answer hd) hdraft
    obtain ⟨kept, plans, hcarry, hbooks', hof, hslots⟩ := draftPlan_ok hgood.fields.slots_nodup
      (fun _ hf _ => hgood.fields.governor_mem hf)
      (fun _ hf hgoverns => (hgood.fields.governs_iff hf).mp hgoverns) hsame hkeys hbooks hplan hne
      hnamed
    have hstand : planForDraft l plan v₁ = .ok kept { v₂ with plans := plans } :=
      bind_ok.mpr ⟨d, v₂, hagain, SpaceM.plan_ok.mpr ⟨plans, hcarry, rfl⟩⟩
    have hrow' : RowParse (Parses w (w.readerDepth (ByteStream.ofBytes (b ++ suffix)).remaining)) w r'
        d.fields b F :=
      .same hsame rfl rfl hrow
    obtain ⟨x', hrun, htook⟩ := readPlannedHere_runs hs hknows hof (x := x) hrow' hbuilt
      (by rw [hschema, hid])
      (by rw [hschema]; exact hx.slots) hx.chunks hshows hlt
      fun x' _ => Schema.checkBuild_of_free (by rw [hschema]; rfl) _ _
    obtain ⟨v₃, hread, hlearns₃, hs₃⟩ := hrun _ (hv₂.withPlans plans)
    rw [ahead_ofBytes] at hread
    rw [hslots] at htook
    refine ⟨⟨v₃, .memory (b ++ suffix) b.length, x'⟩, ?_, htook.filled hr, rfl,
      (hv₂.withPlans plans).learns hlearns₃ hs₃, ?_⟩
    · rw [readPlanned]
      refine bind_ok.mpr ⟨x, _, rfl, ?_⟩
      rw [if_pos (by rw [hdraft, hid])]
      exact bind_ok.mpr ⟨d, _, Op.space_ok.mpr ⟨v₁, hfirst, rfl⟩,
        bind_ok.mpr ⟨kept, _, Op.space_ok.mpr ⟨_, hstand, rfl⟩, hread⟩⟩
    · have hall : v₃.plans = plans := hlearns₃.plans
      refine ⟨by rw [hall]; exact hbooks'.own, fun d' hd' _ => ?_⟩
      have hsame' : d' = d := Option.some.inj (hd'.symm.trans
        (((hv₂.withPlans plans).learns hlearns₃ hs₃).compiler.answer hd))
      rw [hsame', hall]
      exact hbooks'
  · -- into a record of the schema itself
    have hschema := hx.schema.resolve_right hdraft
    obtain ⟨x', hrun, htook⟩ := readPlannedHere_runs hs hl hplan hrow hbuilt hschema hx.slots
      hx.chunks hshows hlt fun x' htook => hx.built hschema _
        (htook.detached hgood.fields hr hlen hx.slots)
    obtain ⟨v₁, hread, hlearns, hs₁⟩ := hrun v hv
    rw [ahead_ofBytes] at hread
    refine ⟨⟨v₁, .memory (b ++ suffix) b.length, x'⟩, ?_, htook.filled hr, rfl,
      hv.learns hlearns hs₁, ?_⟩
    · rw [readPlanned]
      refine bind_ok.mpr ⟨x, _, rfl, ?_⟩
      rw [if_neg hdraft]
      exact hread
    · refine ⟨by rw [hlearns.plans]; exact hkept.own, fun d hd hdr => ?_⟩
      rw [hlearns.plans]
      obtain ⟨-, d', hd', -⟩ := hl.draft hs hdr
      -- the draft was known before the read, so its book is the one that was kept
      have hold := hv.compiler.answer hd'
      rw [Option.some.inj (hd.symm.trans (hlearns.compiler.answer hold))]
      exact hkept.draft d' hold hdr

end

/-- A partial read agrees with the read of the whole record. -/
theorem readPlanned_writeRecord {l : Layout} {s s' : Scene Record} (hs : Prepared l s)
    (hown : Owns s.space s.subject.companions) (h : Completed l s s') :
    ReadsPartly (·.PlansKept l) l s s' := by
  -- the record is read back from where it was written, by the plan for the names asked for
  obtain ⟨n, b, F, hwritten⟩ := writeRecord_written h.run hs.space hs.stream hs.layout hs.subject hown
  have hsound := hwritten.laid.sound
  have hl := hs.layout.mono hwritten.laid.le
  refine ⟨b, hwritten.laid.puts, fun hlt v names x suffix hv hkept hne hnames hx => ?_⟩
  have hfields := (hl.good hsound).fields
  obtain ⟨plan, plans, hask, hadds, hof, hrequested⟩ :=
    planNames_ok hfields.slots_nodup hkept.own names hne hnames
  have hkept' : ({ v with plans := plans } : Workspace).PlansKept l := by
    refine ⟨hadds.good hkept.own, fun d hd hdraft => ?_⟩
    obtain ⟨-, d', hd', -, -, hkeys, -⟩ := hl.draft hsound hdraft
    have hsame : d = d' := Option.some.inj (hd.symm.trans (hv.compiler.answer hd'))
    exact (hkept.draft d hd hdraft).adds (hsame ▸ hkeys) hadds
  -- every name asked for is that of a field, and the plan requests these fields
  have hnamed {f : BoundField} (hf : f ∈ plan.requested) : l.field? f.name = some f := by
    obtain ⟨name, -, hfield⟩ := (hrequested f).mp hf
    have hname := List.find?_some hfield
    rwa [eq_of_beq hname]
  have hall : ∀ name ∈ names, ∃ f ∈ plan.requested, l.field? name = some f := fun name hname => by
    obtain ⟨f, hf⟩ := Option.isSome_iff_exists.mp (hnames name hname)
    exact ⟨f, (hrequested f).mpr ⟨name, hname, hf⟩, hf⟩
  obtain ⟨name, hname⟩ := List.exists_mem_of_ne_nil _ hne
  obtain ⟨first, hfirst, -⟩ := hall name hname
  obtain ⟨t, hrun, hfilled, hstream, hlater, hafter⟩ := readPlanned_later hsound h.fits hl
    hwritten.form hwritten.laid.nodup h.accepted hlt (hv.withPlans plans) hkept' hof
    (List.ne_nil_of_mem hfirst) (fun f hf => hnamed hf) hx suffix
  refine ⟨plan, _, t, SpaceM.plan_ok.mpr ⟨plans, hask, rfl⟩, fun name hname => ?_, hrun, hfilled,
    hstream, hlater, fun _ => hafter⟩
  obtain ⟨f, hf, hfield⟩ := hall name hname
  exact ⟨f, (hl.reads hsound hof).requested hf, hfield⟩

theorem readPlanned_writeRecord_two_texts :
    Prepared twoTextsLayout (twoTextsScene .null) ∧
      (twoTextsWritten .null).space.PlansKept twoTextsLayout ∧
      ReadsPartly (·.PlansKept twoTextsLayout) twoTextsLayout (twoTextsScene .null)
        (twoTextsWritten .null) := by
  have hown : Owns (twoTextsScene .null).space (twoTextsScene .null).subject.companions :=
    ⟨List.nodup_nil, fun c hc => nomatch hc⟩
  obtain ⟨hbooks, hdraft⟩ : (twoTextsWritten .null).space.plans.books.length = 0 ∧
      twoTextsLayout.draft = none := by decide +kernel
  have hplans : (twoTextsWritten .null).space.plans = .empty :=
    congrArg PlanBooks.mk (List.eq_nil_of_length_eq_zero hbooks)
  refine ⟨twoTexts_prepared .null, ⟨?_, fun d _ h => ?_⟩,
    readPlanned_writeRecord (twoTexts_prepared .null) hown (twoTexts_completed (Or.inl rfl))⟩
  · rw [hplans]
    exact (PlanBooks.kept_empty twoTextsLayout twoTextsLayout).own
  · rw [hdraft] at h
    cases h

/-! ## Plans of another layout -/

/-- Asking for the plan of a draft leaves the chunks as they are. -/
theorem planForDraft_later {v v' : Workspace} (hs : v.Sound) {l : Layout} {plan kept : Plan}
    (h : planForDraft l plan v = .ok kept v') : v.Later v' := by
  obtain ⟨d, v₁, hlayout, hplan⟩ := bind_ok.mp h
  have hlearns : v.Later v₁ := by
    rw [draftLayout] at hlayout
    cases hdraft : l.draft with
    | some id =>
      rw [hdraft] at hlayout
      obtain ⟨hs₁, hlearns, -⟩ := SpaceM.layout_sound hs hlayout
      exact (Workspace.Later.refl hs).learns hlearns hs₁
    | none =>
      rw [hdraft] at hlayout
      cases hlayout
  obtain ⟨plans, -, rfl⟩ := SpaceM.plan_ok.mp hplan
  exact hlearns.withPlans plans

/-- Two types with the same two fields in different slots; the second one is immutable. -/
def mirrored : Catalog :=
  ⟨[⟨⟨"Mirror", .managed, [⟨"y", .scalar .u8, false, [], none⟩,
      ⟨"x", .scalar .u8, false, [], none⟩]⟩, true⟩,
    ⟨⟨"Point", .immutable fun _ _ => none, [⟨"x", .scalar .u8, false, [], none⟩,
      ⟨"y", .scalar .u8, false, [], none⟩]⟩, true⟩], [], []⟩

/-- The question for the layout of the immutable one. -/
def askPoint : SpaceM Layout := SpaceM.layout ⟨1, 0⟩ .standard

/-- Its layout. -/
def pointLayout : Layout := (answer? askPoint (.fresh mirrored .standard none)).getD default

/-- The layout of the other one. -/
def mirrorLayout : Layout :=
  (answer? (SpaceM.layout ⟨0, 0⟩ .standard) (.fresh mirrored .standard none)).getD default

/-- A point that is to be written to an empty stream. -/
def pointScene : Scene Record :=
  ⟨after askPoint (.fresh mirrored .standard none), .empty,
    ⟨⟨1, 0⟩, [.scalar (.u8 1), .scalar (.u8 2)], [.null, .null]⟩⟩

/-- What is left after writing it. -/
def pointWritten : Scene Record := after (writeRecord pointLayout) pointScene

/-- A request of one field, with the slots that its plan reads and what this makes of a record. -/
def partlyRead (l : Layout) (names : List String) : Op Record (List Nat × List (Option Nat)) := do
  let plan ← Op.space (SpaceM.plan (planNames l names))
  readPlanned l plan
  let r ← Op.subject
  pure (Plan.slots plan.read, r.slots.map Value.toNat?)

theorem mirrored_closed : mirrored.Closed := by decide

/-- A draft into which `x` is to be read. -/
def pointDraft : Record := ⟨⟨1, 1⟩, [.scalar (.u8 7), .scalar (.u8 7)], [.null, .null]⟩

/-- The runs. The point is written. Once a plan of the other layout has been asked for, what is read into
the draft for `x` is its other field. -/
theorem point_runs :
    (answer? askPoint (.fresh mirrored .standard none)).isSome = true ∧
    ((answer? (writeRecord pointLayout) pointScene).isSome = true ∧
      pointWritten.subject.schema = ⟨1, 0⟩ ∧
      (∀ v ∈ pointWritten.subject.slots, (v.toNat?).isSome = true) ∧
      pointWritten.space.store.next ≤ 2 ^ 64 ∧ pointWritten.space.types.size < 2 ^ 32 ∧
      pointWritten.stream.shown.length < 2 ^ 64 ∧
      (pointWritten.subject.slot 0).toNat? = some 1) ∧
    ((pointLayout.field? "x").isSome = true ∧ pointLayout.draft = some ⟨1, 1⟩ ∧
      pointLayout.schema = ⟨1, 0⟩) ∧
    (answer? (planForDraft pointLayout (.one mirrorLayout 1)) pointWritten.space).isSome = true ∧
    answer? (partlyRead pointLayout ["x"])
      ⟨after (planForDraft pointLayout (.one mirrorLayout 1)) pointWritten.space,
        .ofBytes (pointWritten.stream.shown ++ []), pointDraft⟩ =
          some ([0], [some 7, some 2]) := by
  decide +kernel

theorem point_prepared : Prepared pointLayout pointScene ∧ pointScene.space.catalog = mirrored := by
  obtain ⟨l, hask, hl⟩ := runs_to_after point_runs.1
  have hlayout : pointLayout = l := by rw [pointLayout, hl, Option.getD_some]
  obtain ⟨hs, hlearns, hknows⟩ :=
    SpaceM.layout_sound (Workspace.sound_fresh mirrored_closed _ _) hask
  have hcatalog : pointScene.space.catalog = mirrored := hlearns.catalog
  refine ⟨⟨hs, by rw [hlayout]; exact hknows, ⟨trivial, Nat.le_refl _⟩, ?_⟩, hcatalog⟩
  rw [hcatalog, RecordOf.ready_iff]
  refine ⟨rfl, rfl, fun i f hf hnumber => ?_, fun v hv => ?_⟩
  -- neither of the two fields is a number of varying width
  · rcases List.mem_cons.mp (List.mem_of_getElem? hf) with rfl | hmem
    · cases hnumber
    · rw [List.mem_singleton.mp hmem] at hnumber
      cases hnumber
  · rcases List.mem_cons.mp hv with rfl | hmem
    · trivial
    · rw [List.mem_singleton.mp hmem]
      trivial

theorem point_completed : Completed pointLayout pointScene pointWritten := by
  obtain ⟨hs, hcatalog⟩ := point_prepared
  obtain ⟨-, ⟨hsome, hschema, hnumbers, hchunks, htypes, -⟩, -⟩ := point_runs
  obtain ⟨u, hrun, -⟩ := runs_to_after hsome
  obtain ⟨n, b, F, hwritten⟩ := writeRecord_written hrun hs.space hs.stream hs.layout hs.subject
    ⟨List.nodup_nil, fun c hc => nomatch hc⟩
  have hsame : pointWritten.space.catalog = mirrored := hwritten.laid.le.catalog.trans hcatalog
  -- the point's values are scalars, which are accepted as they are
  refine ⟨hrun, ?_, hchunks, htypes, fun choice => ?_⟩
  · rw [hsame, RecordOf.accepted_iff, hschema]
    refine ⟨fun _ _ => rfl, fun v hv => ?_⟩
    have hnumber := hnumbers v hv
    cases v with
    | scalar n => trivial
    | _ => cases hnumber
  · rw [hsame]
    rw [Catalog.choice, show mirrored.choices = [] from rfl, List.getD_nil]
    decide

/-- A plan that is asked for on another layout stands for a plan of the slots that it has there. So
plans must not be kept for the draft by the slots that they were asked for unless they are own ones. -/
theorem readPlanned_not_after_foreign_plan :
    ¬∀ (l : Layout) (s s' : Scene Record) (foreign kept : Plan) (v : Workspace), Prepared l s →
      Owns s.space s.subject.companions → Completed l s s' →
        planForDraft l foreign s'.space = .ok kept v → ReadsPartly (· = v) l s s' := by
  intro hall
  obtain ⟨-, ⟨-, -, -, -, -, hshort, hwrote⟩, ⟨hx, hdraft, hschema⟩, hasked, hgot⟩ := point_runs
  obtain ⟨kept, hcarry, -⟩ := runs_to_after hasked
  obtain ⟨hs, hcatalog⟩ := point_prepared
  have hown : Owns pointScene.space pointScene.subject.companions :=
    ⟨List.nodup_nil, fun c hc => nomatch hc⟩
  obtain ⟨n, b', F, hwritten⟩ := writeRecord_written point_completed.run hs.space hs.stream hs.layout
    hs.subject hown
  have hsame : pointWritten.space.catalog = mirrored := hwritten.laid.le.catalog.trans hcatalog
  obtain ⟨b, hputs, hread⟩ := hall _ _ _ _ _ _ hs hown point_completed hcarry
  have hb : b = pointWritten.stream.shown := by
    rw [hputs.shown]
    exact (spliced_length [] b).symm
  have hnames : ∀ name ∈ ["x"], (pointLayout.field? name).isSome = true := by
    intro name hname
    rw [List.mem_singleton.mp hname]
    exact hx
  have htarget : Target pointLayout pointWritten.space.catalog pointWritten.subject pointDraft := by
    refine ⟨Or.inr hdraft, by rw [hsame, hschema]; rfl, rfl, fun hself => ?_⟩
    rw [hschema] at hself
    cases hself
  obtain ⟨plan, v', t, hplan, -, hrun, hfilled, -⟩ := hread (by rw [hb]; exact hshort) _ ["x"] pointDraft []
    (planForDraft_later hwritten.laid.sound hcarry) rfl (List.cons_ne_nil _ _) hnames htarget
  have hall' : partlyRead pointLayout ["x"] ⟨after (planForDraft pointLayout (.one mirrorLayout 1))
      pointWritten.space, .ofBytes (b ++ []), pointDraft⟩ =
        .ok (Plan.slots plan.read, t.subject.slots.map Value.toNat?) t :=
    bind_ok.mpr ⟨plan, _, Op.space_ok.mpr ⟨v', hplan, rfl⟩, bind_ok.mpr ⟨(), t, hrun, rfl⟩⟩
  rw [← hb, answer?_of_ok hall', Option.some.injEq, Prod.mk.injEq] at hgot
  -- the plan reads `x`, but `x` is as it was
  obtain ⟨hslots, hvalues⟩ := hgot
  obtain ⟨f, hf, hslot⟩ := List.mem_map.mp (show 0 ∈ Plan.slots plan.read by rw [hslots]; simp)
  have hx := Value.toNat?_congr (hfilled.taken f hf)
  rw [hslot] at hx
  have hnow : (t.subject.slot 0).toNat? = some 7 := by
    obtain ⟨first, rest, hcons, hfirst, -⟩ := List.map_eq_cons_iff.mp hvalues
    rw [RecordOf.slot, hcons]
    exact hfirst
  rw [hnow, hwrote] at hx
  cases hx

end RecordLayout
