import Mathlib
import RecordLayout.Proofs.Codec.PartialWrite

/-!
# Updating what is stored

A partial write of a record at the end of a stream, with new values in some of its slots, has the same
effect as an update of the stored record: what is read afterwards is the record with the new values.
The fields of the plan are closed under all that a change can bring about, so the others can stay
where they are, and the stream ends where the record ends.

Main results:

* `writePlanned_written` — what a partial write leaves behind where a record is stored;
* `writePlanned_updates` — over a record that has been written, at any later time.
-/

namespace RecordLayout

open ByteStream ChunkStore

/-! ## The course of a partial write -/

/-- What stands between a partial write and its walk: `y` is the record with the derived fields worked
out. It may have been checked, a rollback scope is opened, and the changes to the stream may be held
back until the walk has ended. -/
structure Walked (l : Layout) (plan : Plan) (s s' : Scene Record) (y : Record) (v : Workspace)
    (b : ByteStream) (t : Scene Record) : Prop where
  schema : s.subject.schema = l.schema
  derived : ∃ w, plan.derived.forM deriveField s = .ok () ⟨w, s.stream, y⟩
  worked : ∀ i, i ∉ Plan.slots plan.derived → y.slot i = s.subject.slot i
  refreshed : s.subject.Refreshed s.space.catalog y
  learns : s.space.Learns v
  sound : v.openScope.Sound
  shown : b.shown = s.stream.shown
  position : b.position = s.stream.position
  coherent : b.Coherent
  run : writeWanted (s.space.readerDepth s.stream.remaining) l none l.fields plan.write
    ⟨v.openScope, b, y⟩ = .ok () t
  space : s'.space = t.space.keepScope
  subject : s'.subject = t.subject
  stream : t.stream.Coherent → s'.stream.Coherent ∧ s'.stream.shown = t.stream.shown

/-- A walk shows its changes to the stream in the end, whether or not it held them back. -/
theorem heldBack_ok {walk : Op Record Unit} {held : Prop} [Decidable held] {s s' : Scene Record}
    {u : Unit} (h : (if held then inTransaction walk else walk) s = .ok u s')
    (hs : s.stream.Coherent) :
    ∃ b t, b.shown = s.stream.shown ∧ b.position = s.stream.position ∧ b.Coherent ∧
      walk { s with stream := b } = .ok u t ∧ s'.space = t.space ∧ s'.subject = t.subject ∧
        (t.stream.Coherent → s'.stream.Coherent ∧ s'.stream.shown = t.stream.shown) := by
  rcases ite_ok.mp h with ⟨-, h⟩ | ⟨-, h⟩
  · obtain ⟨t, b, hact, hcommit, rfl⟩ := inTransaction_ok.mp h
    refine ⟨s.stream.begin, t, shown_begin _, position_begin _, coherent_begin hs, hact, rfl, rfl,
      fun ht => ?_⟩
    obtain ⟨hshown, -, hcoherent⟩ := commit_shown ht hcommit
    exact ⟨hcoherent, hshown⟩
  · exact ⟨s.stream, s', rfl, rfl, hs, h, rfl, rfl, fun ht => ⟨ht, rfl⟩⟩

theorem writePlanned_ok {l : Layout} {plan : Plan} {s s' : Scene Record} {u : Unit}
    (h : writePlanned l plan s = .ok u s') (hs : s.space.Sound) {c : Compiler} {kind : LayoutKind}
    (hgood : ∀ f ∈ plan.derived, ∃ decl,
      FieldGood c (s.space.catalog.schema l.schema) kind decl f)
    (hcoherent : s.stream.Coherent) : ∃ y v b t, Walked l plan s s' y v b t := by
  rw [writePlanned] at h
  simp only [bind_ok, Op.subject_ok, space_requireSchema_ok, Op.config_ok] at h
  obtain ⟨x, s, ⟨rfl, rfl⟩, _, s, ⟨hschema, rfl⟩, _, s₁, hderive, config, s₁, ⟨rfl, rfl⟩, y, s₁,
    ⟨rfl, rfl⟩, h⟩ := h
  obtain ⟨hfirst, hrefreshed, hworked⟩ := deriveFields_ok hderive hs (by rwa [hschema])
  -- the walk, after a check or without one
  have hwalk {s₂ : Scene Record} (hnext : s₁.Studied s₂) (hsubject : s₂.subject = s₁.subject)
      (h : (readDepth >>= fun depth => guardingChunks
        (if 1 < plan.write.length then inTransaction (writeWanted depth l none l.fields plan.write)
          else writeWanted depth l none l.fields plan.write)) s₂ = .ok u s') :
      ∃ y v b t, Walked l plan s s' y v b t := by
    have hstudied := hfirst.trans hnext
    obtain ⟨depth, s₃, hdepth, hguarded⟩ := bind_ok.mp h
    obtain ⟨rfl, v, rfl, hlearns, hv⟩ := readDepth_runs.of_ok hnext.sound hdepth
    rw [guardingChunks] at hguarded
    simp only [bind_ok, Op.subject_ok, Op.onFailure_ok, rollback_ok] at hguarded
    obtain ⟨r, s₄, ⟨rfl, rfl⟩, t, hrun, rfl⟩ := hguarded
    obtain ⟨b, t', hshown, hposition, hb, hact, hspace, hsub, hstream⟩ := heldBack_ok hrun (by
      show s₂.stream.Coherent
      rw [hstudied.stream]
      exact hcoherent)
    have hdepth : s.space.readerDepth s.stream.remaining = s₂.space.readerDepth s₂.stream.remaining := by
      rw [Workspace.readerDepth, Workspace.readerDepth, hstudied.learns.store,
        hstudied.learns.catalog, hstudied.stream]
    refine ⟨s₁.subject, v, b, t', hschema, ⟨s₁.space, ?_⟩, hworked, hrefreshed,
      hstudied.learns.trans hlearns, ⟨hv.compiler, hv.store⟩, ?_, ?_, hb, ?_, ?_, hsub, hstream⟩
    · rw [← hfirst.stream]
      exact hderive
    · rw [hshown, ← hstudied.stream]
    · rw [hposition, ← hstudied.stream]
    · rw [hdepth, ← hsubject]
      exact hact
    · show t.space.keepScope = _
      rw [hspace]
  rcases ite_ok.mp h with ⟨-, h⟩ | ⟨-, h⟩
  · obtain ⟨_, s₂, hcheck, hrest⟩ := bind_ok.mp h
    obtain ⟨hstudied, hsubject, -⟩ :=
      space_studied (studies.checkPlanned plan _ _ hfirst.sound) hcheck
    exact hwalk hstudied hsubject hrest
  · exact hwalk (.refl hfirst.sound) rfl h

namespace Walked

variable {l : Layout} {plan : Plan} {s s' t : Scene Record} {y r : Record} {v : Workspace}
  {b : ByteStream}

theorem le (h : Walked l plan s s' y v b t) : s.space.Le v.openScope :=
  ⟨h.learns.compiler, h.learns.types, h.learns.config⟩

theorem schema' (h : Walked l plan s s' y v b t) : y.schema = l.schema :=
  h.refreshed.recast.schema.trans h.schema

theorem ready (h : Walked l plan s s' y v b t) (hready : s.subject.Ready s.space.catalog) :
    y.Ready v.openScope.catalog := by
  show y.Ready v.catalog
  rw [h.learns.catalog]
  exact h.refreshed.ready hready

theorem ends (h : Walked l plan s s' y v b t) {c : Bytes} (hends : s.stream.Ends c) : b.Ends c := by
  refine ⟨⟨h.coherent, ?_⟩, ?_⟩
  · rw [h.shown, h.position]
    exact hends.writable.inside
  · rw [h.shown, h.position]
    exact hends.rest

/-- Every field of the record owns its chunks. -/
theorem owns (h : Walked l plan s s' y v b t) (hl : s.space.Knows l)
    (hready : s.subject.Ready s.space.catalog) (hown : Owns s.space s.subject.companions) :
    Owns v.openScope (l.fields.flatMap fun f => (y.slotAt f.slot).companions) := by
  have hy := h.ready hready
  have hperm := companions_perm_fields (r := y)
    (by rw [h.schema']; exact ((hl.mono h.le).good h.sound).fields) hy.slots_length hy.chunks_length
  have hsub := hown.sublist h.refreshed.companions
  refine ⟨hperm.nodup_iff.mpr hsub.nodup, fun x hx => ?_⟩
  show x.id < v.store.next
  rw [h.learns.store]
  exact hsub.known x (hperm.subset hx)

/-- Derived fields are worked out if they are written, and the others are as they were. -/
theorem untouched (h : Walked l plan s s' y v b t)
    (hslots : ∀ i, i ∉ Plan.slots plan.write → s.subject.slotAt i = r.slotAt i)
    (fields : List BoundField) : Untouched plan.write s.space r fields v.openScope y := by
  refine ⟨h.le, fun i hi => ?_, fun f _ _ x _ => ?_⟩
  · have hi' : i ∉ Plan.slots plan.derived := fun hmem => by
      obtain ⟨f, hf, rfl⟩ := List.mem_map.mp hmem
      exact hi (List.mem_map_of_mem (List.mem_of_mem_filter hf))
    rw [← hslots i hi, RecordOf.slotAt, RecordOf.slotAt, h.worked i hi', RecordOf.chunk,
      RecordOf.chunk, h.refreshed.chunks]
  · show v.store.content? x = _
    rw [h.learns.store]

end Walked

/-! ## Partial writes of a stored record -/

/-- A workspace in which more may be known and stored, but a record is stored as it was. -/
structure Workspace.Keeps (w : Workspace) (r : Record) (v : Workspace) : Prop extends w.Le v where
  sound : v.Sound
  fits : v.Fits
  chunks : ∀ c ∈ r.companions, v.store.content? c = w.store.content? c

/-- What a partial write of `x` leaves behind where `r` is stored from the cursor on: `y` is `x` with
the derived fields worked out, and all fields stand there as if they had been written. -/
structure PartlyWritten (l : Layout) (plan : Plan) (r : Record) (s s' : Scene Record) (y : Record)
    (n : Nat) (c : Bytes) (G : List ChunkId) : Prop where
  derived : ∃ w, plan.derived.forM deriveField s = .ok () ⟨w, s.stream, y⟩
  worked : ∀ i, i ∉ Plan.slots plan.derived → y.slot i = s.subject.slot i
  recast : ∀ i, (y.slot i).Recast s.space.catalog (s'.subject.slot i)
  others : ∀ i, i ∉ Plan.slots plan.write → s'.subject.slotAt i = r.slotAt i
  le : s.space.Le s'.space
  sound : s'.space.Sound
  form : RecordForm (Stands s'.space n) s'.space l.key s'.subject c G
  nodup : G.Nodup
  coherent : s'.stream.Coherent
  shown : s'.stream.shown = s.stream.shown.take s.stream.position ++ c

section

variable {w : Workspace} {l : Layout} {plan : Plan} {n : Nat} {r : Record} {b : Bytes}
  {F : List ChunkId} {s s' : Scene Record} {u : Unit}

/-- Where the walk has written fields that can be written over the stored record, it has written the
record. -/
theorem Walked.partlyWritten {y : Record} {v : Workspace} {t₀ : ByteStream} {t : Scene Record}
    {taken : List BoundField} (h : Walked l plan s s' y v t₀ t)
    (hslots : Plan.slots taken = Plan.slots plan.write) (htakes : l.TakesAlong taken) (hs : w.Sound)
    (hl : w.Knows l) (hstored : FieldsHeld (Stands w n) w r l.fields b F) (hF : F.Nodup)
    (hr : r.Ready w.catalog) (hrschema : r.schema = l.schema) (hkeeps : w.Keeps r s.space)
    (hothers : ∀ i, i ∉ Plan.slots plan.write → s.subject.slotAt i = r.slotAt i)
    (hready : s.subject.Ready s.space.catalog) (hown : Owns s.space s.subject.companions)
    (hends : s.stream.Ends b) (hlt : b.length < 2 ^ 64) :
    ∃ m c G, PartlyWritten l plan r s s' y m c G := by
  have hl₀ := hl.mono hkeeps.toLe
  have hheld : FieldsHeld (Stands s.space n) s.space r l.fields b F := by
    have howned := companions_perm_fields (r := r) (by rw [hrschema]; exact (hl.good hs).fields)
      hr.slots_length hr.chunks_length
    exact hstored.stable hs hkeeps.toLe fun x hx =>
      hkeeps.chunks x (howned.subset (hstored.own_subset hx))
  have hshows : s.stream.Shows b := Ends.shows (c := []) (by rwa [List.append_nil])
  have hahead := hheld.ahead hkeeps.sound hkeeps.fits hl₀ htakes hF hshows.length_le
    (List.nil_append _).symm htakes.sublist fun f _ => Iff.rfl
  have hrun := h.run
  rw [writeWanted_slots hslots.symm] at hrun
  have huntouched : Untouched taken s.space r l.fields v.openScope y := by
    have hold := h.untouched hothers l.fields
    exact ⟨hold.le, hslots ▸ hold.slots, hslots ▸ hold.chunks⟩
  have hready' := h.ready hready
  -- the walk has passed nothing yet
  have hpassed : ∀ g, g ∈ ([] : List BoundField) ↔
      g ∈ ([] : List BoundField) ∧ g.slot ∉ Plan.slots taken := by simp
  obtain ⟨m, c, G, hrow⟩ := writeWanted_written hkeeps.sound hkeeps.fits hl₀
    (fun f hf g hg => hheld.row.governor_decides hf hg) hrun hahead huntouched h.sound
    (List.nil_append _).symm hpassed .start (List.Subset.refl _) (h.ends hends) hlt hready' h.schema'
    (h.owns hl₀ hready hown)
  obtain ⟨after, hwritten⟩ := hrow.written
  have hrecord := RecordWritten.of_scope (s := ⟨v, t₀, y⟩)
    (hwritten.record h.sound (hl₀.mono h.le) h.schema' hready')
  obtain ⟨hcoherent, hshown⟩ := h.stream hrow.coherent
  refine ⟨m, c, G, h.derived, h.worked, fun i => ?_, fun i hi => ?_, ?_, ?_, ?_,
    hrecord.laid.nodup, hcoherent, ?_⟩
  · have hrecast := hrow.recast i
    rw [h.le.catalog] at hrecast
    rw [h.subject]
    exact hrecast
  · rw [h.subject, hrow.others i (hslots ▸ hi)]
    exact (h.untouched hothers l.fields).slots i hi
  · rw [h.space]
    exact h.learns.toLe.trans hrecord.laid.le
  · rw [h.space]
    exact hrecord.laid.sound
  · rw [h.space, h.subject]
    exact hrecord.form
  · rw [hshown, hrow.shown]
    show List.take t₀.position t₀.shown ++ c = _
    rw [h.shown, h.position]

theorem writePlanned_written (hs : w.Sound) (hl : w.Knows l) (hplan : plan.Writes l)
    (hstored : FieldsHeld (Stands w n) w r l.fields b F) (hF : F.Nodup) (hr : r.Ready w.catalog)
    (hrschema : r.schema = l.schema) (hkeeps : w.Keeps r s.space)
    (h : writePlanned l plan s = .ok u s')
    (hslots : ∀ i, i ∉ Plan.slots plan.write → s.subject.slotAt i = r.slotAt i)
    (hready : s.subject.Ready s.space.catalog) (hown : Owns s.space s.subject.companions)
    (hends : s.stream.Ends b) (hlt : b.length < 2 ^ 64) :
    ∃ y m c G, PartlyWritten l plan r s s' y m c G := by
  have hl₀ := hl.mono hkeeps.toLe
  obtain ⟨y, v, t₀, t, hwalked⟩ := writePlanned_ok h hkeeps.sound
    (fun f hf => (hl₀.good hkeeps.sound).fields.declared
      (hplan.sublist.subset (List.mem_of_mem_filter hf))) hends.writable.coherent
  exact ⟨y, hwalked.partlyWritten rfl hplan.takesAlong hs hl hstored hF hr hrschema hkeeps hslots
    hready hown hends hlt⟩

end

/-! ## Updates -/

/-- A record of the same schema, with new values in the slots of some fields. -/
structure Assigned (l : Layout) (names : List String) (r x : Record) : Prop where
  schema : x.schema = r.schema
  others : ∀ i, (∀ name ∈ names, ∀ f, l.field? name = some f → f.slot ≠ i) → x.slotAt i = r.slotAt i

/-- What a partial write from `s` to `t` has made of `r`, which was stored from the cursor on. -/
structure Updated (l : Layout) (plan : Plan) (r : Record) (s t : Scene Record) : Prop where
  /-- Derived fields are worked out, and all other fields have the values that they were given. -/
  values : ∃ y w, plan.derived.forM deriveField s = .ok () ⟨w, s.stream, y⟩ ∧
    (∀ i, i ∉ Plan.slots plan.derived → y.slot i = s.subject.slot i) ∧
      ∀ i, (y.slot i).Recast s.space.catalog (t.subject.slot i)
  /-- Fields that the plan does not write are as they were stored. -/
  others : ∀ i, i ∉ Plan.slots plan.write → t.subject.slotAt i = r.slotAt i
  /-- What stands before the record is left alone. -/
  before : t.stream.shown.take s.stream.position = s.stream.shown.take s.stream.position
  /-- A new record of this content is read, up to the end of the stream. -/
  reads : ∃ r' u, readNew l (⟨t.space, t.stream.setPosition s.stream.position, ()⟩ : Scene Unit) =
    .ok r' u ∧ r'.detached = t.subject.detached ∧ u.stream.position = t.stream.shown.length

/-- A record that has been written and ends its stream can be updated in place at any later time: every
request for fields of the layout has a plan, and writing this plan of a record with new values in these
fields, whose chunks are its own as `owned` says, updates what is stored. -/
def UpdatesInPlace (owned : Workspace → Record → Prop) (l : Layout) (s s' : Scene Record) : Prop :=
  ∀ (v : Workspace) (names : List String), s'.space.Keeps s'.subject v →
    (v.plans.book l.key).Good l → names ≠ [] → (∀ name ∈ names, (l.field? name).isSome = true) →
      ∃ plan v', SpaceM.plan (planNames l names) v = .ok plan v' ∧
        (∀ name ∈ names, ∃ f ∈ plan.write, l.field? name = some f) ∧
        ∀ (x : Record) (t : Scene Record), Assigned l names s'.subject x → x.Ready v.catalog →
          owned v x → writePlanned l plan ⟨v', s'.stream.setPosition s.stream.position, x⟩ = .ok () t →
            t.subject.Accepted t.space.catalog → t.space.Fits →
              Updated l plan s'.subject ⟨v', s'.stream.setPosition s.stream.position, x⟩ t

/-- What has been written partly is read back. -/
theorem PartlyWritten.updated {l : Layout} {plan : Plan} {r y : Record} {s t : Scene Record} {n : Nat}
    {c : Bytes} {G : List ChunkId} (h : PartlyWritten l plan r s t y n c G) (hl : s.space.Knows l)
    (hinside : s.stream.position ≤ s.stream.shown.length) (hacc : t.subject.Accepted t.space.catalog)
    (hfit : t.space.Fits) : Updated l plan r s t := by
  obtain ⟨w, hderived⟩ := h.derived
  have hlen : (s.stream.shown.take s.stream.position).length = s.stream.position := by
    rw [List.length_take, Nat.min_eq_left hinside]
  refine ⟨⟨y, w, hderived, h.worked, h.recast⟩, h.others, ?_, ?_⟩
  · rw [h.shown, List.take_left' hlen]
  -- the bytes put are read back from the cursor at which the update began
  · have hshows : (t.stream.setPosition s.stream.position).Shows c := by
      refine ⟨coherent_setPosition h.coherent _, [], ?_⟩
      rw [shown_setPosition, position_setPosition, h.shown, List.drop_left' hlen, List.append_nil]
    obtain ⟨r', hparse, hr'⟩ := h.form.parses_ahead h.sound hfit h.nodup hshows.length_le
    obtain ⟨v, hrun, -, -⟩ := readNew_runs h.sound (hl.mono h.le) hparse (hacc.built hr') hshows
      (z := ()) t.space (.refl h.sound)
    refine ⟨r', _, hrun, hr', ?_⟩
    show ((t.stream.setPosition s.stream.position).ahead c.length).position = _
    rw [position_ahead, position_setPosition, h.shown, List.length_append, hlen]

/-- A partial write updates the stored record. -/
theorem writePlanned_updates {l : Layout} {s s' : Scene Record} (hs : Prepared l s)
    (hown : Owns s.space s.subject.companions) (h : Completed l s s')
    (hend : s'.stream.position = s'.stream.shown.length) (hlt : s'.stream.shown.length < 2 ^ 64) :
    UpdatesInPlace (fun v x => Owns v x.companions) l s s' := by
  obtain ⟨n, b, F, hwritten⟩ := writeRecord_written h.run hs.space hs.stream hs.layout hs.subject hown
  have hsound := hwritten.laid.sound
  have hl := hs.layout.mono hwritten.laid.le
  have hfields := (hl.good hsound).fields
  intro v names hkeeps hbook hne hnames
  obtain ⟨plan, plans, hask, -, hof, hrequested⟩ :=
    planNames_ok hfields.slots_nodup hbook names hne hnames
  have hplan := hof.writes hfields.slots_nodup
  have hneeded : ∀ name ∈ names, ∃ f ∈ plan.write, l.field? name = some f := fun name hname => by
    obtain ⟨f, hf⟩ := Option.isSome_iff_exists.mp (hnames name hname)
    exact ⟨f, hplan.requested ((hrequested f).mpr ⟨name, hname, hf⟩), hf⟩
  refine ⟨plan, _, SpaceM.plan_ok.mpr ⟨plans, hask, rfl⟩, hneeded, ?_⟩
  intro x t hassigned hready howned hrun hacc hfit
  have hkeeps' : s'.space.Keeps s'.subject { v with plans := plans } :=
    ⟨⟨hkeeps.compiler, hkeeps.types, hkeeps.config⟩, ⟨hkeeps.sound.compiler, hkeeps.sound.store⟩,
      ⟨hkeeps.fits.chunks, hkeeps.fits.types, hkeeps.fits.choices⟩, hkeeps.chunks⟩
  -- the record is stored from the cursor on, and there is nothing behind it
  have hends : (s'.stream.setPosition s.stream.position).Ends b := by
    have hputs := hwritten.laid.puts
    have hbefore := hputs.before hs.stream
    rw [hend, List.take_length] at hbefore
    have hlen : (s.stream.shown.take s.stream.position).length = s.stream.position := by
      rw [List.length_take, Nat.min_eq_left hs.stream.inside]
    refine ⟨⟨coherent_setPosition hputs.coherent _, ?_⟩, ?_⟩
    · rw [shown_setPosition, position_setPosition, ← hend, hputs.position]
      omega
    · rw [shown_setPosition, position_setPosition, hbefore, List.drop_left' hlen]
  have hshort : b.length < 2 ^ 64 := by
    have hposition := hwritten.laid.puts.position
    omega
  have hstored : FieldsHeld (Stands s'.space n) s'.space s'.subject l.fields b F := by
    obtain ⟨l', hl', hheld⟩ := hwritten.held
    rwa [Option.some.inj (hl'.symm.trans hl)] at hheld
  have hslots : ∀ i, i ∉ Plan.slots plan.write → x.slotAt i = s'.subject.slotAt i := by
    intro i hi
    refine hassigned.others i fun name hname f hf heq => hi ?_
    obtain ⟨g, hg, hfound⟩ := hneeded name hname
    rw [Option.some.inj (hf.symm.trans hfound)] at heq
    exact heq ▸ List.mem_map_of_mem hg
  obtain ⟨y, m, c, G, hpartly⟩ := writePlanned_written hsound hl hplan hstored hwritten.laid.nodup
    hwritten.ready hwritten.form.schema hkeeps' hrun hslots hready ⟨howned.nodup, howned.known⟩ hends
    hshort
  exact hpartly.updated (hl.mono hkeeps'.toLe) hends.writable.inside hacc hfit

/-! ## Two texts that may be absent -/

/-- A schema with two texts that may be absent, in slots of fixed width. -/
def optionalTexts : Catalog :=
  ⟨[⟨⟨"Pair", .managed, [⟨"a", .value .text .fixed, true, [], none⟩,
    ⟨"b", .value .text .fixed, true, [], none⟩]⟩, true⟩], [], []⟩

/-- The question for its layout. -/
def askOptionalTexts : SpaceM Layout := SpaceM.layout ⟨0, 0⟩ .standard

/-- Its layout. -/
def optionalTextsLayout : Layout :=
  (answer? askOptionalTexts (.fresh optionalTexts .standard none)).getD default

/-- A record with values for both of them. The second one is backed by `chunk`. -/
def optionalTextsRecord (a b : Value) (chunk : ChunkId) : Record := ⟨⟨0, 0⟩, [a, b], [.null, chunk]⟩

/-- A record without them that is to be written to an empty stream. -/
def optionalTextsScene : Scene Record :=
  ⟨after askOptionalTexts (.fresh optionalTexts .standard none), .empty,
    optionalTextsRecord .null .null .null⟩

/-- What is left after writing it. -/
def optionalTextsWritten : Scene Record := after (writeRecord optionalTextsLayout) optionalTextsScene

/-- Both texts are there now, and the cursor stands at the front of the record. -/
def optionalTextsAssigned (chunk : ChunkId) : Scene Record :=
  ⟨optionalTextsWritten.space, optionalTextsWritten.stream.setPosition optionalTextsScene.stream.position,
    optionalTextsRecord (.text "left") (.text "right") chunk⟩

/-- A request of fields, and a partial write by its plan. -/
def partlyWrite (l : Layout) (names : List String) : Op Record Unit := do
  let plan ← Op.space (SpaceM.plan (planNames l names))
  writePlanned l plan

/-- What is left after writing both texts. -/
def optionalTextsUpdated (chunk : ChunkId) : Scene Record :=
  after (partlyWrite optionalTextsLayout ["a", "b"]) (optionalTextsAssigned chunk)

theorem optionalTexts_closed : optionalTexts.Closed := by decide

theorem optionalTexts_ready {a b : Value} (chunk : ChunkId) (ha : a.Ready optionalTexts)
    (hb : b.Ready optionalTexts) : (optionalTextsRecord a b chunk).Ready optionalTexts := by
  refine RecordOf.ready_iff.mpr ⟨rfl, rfl, fun i f hf hnumber => ?_, fun v hv => ?_⟩
  · -- neither slot is a number
    rcases List.mem_cons.mp (List.mem_of_getElem? hf) with rfl | hmem
    · cases hnumber
    · rw [List.mem_singleton.mp hmem] at hnumber
      cases hnumber
  · rcases List.mem_cons.mp hv with rfl | hmem
    · exact ha
    · rw [List.mem_singleton.mp hmem]
      exact hb

/-- The runs. The record is written, then updated. The texts are read back as they were assigned only if
the second slot names no chunk that is handed out to the first. -/
theorem optionalTexts_runs :
    (answer? askOptionalTexts (.fresh optionalTexts .standard none)).isSome = true ∧
    ((writeRecord optionalTextsLayout).StoresTexts optionalTextsScene ∧
      optionalTextsWritten.space.plans.books.length = 0 ∧
      optionalTextsWritten.subject.schema = ⟨0, 0⟩ ∧
      optionalTextsWritten.subject.slots.length = 2 ∧
      optionalTextsWritten.subject.chunks.length = 2 ∧
      optionalTextsWritten.stream.position = optionalTextsWritten.stream.shown.length ∧
      optionalTextsWritten.stream.shown.length < 2 ^ 64) ∧
    ((∀ name ∈ ["a", "b"], (optionalTextsLayout.field? name).isSome = true) ∧
      ∀ i < 2, ∃ name ∈ ["a", "b"], (optionalTextsLayout.field? name).map (·.slot) = some i) ∧
    (∀ chunk ∈ [ChunkId.null, ⟨1⟩], (partlyWrite optionalTextsLayout ["a", "b"]).StoresTexts
      (optionalTextsAssigned chunk)) ∧
    (answer? (readNew optionalTextsLayout) (⟨(optionalTextsUpdated ⟨1⟩).space,
      (optionalTextsUpdated ⟨1⟩).stream.setPosition (optionalTextsAssigned ⟨1⟩).stream.position,
        ()⟩ : Scene Unit)).map (fun r => r.slots.map Value.text?) =
          some [some "right", some "right"] ∧
    (optionalTextsUpdated ⟨1⟩).subject.slots.map Value.text? = [some "left", some "right"] := by
  decide +kernel

theorem optionalTexts_prepared : Prepared optionalTextsLayout optionalTextsScene ∧
    optionalTextsScene.space.catalog = optionalTexts := by
  obtain ⟨l, hask, hl⟩ := runs_to_after optionalTexts_runs.1
  have hlayout : optionalTextsLayout = l := by rw [optionalTextsLayout, hl, Option.getD_some]
  obtain ⟨hs, hlearns, hknows⟩ :=
    SpaceM.layout_sound (Workspace.sound_fresh optionalTexts_closed _ _) hask
  have hcatalog : optionalTextsScene.space.catalog = optionalTexts := hlearns.catalog
  refine ⟨⟨hs, by rw [hlayout]; exact hknows, ⟨trivial, Nat.le_refl _⟩, ?_⟩, hcatalog⟩
  rw [hcatalog]
  exact optionalTexts_ready .null trivial trivial

theorem optionalTexts_completed :
    Completed optionalTextsLayout optionalTextsScene optionalTextsWritten :=
  optionalTexts_runs.2.1.1.completed

/-- Both texts are written where the record without them stands. -/
theorem optionalTexts_updated {owned : Workspace → Record → Prop} (chunk : ChunkId)
    (hupdates : UpdatesInPlace owned optionalTextsLayout optionalTextsScene optionalTextsWritten)
    (hchunk : chunk = .null ∨ chunk = ⟨1⟩)
    (howned : owned (optionalTextsAssigned chunk).space (optionalTextsAssigned chunk).subject) :
    ∃ plan v, Updated optionalTextsLayout plan optionalTextsWritten.subject
      { optionalTextsAssigned chunk with space := v } (optionalTextsUpdated chunk) := by
  obtain ⟨hs, hcatalog⟩ := optionalTexts_prepared
  obtain ⟨n, b, F, hwritten⟩ := writeRecord_written optionalTexts_completed.run hs.space hs.stream
    hs.layout hs.subject ⟨List.nodup_nil, fun c hc => nomatch hc⟩
  have hsame : optionalTextsWritten.space.catalog = optionalTexts :=
    hwritten.laid.le.catalog.trans hcatalog
  obtain ⟨-, ⟨-, hbooks, hschema, hlength, hlength', -⟩, ⟨hnames, hslots⟩, hstores, -⟩ :=
    optionalTexts_runs
  have hplans : optionalTextsWritten.space.plans = .empty :=
    congrArg PlanBooks.mk (List.eq_nil_of_length_eq_zero hbooks)
  have hbook : (optionalTextsWritten.space.plans.book optionalTextsLayout.key).Good
      optionalTextsLayout := by
    rw [hplans]
    exact (PlanBooks.kept_empty optionalTextsLayout optionalTextsLayout).own
  obtain ⟨plan, v, hplan, -, hrun⟩ := hupdates optionalTextsWritten.space ["a", "b"]
    ⟨.refl _, hwritten.laid.sound, optionalTexts_completed.fits, fun _ _ => rfl⟩ hbook
    (List.cons_ne_nil _ _) hnames
  -- nothing but the two texts has been assigned
  have hassigned : Assigned optionalTextsLayout ["a", "b"] optionalTextsWritten.subject
      (optionalTextsAssigned chunk).subject := by
    refine ⟨hschema.symm, fun i hi => ?_⟩
    by_cases hlt : i < 2
    · obtain ⟨name, hname, hslot⟩ := hslots i hlt
      obtain ⟨f, hf, rfl⟩ := Option.map_eq_some_iff.mp hslot
      exact absurd rfl (hi name hname f hf)
    · -- there are no other slots
      have hnone (r : Record) (hr : r.slots.length = 2 ∧ r.chunks.length = 2) :
          r.slotAt i = ⟨.null, .null⟩ := by
        rw [RecordOf.slotAt, RecordOf.slot, RecordOf.chunk, List.getD_eq_default _ _ (by omega),
          List.getD_eq_default _ _ (by omega)]
      rw [hnone _ ⟨rfl, rfl⟩, hnone _ ⟨hlength, hlength'⟩]
  have hready : (optionalTextsAssigned chunk).subject.Ready optionalTextsWritten.space.catalog := by
    have hleft : (Utf8.encode "left").length + 1 < 2 ^ 64 := by decide
    have hright : (Utf8.encode "right").length + 1 < 2 ^ 64 := by decide
    rw [hsame]
    exact optionalTexts_ready chunk hleft hright
  -- the write itself is computed
  have hupdated := hstores chunk (by rcases hchunk with rfl | rfl <;> simp)
  obtain ⟨plan', s, hask, hwrite⟩ := bind_ok.mp hupdated.run
  obtain ⟨v', hplan', rfl⟩ := Op.space_ok.mp hask
  rw [show (optionalTextsAssigned chunk).space = optionalTextsWritten.space from rfl, hplan] at hplan'
  cases hplan'
  exact ⟨plan, v, hrun _ _ hassigned hready howned hwrite hupdated.accepted hupdated.fits⟩

theorem writePlanned_updates_optional_texts :
    Prepared optionalTextsLayout optionalTextsScene ∧
      Completed optionalTextsLayout optionalTextsScene optionalTextsWritten ∧
      ∃ plan v, Updated optionalTextsLayout plan optionalTextsWritten.subject
        { optionalTextsAssigned .null with space := v } (optionalTextsUpdated .null) := by
  have hown : Owns optionalTextsScene.space optionalTextsScene.subject.companions :=
    ⟨List.nodup_nil, fun c hc => nomatch hc⟩
  obtain ⟨-, ⟨-, -, -, -, -, hend, hshort⟩, -⟩ := optionalTexts_runs
  exact ⟨optionalTexts_prepared.1, optionalTexts_completed,
    optionalTexts_updated .null (writePlanned_updates optionalTexts_prepared.1 hown
      optionalTexts_completed hend hshort) (Or.inl rfl) ⟨List.nodup_nil, fun c hc => nomatch hc⟩⟩

/-- A chunk behind a slot that the store has not handed out yet is handed out to another slot in the
course of the partial write, and then overwritten. -/
theorem writePlanned_updates_not_of_nodup :
    ¬∀ (l : Layout) (s s' : Scene Record), Prepared l s → s.subject.companions.Nodup →
      Completed l s s' → s'.stream.position = s'.stream.shown.length →
        s'.stream.shown.length < 2 ^ 64 →
          UpdatesInPlace (fun _ x => x.companions.Nodup) l s s' := by
  intro hall
  obtain ⟨-, ⟨-, -, -, -, -, hend, hshort⟩, -, -, hgot, hwritten⟩ := optionalTexts_runs
  obtain ⟨plan, v, hupdated⟩ := optionalTexts_updated ⟨1⟩ (hall _ _ _
    optionalTexts_prepared.1 List.nodup_nil optionalTexts_completed hend hshort) (Or.inr rfl)
    (List.nodup_singleton _)
  obtain ⟨r, u, hrun, hr, -⟩ := hupdated.reads
  rw [answer?_of_ok hrun, Option.map_some, Option.some.injEq,
    RecordOf.texts_congr (RecordOf.detached_eq_iff.mp hr).2.1, hwritten] at hgot
  exact absurd hgot (by decide)

end RecordLayout
