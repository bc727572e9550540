import RecordLayout.Proofs.Codec.Narrowed

/-!
# Choosing widths

Where there is a plain layout of fixed width, its numbers can be given any widths. A record that can be
written in the plain layout can be written with chosen widths exactly if all of its numbers fit, it takes
fewer bytes then, and it reads back all the same. The smallest widths that hold the numbers of a record
are the least ones with which it can be written.

All this needs the types to be in use that are named from the schema. A failure to choose widths is
kept, so it outlives the types that it was due to.

Main results:

* `chosenWidths` — layouts with chosen widths, and the smallest widths for a record;
* `chosenWidths_not_of_outlived` — a failure that has been kept.
-/

namespace RecordLayout

/-- All numbers of a record fit the widths that are chosen for them, in canonical order. -/
def Layout.Admits (l : Layout) (widths : List Width) (r : Record) : Prop :=
  ∀ pair ∈ l.forcedFields.zip widths, NumberFits r pair

/-- The smallest widths that hold the numbers of a record, in canonical order. -/
def Layout.minimalWidths (l : Layout) (c : Catalog) (r : Record) : List Width :=
  l.forcedFields.map (Compiler.minimalWidth c r)

/-- What a layout `l'` with chosen widths does with a record that the plain layout `l` of fixed width
takes from `s` to `t`. -/
structure WrittenBeside (l l' : Layout) (widths : List Width) (s t : Scene Record) : Prop where
  /-- The record is written exactly if all of its numbers fit. -/
  writes : (∃ t', writeRecord l' s = .ok () t') ↔ l.Admits widths s.subject
  /-- It comes to the same, in fewer bytes. -/
  alike : ∀ t', writeRecord l' s = .ok () t' → t'.space = t.space ∧ t'.subject = t.subject ∧
    t.stream.position = t'.stream.position + Width.savedBy widths
  /-- Otherwise the first number that does not fit is refused. -/
  fails : ¬l.Admits widths s.subject → ∃ f width n t',
    FirstMisfit s.subject (l.forcedFields.zip widths) f width n ∧
      writeRecord l' s = .error (.widthTooSmall f.owner f.name width n) t'
  /-- A record whose chunks are its own reads back. -/
  decodes : ∀ t', Prepared l' s → Owns s.space s.subject.companions → Completed l' s t' →
    RoundTrips l' s t'

/-- What is to be had of chosen widths, where `l` is a plain layout of fixed width. -/
structure WidthsChosen (l : Layout) (w : Workspace) : Prop where
  /-- There is a layout for all widths, one for each number, and it is shorter by what they save. -/
  layouts : ∀ widths, widths.length = l.forcedFields.length → ∃ l' w',
    SpaceM.layout l.schema (.varying widths) w = .ok l' w' ∧
      (∃ n, l'.size = .fixed n ∧ l.size = .fixed (n + Width.savedBy widths)) ∧
      ∀ s t, w'.Le s.space → s.space.Sound → writeRecord l s = .ok () t →
        WrittenBeside l l' widths s t
  /-- The minimal layout for a record gives its numbers the smallest widths that hold them. -/
  minimal : ∀ r, ∃ l' w', SpaceM.compile (Compiler.minimalLayout l.schema r) w = .ok l' w' ∧
    l'.forcedFields.map (·.encoding) = (l.minimalWidths w.catalog r).map .forced
  /-- With these the record can be written, and no width can be smaller. -/
  least : ∀ s t, w.Le s.space → s.space.Sound → writeRecord l s = .ok () t →
    l.Admits (l.minimalWidths w.catalog s.subject) s.subject ∧
      ∀ widths, widths.length = l.forcedFields.length → l.Admits widths s.subject →
        List.Forall₂ (fun a b => a.bytes ≤ b.bytes) (l.minimalWidths w.catalog s.subject) widths

section

variable {l l' : Layout} {widths : List Width} {w : Workspace} {s t : Scene Record}

theorem Layout.Narrowed.writtenBeside (h : l.Narrowed widths l') (hs : s.space.Sound)
    (hl : s.space.Knows l) (hchecked : s.space.catalog.Checked) (hkind : l.kind.isFixed = true)
    (hrun : writeRecord l s = .ok () t) : WrittenBeside l l' widths s t := by
  -- the narrowed run ends as the plain one does or at the first number that does not fit
  have hends := writeRecord_narrowed h hs hl hchecked hkind hrun
  have hdecodes (t' : Scene Record) (hprep : Prepared l' s)
      (hown : Owns s.space s.subject.companions) (hdone : Completed l' s t') : RoundTrips l' s t' := by
    obtain ⟨n, b, F, hwritten⟩ := writeRecord_written hdone.run hprep.space hprep.stream
      hprep.layout hprep.subject hown
    exact hwritten.roundTrips hprep.layout hdone.accepted hdone.fits
  cases hrun' : writeRecord l' s with
  | ok u t' =>
    rw [hrun'] at hends
    obtain ⟨hall, hbeside⟩ := hends
    refine ⟨⟨fun _ => hall, fun _ => ⟨t', hrun'⟩⟩, fun t'' hrun'' => ?_,
      fun hnot => absurd hall hnot, hdecodes⟩
    cases hrun'.symm.trans hrun''
    exact ⟨hbeside.space, hbeside.subject, hbeside.stream.position⟩
  -- a refusal excludes success, so the two remaining parts hold of no run
  | error e t' =>
    rw [hrun'] at hends
    obtain ⟨f, width, n, hmisfit, rfl⟩ := hends
    have hnot (t'' : Scene Record) : writeRecord l' s ≠ .ok () t'' := fun hok => by
      rw [hrun'] at hok
      cases hok
    exact ⟨⟨fun ⟨t'', hok⟩ => absurd hok (hnot t''), fun hall => absurd hall hmisfit.not_all⟩,
      fun t'' hok => absurd hok (hnot t''), fun _ => ⟨f, width, n, t', hmisfit, hrun'⟩, hdecodes⟩

/-- The smallest width for a number of a record. -/
theorem Workspace.Knows.minimalWidth (hl : w.Knows l) (hs : w.Sound) (hchecked : w.catalog.Checked)
    {f : BoundField} (hf : f ∈ l.fields) {r : Record} (hschema : r.schema = l.schema) {n : Nat}
    (hn : (r.slot f.slot).toNat? = some n) :
    Compiler.minimalWidth w.catalog r f = Width.fitting n := by
  obtain ⟨decl, hgood⟩ := (hl.good hs).fields.declared hf
  have hslot : (w.catalog.schema l.schema).slot? f.name = some f.slot :=
    (hchecked.named l.schema).slot?_iff.mpr ⟨decl, hgood.declared, hgood.name.symm⟩
  have hget : w.catalog.get? r f.name = some (r.slot f.slot) := by
    rw [Catalog.get?, hschema, hslot]
    rfl
  rw [Compiler.minimalWidth, hget, Option.bind_some, hn]

/-- The smallest widths hold the numbers of a record that is written in the plain layout, and no smaller
ones do. -/
theorem Layout.Narrowed.least (h : l.Narrowed widths l') (hs : s.space.Sound) (hl : s.space.Knows l)
    (hchecked : s.space.catalog.Checked) (hkind : l.kind.isFixed = true)
    (hrun : writeRecord l s = .ok () t) :
    l.Admits (l.minimalWidths s.space.catalog s.subject) s.subject ∧
      ∀ widths, widths.length = l.forcedFields.length → l.Admits widths s.subject →
        List.Forall₂ (fun a b => a.bytes ≤ b.bytes)
          (l.minimalWidths s.space.catalog s.subject) widths := by
  -- the record written has the layout's schema, or it would have been refused
  have hschema : s.subject.schema = l.schema := by
    obtain ⟨r, s, hsubject, hwrite⟩ := bind_ok.mp hrun
    obtain ⟨rfl, rfl⟩ := Op.subject_ok.mp hsubject
    obtain ⟨_, -, hschema⟩ := writeRecordWith_sized (writeWithin_sized _) hwrite hs hl
    exact hschema
  have hminimal {f : BoundField} (hf : f ∈ l.forcedFields) {n : Nat}
      (hn : (s.subject.slot f.slot).toNat? = some n) :
      Compiler.minimalWidth s.space.catalog s.subject f = Width.fitting n :=
    hl.minimalWidth hs hchecked (List.mem_filter.mp hf).1 hschema hn
  refine ⟨fun pair hpair => ?_, fun widths hlen hadmits => ?_⟩
  · rw [Layout.minimalWidths, ← List.map_prod_left_eq_zip] at hpair
    obtain ⟨f, hf, rfl⟩ := List.mem_map.mp hpair
    -- the plain write has taken the number as one of eight bytes, which some width fits
    obtain ⟨n, hn, hword⟩ := writeRecord_numbers h hs hl hchecked hkind hrun hf
    exact ⟨n, hn, by rw [hminimal hf hn]; exact Width.canFit_fitting hword⟩
  · rw [Layout.minimalWidths, List.forall₂_map_left_iff, List.forall₂_iff_zip]
    refine ⟨hlen.symm, fun {f width} hpair => ?_⟩
    -- a width that fits the number is not below the least one
    obtain ⟨n, hn, hfits⟩ := hadmits _ hpair
    rw [hminimal (List.of_mem_zip hpair).1 hn]
    exact Width.fitting_bytes_le hfits

end

/-! ## Asking for widths -/

section

variable {cat : Catalog} {l : Layout} {widths : List Width} {w : Workspace}

/-- Where the plain layout is known, there is the one with chosen widths. -/
theorem Compiler.Ready.layout_narrowed (hlive : cat.LiveFrom l.schema) (hready : Ready cat w.compiler)
    (hs : w.Sound) (hl : w.Knows l) (hkind : l.kind = .fixed)
    (hfixed : cat.fixedLayout l.schema = .ok l) (hlen : widths.length = l.forcedFields.length) :
    ∃ l' w', SpaceM.layout l.schema (.varying widths) w = .ok l' w' ∧ w'.Sound ∧ w.Learns w' ∧
      l.Narrowed widths l' := by
  obtain ⟨l', d, hrun, hready'⟩ := Compiler.Ready.layout_chosen hlive hready ⟨l, hfixed, hlen⟩
  have hask : SpaceM.layout l.schema (.varying widths) w = .ok l' { w with compiler := d } :=
    within_ok.mpr ⟨d, hrun, rfl⟩
  obtain ⟨hs', hlearns, hl', hkey⟩ := layout_knows hs _ _ l' _ hask
  exact ⟨l', _, hask, hs', hlearns, (hl.mono hlearns.toLe).narrowed hl' hs' hready'.faithful
    (hready'.catalog.symm ▸ hlive) (by rw [Layout.key, hkind]) hkey hlen⟩

/-- The minimal layout is the one with the smallest widths; where all of them are the widest one, it is
the plain layout. -/
theorem Compiler.Ready.minimalLayout (hlive : cat.LiveFrom l.schema) (hready : Ready cat w.compiler)
    (hs : w.Sound) (hl : w.Knows l) (hkind : l.kind = .fixed)
    (hfixed : cat.fixedLayout l.schema = .ok l) (r : Record) :
    ∃ l' w', SpaceM.compile (Compiler.minimalLayout l.schema r) w = .ok l' w' ∧
      l'.forcedFields.map (·.encoding) = (l.minimalWidths w.catalog r).map .forced := by
  obtain ⟨l', w', hask, -, -, hnarrow⟩ := hready.layout_narrowed hlive hs hl hkind hfixed
    (show (l.minimalWidths w.catalog r).length = _ from List.length_map _)
  -- the plain layout is known, so it is not compiled again
  have hplain : Compiler.layout l.schema .fixed w.compiler = .ok l w.compiler := by
    have hknown := Compiler.answer_eq_some.mp hl
    rw [Layout.key, hkind] at hknown
    exact outcome_eq_ok.mp (layout_done hknown)
  have hchoose : l.forcedFields.mapIdx (fun _ f => Compiler.minimalWidth w.catalog r f) =
      l.minimalWidths w.catalog r := by
    refine List.ext_getElem ?_ fun i hi hi' => ?_
    · rw [List.length_mapIdx, Layout.minimalWidths, List.length_map]
    · simp only [Layout.minimalWidths, List.getElem_mapIdx, List.getElem_map]
  have hminimal : Compiler.minimalLayout l.schema r w.compiler =
      (if (l.minimalWidths w.catalog r).all (· == .widest) then pure l
        else Compiler.layout l.schema (.varying (l.minimalWidths w.catalog r))) w.compiler := by
    rw [Compiler.minimalLayout,
      bind_of_ok (show theCatalog w.compiler = .ok w.catalog w.compiler from rfl),
      Compiler.chosenLayout, bind_of_ok hplain]
    simp only [hchoose]
  cases hall : (l.minimalWidths w.catalog r).all (· == .widest) with
  | true =>
    rw [hall, if_pos rfl] at hminimal
    refine ⟨l, w, within_ok.mpr ⟨w.compiler, hminimal, rfl⟩, ?_⟩
    have hwidest : (l.minimalWidths w.catalog r).map (fun _ => Width.widest) =
        l.minimalWidths w.catalog r :=
      (List.map_congr_left fun v hv => (beq_iff_eq.mp (List.all_eq_true.mp hall v hv)).symm).trans
        (List.map_id _)
    have hforced := hnarrow.fields.plain.forced
    rwa [hwidest] at hforced
  | false =>
    rw [hall, if_neg Bool.false_ne_true] at hminimal
    obtain ⟨d, hrun, rfl⟩ := within_ok.mp hask
    exact ⟨l', _, within_ok.mpr ⟨d, hminimal.trans hrun, rfl⟩, hnarrow.fields.forced⟩

/-- Where there is a plain layout of fixed width, widths can be chosen for its numbers, whatever has been
asked for before. -/
theorem chosenWidths {id : SchemaId} (hlive : cat.LiveFrom id) (hchecked : cat.Checked)
    {requests : List Compiler.Request} (hrequests : ∀ r ∈ requests, r.Declared cat)
    {w w' : Workspace} (hs : w.Sound) (hasked : w.compiler = Compiler.asked cat requests) {l : Layout}
    (hplain : SpaceM.layout id .fixed w = .ok l w') : WidthsChosen l w' := by
  -- the compiler has answered some requests already; none of them makes the fixed layout another
  have hready := Compiler.asked_ready hlive.toClosed hrequests
  rw [← hasked] at hready
  obtain ⟨hs', hlearns, hl, hkey⟩ := layout_knows hs id .fixed l w' hplain
  obtain ⟨d, hrun, rfl⟩ := within_ok.mp hplain
  obtain rfl : l.schema = id := congrArg Prod.fst hkey
  have hrun : Compiler.layout l.schema .fixed w.compiler = .ok l d := hrun
  have hkind : l.kind = .fixed := congrArg Prod.snd hkey
  have hfixed : l.kind.isFixed = true := by rw [hkind]; rfl
  have hlayout : cat.fixedLayout l.schema = .ok l := by
    have hsame := hready.resting.fixedLayout hlive hready.catalog hready.faithful
    rwa [outcome_of_ok hrun, eq_comm] at hsame
  have hready' : Compiler.Ready cat d := by
    have hnext := Compiler.Request.run_ready (r := .layout l.schema .fixed) hready trivial
    simpa only [Compiler.Request.run, outcome_of_ok hrun] using hnext
  have hlater {v : Workspace} (hle : (Workspace.compilerPart.set d w).Le v) :
      v.catalog.Checked := by
    rw [hle.catalog]
    show d.catalog.Checked
    rw [hready'.catalog]
    exact hchecked
  -- the three parts are the chosen widths, the least widths, and what a write with the least ones
  -- leaves
  refine ⟨fun widths hlen => ?_, fun r => ?_, fun s t hle hsound hrun => ?_⟩
  · obtain ⟨l', v, hask, -, hlearns', hnarrow⟩ :=
      Compiler.Ready.layout_narrowed hlive hready' hs' hl hkind hlayout hlen
    refine ⟨l', v, hask, hnarrow.size, fun s t hle hsound hrun => ?_⟩
    have hle' := hlearns'.toLe.trans hle
    exact hnarrow.writtenBeside hsound (hl.mono hle') (hlater hle') hfixed hrun
  · exact Compiler.Ready.minimalLayout hlive hready' hs' hl hkind hlayout r
  · obtain ⟨l', v, -, -, -, hnarrow⟩ := Compiler.Ready.layout_narrowed hlive hready' hs' hl hkind hlayout
      (show (l.minimalWidths d.catalog s.subject).length = _ from List.length_map _)
    have hleast := hnarrow.least hsound (hl.mono hle) (hlater hle) hfixed hrun
    rwa [hle.catalog] at hleast

end

/-! ## Two numbers and a tag -/

/-- A tag and two numbers. Beside them, a type that refers to itself has been dropped. -/
def sparse : Catalog :=
  ⟨[⟨⟨"Sparse", .managed, [⟨"tag", .scalar .u8, false, [], none⟩,
      ⟨"big", .varint, false, [], none⟩, ⟨"small", .varint, false, [], none⟩]⟩, true⟩,
    ⟨⟨"Former", .managed, [⟨"next", .value (.back ⟨1, 0⟩ "Former") .flexible, true, [], none⟩]⟩,
      false⟩], [], []⟩

/-- The question for their plain layout. -/
def askSparse : SpaceM Layout := SpaceM.layout ⟨0, 0⟩ .fixed

/-- The plain layout. -/
def sparseLayout : Layout := (answer? askSparse (.fresh sparse .standard none)).getD default

/-- What is known after it has been asked for. -/
def sparseSpace : Workspace := after askSparse (.fresh sparse .standard none)

/-- The question for a layout with three bytes and one byte. -/
def askNarrow : SpaceM Layout := SpaceM.layout ⟨0, 0⟩ (.varying [.smallInt, .byte])

/-- A big number and a small one are to be written to an empty stream. -/
def sparseScene : Scene Record :=
  ⟨after askNarrow sparseSpace, .empty,
    ⟨⟨0, 0⟩, [.scalar (.u8 1), .scalar (.u64 70000), .scalar (.u64 5)], [.null, .null, .null]⟩⟩

theorem sparse_runs : (answer? askSparse (.fresh sparse .standard none)).isSome = true ∧
    (answer? askNarrow sparseSpace).isSome = true ∧
    (answer? (writeRecord sparseLayout) sparseScene).isSome = true ∧
    sparseLayout.schema = ⟨0, 0⟩ ∧ sparseLayout.forcedFields.map (·.name) = ["big", "small"] ∧
    sparseLayout.size = .fixed 17 ∧
    sparseLayout.minimalWidths sparse sparseScene.subject = [.smallInt, .byte] := by decide +kernel

theorem sparse_closed : sparse.Closed := by decide

/-- The numbers name no type, so that the dropped one does not matter to them. -/
theorem sparse_liveFrom : sparse.LiveFrom ⟨0, 0⟩ := by
  have hplain : ∀ f ∈ (sparse.schema ⟨0, 0⟩).fields, ∀ type rule, f.shape ≠ .value type rule := by
    intro f hf type rule hshape
    replace hf : f ∈ [_, _, _] := hf
    simp only [List.mem_cons, List.not_mem_nil, or_false] at hf
    rcases hf with rfl | rfl | rfl <;> cases hshape
  refine ⟨sparse_closed, fun s hs f hf type rule hshape => ?_⟩
  rcases Relation.ReflTransGen.cases_head hs with rfl | ⟨t, ⟨g, hg, type', rule', hvalue, -⟩, -⟩
  · exact absurd hshape (hplain f hf type rule)
  · exact absurd hvalue (hplain g hg type' rule')

/-- The two numbers fit three bytes and one byte, which are the smallest widths for them. -/
theorem chosenWidths_sparse : sparse.LiveFrom ⟨0, 0⟩ ∧ sparse.Checked ∧
    WidthsChosen sparseLayout sparseSpace ∧
    ∃ l' t', askNarrow sparseSpace = .ok l' sparseScene.space ∧ l'.size = .fixed 5 ∧
      writeRecord l' sparseScene = .ok () t' ∧
      WrittenBeside sparseLayout l' (sparseLayout.minimalWidths sparse sparseScene.subject) sparseScene
        (after (writeRecord sparseLayout) sparseScene) := by
  obtain ⟨hasked, hnarrow, hwrites, hschema, -, hsize, hminimal⟩ := sparse_runs
  obtain ⟨l, hask, hl⟩ := runs_to_after hasked
  obtain rfl : sparseLayout = l := by rw [sparseLayout, hl, Option.getD_some]
  have hfresh := Workspace.sound_fresh sparse_closed Config.standard none
  have hchecked : sparse.Checked := fun d hd => by
    rcases List.mem_cons.mp hd with rfl | hd
    · exact .inr rfl
    · rw [List.mem_singleton.mp hd]
      exact .inr rfl
  have hchosen : WidthsChosen sparseLayout sparseSpace := chosenWidths sparse_liveFrom hchecked
    (fun r hr => (List.not_mem_nil hr).elim) hfresh (show _ = Compiler.asked sparse [] from rfl) hask
  obtain ⟨hs, hlearns, -⟩ := SpaceM.layout_sound hfresh hask
  obtain ⟨_, hrun, -⟩ := runs_to_after hwrites
  obtain ⟨l', w', hask', ⟨n, hsize', hsaved⟩, hbeside⟩ :=
    hchosen.layouts (sparseLayout.minimalWidths sparse sparseScene.subject) (List.length_map _)
  rw [hschema, hminimal] at hask'
  -- the layout is the one that has been asked for
  obtain ⟨_, hsame, -⟩ := runs_to_after hnarrow
  cases hsame.symm.trans (show askNarrow sparseSpace = .ok l' w' from hask')
  obtain ⟨hs', hlearns', -⟩ := SpaceM.layout_sound hs hask'
  have hleast := (hchosen.least sparseScene _ hlearns'.toLe hs' hrun).1
  rw [show sparseSpace.catalog = sparse from hlearns.catalog] at hleast
  have hwritten := hbeside sparseScene _ (.refl _) hs' hrun
  obtain ⟨t', hrun'⟩ := hwritten.writes.mpr hleast
  refine ⟨sparse_liveFrom, hchecked, hchosen, l', t', hsame, ?_, hrun', hwritten⟩
  rw [hsize, hminimal, SizeRange.fixed.injEq] at hsaved
  have hsum : Width.savedBy [.smallInt, .byte] = 12 := rfl
  rw [hsize', show n = 5 by omega]

/-! ## A failure that has been kept -/

/-- The question for a layout whose only number takes one byte. -/
def askByte : SpaceM Layout := SpaceM.layout ⟨2, 0⟩ (.varying [.byte])

/-- The question for the plain layout. -/
def askTaken : SpaceM Layout := SpaceM.layout ⟨2, 0⟩ .fixed

/-- It has been asked for a layout while records would stand inside themselves. Then the lender is used
no more. -/
def lentSpace : Workspace :=
  (after askByte (.fresh Compiler.lent .standard none)).retain [.record ⟨1, 0⟩, .record ⟨2, 0⟩]

/-- The plain layout. -/
def takenLayout : Layout := (answer? askTaken lentSpace).getD default

/-- The number five, without a note. -/
def takenScene : Scene Record :=
  ⟨after askTaken lentSpace, .empty, ⟨⟨2, 0⟩, [.scalar (.u64 5), .null], [.null, .null]⟩⟩

theorem taken_runs : (answer? askTaken lentSpace).isSome = true ∧
    takenLayout.forcedFields.map (·.slot) = [0] ∧
    (answer? (writeRecord takenLayout) takenScene).isSome = true ∧
    (answer? askByte takenScene.space).isNone = true := by decide +kernel

/-- The failure is kept after there is nothing left that would stand inside itself: there is a plain
layout then, which writes the number, but none with a width that the number fits. -/
theorem chosenWidths_not_of_outlived : ∃ l, askTaken lentSpace = .ok l takenScene.space ∧
    [Width.byte].length = l.forcedFields.length ∧
    (∃ t, writeRecord l takenScene = .ok () t) ∧ l.Admits [.byte] takenScene.subject ∧
    ¬∃ l' w, askByte takenScene.space = .ok l' w := by
  obtain ⟨hasked, hslots, hwrites, hrefused⟩ := taken_runs
  obtain ⟨l, hask, hl⟩ := runs_to_after hasked
  obtain rfl : takenLayout = l := by rw [takenLayout, hl, Option.getD_some]
  obtain ⟨_, hrun, -⟩ := runs_to_after hwrites
  obtain ⟨f, hforced, hslot⟩ := List.map_eq_singleton_iff.mp hslots
  refine ⟨takenLayout, hask, by rw [hforced]; rfl, ⟨_, hrun⟩, ?_, fun ⟨l', w, hok⟩ => ?_⟩
  · rw [Layout.Admits, hforced]
    intro pair hpair
    obtain rfl := List.mem_singleton.mp hpair
    exact ⟨5, by rw [hslot]; rfl, rfl⟩
  · obtain ⟨e, hfail⟩ := fails_to_after hrefused
    rw [hfail] at hok
    cases hok

end RecordLayout
