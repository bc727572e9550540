import Mathlib
import RecordLayout.Codec.Handle
import RecordLayout.Proofs.Codec.Frame
import RecordLayout.Proofs.Codec.RoundTrip

/-!
# Rollback

Every write runs in a rollback scope of its own, which notes the chunks that come to live in it
(`Op.Tracks`). So a write that fails frees what it has allocated and nothing else (`Op.Guards`),
however many inner writes have succeeded before.

Main results:

* `writeRecord_guards`, `writePlanned_guards` — the scopes around whole and partial writes;
* `writes_leakNothing` — failed writes leak no chunk;
* `failedWrite_restores` — the references of a record that cannot be written.
-/

namespace RecordLayout

open Op

/-! ## Writes in scopes of their own -/

theorem guardingChunks_guards {act : Op Record Unit} (h : act.Tracks) :
    (guardingChunks act).Guards :=
  (Spares.still fun _ => rfl).bind_guards fun _ => h.rollback.onFailure

theorem writeRecordWith_guards (depth : Nat) (l : Layout) :
    (writeRecordWith (writeWithin depth) l).Guards := by
  refine (Spares.still fun _ => rfl).bind_guards fun r => ?_
  refine (Spares.space (idle.requireSchema l r)).bind_guards fun _ => ?_
  exact guardingChunks_guards (leaves.writeBody (leaves.writeWithin depth) l).tracks

/-- A record that cannot be written leaves no chunk behind. -/
theorem writeRecord_guards (l : Layout) : (writeRecord l).Guards :=
  (Spares.still fun _ => rfl).bind_guards fun _ => writeRecordWith_guards _ l

theorem deriveField_spares (f : BoundField) : (deriveField f).Spares := by
  rw [deriveField]
  split
  · exact .still fun _ => rfl
  · exact (Spares.still fun _ => rfl).bind fun r =>
      (Spares.space (idle.derivedValue f r _)).bind fun _ => .still fun _ => rfl

theorem deriveFields_spares (fields : List BoundField) : (fields.forM deriveField).Spares := by
  induction fields with
  | nil => exact .still fun _ => rfl
  | cons f rest ih => exact (deriveField_spares f).bind fun _ => ih

/-- A partial write that fails leaves no chunk behind. -/
theorem writePlanned_guards (l : Layout) (plan : Plan) : (writePlanned l plan).Guards := by
  have hwalk (depth : Nat) := (writeWanted_leaves depth l none l.fields plan.write).tracks
  have hguarded : (readDepth >>= fun depth => guardingChunks (if 1 < plan.write.length
      then inTransaction (writeWanted depth l none l.fields plan.write)
      else writeWanted depth l none l.fields plan.write)).Guards :=
    (Spares.still fun _ => rfl).bind_guards fun depth =>
      guardingChunks_guards (.ite (hwalk depth).inTransaction (hwalk depth))
  refine (Spares.still fun _ => rfl).bind_guards fun r => ?_
  -- the questions before the guard make no chunk, and what is behind it gives back what it has made
  refine (Spares.space (idle.requireSchema l r)).bind_guards fun _ => ?_
  refine (deriveFields_spares plan.derived).bind_guards fun _ => ?_
  refine (Spares.still fun _ => rfl).bind_guards fun config => ?_
  refine (Spares.still fun _ => rfl).bind_guards fun now => ?_
  dsimp only
  split
  · exact (Spares.space (idle.checkPlanned plan now)).bind_guards fun _ => hguarded
  · exact hguarded

theorem storeUnmanaged_guards : storeUnmanaged.Guards := by
  refine (Spares.still fun _ => rfl).bind_guards fun r => ?_
  refine (Spares.space idle.catalog).bind_guards fun c => ?_
  split
  · refine (Spares.space (idle.layout _ _)).bind_guards fun l => ?_
    refine (Spares.space (idle.recordSize l r)).bind_guards fun hint => ?_
    exact (writeRecord_guards l).tracks.allocateWith.bind_sure fun chunk s => ⟨_, s, rfl, rfl⟩
  · exact (Spares.throw _).guards

theorem storeHandle_guards (h : Handle) : (storeHandle h).Guards := by
  refine (Spares.still fun _ => rfl).bind_guards fun r => ?_
  refine (Spares.space idle.catalog).bind_guards fun c => ?_
  split
  · refine (Spares.space (idle.layout _ _)).bind_guards fun l => ?_
    have hcut (s : Scene Record) :
        ∃ u t, (Op.cutHere : Op Record Unit) s = .ok u t ∧ t.space = s.space :=
      ⟨(), { s with stream := s.stream.setSize s.stream.position }, rfl, rfl⟩
    exact ((writeRecord_guards l).bind_sure fun _ => hcut).withChunk
  · exact (Spares.throw _).guards

/-! ## Failed writes -/

/-- Work that fails leaves the live chunks as they were, and work that succeeds frees none. -/
def Op.LeaksNothing {τ α : Type} (act : Op τ α) (s : Scene τ) : Prop :=
  match act s with
  | .ok _ t => t.space.store.Sound ∧ s.space.store.live ⊆ t.space.store.live
  | .error _ t => t.space.store.Sound ∧ t.space.store.live = s.space.store.live

theorem Op.Guards.leaksNothing {τ α : Type} {act : Op τ α} (h : act.Guards) {s : Scene τ}
    (hs : s.space.store.Sound) : act.LeaksNothing s := by
  have hs := h s hs
  rw [Op.LeaksNothing]
  cases hrun : act s with
  | ok a t =>
    rw [hrun] at hs
    obtain ⟨fresh, hmade⟩ := hs
    exact ⟨hmade.store.sound, hmade.store.live.subset⟩
  | error e t =>
    rw [hrun] at hs
    exact ⟨hs.store.sound, hs.store.live_eq⟩

/-- Failed writes leak no chunk: of a whole record, of some of its fields, into a new chunk and into
the chunk of a handle. -/
theorem writes_leakNothing {s : Scene Record} (hs : s.space.store.Sound) (l : Layout) (plan : Plan)
    (h : Handle) :
    (writeRecord l).LeaksNothing s ∧ (writePlanned l plan).LeaksNothing s ∧
      storeUnmanaged.LeaksNothing s ∧ (storeHandle h).LeaksNothing s :=
  ⟨(writeRecord_guards l).leaksNothing hs, (writePlanned_guards l plan).leaksNothing hs,
    storeUnmanaged_guards.leaksNothing hs, (storeHandle_guards h).leaksNothing hs⟩

/-- Two texts that are to be written, where the store refuses the second chunk. -/
def twoTextsRefused : Scene Record :=
  ⟨after askTwoTexts (.fresh twoTexts .standard (some 2)), .empty,
    ⟨⟨0, 0⟩, [.text "left", .text "right"], [.null, .null]⟩⟩

/-- The run. The first text gets a chunk, the second does not. -/
theorem twoTextsRefused_runs :
    (answer? askTwoTexts (.fresh twoTexts .standard (some 2))).isSome = true ∧
    twoTextsRefused.space.store.live = [] ∧
    (answer? (writeRecord twoTextsLayout) twoTextsRefused).isNone = true ∧
    (after (writeRecord twoTextsLayout) twoTextsRefused).space.store.next = 2 := by
  decide +kernel

/-- A chunk has been allocated before the write fails, and in the end no chunk is live. -/
theorem writes_leakNothing_two_texts :
    twoTextsRefused.space.store.Sound ∧
      ∃ e t, writeRecord twoTextsLayout twoTextsRefused = .error e t ∧
        t.space.store.next = 2 ∧ t.space.store.live = [] := by
  obtain ⟨hasked, hlive, hfails, hnext⟩ := twoTextsRefused_runs
  obtain ⟨l, hask, -⟩ := runs_to_after hasked
  have hsound : twoTextsRefused.space.store.Sound :=
    (SpaceM.layout_sound (Workspace.sound_fresh twoTexts_closed _ _) hask).1.store
  have hleaks := (writes_leakNothing hsound twoTextsLayout (.full twoTextsLayout)
    ⟨⟨0, 0⟩, .null⟩).1
  -- the refused write is a failure with the next identifier one further
  rw [answer?, outcome] at hfails
  rw [after, outcome] at hnext
  rw [Op.LeaksNothing] at hleaks
  cases hrun : writeRecord twoTextsLayout twoTextsRefused with
  | ok u t =>
    rw [hrun] at hfails
    cases hfails
  | error e t =>
    rw [hrun] at hnext hleaks
    exact ⟨hsound, e, t, rfl, hnext, hleaks.2.trans hlive⟩

/-! ## References after a failed write -/

theorem guardingChunks_failed {act : Op Record Unit} {s t : Scene Record} {e : FormatError}
    (h : guardingChunks act s = .error e t) : t.subject.chunks = s.subject.chunks := by
  have hmend : Op.onFailure (fun now => { now with chunks := s.subject.chunks }) (rollback act) s =
      .error e t := h
  rw [Op.onFailure] at hmend
  split at hmend
  · cases hmend
  · cases hmend
    rfl

/-- However deep inside another record it is to be written, a record that cannot be written has the
references of its own that it had. -/
theorem writeRecordWith_failed {depth : Nat} {l : Layout} {s t : Scene Record} {e : FormatError}
    (hs : s.space.store.Sound) (hfails : writeRecordWith (writeWithin depth) l s = .error e t) :
    t.subject.chunks = s.subject.chunks ∧ t.space.store.live = s.space.store.live ∧
      ∀ c ∈ t.subject.companions, c ∈ t.space.store.live → c ∈ s.subject.companions := by
  have hguards := writeRecordWith_guards depth l s hs
  have hleaves : (writeRecordWith (writeWithin depth) l).Leaves [] :=
    leaves.writeRecordWith (leaves.writeWithin depth) l
  have hframe := hleaves.frame s hs
  rw [outcome_of_error hfails] at hframe
  rw [hfails] at hguards
  have hlive : t.space.store.live = s.space.store.live := hguards.store.live_eq
  refine ⟨?_, hlive, fun c hc hheld => ?_⟩
  · obtain hread | ⟨r, s₁, hread, hrest⟩ := bind_error.mp hfails
    · cases hread
    · cases hread
      -- questions leave the record as it is
      have hsame : (outcome (Op.space (requireSchema l s.subject) : Op Record Unit) s).2.subject =
          s.subject := by
        rw [Op.space, outcome_within]
        rfl
      obtain hrefused | ⟨u, s₂, hallowed, hwrite⟩ := bind_error.mp hrest
      · rw [outcome_of_error hrefused] at hsame
        rw [hsame]
      · rw [outcome_of_ok hallowed] at hsame
        rw [guardingChunks_failed hwrite, hsame]
  · rw [hlive] at hheld
    exact (hframe.names c hc).resolve_right fun hdead => hdead hheld

/-- A record that cannot be written has the references of its own that it had, and the chunks are live
that were live. Records inside it that had been written by then keep the references that they got, but
none of these leads to a live chunk. -/
theorem failedWrite_restores {l : Layout} {s t : Scene Record} {e : FormatError}
    (hs : s.space.store.Sound) (hfails : writeRecord l s = .error e t) :
    t.subject.chunks = s.subject.chunks ∧ t.space.store.live = s.space.store.live ∧
      ∀ c ∈ t.subject.companions, c ∈ t.space.store.live → c ∈ s.subject.companions := by
  obtain hread | ⟨r, s₁, hread, hwrite⟩ := bind_error.mp hfails
  · cases hread
  · cases hread
    exact writeRecordWith_failed hs hwrite

/-! ## Letters -/

/-- Pages with a text in a chunk, and letters that have a page in line before their stamp. -/
def letters : Catalog :=
  ⟨[⟨⟨"Page", .managed, [⟨"text", .value .text .fixed, false, [], none⟩]⟩, true⟩,
    ⟨⟨"Letter", .managed, [⟨"page", .value (.record ⟨0, 0⟩) .flexible, false, [], none⟩,
      ⟨"stamp", .scalar .u8, false, ["page"], none⟩]⟩, true⟩], [], []⟩

/-- The question for the layout of letters. -/
def askLetters : SpaceM Layout := SpaceM.layout ⟨1, 0⟩ .standard

/-- Their layout. -/
def letterLayout : Layout := (answer? askLetters (.fresh letters .standard none)).getD default

/-- A letter that is to be written, with a stamp that is no number. -/
def unstamped : Scene Record :=
  ⟨after askLetters (.fresh letters .standard none), .empty,
    ⟨⟨1, 0⟩, [.record ⟨⟨0, 0⟩, [.text "x"], [.null]⟩, .text "none"], [.null, .null]⟩⟩

theorem letters_closed : letters.Closed := by decide

/-- What is left after an attempt to write the letter. -/
def unstampedFailed : Scene Record := after (writeRecord letterLayout) unstamped

/-- The layout can be had, the letter cannot be written, and afterwards its page names the chunk that
was allocated for its text. -/
theorem unstamped_fails : (answer? askLetters (.fresh letters .standard none)).isSome = true ∧
    (answer? (writeRecord letterLayout) unstamped).isNone = true ∧
    unstampedFailed.subject.companions = [⟨1⟩] := by decide +kernel

/-- The letter names no chunk before. -/
theorem unstamped_companions : unstamped.subject.companions = [] := rfl

theorem unstamped_prepared : Prepared letterLayout unstamped := by
  obtain ⟨l, hask, hl⟩ := runs_to_after unstamped_fails.1
  have hlayout : letterLayout = l := by rw [letterLayout, hl, Option.getD_some]
  obtain ⟨hs, hlearns, hknows⟩ :=
    SpaceM.layout_sound (Workspace.sound_fresh letters_closed _ _) hask
  have hcatalog : unstamped.space.catalog = letters := hlearns.catalog
  refine ⟨hs, by rw [hlayout]; exact hknows, ⟨trivial, Nat.le_refl _⟩, ?_⟩
  rw [hcatalog]
  refine RecordOf.ready_of_no_scalars rfl rfl fun v hv => ?_
  rcases List.mem_cons.mp hv with rfl | hmem
  · refine ⟨RecordOf.ready_of_no_scalars rfl rfl fun v hv => ?_, fun _ => nofun⟩
    rw [List.mem_singleton.mp hv]
    refine ⟨?_, fun _ => nofun⟩
    show (Utf8.encode "x").length + 1 < 2 ^ 64
    decide
  · rw [List.mem_singleton.mp hmem]
    refine ⟨?_, fun _ => nofun⟩
    show (Utf8.encode "none").length + 1 < 2 ^ 64
    decide

theorem failedWrite_restores_letter :
    unstamped.space.store.Sound ∧ ∃ e, writeRecord letterLayout unstamped = .error e unstampedFailed ∧
      unstampedFailed.subject.chunks = [.null, .null] ∧
      (⟨1⟩ : ChunkId) ∉ unstampedFailed.space.store.live := by
  obtain ⟨e, hfails⟩ := fails_to_after unstamped_fails.2.1
  have hs : unstamped.space.store.Sound := unstamped_prepared.space.store
  obtain ⟨hchunks, -, hnames⟩ := failedWrite_restores hs hfails
  refine ⟨hs, e, hfails, hchunks, fun hlive => ?_⟩
  have hnamed : (⟨1⟩ : ChunkId) ∈ unstampedFailed.subject.companions := by
    rw [unstamped_fails.2.2]
    exact List.mem_singleton.mpr rfl
  have hbefore := hnames _ hnamed hlive
  rw [unstamped_companions] at hbefore
  exact List.not_mem_nil hbefore

/-- The references of records inside a record that cannot be written are not restored. -/
theorem failedWrite_not_restores_inside :
    ¬∀ (l : Layout) (s t : Scene Record) (e : FormatError), Prepared l s →
      Owns s.space s.subject.companions → writeRecord l s = .error e t →
        t.subject.companions = s.subject.companions := by
  intro hall
  obtain ⟨e, hfails⟩ := fails_to_after unstamped_fails.2.1
  have hown : Owns unstamped.space unstamped.subject.companions := by
    rw [unstamped_companions]
    exact ⟨List.nodup_nil, fun c hc => (nomatch hc)⟩
  have hsame := hall _ _ unstampedFailed e unstamped_prepared hown hfails
  rw [unstamped_fails.2.2, unstamped_companions] at hsame
  exact List.cons_ne_nil _ _ hsame

end RecordLayout
