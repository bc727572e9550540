import Mathlib
import RecordLayout.Proofs.Codec.Clearing
import RecordLayout.Proofs.Codec.RoundTrip

/-!
# Records whose references have been cleared

A walk over a stored record that clears what it finds gives the chunks that a walk gives which does not.
It changes nothing but the slots of the references that it has found, and ends where the record ends. What
it leaves is skipped as before, and a second walk over it finds nothing and changes nothing.

The second walk is not promised if a handle of fixed width has been cleared: its slot holds a padded zero
of variable length then, and its eight bytes read as a chunk that was never made.

Main results:

* `collectRecord_clears` — what a walk that clears leaves;
* `collectRecord_not_clears_fixed_handles` — a handle of fixed width.
-/

namespace RecordLayout

open ByteStream
open Workspace (Runs)

/-- What clearing makes of the bytes of a record that stands at the cursor of `t`, and the handles of fixed
width among what is cleared. -/
def Workspace.Emptied (w : Workspace) (t : ByteStream) (l : Layout) (r : Record) (b b₀ : Bytes)
    (H : List Handle) : Prop :=
  RecordCleared (Parses w (w.readerDepth t.remaining)) (Cleared w (w.readerDepth t.remaining)) w l.key r
    b b₀ H

section

variable {τ : Type} {w v : Workspace} {l : Layout} {t t' : ByteStream} {x : τ} {r : Record}
  {b b₀ : Bytes} {F G : List ChunkId} {H : List Handle} {s' : Scene τ}

/-- A walk that clears has found the chunks `G` from `t` on, has learnt what is known in `v`, and has left
`b₀` where the bytes `b` of a record were. -/
structure Dereferenced (w : Workspace) (l : Layout) (t : ByteStream) (x : τ) (b : Bytes)
    (G : List ChunkId) (v : Workspace) (b₀ : Bytes) (H : List Handle) (t' : ByteStream) : Prop where
  finds : collectRecord true l ⟨w, t, x⟩ = .ok G ⟨v, t', x⟩
  /-- Nothing before or behind the record has changed, and the cursor stands behind it. -/
  overlaid : t.Overlaid b₀ t'
  length : b₀.length = b.length
  skips : v.Runs (skipRecord l) (t'.setPosition t.position) x () t' x
  /-- A second walk finds nothing and changes nothing, whether it clears or not. -/
  again : H = [] → ∀ clear, v.Runs (collectRecord clear l) (t'.setPosition t.position) x [] t' x

/-- If a walk over a stored record succeeds that clears nothing, one that clears succeeds too and finds
the same. -/
theorem collectRecord_clears (hs : w.Sound) (hchecked : w.catalog.Checked) (hl : w.Knows l)
    (h : RecordParse (Parses w (w.readerDepth t.remaining)) w l.key r b F) (hshows : t.Shows b)
    (hlt : b.length < 2 ^ 64) (hbuf : t.Buffered)
    (hrun : collectRecord false l ⟨w, t, x⟩ = .ok G s') :
    s'.stream = t.ahead b.length ∧ (∃ b₀ H, w.Emptied t l r b b₀ H) ∧
      ∀ b₀ H, w.Emptied t l r b b₀ H → ∃ t', Dereferenced w l t x b G s'.space b₀ H t' := by
  obtain ⟨n, hn⟩ : ∃ n, n = w.readerDepth t.remaining := ⟨_, rfl⟩
  have hwalk (clear : Bool) : (collectRecord clear l : Op τ (List ChunkId)) ⟨w, t, x⟩ =
      collectRecordWith n (collectWithin n) clear l ⟨w, t, x⟩ := by
    rw [hn]
    rfl
  have hclears {b₀ : Bytes} {H : List Handle} (hemptied : w.Emptied t l r b b₀ H) :
      Clears (fun clear => collectRecordWith n (collectWithin n) clear l) w t x b b₀ H (· = x) := by
    rw [Workspace.Emptied, ← hn] at hemptied
    -- the layout whose fields are cleared is the one that the walk is given
    obtain ⟨l', hl', hrow⟩ := hemptied.fields
    obtain rfl : l = l' := Option.some.inj (hl.symm.trans hl')
    exact collectRecordWith_clears hs hchecked hl (collectWithin_clears hs hchecked n) hrow (.refl hs)
      hshows hlt
  have hcover := h.cleared (Parses.cleared w _)
  rw [hwalk] at hrun
  refine ⟨?_, hcover, fun b₀ H hemptied => ?_⟩
  · obtain ⟨b₀, H, hemptied⟩ := hcover
    obtain ⟨v, x', rfl, -⟩ := hclears hemptied G s' hrun
    rfl
  · obtain ⟨v, x, rfl, rfl, hcleaned⟩ := hclears hemptied G s' hrun
    obtain ⟨t', hclear, hover⟩ := hcleaned.clears t hshows hbuf
    rw [Workspace.Emptied, ← hn] at hemptied
    have hlen : b₀.length = b.length := hemptied.length (Cleared.inPlace w n)
    have hlater : w.Later v := (Workspace.Later.refl hs).learns hcleaned.learns hcleaned.sound
    -- as much is left to read as before, so values may be nested as deep as before
    have hdepth : n = w.readerDepth (t'.setPosition t.position).remaining := by
      rw [hn, remaining_shown hshows.coherent, remaining_shown hover.back.coherent, shown_setPosition,
        hover.length, position_setPosition]
    refine ⟨t', (hwalk true).trans hclear, hover, hlen, ?_, fun hH clear => ?_⟩
    · -- what is left reads as a record again, and whatever reads as a record is skipped
      obtain ⟨r₀, hparse⟩ := hemptied.parsed hs hchecked (Cleared.leavesNone hs hchecked n)
        (Cleared.none hs (.refl _) n) (Parses.holds_none hs (.refl _) n)
      have hskip := skipRecord_runs (y := x) hs hl (hdepth ▸ hparse) hover.back (by omega)
      rw [hover.forth] at hskip
      exact hskip.later hlater
    · have hagain := hcleaned.again hH clear _ hover.back
      rw [hover.forth] at hagain
      refine Runs.bind ?_ hagain
      rw [hdepth]
      exact readDepth_runs.later hlater

end

/-! ## Deeds -/

/-- A schema with a text in a chunk, and with a handle of fixed width. -/
def deeds : Catalog :=
  ⟨[⟨⟨"Person", .unmanaged, [⟨"name", .value .text .flexible, false, [], none⟩]⟩, true⟩,
    ⟨⟨"Deed", .managed, [⟨"clause", .value .text .fixed, false, [], none⟩,
      ⟨"holder", .value (.record ⟨0, 0⟩) .fixed, false, [], none⟩]⟩, true⟩], [], []⟩

/-- The question for its layout. -/
def askDeed : SpaceM Layout := SpaceM.layout ⟨1, 0⟩ .standard

/-- Its layout. -/
def deedLayout : Layout := (answer? askDeed (.fresh deeds .standard none)).getD default

/-- A workspace with a clause in one chunk and a person in another one. -/
def deedSpace : Workspace :=
  (after askDeed (.fresh deeds .standard none)).setStore
    ⟨[(⟨1⟩, [120]), (⟨2⟩, [2, 97])], 3, 2, 0⟩

/-- The bytes of a deed, by the chunk of its holder. -/
def deedBytes (holder : ChunkId) : Bytes := leBytes 8 1 ++ leBytes 8 holder.id

/-- A deed in a stream, by the chunk of its holder. -/
def deedScene (holder : ChunkId) : Scene Unit := ⟨deedSpace, .ofBytes (deedBytes holder), ()⟩

/-- What a deed is read as, by its holder. -/
def deed (holder : Value) : Record := ⟨⟨1, 0⟩, [.text "x", holder], [⟨1⟩, .null]⟩

/-- What is left of a deed after a walk that clears. -/
def deedAgain (holder : ChunkId) : Scene Unit :=
  let cleared := after (collectRecord true deedLayout) (deedScene holder)
  ⟨cleared.space, cleared.stream.setPosition 0, ()⟩

theorem deeds_closed : deeds.Closed := by decide

/-- What the kernel works out. -/
theorem deed_runs :
    (answer? askDeed (.fresh deeds .standard none)).isSome = true ∧
    deedLayout.fields.map (fun f => (f.slot, f.encoding)) =
      [(0, .placed .chunkText false), (1, .placed (.handle ⟨0, 0⟩ true) false)] ∧
    answer? (collectRecord false deedLayout) (deedScene .null) = some [⟨1⟩] ∧
    answer? (collectRecord false deedLayout) (deedScene ⟨2⟩) = some [⟨1⟩, ⟨2⟩] ∧
    answer? (collectRecord false deedLayout) (deedAgain ⟨2⟩) = none := by
  decide +kernel

theorem deed_known : deedSpace.Sound ∧ deedSpace.Knows deedLayout ∧
    deedSpace.catalog = deeds ∧ deedLayout.key = (⟨1, 0⟩, .standard) := by
  obtain ⟨l, hask, hl⟩ := runs_to_after deed_runs.1
  obtain ⟨hs, hlearns, hknows⟩ :=
    SpaceM.layout_sound (Workspace.sound_fresh deeds_closed _ _) hask
  obtain ⟨-, -, hanswer⟩ := layout_learning (Workspace.sound_fresh deeds_closed _ _) _ _ l _ hask
  rw [deedLayout, hl, Option.getD_some]
  refine ⟨⟨hs.compiler, by decide, by decide, by decide⟩, hknows, hlearns.catalog, ?_⟩
  exact (hs.knows hanswer).2

theorem deeds_checked : deedSpace.catalog.Checked := by
  rw [deed_known.2.2.1]
  intro d hd
  rcases List.mem_cons.mp hd with rfl | hd
  · exact .inr rfl
  · rw [List.mem_singleton.mp hd]
    exact .inr rfl

/-- What clearing leaves of a deed, given what it leaves of the handle. -/
theorem deed_emptied {holder : ChunkId} {v : Value} {c : Bytes} {H : List Handle}
    (hparse : ∀ n, Parses deedSpace (n + 1) (.handle ⟨0, 0⟩ true) v none (leBytes 8 holder.id) [])
    (hclear : ∀ n, Cleared deedSpace (n + 1) (.handle ⟨0, 0⟩ true) v (leBytes 8 holder.id) c H) :
    deedSpace.Emptied (deedScene holder).stream deedLayout (deed v) (deedBytes holder)
      (List.replicate 8 0 ++ c) H := by
  obtain ⟨-, hknows, hcatalog, hkey⟩ := deed_known
  obtain ⟨f, fields, hfields, hf, hrest⟩ := List.map_eq_cons_iff.mp deed_runs.2.1
  obtain ⟨g, fields, rfl, hg, hnil⟩ := List.map_eq_cons_iff.mp hrest
  obtain rfl := List.map_eq_nil_iff.mp hnil
  obtain ⟨hfslot, hfenc⟩ := Prod.mk.inj hf
  obtain ⟨hgslot, hgenc⟩ := Prod.mk.inj hg
  obtain ⟨n, hn⟩ : ∃ n, deedSpace.readerDepth (deedScene holder).stream.remaining = n + 1 :=
    Nat.exists_eq_succ_of_ne_zero (by
      rw [Workspace.readerDepth]
      positivity)
  have htext : Parses deedSpace (n + 1) .chunkText (.text "x") (some ⟨1⟩) (leBytes 8 1) [⟨1⟩] :=
    .chunkText ⟨rfl, rfl⟩ (by decide) rfl rfl
  have hblank : Cleared deedSpace (n + 1) .chunkText (.text "x") (leBytes 8 1)
      (List.replicate 8 0) [] :=
    .cleared rfl htext
  rw [Workspace.Emptied, hn, hkey]
  refine ⟨rfl, by rw [hcatalog]; rfl, rfl, deedLayout, hkey ▸ hknows, ?_⟩
  -- a row ends in nothing
  rw [hfields, deedBytes, ← List.append_nil (leBytes 8 holder.id), ← List.append_nil c,
    ← List.append_nil H, ← List.nil_append (H ++ [])]
  -- for each field what it is read as, the chunk that goes with it, and what clearing leaves
  refine .cons (o := some ⟨1⟩) (F := [⟨1⟩]) ?_ ?_ ?_ (.cons (o := none) (F := []) ?_ ?_ ?_ .nil)
  all_goals first | rw [hfenc, hfslot] | rw [hfslot] | rw [hgenc, hgslot] | rw [hgslot]
  · exact .plain htext
  · rfl
  · exact .unmarked hblank
  · exact .plain (hparse n)
  · rfl
  · exact .unmarked (hclear n)

/-- A deed without a holder. -/
theorem deed_unheld : deedSpace.Emptied (deedScene .null).stream deedLayout (deed .null)
    (deedBytes .null) (List.replicate 8 0 ++ leBytes 8 0) [] := by
  have hnull : SpellsHandle true (leBytes 8 0) .null := ⟨rfl, rfl⟩
  exact deed_emptied (fun n => .noHandle hnull) fun n => .noHandle hnull

/-- Only the clause is cleared, and the second walk finds nothing. -/
theorem collectRecord_clears_deed : ∃ v t', Dereferenced deedSpace deedLayout
    (deedScene .null).stream () (deedBytes .null) [⟨1⟩] v
      (List.replicate 8 0 ++ leBytes 8 0) [] t' := by
  obtain ⟨hs, hknows, -⟩ := deed_known
  obtain ⟨F, hparse⟩ := deed_unheld.record
  obtain ⟨G, hrun, hG⟩ := runs_to_after (show (answer? (collectRecord false deedLayout)
    (deedScene .null)).isSome = true by rw [deed_runs.2.2.1]; rfl)
  obtain rfl : [⟨1⟩] = G := Option.some.inj (deed_runs.2.2.1.symm.trans hG)
  obtain ⟨-, -, hall⟩ := collectRecord_clears hs deeds_checked hknows hparse (shows_ofBytes_self _)
    (by decide) trivial hrun
  exact ⟨_, hall _ _ deed_unheld⟩

/-- A handle of fixed width is cleared like one of variable length, and what is left of it is no null. So
a second walk over the record may fail. -/
theorem collectRecord_not_clears_fixed_handles :
    ¬∀ (w : Workspace) (l : Layout) (t : ByteStream) (r : Record) (b : Bytes) (F G : List ChunkId)
      (s' : Scene Unit), w.Sound → w.catalog.Checked → w.Knows l →
        RecordParse (Parses w (w.readerDepth t.remaining)) w l.key r b F → t.Shows b →
          b.length < 2 ^ 64 → t.Buffered → collectRecord false l ⟨w, t, ()⟩ = .ok G s' →
            ∃ t', collectRecord true l ⟨w, t, ()⟩ = .ok G ⟨s'.space, t', ()⟩ ∧
              ∃ s'', collectRecord false l (⟨s'.space, t'.setPosition t.position, ()⟩ : Scene Unit) =
                .ok [] s'' := by
  intro hall
  have hholder : SpellsHandle true (leBytes 8 2) ⟨2⟩ := ⟨rfl, rfl⟩
  have hemptied : deedSpace.Emptied (deedScene ⟨2⟩).stream deedLayout (deed (.handle ⟨⟨0, 0⟩, ⟨2⟩⟩))
      (deedBytes ⟨2⟩) _ _ :=
    deed_emptied (fun n => .handle hholder (by decide)) fun n => .handle hholder (by decide)
  obtain ⟨hs, hknows, -⟩ := deed_known
  obtain ⟨-, -, -, hfirst, hsecond⟩ := deed_runs
  obtain ⟨F, hparse⟩ := hemptied.record
  obtain ⟨G, hrun, hG⟩ := runs_to_after (show (answer? (collectRecord false deedLayout)
    (deedScene ⟨2⟩)).isSome = true by rw [hfirst]; rfl)
  obtain ⟨t', hclear, s'', hagain⟩ := hall _ _ _ _ _ F G _ hs deeds_checked hknows hparse
    (shows_ofBytes_self _) (by decide) trivial hrun
  -- the walk that clears has left what the kernel has worked out, and there the second one fails
  have hclear' : collectRecord true deedLayout (deedScene ⟨2⟩) = _ := hclear
  rw [deedAgain, after, outcome_of_ok hclear'] at hsecond
  cases hsecond.symm.trans (answer?_of_ok hagain)

end RecordLayout
