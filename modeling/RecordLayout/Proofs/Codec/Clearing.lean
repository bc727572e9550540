import Mathlib
import RecordLayout.Proofs.Codec.Cleared
import RecordLayout.Proofs.Codec.Local

/-!
# Walks that clear references

A walk that clears the references of a record finds the chunks that a walk finds which does not, if that
one succeeds, whatever stands in the chunks. It leaves the bytes of the record as `Cleared` says, and all
bytes before and behind them as they were. The two walks learn the same on the way, as they ask the same
questions in the same order, and what one has cleared the other has passed.

A second walk finds nothing and changes nothing, unless a handle of fixed width was cleared. What it asks
has been answered before.

Main results:

* `Op.Local.passes` — what an operation does to some bytes, it does in one and the same way wherever they
  stand;
* `Clears.after`, `Clears.append`, `walkReference_clears` — steps of a walk;
* `collectFieldsWith_clears` — fields in a row, by induction along the row;
* `collectWithin_clears` — values at any depth.
-/

namespace RecordLayout

open ByteStream
open Workspace (Runs)

/-! ## Walks -/

section

variable {τ υ α : Type} {w u u₁ : Workspace} {t t' : ByteStream} {x x₁ : τ} {a : α}
  {b b₀ c c₀ : Bytes} {H K : List Handle}

/-- A walk that runs in one space runs in every later one. -/
theorem Workspace.Runs.later {act : Op τ α} {x' : τ} (h : w.Runs act t x a t' x') (hu : w.Later u) :
    u.Runs act t x a t' x' :=
  fun v hv => h v (hu.trans hv)

/-- What an operation does with some bytes, it does wherever they stand, and it learns the same. -/
theorem Op.Local.passes {act : Op τ α} (h : act.Local)
    (hruns : w.Runs act t x a (t.ahead b.length) x₁) (hu : w.Later u) (hshows : t.Shows b) :
    ∃ u', u.Learns u' ∧ u'.Sound ∧ ∀ t' : ByteStream, t'.Shows b →
      act ⟨u, t', x⟩ = .ok a ⟨u', t'.ahead b.length, x₁⟩ := by
  obtain ⟨u', hrun, hlearns, hs'⟩ := hruns u hu
  obtain ⟨d, hd, hstream, hsame⟩ := h ⟨u, t, x⟩ a _ hshows.coherent hrun
  -- the operation has passed `d`, which begins where `b` does and ends where it ends
  have hlen : b.length = d.length := by
    have hposition := congrArg ByteStream.position hstream
    simp only [position_ahead] at hposition
    omega
  obtain rfl : b = d :=
    (List.prefix_of_prefix_length_le hshows.prefixed hd.prefixed (Nat.le_of_eq hlen)).eq_of_length hlen
  exact ⟨u', hlearns, hs', hsame⟩

/-- A local walk runs alike wherever the same bytes stand. -/
theorem Op.Local.elsewhere {act : Op τ α} (h : act.Local)
    (hruns : w.Runs act t x a (t.ahead b.length) x₁) (hshows : t.Shows b) (ht : t'.Shows b) :
    w.Runs act t' x a (t'.ahead b.length) x₁ := by
  intro v hv
  obtain ⟨v', hlearns, hs', hpass⟩ := h.passes hruns hv hshows
  exact ⟨v', hpass t' ht, hlearns, hs'⟩

/-- What a walk that does not clear has found on bytes, a walk finds that does, and learns the same. It
leaves other bytes, on which a walk finds nothing ever after, unless handles of fixed width are among
what was cleared. -/
structure Cleaned (act : Bool → Op τ (List ChunkId)) (u u' : Workspace) (x x' : τ) (b b₀ : Bytes)
    (G : List ChunkId) (H : List Handle) : Prop where
  learns : u.Learns u'
  sound : u'.Sound
  clears : ∀ t : ByteStream, t.Shows b → t.Buffered →
    ∃ t', act true ⟨u, t, x⟩ = .ok G ⟨u', t', x'⟩ ∧ t.Overlaid b₀ t'
  again : H = [] → ∀ clear t, t.Shows b₀ → u'.Runs (act clear) t x [] (t.ahead b₀.length) x'

/-- If a walk that does not clear succeeds here, it ends behind the bytes, and a walk that clears leaves
others. -/
def Clears (act : Bool → Op τ (List ChunkId)) (u : Workspace) (t : ByteStream) (x : τ)
    (b b₀ : Bytes) (H : List Handle) (post : τ → Prop) : Prop :=
  ∀ G s', act false ⟨u, t, x⟩ = .ok G s' →
    ∃ u' x', s' = ⟨u', t.ahead b.length, x'⟩ ∧ post x' ∧ Cleaned act u u' x x' b b₀ G H

namespace Clears

variable {post post' : τ → Prop}

/-- A walk may be said to end in less than it does. -/
theorem mono {act : Bool → Op τ (List ChunkId)} (h : Clears act u t x b b₀ H post)
    (himp : ∀ y, post y → post' y) : Clears act u t x b b₀ H post' := by
  intro G s' hrun
  obtain ⟨u', x', hs', hpost, hcleaned⟩ := h G s' hrun
  exact ⟨u', x', hs', himp x' hpost, hcleaned⟩

/-! ### Steps -/

/-- Bytes that are passed first. -/
theorem after {act : Op τ α} {next : Bool → α → Op τ (List ChunkId)} (hlocal : act.Local)
    (hruns : w.Runs act t x a (t.ahead b.length) x₁) (hu : w.Later u) (hshows : t.Shows (b ++ c))
    (hnext : ∀ u₁, w.Later u₁ → Clears (fun clear => next clear a) u₁ (t.ahead b.length) x₁ c c₀ H post) :
    Clears (fun clear => act >>= next clear) u t x (b ++ c) (b ++ c₀) H post := by
  intro G s' hrun
  -- both walks pass `b` in the same way, so the rest of each starts from the same workspace
  obtain ⟨u₁, hlearns, hs₁, hpass⟩ := hlocal.passes hruns hu hshows.left
  have hthen : next false a ⟨u₁, t.ahead b.length, x₁⟩ = .ok G s' :=
    (bind_of_ok (hpass t hshows.left)).symm.trans hrun
  obtain ⟨u', x', rfl, hpost, h⟩ := hnext u₁ (hu.learns hlearns hs₁) G s' hthen
  refine ⟨u', x', by rw [List.length_append, ahead_ahead], hpost, hlearns.trans h.learns, h.sound,
    fun t' ht hbuf => ?_, fun hH clear t' ht => ?_⟩
  · obtain ⟨t'', hclear, hover⟩ :=
      h.clears (t'.ahead b.length) ht.right ((staysOn_setPosition t' _).buffered hbuf)
    exact ⟨t'', (bind_of_ok (hpass t' ht.left)).trans hclear, (Overlaid.ahead ht.left hbuf).trans hover⟩
  · rw [List.length_append, ← ahead_ahead]
    have hlater : w.Later u' := hu.learns (hlearns.trans h.learns) h.sound
    exact ((hlocal.elsewhere hruns hshows.left ht.left).later hlater).bind (h.again hH clear _ ht.right)

/-- A walk over nothing. -/
theorem nothing (hs : u.Sound) (hpost : post x) :
    Clears (fun _ => pure []) u t x [] [] [] post := by
  intro G s' hrun
  obtain ⟨rfl, rfl⟩ := pure_ok.mp hrun
  simp only [List.length_nil, ahead_zero]
  refine ⟨u, x, rfl, hpost, .refl u, hs, fun t' ht' hbuf => ⟨t', rfl, ?_⟩, fun _ _ t' _ => ?_⟩
  · have hover := Overlaid.ahead ht' hbuf
    rwa [List.length_nil, ahead_zero] at hover
  · rw [List.length_nil, ahead_zero]
    exact .pure []

/-- Bytes behind which nothing is left to do. -/
theorem ends {act : Op τ α} {next : Bool → α → Op τ (List ChunkId)} (hlocal : act.Local)
    (hruns : w.Runs act t x a (t.ahead b.length) x₁) (hu : w.Later u) (hshows : t.Shows b)
    (hend : ∀ clear, next clear a = pure []) (hpost : post x₁) :
    Clears (fun clear => act >>= next clear) u t x b b [] post := by
  intro G s' hrun
  obtain ⟨u₁, hlearns, hs₁, hpass⟩ := hlocal.passes hruns hu hshows
  have hsame (clear : Bool) (t' : ByteStream) (ht : t'.Shows b) :
      (act >>= next clear) ⟨u, t', x⟩ = .ok [] ⟨u₁, t'.ahead b.length, x₁⟩ := by
    rw [bind_of_ok (hpass t' ht), hend]
    rfl
  cases (hsame false t hshows).symm.trans hrun
  refine ⟨u₁, x₁, rfl, hpost, hlearns, hs₁, fun t' ht hbuf => ?_, fun _ clear t' ht => ?_⟩
  · exact ⟨_, hsame true t' ht, .ahead ht hbuf⟩
  · refine ((hlocal.elsewhere hruns hshows ht).later (hu.learns hlearns hs₁)).bind ?_
    rw [hend]
    exact .pure []

/-- A question that has been answered. -/
theorem asked {ask : SpaceM α} {next : Bool → α → Op τ (List ChunkId)} (hanswer : ask u = .ok a u₁)
    (hlearns : u.Learns u₁) (hnext : Clears (fun clear => next clear a) u₁ t x b b₀ H post)
    (hagain : ∀ u' x', u₁.Later u' → post x' → H = [] → ∀ clear t, t.Shows b₀ →
      u'.Runs (next clear a) t x [] (t.ahead b₀.length) x' →
        u'.Runs (Op.space ask >>= next clear) t x [] (t.ahead b₀.length) x') (hs₁ : u₁.Sound) :
    Clears (fun clear => Op.space ask >>= next clear) u t x b b₀ H post := by
  intro G s' hrun
  have hspace (t' : ByteStream) : (Op.space ask : Op τ α) ⟨u, t', x⟩ = .ok a ⟨u₁, t', x⟩ :=
    Op.space_ok.mpr ⟨u₁, hanswer, rfl⟩
  obtain ⟨u', x', hs', hpost, h⟩ := hnext G s' ((bind_of_ok (hspace t)).symm.trans hrun)
  refine ⟨u', x', hs', hpost, hlearns.trans h.learns, h.sound, fun t' ht hbuf => ?_,
    fun hH clear t' ht => ?_⟩
  · obtain ⟨t'', hclear, hover⟩ := h.clears t' ht hbuf
    exact ⟨t'', (bind_of_ok (hspace t')).trans hclear, hover⟩
  · exact hagain u' x' ((Workspace.Later.refl hs₁).learns h.learns h.sound) hpost hH clear t' ht
      (h.again hH clear t' ht)

/-- A question whose answer is the same ever after. -/
theorem settled {ask : SpaceM α} {next : Bool → α → Op τ (List ChunkId)} (hu : w.Later u)
    (hask : ∀ a u₁, ask u = .ok a u₁ → u₁.Sound ∧ u.Learns u₁ ∧ u₁.Steady ask a)
    (hnext : ∀ a u₁, ask u = .ok a u₁ → w.Later u₁ →
      Clears (fun clear => next clear a) u₁ t x b b₀ H post) :
    Clears (fun clear => Op.space ask >>= next clear) u t x b b₀ H post := by
  intro G s' hrun
  obtain ⟨a, s₁, hspace, -⟩ := bind_ok.mp hrun
  obtain ⟨u₁, hanswer, rfl⟩ := Op.space_ok.mp hspace
  obtain ⟨hs₁, hlearns, hsteady⟩ := hask a u₁ hanswer
  exact asked hanswer hlearns (hnext a u₁ hanswer (hu.learns hlearns hs₁))
    (fun u' x' hlater _ _ clear t' _ h => (Runs.space (hsteady.mono hlater.toLe)).bind h) hs₁ G s' hrun

/-- A question whose answer is known. -/
theorem known {ask : SpaceM α} {next : Bool → α → Op τ (List ChunkId)} (hu : w.Later u)
    (hsteady : w.Steady ask a)
    (hnext : ∀ u₁, w.Later u₁ → Clears (fun clear => next clear a) u₁ t x b b₀ H post) :
    Clears (fun clear => Op.space ask >>= next clear) u t x b b₀ H post := by
  obtain ⟨u₁, hanswer, hs₁, hlearns⟩ := hsteady u hu.toLe hu.sound
  have hlater := hu.learns hlearns hs₁
  refine asked hanswer hlearns (hnext u₁ hlater) (fun u' x' hu' _ _ clear t' _ h => ?_) hs₁
  exact (Runs.space (hsteady.mono (hlater.trans hu').toLe)).bind h

/-- One walk after another. -/
theorem append {first rest : Bool → Op τ (List ChunkId)} {mid : τ → Prop} (hu : w.Later u)
    (hlen : b₀.length = b.length) (hfirst : Clears first u t x b b₀ H mid)
    (hrest : ∀ u₁ x₁, w.Later u₁ → mid x₁ → Clears rest u₁ (t.ahead b.length) x₁ c c₀ K post) :
    Clears (fun clear => do
      let found ← first clear
      let others ← rest clear
      pure (found ++ others)) u t x (b ++ c) (b₀ ++ c₀) (H ++ K) post := by
  intro G s' hrun
  obtain ⟨F₁, s₁, hrun₁, hthen⟩ := bind_ok.mp hrun
  obtain ⟨F₂, s₂, hrun₂, hpure⟩ := bind_ok.mp hthen
  obtain ⟨rfl, rfl⟩ := pure_ok.mp hpure
  obtain ⟨u₁, x₁, rfl, hmid, h₁⟩ := hfirst F₁ s₁ hrun₁
  have hlater := hu.learns h₁.learns h₁.sound
  obtain ⟨u₂, x₂, rfl, hpost, h₂⟩ := hrest u₁ x₁ hlater hmid F₂ s₂ hrun₂
  -- the walk that clears goes on where it has overlaid the first part, with the second part intact
  refine ⟨u₂, x₂, by rw [List.length_append, ahead_ahead], hpost, h₁.learns.trans h₂.learns, h₂.sound,
    fun t' ht hbuf => ?_, fun hH clear t' ht => ?_⟩
  · obtain ⟨t₁, hclear₁, hover₁⟩ := h₁.clears t' ht.left hbuf
    obtain ⟨t₂, hclear₂, hover₂⟩ := h₂.clears t₁ (hover₁.shows ht hlen) hover₁.buffered
    exact ⟨t₂, bind_ok.mpr ⟨_, _, hclear₁, bind_ok.mpr ⟨_, _, hclear₂, rfl⟩⟩, hover₁.trans hover₂⟩
  · obtain ⟨rfl, rfl⟩ := List.append_eq_nil_iff.mp hH
    rw [List.length_append, ← ahead_ahead]
    -- what the second part has taught does not change what a walk over the first finds
    have hlater₂ : u₁.Later u₂ := (Workspace.Later.refl h₁.sound).learns h₂.learns h₂.sound
    exact ((h₁.again rfl clear t' ht.left).later hlater₂).bind
      ((h₂.again rfl clear _ ht.right).bind (.pure []))

/-- Naming the field in the error does not change what a walk clears. -/
theorem inField {f : BoundField} {act : Bool → Op τ (List ChunkId)}
    (h : Clears act u t x b b₀ H post) :
    Clears (fun clear => Op.inField f (act clear)) u t x b b₀ H post := by
  intro G s' hrun
  obtain ⟨u', x', hs', hpost, h⟩ := h G s' (Op.inField_ok.mp hrun)
  refine ⟨u', x', hs', hpost, h.learns, h.sound, fun t' ht hbuf => ?_, fun hH clear t' ht =>
    .inField (h.again hH clear t' ht)⟩
  obtain ⟨t'', hclear, hover⟩ := h.clears t' ht hbuf
  exact ⟨t'', Op.inField_ok.mpr hclear, hover⟩

/-- A walk on a subject of its own. -/
theorem withSubject {y : υ} {act : Bool → Op υ (List ChunkId)} {post : υ → Prop}
    (h : Clears act u t y b b₀ H post) :
    Clears (fun clear => do
      let (found, _) ← Op.withSubject y (act clear)
      pure found) u t x b b₀ H (· = x) := by
  intro G s' hrun
  obtain ⟨out, s₁, hwith, hpure⟩ := bind_ok.mp hrun
  obtain ⟨rfl, rfl⟩ := pure_ok.mp hpure
  obtain ⟨s₂, hact, hout, rfl⟩ := Op.withSubject_ok.mp hwith
  obtain ⟨u', y', rfl, -, h⟩ := h out.1 s₂ hact
  refine ⟨u', x, rfl, rfl, h.learns, h.sound, fun t' ht hbuf => ?_, fun hH clear t' ht =>
    (Runs.withSubject (h.again hH clear t' ht)).bind (.pure [])⟩
  obtain ⟨t'', hclear, hover⟩ := h.clears t' ht hbuf
  exact ⟨t'', bind_ok.mpr ⟨out, _, Op.withSubject_ok.mpr ⟨_, hclear, hout, rfl⟩, rfl⟩, hover⟩

end Clears

end

/-! ## Walks that only look -/

section

variable {τ ρ : Type} {keeps : Prop}

/-- A walk over a reference. If it leads somewhere, `blank` is written over it on request. -/
def walkReference (read : Op τ ρ) (leadsNowhere : ρ → Bool) (walk : ρ → Op τ (List ChunkId))
    (blank : Nat → Bytes) (clear : Bool) : Op τ (List ChunkId) := do
  let start ← Op.position
  let reference ← read
  if leadsNowhere reference then pure []
  else do
    let found ← walk reference
    let stop ← Op.position
    if clear then overwriteSince start (blank (stop - start))
    pure found

/-- A tag and a chunk. -/
def readTagAndChunk : Op τ (Nat × ChunkId) := do
  let tag ← Op.stream ByteSource.readU32
  let chunk ← readChunkId
  pure (tag, chunk)

/-- The walk behind a reference is the walk of references in general, blanked with zeros. -/
theorem collectBehind_eq (clear : Bool) (walk : Op τ (List ChunkId)) :
    collectBehind clear walk = walkReference readChunkId ChunkId.isNull (chunkAndInner · walk)
      (fun _ => List.replicate ChunkId.fixedBytes 0) clear :=
  rfl

/-- The walk behind a tagged reference is the general one, with tag and identifier blanked. -/
theorem collectTagged_eq (clear : Bool) (walk : Nat → Op τ (List ChunkId)) :
    collectTagged clear walk = walkReference readTagAndChunk (fun r => decide (r.1 = 0) || r.2.isNull)
      (fun r => chunkAndInner r.2 (walk r.1)) (fun _ => List.replicate Placement.taggedBytes 0)
      clear := by
  simp only [collectTagged, walkReference, readTagAndChunk, bind_assoc, pure_bind]
  rfl

/-- The walk behind a handle is the general one, blanked with a padded zero. -/
theorem collectHandle_eq (fixed clear : Bool) (layout : SpaceM Layout)
    (walk : Layout → Op τ (List ChunkId)) :
    collectHandle fixed clear layout walk =
      walkReference (readHandleChunk fixed) ChunkId.isNull (fun chunk => do
        let l ← Op.space layout
        chunkAndInner chunk (walk l)) paddedZero clear := by
  simp only [collectHandle, walkReference, bind_assoc]

/-- A walk that does not clear only reads. -/
theorem walkReference_reads {read : Op τ ρ} (hread : read.Reads keeps)
    {walk : ρ → Op τ (List ChunkId)} (hwalk : ∀ a, (walk a).Reads keeps) (leadsNowhere : ρ → Bool)
    (blank : Nat → Bytes) : (walkReference read leadsNowhere walk blank false).Reads keeps := by
  have hposition : Op.Reads keeps (Op.position : Op τ Nat) := .still fun _ => rfl
  exact hposition.bind fun _ => hread.bind fun a => .ite (.pure _) ((hwalk a).bind fun found =>
    hposition.bind fun _ => .pure found)

/-- Collecting a chunk and what is behind it only reads. -/
theorem chunkAndInner_reads (chunk : ChunkId) {walk : Op τ (List ChunkId)} (h : walk.Reads keeps) :
    (chunkAndInner chunk walk).Reads keeps :=
  h.withChunk.bind fun _ => .pure _

/-- Collecting a chunk does not touch the stream the reference stands in. -/
theorem chunkAndInner_streamless (chunk : ChunkId) (walk : Op τ (List ChunkId)) :
    (chunkAndInner chunk walk).Streamless :=
  (Op.Streamless.withChunk chunk walk).bind fun _ => .pure _

/-- A reference that is not cleared is only read. -/
theorem collectBehind_reads {walk : Op τ (List ChunkId)} (h : walk.Reads keeps) :
    (collectBehind false walk).Reads keeps := by
  rw [collectBehind_eq]
  exact walkReference_reads readChunkId_reads (fun a => chunkAndInner_reads a h) _ _

/-- Reading a tagged reference changes nothing but the cursor. -/
theorem readTagAndChunk_reads : Op.Reads keeps (readTagAndChunk : Op τ (Nat × ChunkId)) :=
  (Op.Reads.stream readU32_looks).bind fun _ => readChunkId_reads.bind fun _ => .pure _

/-- Reading a tagged reference depends only on the bytes at the cursor. -/
theorem readTagAndChunk_local : Op.Local (readTagAndChunk : Op τ (Nat × ChunkId)) :=
  (Op.Local.stream readU32_alike).bind fun _ => readChunkId_local.bind fun _ => .pure _

/-- Asking whether an encoding holds chunks may compile and nothing else. -/
theorem holdsChunks_reads (e : Encoding) :
    Op.Reads keeps (Op.compile (e.holdsChunks Compiler.layout) : Op τ Bool) := by
  refine .space (.compile _) fun w hs holds w' hrun => ?_
  obtain ⟨v, hanswer, hlearns, hs'⟩ := holdsChunks_answered hs e
  cases hrun.symm.trans hanswer
  exact ⟨hs', hlearns, trivial⟩

/-- Passing a field changes nothing but the cursor and the values read. -/
theorem passField_reads (depth : Nat) (f : BoundField) : (passField depth f).Reads False :=
  .ite (readFieldWith_reads (readWithin_reads depth) f)
    (Op.Reads.subjectOf.bind fun _ => skipFieldWith_reads (skipWithin_reads depth) f _)

/-- Passing a field depends only on the bytes at the cursor. -/
theorem passField_local (depth : Nat) (f : BoundField) : (passField depth f).Local :=
  .ite (readFieldWith_local (readWithin_local depth) f)
    (Op.Local.subject.bind fun _ => skipFieldWith_local (skipWithin_local depth) f _)

section

variable {depth : Nat} {collectIn : CollectIn Record} (hin : ∀ p, (collectIn false p).Reads False)

include hin

/-- Collecting from a field without clearing only reads. -/
theorem collectFieldWith_reads (f : BoundField) :
    (collectFieldWith depth collectIn false f).Reads False := by
  refine (holdsChunks_reads _).bind fun holds => ?_
  split
  · refine .inField (readPresent_reads _ fun _ => .ite (hin _) ?_)
    exact (inlineSize_reads _).bind fun _ => (passBytes_reads _).bind fun _ => .pure _
  · exact (passField_reads depth f).bind fun _ => .pure _

/-- Collecting from a run of fields without clearing only reads. -/
theorem collectFieldsWith_reads (fields : List BoundField) :
    (collectFieldsWith depth collectIn false fields).Reads False := by
  induction fields with
  | nil => exact .pure _
  | cons f rest ih =>
    exact (collectFieldWith_reads hin f).bind fun _ => ih.bind fun _ => .pure _

/-- Collecting from a record without clearing only reads. -/
theorem collectRecordWith_reads (l : Layout) :
    Op.Reads keeps (collectRecordWith depth collectIn false l : Op τ (List ChunkId)) := by
  refine .ite ?_ ?_
  · exact Op.Reads.catalog.bind fun _ =>
      (Op.Reads.withSubject (collectFieldsWith_reads hin l.fields)).bind fun _ => .pure _
  · exact (followSteps_reads (skipWithin_reads depth) (readWithin_reads depth) _ _ _).bind fun _ =>
      .pure _

end

/-- A tagged reference that is not cleared is only read. -/
theorem collectTagged_reads {walk : Nat → Op τ (List ChunkId)} (h : ∀ tag, (walk tag).Reads keeps) :
    (collectTagged false walk).Reads keeps := by
  rw [collectTagged_eq]
  exact walkReference_reads readTagAndChunk_reads (fun a => chunkAndInner_reads a.2 (h a.1)) _ _

/-- A walk that does not clear only looks, however deep the values are nested. -/
theorem collectWithin_reads (depth : Nat) (p : Placement) :
    Op.Reads keeps (collectWithin depth false p : Op τ (List ChunkId)) := by
  -- the induction is on the depth; without clearing, each placement is a read of its reference and
  -- a walk behind it
  induction depth generalizing τ keeps p with
  | zero => exact .throw _
  | succ depth ih =>
    have hrecord {keeps : Prop} {layout : SpaceM Layout}
        (h : Op.Reads keeps (Op.space layout : Op τ Layout)) :
        Op.Reads keeps (do
          let l ← Op.space layout
          collectRecordWith depth (collectWithin depth) false l : Op τ (List ChunkId)) :=
      h.bind fun l => collectRecordWith_reads (fun p => ih p) l
    cases p with
    | scalar kind => exact (skipWithin_reads _ _).bind fun _ => .pure _
    | inlineText => exact (skipWithin_reads _ _).bind fun _ => .pure _
    | chunkText => exact collectBehind_reads (.pure _)
    | inlineRecord schema => exact hrecord (layout_reads _ _)
    | fixedRecord schema => exact hrecord (layout_reads _ _)
    | wrapped wrapper carrier kind => exact hrecord (layout_reads _ _)
    | chunkRecord schema =>
      exact (layout_reads _ _).bind fun l =>
        collectBehind_reads (collectRecordWith_reads (fun p => ih p) l)
    | handle schema fixed =>
      show Op.Reads keeps (collectHandle fixed false _ _)
      rw [collectHandle_eq]
      exact walkReference_reads (readHandleChunk_reads _) (fun a => (layout_reads _ _).bind fun l =>
        chunkAndInner_reads a (collectRecordWith_reads (fun p => ih p) l)) _ _
    | inlineChoice choice =>
      exact readTag_reads.bind fun _ => .ite (.pure _) (hrecord (variantLayout_reads _ _))
    | chunkChoice choice =>
      exact collectTagged_reads fun _ => hrecord (variantLayout_reads _ _)
    | inlineOpen =>
      exact readTag_reads.bind fun _ => .ite (.pure _) ((openPlacement_reads _).bind fun p => ih p)
    | chunkOpen =>
      exact collectTagged_reads fun _ => (openPlacement_reads _).bind fun p => ih p

end

/-! ## References that are cleared -/

section

variable {τ ρ : Type} {w u : Workspace} {t t' : ByteStream} {x : τ} {b c : Bytes} {H : List Handle}

variable {read : Op τ ρ} {leadsNowhere : ρ → Bool} {walk : ρ → Op τ (List ChunkId)}
  {blank : Nat → Bytes} {a : ρ}

/-- A reference that leads nowhere. -/
theorem walkReference_null (hread : w.Runs read t x a (t.ahead b.length) x)
    (hnull : leadsNowhere a = true) (clear : Bool) :
    w.Runs (walkReference read leadsNowhere walk blank clear) t x [] (t.ahead b.length) x := by
  refine Runs.bind (a := t.position) (fun v hv => ⟨v, rfl, .refl v, hv.sound⟩) (hread.bind ?_)
  rw [if_pos hnull]
  exact .pure []

/-- A reference that leads nowhere is passed with its bytes kept. -/
theorem walkReference_keeps (hlocal : read.Local) (hread : w.Runs read t x a (t.ahead b.length) x)
    (hnull : leadsNowhere a = true) (hu : w.Later u) (hshows : t.Shows b) :
    Clears (walkReference read leadsNowhere walk blank) u t x b b [] (· = x) := by
  intro G s' hrun
  obtain ⟨u', hlearns, hs', hpass⟩ := hlocal.passes hread hu hshows
  have hsame (clear : Bool) (t' : ByteStream) (ht : t'.Shows b) :
      walkReference read leadsNowhere walk blank clear ⟨u, t', x⟩ =
        .ok [] ⟨u', t'.ahead b.length, x⟩ := by
    refine bind_ok.mpr ⟨_, _, Op.position_ok.mpr ⟨rfl, rfl⟩, bind_ok.mpr ⟨a, _, hpass t' ht, ?_⟩⟩
    rw [if_pos hnull]
    rfl
  cases (hsame false t hshows).symm.trans hrun
  refine ⟨u', x, rfl, rfl, hlearns, hs', fun t' ht hbuf => ⟨_, hsame true t' ht, .ahead ht hbuf⟩,
    fun _ clear t' ht => ?_⟩
  exact (walkReference_null (hlocal.elsewhere hread hshows ht) hnull clear).later
    (hu.learns hlearns hs')

/-- A reference that leads somewhere is cleared. What it leads to is only looked at, and it does not
depend on where the reference stands. -/
theorem walkReference_clears (hlocal : read.Local) (hread : w.Runs read t x a (t.ahead b.length) x)
    (hsome : leadsNowhere a = false) (hu : w.Later u) (hshows : t.Shows b) (hpos : 0 < b.length)
    (hblank : (blank b.length).length = b.length) (hlooks : (walk a).Reads True)
    (hfar : (walk a).Streamless)
    (hagain : H = [] → ∃ a₀, leadsNowhere a₀ = true ∧ ∀ t : ByteStream, t.Shows (blank b.length) →
      w.Runs read t x a₀ (t.ahead (blank b.length).length) x) :
    Clears (walkReference read leadsNowhere walk blank) u t x b (blank b.length) H (· = x) := by
  intro G s' hrun
  obtain ⟨u₁, hlearns, hs₁, hpass⟩ := hlocal.passes hread hu hshows
  obtain ⟨_, _, hposition, hrun⟩ := bind_ok.mp hrun
  obtain ⟨rfl, rfl⟩ := Op.position_ok.mp hposition
  rw [bind_of_ok (hpass t hshows), if_neg (by rw [hsome]; exact Bool.false_ne_true)] at hrun
  obtain ⟨found, s₂, hwalk, hrun⟩ := bind_ok.mp hrun
  obtain ⟨rfl, rfl⟩ : found = G ∧ s₂ = s' := by
    cases hrun
    exact ⟨rfl, rfl⟩
  -- what the walk inside leaves: it has only learnt, and the cursor stands behind the reference
  obtain ⟨hs₂, hlearns₂⟩ := hlooks.learns _ _ _ hwalk hs₁
  obtain ⟨hstream, hsame⟩ := hfar _ _ _ hwalk
  have hsubject : s₂.subject = x := by
    have hkept := hlooks.subject trivial ⟨u₁, t.ahead b.length, x⟩
    rwa [outcome_of_ok hwalk] at hkept
  obtain ⟨u₂, t₂, x₂⟩ := s₂
  obtain rfl : t₂ = t.ahead b.length := hstream
  obtain rfl : x₂ = x := hsubject
  refine ⟨u₂, x₂, rfl, rfl, hlearns.trans hlearns₂, hs₂, fun t' ht hbuf => ?_,
    fun hH clear t' ht => ?_⟩
  · -- the same inside, and then the blank is written over what was read
    obtain ⟨t'', hover, hwrite⟩ := overwriteSince_overlaid (x := x₂) ht hbuf hpos hblank
    refine ⟨t'', bind_ok.mpr ⟨_, _, Op.position_ok.mpr ⟨rfl, rfl⟩, bind_ok.mpr ⟨a, _, hpass t' ht, ?_⟩⟩,
      hover⟩
    rw [if_neg (by rw [hsome]; exact Bool.false_ne_true)]
    refine bind_ok.mpr ⟨found, _, hsame (t'.ahead b.length), bind_ok.mpr ⟨_, _,
      Op.position_ok.mpr ⟨rfl, rfl⟩, ?_⟩⟩
    rw [if_pos rfl]
    refine bind_ok.mpr ⟨(), _, ?_, rfl⟩
    rw [position_ahead, Nat.add_sub_cancel_left]
    exact hwrite u₂
  · -- the blank reads as a reference that leads nowhere
    obtain ⟨a₀, hnull, hblankRead⟩ := hagain hH
    exact (walkReference_null (hblankRead t' ht) hnull clear).later
      (hu.learns (hlearns.trans hlearns₂) hs₂)

end

/-! ## Fields -/

/-- A way to collect the chunks of values clears the bytes of values. -/
def ClearsAll (w : Workspace) (clearing : Clearing) (collectIn : {τ : Type} → CollectIn τ) : Prop :=
  ∀ {τ : Type} p v b b₀ H u t (x : τ), clearing p v b b₀ H → w.Later u → t.Shows b →
    b.length < 2 ^ 64 → Clears (fun clear => collectIn clear p) u t x b b₀ H (· = x)

section

variable {w u : Workspace} {l : Layout} {r x : Record} {before rest fields : List BoundField}
  {f : BoundField} {n : Nat} {o : Option ChunkId} {b b₀ : Bytes} {F : List ChunkId}
  {H : List Handle} {t : ByteStream}

/-- The references of a field whose value is placed, behind the marker. -/
theorem collectPlacedField_clears (hs : w.Sound) {collectIn : {τ : Type} → CollectIn τ}
    (hin : ClearsAll w (Cleared w n) collectIn) {p : Placement} {marker : Bool} {v : Value}
    {slots : Nat → Value} (first : SlotParse (Parses w n) w slots (.placed p marker) v o b F)
    (cleared : SlotCleared (Cleared w n) (.placed p marker) v b b₀ H) (hu : w.Later u)
    (hshows : t.Shows b) (hlt : b.length < 2 ^ 64) :
    Clears (fun clear => do
      let present ← if marker then readMarker else pure true
      if present then collectIn clear p
      else do
        let inline ← Op.compile (p.inlineSize Compiler.layout)
        passBytes (inline.getD 0)
        pure []) u t x b b₀ H (· = x) := by
  cases cleared with
  | plain hplain => exact absurd rfl (hplain p marker)
  | @absent _ b =>
    cases first with
    | absent hset hlen =>
      -- the marker, then the room that is left for the value
      have hmarker : t.Shows [if false then 1 else 0] := hshows.left (b := [0])
      have hroom : (t.ahead 1).Shows b := hshows.right (b := [0])
      refine Clears.after (b := [0]) readMarker_local (readMarker_runs hmarker) hu hshows
        fun u₁ hu₁ => ?_
      refine Clears.known hu₁ (Workspace.inlineSize_steady hs hset) fun u₂ hu₂ => ?_
      have hruns : w.Runs (passBytes ((p.sizeIn w.compiler).fixed?.getD 0)) (t.ahead 1) x ()
          ((t.ahead 1).ahead b.length) x := by
        rw [hlen]
        exact passBytes_runs hroom hlen
      exact Clears.ends (passBytes_local _) hruns hu₂ hroom (fun _ => rfl) rfl
  | @present _ _ b b₀ _ hplaced =>
    have hmarker : t.Shows [if true then 1 else 0] := hshows.left (b := [1])
    rw [List.length_cons] at hlt
    exact Clears.after (b := [1]) readMarker_local (readMarker_runs hmarker) hu hshows
      fun u₁ hu₁ => hin p v b b₀ H u₁ (t.ahead 1) x hplaced hu₁ (hshows.right (b := [1])) (by omega)
  | unmarked hplaced => exact hin p v b b₀ H u t x hplaced hu hshows hlt

/-- Whether a field holds references may be known better by the time of a second walk. If it is known
then that it holds none, nothing has been cleared in it. -/
theorem collectFieldWith_clears (hs : w.Sound) (hchecked : w.catalog.Checked) (hl : w.Knows l)
    {collectIn : {τ : Type} → CollectIn τ} (hin : ClearsAll w (Cleared w n) collectIn)
    (hsplit : l.fields = before ++ f :: rest) (hgoverned : Governed w l r before (some x))
    (hdecides : f.governs = true → (r.slot f.slot).Decides)
    (first : SlotParse (Parses w n) w r.slot f.encoding (r.slot f.slot) o b F)
    (cleared : SlotCleared (Cleared w n) f.encoding (r.slot f.slot) b b₀ H) (hu : w.Later u)
    (hshows : t.Shows b) (hlt : b.length < 2 ^ 64) :
    Clears (fun clear => collectFieldWith n collectIn clear f) u t x b b₀ H
      fun x' => Governed w l r (before ++ [f]) (some x') := by
  obtain ⟨x', hpass, hgoverned', hsame⟩ :=
    passField_runs hs hl hsplit hgoverned hdecides first hshows hlt
  obtain ⟨u₁, hanswer, hlearns, hs₁⟩ := holdsChunks_answered hu.sound f.encoding
  have hu₁ := hu.learns hlearns hs₁
  have hnone {v : Workspace} (hv : w.Later v) (hno : f.encoding.holdsIn v.compiler = false) :
      b₀ = b ∧ H = [] :=
    cleared.none (Cleared.none hs hv.compiler n) hno
  unfold collectFieldWith
  cases hholds : f.encoding.holdsIn u₁.compiler with
  | false =>
    -- it holds none for good, so it is passed by the second walk as by the first
    obtain ⟨rfl, rfl⟩ := hnone hu₁ hholds
    rw [hholds] at hanswer
    refine Clears.asked hanswer hlearns ?_ (fun u' y hu' _ _ clear t' ht h => ?_) hs₁
    · cases f.encoding <;>
        exact Clears.ends (passField_local n f) hpass hu₁ hshows (fun _ => rfl) hgoverned'
    · refine Runs.question (P := (· = false)) (fun v hv => ?_) fun holds hno => ?_
      · obtain ⟨v', hask, hlearns', hs'⟩ := holdsChunks_answered hv.sound f.encoding
        refine ⟨_, v', hask, hlearns', hs', ?_⟩
        exact Compiler.holdsIn_false ((hu'.trans hv).learns hlearns' hs').compiler hholds
      · rw [hno]
        exact h
  | true =>
    rw [hholds] at hanswer
    cases he : f.encoding with
    | placed p marker =>
      -- what decides sizes holds no references, so this field is not read into the subject
      have hgoverns : f.governs = false := by
        by_contra hgoverns
        have hno := (hl.good hs).fields.governor_holds hs.compiler.good hchecked (hsplit ▸ by simp)
          (Bool.not_eq_false _ ▸ hgoverns) u₁.compiler
        rw [hholds] at hno
        cases hno
      obtain rfl := hsame hgoverns
      rw [he] at hanswer first cleared
      refine Clears.mono ?_ fun y (hy : y = x') => hy ▸ hgoverned'
      refine Clears.asked hanswer hlearns ?_ (fun u' y hu' hy _ clear t' ht h => ?_) hs₁
      · exact .inField (collectPlacedField_clears hs hin first cleared hu₁ hshows hlt)
      · subst hy
        refine Runs.question (P := fun holds => holds = false → b₀ = b) (fun v hv => ?_)
          fun holds hno => ?_
        · obtain ⟨v', hask, hlearns', hs'⟩ := holdsChunks_answered hv.sound f.encoding
          have hlater := ((hu₁.trans hu').trans hv).learns hlearns' hs'
          exact ⟨_, v', he ▸ hask, hlearns', hs', fun hno => (hnone hlater hno).1⟩
        · cases holds with
          | true => exact h
          | false =>
            -- the second walk knows better and passes the field, which has not been cleared
            obtain rfl := hno rfl
            have hskip := ((passField_local n f).elsewhere hpass hshows ht).later (hu₁.trans hu')
            exact hskip.bind (.pure [])
    | _ =>
      rw [he] at hholds
      cases hholds

/-! ## Fields in a row -/

/-- By induction along the row: what has been passed decides the sizes of what comes after it, and is not
cleared. -/
theorem collectFieldsWith_clears (hs : w.Sound) (hchecked : w.catalog.Checked) (hl : w.Knows l)
    {collectIn : {τ : Type} → CollectIn τ} (hin : ClearsAll w (Cleared w n) collectIn)
    (h : RowCleared (Parses w n) (Cleared w n) w r fields b b₀ H)
    (hsplit : l.fields = before ++ fields) (hgoverned : Governed w l r before (some x))
    (hdecides : ∀ f ∈ fields, f.governs = true → (r.slot f.slot).Decides) (hu : w.Later u)
    (hshows : t.Shows b) (hlt : b.length < 2 ^ 64) :
    Clears (fun clear => collectFieldsWith n collectIn clear fields) u t x b b₀ H fun _ => True := by
  induction h generalizing before x t u with
  | nil => exact Clears.nothing hu.sound trivial
  | @cons f rest o b c b₀ c₀ F H K first _ cleared _ ih =>
    rw [List.length_append] at hlt
    refine Clears.append hu (cleared.length (Cleared.inPlace w n))
      (collectFieldWith_clears hs hchecked hl hin hsplit hgoverned (hdecides f List.mem_cons_self) first
        cleared hu hshows.left (by omega)) fun u₁ x₁ hu₁ hgoverned' => ?_
    exact ih (by rw [hsplit, List.append_assoc]; rfl) hgoverned'
      (fun g hg => hdecides g (List.mem_cons_of_mem _ hg)) hu₁ hshows.right (by omega)

end

/-! ## Records -/

section

variable {τ : Type} {w u : Workspace} {n : Nat} {x : τ} {r : Record} {b b₀ : Bytes} {H : List Handle}
  {t : ByteStream}

/-- A whole record is cleared field by field. -/
theorem collectRecordWith_clears (hs : w.Sound) (hchecked : w.catalog.Checked) {l : Layout}
    (hl : w.Knows l) {collectIn : {τ : Type} → CollectIn τ}
    (hin : ClearsAll w (Cleared w n) collectIn)
    (h : RowCleared (Parses w n) (Cleared w n) w r l.fields b b₀ H) (hu : w.Later u)
    (hshows : t.Shows b) (hlt : b.length < 2 ^ 64) :
    Clears (fun clear => collectRecordWith n collectIn clear l) u t x b b₀ H (· = x) := by
  -- whether the record holds chunks decides if it is walked at all
  obtain ⟨F, hrow⟩ := h.row
  unfold collectRecordWith
  cases hholds : l.holdsChunks with
  | true =>
    refine Clears.known hu (fun v hle hv => ⟨v, ?_, hv, .refl v⟩) fun u₁ hu₁ => Clears.withSubject
      (collectFieldsWith_clears hs hchecked hl hin h (List.nil_append _).symm Governed.start_new
        (hrow.governors_decide hs hl) hu₁ hshows hlt)
    rw [SpaceM.catalog, hle.catalog]
  | false =>
    -- a layout without references is skipped as a whole
    obtain ⟨rfl, rfl⟩ := h.none (Cleared.none hs (.refl _) n) ((hl.good hs).holds hholds)
    exact Clears.ends (skipRecordWith_local n l) (skipRecordWith_runs hs (Parses.fixed hs n)
      (readWithin_runs hs n) (skipWithin_runs hs n) hl hrow hshows hlt) hu hshows (fun _ => rfl) rfl

/-- A record in a layout that is asked for. -/
theorem collectInner_clears (hs : w.Sound) (hchecked : w.catalog.Checked)
    {collectIn : {τ : Type} → CollectIn τ} (hin : ClearsAll w (Cleared w n) collectIn)
    {layout : SpaceM Layout} {key : LayoutKey}
    (hsteady : ∀ l, w.compiler.answer key = some l → w.Steady layout l)
    (h : RecordCleared (Parses w n) (Cleared w n) w key r b b₀ H) (hu : w.Later u)
    (hshows : t.Shows b) (hlt : b.length < 2 ^ 64) :
    Clears (fun clear => do
      let l ← Op.space layout
      collectRecordWith n collectIn clear l) u t x b b₀ H (· = x) := by
  obtain ⟨l, hl, hrow⟩ := h.fields
  exact Clears.known hu (hsteady l hl) fun u₁ hu₁ =>
    collectRecordWith_clears hs hchecked (hs.knows hl).1 hin hrow hu₁ hshows hlt

/-! ## References in records -/

/-- A reference to a chunk is cleared to zeros of the same length. -/
theorem collectBehind_clears {chunk : ChunkId} (hchunk : chunk.Spelled b) (hne : chunk ≠ .null)
    {walk : Op τ (List ChunkId)} (hwalk : walk.Reads True) (hu : w.Later u) (hshows : t.Shows b) :
    Clears (fun clear => collectBehind clear walk) u t x b (List.replicate b.length 0) [] (· = x) := by
  have hlen : b.length = ChunkId.fixedBytes := hchunk.1
  simp only [collectBehind_eq, hlen]
  exact walkReference_clears readChunkId_local (readChunkId_runs hchunk hshows)
    (Bool.eq_false_iff.mpr (not_isNull hne)) hu hshows (by rw [hlen]; decide)
    (List.length_replicate.trans hlen.symm) (chunkAndInner_reads chunk hwalk)
    (chunkAndInner_streamless chunk walk)
    fun _ => ⟨.null, rfl, fun t ht => readChunkId_runs spelled_zeros ht⟩

/-- A null reference keeps its bytes. -/
theorem collectBehind_keeps (hchunk : ChunkId.null.Spelled b) {walk : Op τ (List ChunkId)}
    (hu : w.Later u) (hshows : t.Shows b) :
    Clears (fun clear => collectBehind clear walk) u t x b b [] (· = x) := by
  simp only [collectBehind_eq]
  exact walkReference_keeps readChunkId_local (readChunkId_runs hchunk hshows) rfl hu hshows

/-- A spelled tag and identifier are read as such. -/
theorem readTagAndChunk_runs {tag : Nat} {chunk : ChunkId} (htagged : SpellsTagged b tag chunk)
    (hshows : t.Shows b) :
    w.Runs (readTagAndChunk : Op τ (Nat × ChunkId)) t x (tag, chunk) (t.ahead b.length) x :=
  readTaggedId_runs htagged hshows (.pure _)

/-- A tagged reference to a chunk is cleared, tag and all. -/
theorem collectTagged_clears {tag : Nat} {chunk : ChunkId} (htagged : SpellsTagged b tag chunk)
    (htag : tag ≠ 0) (hne : chunk ≠ .null) {walk : Nat → Op τ (List ChunkId)}
    (hwalk : (walk tag).Reads True) (hu : w.Later u) (hshows : t.Shows b) :
    Clears (fun clear => collectTagged clear walk) u t x b (List.replicate b.length 0) [] (· = x) := by
  have hlen : b.length = Placement.taggedBytes := htagged.length
  have hsome : (decide (tag = 0) || chunk.isNull) = false := by
    simp [htag, Bool.eq_false_iff.mpr (not_isNull hne)]
  simp only [collectTagged_eq, hlen]
  exact walkReference_clears readTagAndChunk_local (readTagAndChunk_runs htagged hshows) hsome hu
    hshows (by rw [hlen]; decide) (List.length_replicate.trans hlen.symm)
    (chunkAndInner_reads chunk hwalk) (chunkAndInner_streamless chunk _)
    fun _ => ⟨(0, .null), rfl, fun t ht => readTagAndChunk_runs spellsTagged_zeros ht⟩

/-- An absent tagged reference keeps its bytes. -/
theorem collectTagged_keeps {chunk : ChunkId} (htagged : SpellsTagged b 0 chunk)
    {walk : Nat → Op τ (List ChunkId)} (hu : w.Later u) (hshows : t.Shows b) :
    Clears (fun clear => collectTagged clear walk) u t x b b [] (· = x) := by
  simp only [collectTagged_eq]
  exact walkReference_keeps readTagAndChunk_local (readTagAndChunk_runs htagged hshows) rfl hu hshows

/-- A null handle keeps its bytes. -/
theorem collectHandle_keeps {fixed : Bool} (hchunk : SpellsHandle fixed b .null)
    {layout : SpaceM Layout} {walk : Layout → Op τ (List ChunkId)} (hu : w.Later u)
    (hshows : t.Shows b) :
    Clears (fun clear => collectHandle fixed clear layout walk) u t x b b [] (· = x) := by
  simp only [collectHandle_eq]
  exact walkReference_keeps (readHandleChunk_local fixed) (readHandleChunk_runs hchunk hshows) rfl hu
    hshows

/-- What is left of a handle of variable length reads as null. -/
theorem collectHandle_clears {fixed : Bool} {chunk : ChunkId} (hchunk : SpellsHandle fixed b chunk)
    (hne : chunk ≠ .null) {layout : SpaceM Layout} {walk : Layout → Op τ (List ChunkId)}
    (hlayout : Op.Reads True (Op.space layout : Op τ Layout)) (hwalk : ∀ l, (walk l).Reads True)
    (hu : w.Later u) (hshows : t.Shows b) (id : SchemaId) :
    Clears (fun clear => collectHandle fixed clear layout walk) u t x b (paddedZero b.length)
      (if fixed then [⟨id, chunk⟩] else []) (· = x) := by
  obtain ⟨hpos, hle⟩ := hchunk.length
  simp only [collectHandle_eq]
  refine walkReference_clears (readHandleChunk_local fixed) (readHandleChunk_runs hchunk hshows)
    (Bool.eq_false_iff.mpr (not_isNull hne)) hu hshows hpos (length_paddedZero hpos)
    (hlayout.bind fun l => chunkAndInner_reads chunk (hwalk l))
    ((Op.Streamless.space layout).bind fun l => chunkAndInner_streamless chunk _) fun hH => ?_
  cases fixed with
  | true =>
    -- a handle of fixed width is among those that are listed
    cases hH
  | false =>
    exact ⟨.null, rfl, fun t ht => readHandleChunk_runs ⟨0, spells_paddedZero hpos hle, rfl⟩ ht⟩

end

/-! ## Values at any depth -/

/-- A walk over values, however deep they are nested. -/
theorem collectWithin_clears {w : Workspace} (hs : w.Sound) (hchecked : w.catalog.Checked) (n : Nat) :
    ClearsAll w (Cleared w n) (collectWithin n) := by
  -- by induction on the depth: the walk inside a value is one over less deep values
  induction n with
  | zero => exact fun _ _ _ _ _ _ _ _ h => h.elim
  | succ n ih =>
    intro τ p v b b₀ H u t x h hu hshows hlt
    have hskip (v : Value) (o : Option ChunkId) (F : List ChunkId)
        (h : Parses w (n + 1) p v o b F) :
        Clears (fun _ => do skipWithin (n + 1) p; pure []) u t x b b [] (· = x) :=
      Clears.ends (skipWithin_local (n + 1) p) (skipWithin_runs hs (n + 1) p v o b F t x h hshows hlt)
        hu hshows (fun _ => rfl) rfl
    have hinside {keeps : Prop} (l : Layout) :
        Op.Reads keeps (collectRecordWith n (collectWithin n) false l : Op τ (List ChunkId)) :=
      collectRecordWith_reads (fun p => collectWithin_reads n p) l
    cases h with
    | kept hleaf h =>
      cases h with
      | scalar hlen hdecode => exact hskip _ _ _ (.scalar hlen hdecode)
      | noText hlen => exact hskip _ _ _ (.noText hlen)
      | text hlen hne hc hdecode => exact hskip _ _ _ (.text hlen hne hc hdecode)
      | noChunkText hchunk => exact collectBehind_keeps hchunk hu hshows
      | noChunkRecord hchunk =>
        -- the layout is asked for before it is seen that the reference leads nowhere
        refine Clears.settled hu (fun l u₁ hask => ?_) fun l u₁ _ hu₁ =>
          collectBehind_keeps hchunk hu₁ hshows
        obtain ⟨hs₁, hlearns, hl⟩ := layout_learning hu.sound _ _ l u₁ hask
        exact ⟨hs₁, hlearns, Workspace.layout_steady hl⟩
      | noChunkChoice htagged => exact collectTagged_keeps htagged hu hshows
      | noChunkOpen htagged => exact collectTagged_keeps htagged hu hshows
      | _ => cases hleaf
    | cleared hleaf h =>
      cases h with
      | chunkText hchunk hne _ _ => exact collectBehind_clears hchunk hne (.pure _) hu hshows
      | chunkRecord hchunk hne _ hrecord =>
        obtain ⟨l, hl, -⟩ := hrecord.fields
        exact Clears.known hu (Workspace.layout_steady hl) fun u₁ hu₁ =>
          collectBehind_clears hchunk hne (hinside l) hu₁ hshows
      | chunkChoice htagged htag hne _ _ _ =>
        exact collectTagged_clears htagged htag hne
          ((variantLayout_reads _ _).bind fun l => hinside l) hu hshows
      | chunkTyped htagged hid hne _ _ _ _ =>
        exact collectTagged_clears htagged hid hne
          ((openPlacement_reads _).bind fun p => collectWithin_reads n p) hu hshows
      | _ => cases hleaf
    | noHandle hchunk => exact collectHandle_keeps hchunk hu hshows
    | handle hchunk hne =>
      exact collectHandle_clears hchunk hne (layout_reads _ _) hinside hu hshows _
    | inlineRecord hrecord =>
      exact collectInner_clears hs hchecked ih (fun l => Workspace.layout_steady) hrecord hu hshows hlt
    | fixedRecord hrecord =>
      exact collectInner_clears hs hchecked ih (fun l => Workspace.layout_steady) hrecord hu hshows hlt
    | wrapped hrecord =>
      exact collectInner_clears hs hchecked ih (fun l => Workspace.layout_steady) hrecord hu hshows hlt
    | noChoice htag _ =>
      exact Clears.ends readTag_local (readTag_runs htag hshows) hu hshows (fun _ => rfl) rfl
    | choice htag hne hvariant hrecord _ =>
      rw [List.length_append] at hlt
      refine Clears.after readTag_local (readTag_runs htag hshows.left) hu hshows fun u₁ hu₁ => ?_
      simp only [if_neg hne]
      exact collectInner_clears hs hchecked ih (fun l => Workspace.variantLayout_steady hvariant)
        hrecord hu₁ hshows.right (by omega)
    | noOpen hid =>
      exact Clears.ends readTag_local (readTag_runs hid hshows) hu hshows (fun _ => rfl) rfl
    | typed hid hne htype hplace hplaced =>
      rw [List.length_append] at hlt
      refine Clears.after readTag_local (readTag_runs hid hshows.left) hu hshows fun u₁ hu₁ => ?_
      simp only [if_neg hne]
      exact Clears.known hu₁ (Workspace.openPlacement_steady htype hplace) fun u₂ hu₂ =>
        ih _ _ _ _ _ u₂ _ x hplaced hu₂ hshows.right (by omega)

end RecordLayout
