import Mathlib
import RecordLayout.Codec.Partial
import RecordLayout.Proofs.Chunk.Keeping
import RecordLayout.Proofs.Codec.Derive
import RecordLayout.Proofs.Codec.Looking
import RecordLayout.Proofs.Codec.Walk

/-!
# What writes leave alone

Whatever comes of a write, a chunk that was live and that no slot of the written value names holds
what it held, the value names no other live chunk afterwards, and the stream has the same
transaction open: `Op.Leaves`. The chunks that are named need not be distinct, and none of the slots
need be sound.

Main results:

* `Op.Leaves.withChunk`, `Op.Leaves.rollback`, `Op.Leaves.allocateWith` — the combinators;
* `leaves` — every write of a value or of a whole record;
* `writePlanned_leaves` — writes of some fields of a record.
-/

namespace RecordLayout

open NamesChunks (named)

/-! ## Scenes that keep the chunks of others -/

variable {τ υ α β : Type} [NamesChunks τ] [NamesChunks υ] {more more' : List ChunkId}

/-- Live chunks that are not `owned` hold what they held, the subject names no other live chunk, and
the stream has the same transaction open. -/
structure Scene.Leaves (owned : List ChunkId) (s t : Scene τ) : Prop where
  kept : ∀ c ∈ s.space.store.live, c ∉ owned →
    t.space.store.content? c = s.space.store.content? c
  names : ∀ c ∈ named t.subject, c ∈ named s.subject ∨ c ∉ s.space.store.live
  stream : s.stream.StaysOn t.stream

namespace Scene.Leaves

variable {owned owned' : List ChunkId} {s t u : Scene τ}

theorem refl (owned : List ChunkId) (s : Scene τ) : s.Leaves owned s :=
  ⟨fun _ _ _ => rfl, fun _ hc => .inl hc, .refl _⟩

/-- What is left with some chunks owned is left with more of them owned. -/
theorem mono (h : s.Leaves owned t) (hsub : owned ⊆ owned') : s.Leaves owned' t :=
  ⟨fun c hc hout => h.kept c hc fun hmem => hout (hsub hmem), h.names, h.stream⟩

/-- Steps of a write leave what their composition leaves, as long as no chunk is lost in between. -/
theorem trans (h : s.Leaves (more ++ named s.subject) t)
    (hlive : s.space.store.live ⊆ t.space.store.live)
    (h' : t.Leaves (more ++ named t.subject) u) : s.Leaves (more ++ named s.subject) u := by
  refine ⟨fun c hc hout => ?_, fun c hc => ?_, h.stream.trans h'.stream⟩
  · rw [← h.kept c hc hout]
    refine h'.kept c (hlive hc) ?_
    rw [List.mem_append, not_or] at hout ⊢
    refine ⟨hout.1, fun hmem => ?_⟩
    rcases h.names c hmem with hold | hnew
    · exact hout.2 hold
    · exact hnew hc
  · rcases h'.names c hc with hmem | hnew
    · exact h.names c hmem
    · exact .inr fun hlive' => hnew (hlive hlive')

end Scene.Leaves

namespace Op

/-- Whatever comes of the operation, it has left alone all live chunks but those that its subject
names, and some more. What has come to live is noted. -/
structure Leaves (more : List ChunkId) (act : Op τ α) : Prop where
  tracks : act.Tracks
  frame : ∀ s : Scene τ, s.space.store.Sound →
    s.Leaves (more ++ named s.subject) (outcome act s).2

namespace Leaves

/-! ### Sequences -/

/-- A look leaves everything alone. -/
theorem reads {act : Op τ α} (h : act.Reads True) : act.Leaves more := by
  refine ⟨h.spares.tracks, fun s hs => ?_⟩
  have hlooked := h.looked s hs
  refine ⟨fun c _ _ => by rw [hlooked.store], fun c hc => ?_, hlooked.stream.staysOn⟩
  rw [h.subject trivial s] at hc
  exact .inl hc

theorem pure (a : α) : Leaves more (Pure.pure a : Op τ α) := reads (.pure a)

theorem throw (e : FormatError) : Leaves more (MonadExcept.throw e : Op τ α) := reads (.throw e)

/-- Acts that leave the rest alone compose. -/
theorem bind {act : Op τ α} {next : α → Op τ β} (h : act.Leaves more)
    (hnext : ∀ a, (next a).Leaves more) : (act >>= next).Leaves more := by
  refine ⟨h.tracks.bind fun a => (hnext a).tracks, fun s hs => ?_⟩
  have hact := h.frame s hs
  have hlive := h.tracks.live_subset hs
  obtain ⟨fresh, hmade⟩ := h.tracks s hs
  rw [outcome_bind]
  cases hrun : act s with
  | ok a t =>
    rw [outcome_of_ok hrun] at hact hlive hmade
    exact hact.trans hlive ((hnext a).frame t hmade.store.sound)
  | error e t =>
    rw [outcome_of_error hrun] at hact
    exact hact

/-- Both branches leave the rest alone, so the choice does. -/
theorem ite {c : Prop} [Decidable c] {x y : Op τ α} (hx : x.Leaves more) (hy : y.Leaves more) :
    (if c then x else y).Leaves more := by
  split
  · exact hx
  · exact hy

/-- A loop leaves the rest alone when each round does. -/
theorem forM {act : β → Op τ PUnit} (h : ∀ b, (act b).Leaves more) (items : List β) :
    (items.forM act).Leaves more := by
  induction items with
  | nil => exact .pure _
  | cons b rest ih => exact (h b).bind fun _ => ih

/-! ### Parts of a scene -/

/-- Idle work on the space leaves every chunk. -/
theorem space {act : SpaceM α} (h : act.Idle) : Leaves more (Op.space act : Op τ α) := by
  refine ⟨.space h, fun s _ => ?_⟩
  have hrests := h s.space
  rw [Op.space, outcome_within]
  refine ⟨fun c _ _ => ?_, fun c hc => .inl hc, .refl _⟩
  show (outcome act s.space).2.store.content? c = _
  rw [hrests.store]

/-- Work on an unchunked stream leaves every chunk. -/
theorem stream {act : StreamM ByteStream α} (h : ByteStream.Stays act) :
    Leaves more (Op.stream act : Op τ α) := by
  refine ⟨.stream act, fun s _ => ?_⟩
  rw [Op.stream, outcome_within, outcome_failingAs]
  exact ⟨fun _ _ _ => rfl, fun _ hc => .inl hc, h s.stream⟩

/-- A write goes to the stream at hand. -/
theorem write (bytes : Bytes) : Leaves more (Op.write bytes : Op τ Unit) :=
  stream (ByteStream.write_stays bytes)

theorem subject : Leaves more (Op.subject : Op τ τ) := reads .subjectOf

theorem catalog : Leaves more (Op.catalog : Op τ Catalog) := reads .catalog

theorem config : Leaves more (Op.config : Op τ Config) := reads (.still fun _ => rfl)

theorem position : Leaves more (Op.position : Op τ Nat) := reads (.still fun _ => rfl)

/-- Cutting off ends the stream at hand. -/
theorem cutHere : Leaves more (Op.cutHere : Op τ Unit) :=
  ⟨.cutHere, fun _ _ => ⟨fun _ _ _ => rfl, fun _ hc => .inl hc, ByteStream.staysOn_setSize _ _⟩⟩

/-- A change of the subject that names no more chunks. -/
theorem modifySubject {f : τ → τ} (h : ∀ x, named (f x) ⊆ named x) :
    Leaves more (Op.modifySubject f : Op τ Unit) :=
  ⟨.modifySubject f, fun s _ => ⟨fun _ _ _ => rfl, fun _ hc => .inl (h s.subject hc), .refl _⟩⟩

/-- Work on a part leaves the rest alone when the part's names are among the whole's. -/
theorem on {p : Part τ υ} {act : Op υ α} (hp : p.Names) (h : act.Leaves more) :
    Leaves more (Op.on p act : Op τ α) := by
  refine ⟨h.tracks.on, fun s hs => ?_⟩
  have hpart := h.frame ⟨s.space, s.stream, p.get s.subject⟩ hs
  rw [Op.on, outcome_within]
  refine ⟨fun c hc hout => hpart.kept c hc ?_, fun c hc => ?_, hpart.stream⟩
  · rw [List.mem_append, not_or] at hout ⊢
    exact ⟨hout.1, fun hmem => hout.2 (hp.get _ hmem)⟩
  · rcases List.mem_append.mp (hp.set _ _ hc) with hpartly | hold
    · rcases hpart.names c hpartly with hmem | hnew
      · exact .inl (hp.get _ hmem)
      · exact .inr hnew
    · exact .inl hold

/-- Naming the field in the error changes no chunk. -/
theorem inField {f : BoundField} {act : Op τ α} (h : act.Leaves more) :
    (Op.inField f act).Leaves more := by
  refine ⟨h.tracks.inField, fun s hs => ?_⟩
  rw [Op.inField, outcome_failingAs]
  exact h.frame s hs

/-! ### Chunks, transactions and rollback -/

/-- Work on a chunk leaves alone all chunks but this one and those that the subject names. -/
theorem withChunk {chunk : ChunkId} {act : Op τ α} (h : act.Leaves more) :
    (RecordLayout.withChunk chunk act).Leaves (chunk :: more) := by
  refine ⟨h.tracks.withChunk, fun s hs => ?_⟩
  cases hopen : s.space.store.open? chunk with
  | error e =>
    simp only [outcome, RecordLayout.withChunk, hopen]
    exact .refl _ s
  | ok opened =>
    obtain ⟨content, hcontent, rfl⟩ := open?_ok.mp hopen
    have hframe := h.frame { s with stream := .ofBytes content } hs
    -- the chunk worked on is one of those that may change
    have hkept : (RecordLayout.withChunk chunk act).Keeps s (chunk :: (more ++ named s.subject)) :=
      .withChunk hcontent hframe.kept
    obtain ⟨w, hafter⟩ := outcome_withChunk act s hopen
    refine ⟨hkept, ?_, ?_⟩
    · rw [hafter]
      exact hframe.names
    · rw [hafter]
      exact .refl _

/-- A transaction leaves the rest alone, applied or dropped. -/
theorem inTransaction {act : Op τ α} (h : act.Leaves more) :
    (RecordLayout.inTransaction act).Leaves more := by
  refine ⟨h.tracks.inTransaction, fun s hs => ?_⟩
  have hframe := h.frame { s with stream := s.stream.begin } hs
  simp only [outcome, RecordLayout.inTransaction]
  -- both endings replace the stream and leave the store as the act left it
  cases hrun : act { s with stream := s.stream.begin } with
  | ok a t =>
    rw [outcome_of_ok hrun] at hframe
    have hbelow : t.stream.below? = some s.stream := hframe.stream.below
    have hcommit := ByteStream.commit_stays hbelow
    simp only
    cases hdone : ByteStream.commit t.stream with
    | ok u b =>
      rw [outcome_of_ok hdone] at hcommit
      exact ⟨hframe.kept, hframe.names, hcommit⟩
    | error e b =>
      rw [outcome_of_error hdone] at hcommit
      exact ⟨hframe.kept, hframe.names, hcommit⟩
  | error e t =>
    rw [outcome_of_error hrun] at hframe
    have hbelow : t.stream.below? = some s.stream := hframe.stream.below
    refine ⟨hframe.kept, hframe.names, ?_⟩
    show s.stream.StaysOn t.stream.discard
    rw [ByteStream.discard_of_below hbelow]
    exact .refl _

/-- A frame frees only chunks that were made in it. -/
theorem rollback {act : Op τ α} (h : act.Leaves more) :
    (RecordLayout.rollback act).Leaves more := by
  refine ⟨h.tracks.rollback.tracks, fun s hs => ?_⟩
  have hframe := h.frame { s with space := s.space.openScope } hs
  have hkept : (RecordLayout.rollback act).Keeps s (more ++ named s.subject) :=
    .rollback h.tracks hs hframe.kept
  obtain ⟨w, hafter⟩ := outcome_rollback act s
  refine ⟨hkept, ?_, ?_⟩
  · rw [hafter]
    exact hframe.names
  · rw [hafter]
    exact hframe.stream

/-- A chunk that is allocated was not live. -/
theorem allocateWith {hint : Nat} {fill : Op τ Unit} (h : fill.Leaves more) :
    (RecordLayout.allocateWith hint fill).Leaves more := by
  refine ⟨h.tracks.allocateWith.tracks, fun s hs => ?_⟩
  have hafter := outcome_allocateWith hint fill hs
  -- either the allocation is refused, or the filling runs in a frame of its own on an empty chunk
  rcases inNewChunk?_cases hint hs with
    ⟨heap, -, -, hnone⟩ | ⟨heap, -, hgains, -, -, hsome⟩
  · have hkept : (RecordLayout.allocateWith hint fill).Keeps s (more ++ named s.subject) :=
      .allocateWith h.tracks hs fun t ht => by rw [hnone] at ht; cases ht
    rw [hnone] at hafter
    obtain ⟨w, hafter⟩ := hafter
    refine ⟨hkept, ?_, ?_⟩
    · rw [hafter]
      exact fun c hc => .inl hc
    · rw [hafter]
      exact .refl _
  · rw [hsome] at hafter
    obtain ⟨w, hafter⟩ := hafter
    have hframe := h.frame ⟨Workspace.openScope { s.space with heap }, .ofBytes [], s.subject⟩
      hgains.sound
    refine ⟨Keeps.allocateWith h.tracks hs fun t ht hsound => ?_, ?_, ?_⟩
    · rw [hsome] at ht
      obtain rfl := Option.some.inj ht
      exact hframe.kept
    · rw [hafter]
      intro c hc
      -- a name that died inside the frame was not live outside it, as the store has only grown
      exact (hframe.names c hc).imp_right fun hdead hlive => hdead (hgains.live.subset hlive)
    · rw [hafter]
      exact .refl _

end Leaves

end Op

open Op

/-! ## Writing -/

/-- What follows from other fields names no chunk. -/
theorem derivedValue_companions {f : BoundField} {r : Record} {d : SlotDerivation}
    {w w' : Workspace} {v : Value} (h : derivedValue f r d w = .ok v w') : v.companions = [] := by
  obtain ⟨x, rfl, -⟩ | ⟨width, rfl⟩ := (derivedValue_ok h).2
  · rfl
  · rfl

/-- Deriving a field changes no chunk and names none. -/
theorem deriveField_leaves (f : BoundField) : (deriveField f).Leaves more := by
  rw [deriveField]
  split
  · exact .pure _
  · rename_i d hderivation
    refine ⟨Tracks.subject.bind fun _ => (Tracks.space (idle.derivedValue _ _ _)).bind fun _ =>
      .setSubject _, fun s hs => ?_⟩
    have hleaves : Leaves more (Op.space (derivedValue f s.subject d) : Op Record Value) :=
      .space (idle.derivedValue f s.subject d)
    have hask := hleaves.frame s hs
    show s.Leaves _ (outcome ((Op.space (derivedValue f s.subject d) : Op Record Value) >>=
      fun v => Op.setSubject (s.subject.setSlot f.slot v)) s).2
    rw [outcome_bind]
    cases hrun : (Op.space (derivedValue f s.subject d) : Op Record Value) s with
    -- only the measuring of the sources can fail, before the slot is set
    | error e t =>
      rw [outcome_of_error hrun] at hask
      exact hask
    | ok v t =>
      rw [outcome_of_ok hrun] at hask
      obtain ⟨w, hvalue, rfl⟩ := Op.space_ok.mp hrun
      refine ⟨hask.kept, fun c hc => .inl ?_, hask.stream⟩
      have hmem := RecordOf.companions_setSlot _ _ _ hc
      rwa [derivedValue_companions hvalue, List.nil_append] at hmem

/-- A record that gets its references back names what it named before, or what its values name. -/
theorem guardingChunks_leaves {act : Op Record Unit} (h : act.Leaves []) :
    (guardingChunks act).Leaves [] := by
  have hroll : (rollback act).Leaves [] := h.rollback
  refine ⟨Tracks.subject.bind fun _ => h.tracks.rollback.onFailure.tracks, fun s hs => ?_⟩
  have hframe := hroll.frame s hs
  show s.Leaves _ (outcome (Op.onFailure (fun now => { now with chunks := s.subject.chunks })
    (rollback act)) s).2
  simp only [outcome, Op.onFailure]
  cases hrun : rollback act s with
  | ok u t =>
    rw [outcome_of_ok hrun] at hframe
    exact hframe
  | error e t =>
    rw [outcome_of_error hrun] at hframe
    -- the chunks are put back as they were, and what is named inside the values is left to the
    -- frame
    refine ⟨hframe.kept, fun c hc => ?_, hframe.stream⟩
    rcases RecordOf.mem_companions_iff.mp hc with hchunk | hvalue
    · exact .inl (RecordOf.mem_companions_iff.mpr (.inl hchunk))
    · exact hframe.names c (RecordOf.mem_companions_iff.mpr (.inr hvalue))

section

variable {hint : Nat} {body : Op Slot Unit} {s : Scene Slot}

/-- The value goes into the chunk of the slot. -/
theorem storeBehind_held
    (h : (!s.subject.chunk.isNull && s.space.store.contains s.subject.chunk) = true) :
    storeBehind hint body s =
      (withChunk s.subject.chunk (inTransaction (body >>= fun _ => Op.cutHere)) >>=
        fun _ => pure s.subject.chunk) s := by
  have hbranch : storeBehind hint body s =
      (if !s.subject.chunk.isNull && s.space.store.contains s.subject.chunk then
        withChunk s.subject.chunk (inTransaction (body >>= fun _ => Op.cutHere)) >>=
          fun _ => pure s.subject.chunk
      else allocateWith hint body >>= fun chunk =>
        Op.modifySubject (fun slot => { slot with chunk }) >>= fun _ => pure chunk) s := rfl
  rw [hbranch, if_pos h]

/-- The value goes into a new chunk. -/
theorem storeBehind_new
    (h : ¬(!s.subject.chunk.isNull && s.space.store.contains s.subject.chunk) = true) :
    storeBehind hint body s = (allocateWith hint body >>= fun chunk =>
      Op.modifySubject (fun slot => { slot with chunk }) >>= fun _ => pure chunk) s := by
  have hbranch : storeBehind hint body s =
      (if !s.subject.chunk.isNull && s.space.store.contains s.subject.chunk then
        withChunk s.subject.chunk (inTransaction (body >>= fun _ => Op.cutHere)) >>=
          fun _ => pure s.subject.chunk
      else allocateWith hint body >>= fun chunk =>
        Op.modifySubject (fun slot => { slot with chunk }) >>= fun _ => pure chunk) s := rfl
  rw [hbranch, if_neg h]

end

/-- A value that is stored behind a slot goes into the chunk of the slot or into a new one. -/
theorem storeBehind_leaves {hint : Nat} {body : Op Slot Unit} (h : body.Leaves []) :
    (storeBehind hint body).Leaves [] := by
  have hreplace (chunk : ChunkId) : (withChunk chunk (inTransaction (do
      body
      Op.cutHere)) >>= fun _ => pure chunk : Op Slot ChunkId).Leaves [chunk] :=
    (h.bind fun _ => .cutHere).inTransaction.withChunk.bind fun _ => .pure _
  have hlive (chunk : ChunkId) :
      Tracks (Op.space (fun w => .ok (w.store.contains chunk) w) : Op Slot Bool) :=
    .still fun _ => rfl
  refine ⟨Tracks.subject.bind fun slot => (hlive slot.chunk).bind fun live => .ite
    (hreplace _).tracks (h.allocateWith.tracks.bind fun _ =>
      (Tracks.modifySubject _).bind fun _ => .pure _), fun s hs => ?_⟩
  show s.Leaves _ (outcome (if !s.subject.chunk.isNull && s.space.store.contains s.subject.chunk
    then _ else _) s).2
  split
  · rename_i hheld
    refine ((hreplace s.subject.chunk).frame s hs).mono ?_
    -- the chunk of the slot is one that the slot names
    have hne : s.subject.chunk ≠ .null := by
      intro heq
      simp [ChunkId.isNull_iff.mpr heq] at hheld
    have hown : s.subject.chunk ∈ named s.subject :=
      List.mem_append_left _ (mem_ownChunk.mpr ⟨rfl, hne⟩)
    intro c hc
    rcases List.mem_cons.mp hc with rfl | hmem
    · exact hown
    · exact hmem
  · have hnew : (allocateWith hint body).Leaves [] := h.allocateWith
    have hframe := hnew.frame s hs
    show s.Leaves _ (outcome (allocateWith hint body >>= fun chunk =>
      Op.modifySubject (fun slot => { slot with chunk }) >>= fun _ => pure chunk) s).2
    rw [outcome_bind]
    cases hrun : allocateWith hint body s with
    | error e t =>
      rw [outcome_of_error hrun] at hframe
      exact hframe
    | ok chunk t =>
      rw [outcome_of_ok hrun] at hframe
      obtain ⟨-, -, -, rfl, -, -⟩ := allocateWith_ok hrun
      refine ⟨hframe.kept, fun c hc => ?_, hframe.stream⟩
      rcases List.mem_append.mp hc with hown | hvalue
      · obtain ⟨rfl, -⟩ := mem_ownChunk.mp hown
        exact .inr fun hmem => Nat.lt_irrefl _ (hs.bounds _ hmem).2
      · exact hframe.names c (List.mem_append_right _ hvalue)

/-- Checking how far the cursor moved changes no chunk. -/
theorem movingBy_leaves {bytes : Nat} {failure : Nat → FormatError} {act : Op Record Unit}
    (h : act.Leaves more) : (Op.movingBy bytes failure act).Leaves more := by
  refine Leaves.position.bind fun _ => h.bind fun _ => Leaves.position.bind fun _ => ?_
  split
  · exact .throw _
  · exact .pure _

/-- Forgetting a chunk leaves it in the store. -/
theorem forgetChunk_leaves : forgetChunk.Leaves more :=
  (Leaves.modifySubject fun _ _ hc => List.mem_append_right _ hc).bind fun _ => .pure _

/-- Every write leaves alone what its subject does not name. -/
theorem leaves : Op.Modular SpaceM.Idle (Leaves []) where
  questions := idle
  pure := .pure
  throw := .throw
  bind := .bind
  space := .space
  subject := .subject
  config := .config
  movingBy := movingBy_leaves
  write := .write
  writeWord _ _ := .stream (ByteStream.writeWord_stays _ _)
  on := .on
  inField := .inField
  deriveField := deriveField_leaves
  guardingChunks := guardingChunks_leaves
  forgetChunk := forgetChunk_leaves
  storeBehind := storeBehind_leaves

/-! ## Some fields of a record -/

/-- The wanted fields change only chunks that the record names or that are new. -/
theorem writeWanted_leaves (depth : Nat) (l : Layout) (governing : Option Record)
    (fields wanted : List BoundField) : (writeWanted depth l governing fields wanted).Leaves [] := by
  induction fields generalizing governing wanted with
  | nil =>
    cases wanted with
    | nil => exact .pure _
    | cons first rest => exact .throw _
  | cons f rest ih =>
    cases wanted with
    | nil => exact .pure _
    | cons first wanted =>
      rw [writeWanted]
      refine .ite ?_ (.ite ?_ ?_)
      · refine (leaves.writeField f).bind fun _ => ?_
        dsimp only
        split
        -- the stream is cut behind the last wanted field
        · exact Leaves.cutHere.bind fun _ => ih _ _
        · exact ih _ _
      · exact Leaves.catalog.bind fun c =>
          (Leaves.reads (.withSubject (readFieldWith_reads (readWithin_reads depth) f))).bind
            fun _ => ih _ _
      · exact (Leaves.reads (skipFieldWith_reads (skipWithin_reads depth) f governing)).bind
          fun _ => ih _ _

/-- A planned write changes only chunks that the record names or that are new. -/
theorem writePlanned_leaves (l : Layout) (plan : Plan) : (writePlanned l plan).Leaves [] := by
  have hwalk (depth : Nat) : (guardingChunks (if 1 < plan.write.length
      then inTransaction (writeWanted depth l none l.fields plan.write)
      else writeWanted depth l none l.fields plan.write)).Leaves [] :=
    guardingChunks_leaves (.ite (writeWanted_leaves _ _ _ _ _).inTransaction
      (writeWanted_leaves _ _ _ _ _))
  have hdepth : (readDepth : Op Record Nat).Leaves [] := .reads (.still fun _ => rfl)
  refine Leaves.subject.bind fun _ => (Leaves.space (idle.requireSchema _ _)).bind fun _ =>
    (Leaves.forM deriveField_leaves _).bind fun _ => Leaves.config.bind fun config =>
      Leaves.subject.bind fun now => ?_
  dsimp only
  split
  · exact (Leaves.space (idle.checkPlanned plan now)).bind fun _ => hdepth.bind fun _ => hwalk _
  · exact hdepth.bind fun _ => hwalk _

end RecordLayout
