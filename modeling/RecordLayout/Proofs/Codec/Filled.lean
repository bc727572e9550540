import Mathlib
import RecordLayout.Proofs.Codec.Failure
import RecordLayout.Proofs.Codec.Frame

/-!
# The chunks that a write fills anew

A value behind a reference is put into the chunk of its slot in a transaction of its own. Once it is
stored completely, the chunk stays as it is then, whatever becomes of the rest of the record. So a
write that fails changes exactly those chunks into which it has stored a value before. They are
worked out along the run of the write: what follows a failure fills nothing, and a value that cannot
be stored has filled at most chunks further inside.

Main results:

* `filledByWrite`, `filledByPlan` — the chunks that a write fills as far as it comes;
* `storeBehind_fills` — values behind references;
* `writeWithin_fills`, `writeWanted_fills` — the walks over values and over the fields of a plan;
* `failedWrites_keep_unfilled` — the chunks after a failed write.
-/

namespace RecordLayout

open Op

/-! ## Chunks along a run -/

/-- The chunks that a write of a value in its placement fills, as far as it comes. -/
abbrev FilledIn := Placement → Scene Slot → List ChunkId

/-- What is filled after an operation; nothing if it fails. -/
def filledAfter {τ α : Type} (act : Op τ α) (filled : α → Scene τ → List ChunkId) (s : Scene τ) :
    List ChunkId :=
  match act s with
  | .ok a t => filled a t
  | .error _ _ => []

/-- Where the body of a value behind a slot is written: in a transaction on the chunk of the slot if
that is live, or else in a new chunk. -/
def inBody? (hint : Nat) (s : Scene Slot) : Option (Scene Slot) :=
  if !s.subject.chunk.isNull && s.space.store.contains s.subject.chunk then
    (s.space.store.content? s.subject.chunk).map fun content =>
      { s with stream := (ByteStream.ofBytes content).begin }
  else inNewChunk? hint s

/-- What is filled when a body is stored behind a slot: what the body fills and, if it is stored
completely, the chunk that holds it. -/
def filledBehind (hint : Nat) (body : Op Slot Unit) (filled : Scene Slot → List ChunkId)
    (s : Scene Slot) : List ChunkId :=
  (inBody? hint s).elim [] filled ++ filledAfter (storeBehind hint body) (fun chunk _ => [chunk]) s

section

variable (writeIn : WriteIn) (inside : FilledIn)

/-! ### Fields and records -/

/-- What is filled by one field. -/
def filledByField (f : BoundField) (s : Scene Record) : List ChunkId :=
  match f.encoding with
  | .placed p marker =>
    let value := s.subject.slot f.slot
    if value.isNull && (marker || !f.nullable) then []
    else filledAfter (if marker then Op.write [1] else pure ())
      (fun _ t => inside p ((Scene.part (RecordOf.slotPart f.slot)).get t)) s
  | _ => []

/-- What is filled by fields in a row, up to the first that cannot be written. -/
def filledByFields : List BoundField → Scene Record → List ChunkId
  | [], _ => []
  | f :: rest, s => filledByField inside f s ++
      filledAfter (writeFieldWith writeIn f) (fun _ => filledByFields rest) s

/-- What is filled by the body of a record, once it has come to the first field. -/
def filledByBody (l : Layout) : Scene Record → List ChunkId :=
  filledAfter (deriveRecord l) fun _ s =>
    if s.space.config.validateWrites then
      filledAfter (Op.space (checkedSize l s.subject))
        (fun _ => filledByFields writeIn inside l.fields) s
    else filledByFields writeIn inside l.fields s

/-- What is filled by a record. -/
def filledByRecord (l : Layout) (s : Scene Record) : List ChunkId :=
  filledAfter (Op.space (requireSchema l s.subject))
    (fun _ t => filledByBody writeIn inside l { t with space := t.space.openScope }) s

/-! ### Values -/

/-- What is filled by the record of a slot. -/
def filledByInner (layout : SpaceM Layout) : Scene Slot → List ChunkId :=
  filledAfter (Op.space layout) fun l s =>
    filledByRecord writeIn inside l ((Scene.part Slot.recordPart).get s)

/-- What is filled by the record of a slot behind it. -/
def filledByStored (l : Layout) (r : Record) : Scene Slot → List ChunkId :=
  filledAfter (Op.space (recordSize l r)) fun hint =>
    filledBehind hint (Op.on Slot.recordPart (writeRecordWith writeIn l)) fun s =>
      filledByRecord writeIn inside l ((Scene.part Slot.recordPart).get s)

/-- What is filled by a value in its placement. -/
def filledByValue (p : Placement) (s : Scene Slot) : List ChunkId :=
  match p, s.subject.value with
  | .chunkText, .text text =>
    filledBehind (Utf8.length text) (Op.write (Utf8.encode text)) (fun _ => []) s
  | .inlineRecord schema, .record r =>
    if r.schema = schema then filledByInner writeIn inside (SpaceM.layout schema .standard) s else []
  | .fixedRecord schema, .record r =>
    if r.schema = schema then filledByInner writeIn inside (SpaceM.layout schema .fixed) s else []
  | .wrapped wrapper carrier kind, .wrapped found _ =>
    if found = wrapper then filledByInner writeIn inside (SpaceM.layout carrier kind) s else []
  | .chunkRecord schema, .record r =>
    if r.schema = schema then
      filledAfter (Op.space (SpaceM.layout schema .standard))
        (fun l => filledByStored writeIn inside l r) s
    else []
  | .inlineChoice choice, .record r =>
    filledAfter (Op.space (SpaceM.tagOf choice r)) (fun tag => filledAfter (writeVarint tag)
      fun _ => filledByInner writeIn inside (SpaceM.variantLayout choice tag)) s
  | .chunkChoice choice, .record r =>
    filledAfter (Op.space (SpaceM.tagOf choice r)) (fun tag =>
      filledAfter (Op.space (SpaceM.variantLayout choice tag)) fun l =>
        filledByStored writeIn inside l r) s
  | .inlineOpen, value =>
    filledAfter (Op.space (SpaceM.typeId value)) (fun id => filledAfter (writeVarint id) fun _ t =>
      if id = 0 then [] else filledAfter (Op.space (SpaceM.openPlacement id))
        (fun q u => inside q ((Scene.part Slot.loosePart).get u)) t) s
  | .chunkOpen, value =>
    filledAfter (Op.space (SpaceM.typeId value)) (fun id t =>
      if id = 0 then [] else filledAfter (Op.space (SpaceM.openPlacement id)) (fun q =>
        filledAfter (Op.space (placedSize q value)) fun hint =>
          filledBehind hint (Op.on Slot.loosePart (writeIn q)) fun u =>
            inside q ((Scene.part Slot.loosePart).get u)) t) s
  | _, _ => []

end

/-- What is filled by a value in its placement; values may be nested `depth` deep. -/
def filledWithin : Nat → FilledIn
  | 0, _, _ => []
  | depth + 1, p, s => filledByValue (writeWithin depth) (filledWithin depth) p s

/-! ### Whole writes -/

/-- The chunks into which a write of a record stores values, as far as it comes. -/
def filledByWrite (l : Layout) (s : Scene Record) : List ChunkId :=
  filledByRecord (writeWithin s.subject.walkDepth) (filledWithin s.subject.walkDepth) l s

/-- What is filled by the wanted ones among fields in a row. -/
def filledByWanted (depth : Nat) (l : Layout) :
    Option Record → List BoundField → List BoundField → Scene Record → List ChunkId
  | _, _, [], _ => []
  | _, [], _ :: _, _ => []
  | governing, f :: fields, first :: wanted, s =>
    if first.slot = f.slot then
      filledByField (filledWithin s.subject.walkDepth) f s ++
        filledAfter (writeField f) (fun _ =>
          filledAfter (if fields.isEmpty && !l.size.isFixed then Op.cutHere else pure ())
            fun _ => filledByWanted depth l governing fields wanted) s
    else if f.governs then
      filledAfter Op.catalog (fun c => filledAfter (Op.withSubject
          (governing.getD (c.newRecord l.schema)) (readFieldWith (readWithin depth) f))
        fun read => filledByWanted depth l (some read.2) fields (first :: wanted)) s
    else
      filledAfter (skipFieldWith (skipWithin depth) f governing)
        (fun _ => filledByWanted depth l governing fields (first :: wanted)) s

/-- The work on a plan before its first field. -/
def openPlan (l : Layout) (plan : Plan) : Op Record Nat := do
  let r ← Op.subject
  Op.space (requireSchema l r)
  plan.derived.forM deriveField
  let config ← Op.config
  let r ← Op.subject
  if config.validateWrites then Op.space (checkPlanned plan r)
  readDepth

/-- The chunks into which a write of the fields of a plan stores values, as far as it comes. -/
def filledByPlan (l : Layout) (plan : Plan) : Scene Record → List ChunkId :=
  filledAfter (openPlan l plan) fun depth s =>
    filledByWanted depth l none l.fields plan.write { s with
      space := s.space.openScope
      stream := if 1 < plan.write.length then s.stream.begin else s.stream }

/-! ## Work that stores nothing -/

/-- Whatever comes of the operation, the chunks, the settings and the open scopes are as they were. -/
structure Op.Idle {τ α : Type} (act : Op τ α) : Prop where
  rests : ∀ s : Scene τ, s.space.Rests (outcome act s).2.space

namespace Op.Idle

variable {τ υ α β : Type}

/-- What leaves the space alone is idle. -/
theorem still {act : Op τ α} (h : ∀ s, (outcome act s).2.space = s.space) : act.Idle := by
  refine ⟨fun s => ?_⟩
  rw [h s]
  exact .refl _

/-- Idle acts compose. -/
theorem bind {act : Op τ α} {next : α → Op τ β} (h : act.Idle) (hnext : ∀ a, (next a).Idle) :
    (act >>= next).Idle := by
  refine ⟨fun s => ?_⟩
  have hact := h.rests s
  rw [outcome_bind]
  -- a failing first part ends the run where it stopped
  cases hrun : act s with
  | ok a t =>
    rw [outcome_of_ok hrun] at hact
    exact hact.trans ((hnext a).rests t)
  | error e t =>
    rw [outcome_of_error hrun] at hact
    exact hact

/-- Work on the space is idle in a scene when it is idle on its own. -/
theorem space {act : SpaceM α} (h : act.Idle) : Idle (Op.space act : Op τ α) := by
  refine ⟨fun s => ?_⟩
  rw [Op.space, outcome_within]
  exact h s.space

/-- Work on the stream leaves the store alone. -/
theorem stream (act : StreamM ByteStream α) : Idle (Op.stream act : Op τ α) :=
  still fun s => by rw [Op.stream, outcome_within]; rfl

/-- Working on a part of the subject is as idle as the work. -/
theorem on {p : Part τ υ} {act : Op υ α} (h : act.Idle) : Idle (Op.on p act : Op τ α) := by
  refine ⟨fun s => ?_⟩
  rw [Op.on, outcome_within]
  exact h.rests ⟨s.space, s.stream, p.get s.subject⟩

/-- Naming the field in the error changes no chunk. -/
theorem inField {f : BoundField} {act : Op τ α} (h : act.Idle) : (Op.inField f act).Idle := by
  refine ⟨fun s => ?_⟩
  rw [Op.inField, outcome_failingAs]
  exact h.rests s

/-- Deriving a field measures values and fills no chunk. -/
theorem deriveField (f : BoundField) : (RecordLayout.deriveField f).Idle := by
  rw [RecordLayout.deriveField]
  split
  · exact still fun _ => rfl
  · exact (still fun _ => rfl : (Op.subject : Op Record Record).Idle).bind fun r =>
      (space (idle.derivedValue f r _)).bind fun _ => still fun _ => rfl

/-- All writing but of values behind references is idle work. -/
theorem plain : Op.Plain SpaceM.Idle fun act => act.Idle where
  questions := idle
  pure _ := still fun _ => rfl
  throw _ := still fun _ => rfl
  bind := bind
  space := space
  subject := still fun _ => rfl
  config := still fun _ => rfl
  write _ := stream _
  writeWord _ _ := stream _
  on _ := on
  inField := inField
  deriveField := deriveField
  forgetChunk := still fun _ => rfl

/-- Idle acts keep track of the chunks, having touched none. -/
theorem tracks {act : Op τ α} (h : act.Idle) : act.Tracks :=
  Spares.tracks fun s hs => .of_rests hs (h.rests s)

/-- Idle acts keep whatever chunks are said to be filled. -/
theorem keeps {act : Op τ α} (h : act.Idle) (s : Scene τ) (filled : List ChunkId) :
    act.Keeps s filled :=
  .of_store (h.rests s).store

end Op.Idle

/-! ## Along a run -/

section

variable {τ α β : Type} {act : Op τ α} {next : α → Op τ β} {s : Scene τ}
  {filled : α → Scene τ → List ChunkId}

/-- After a part that keeps its filled chunks, the whole keeps those of both parts. -/
theorem Op.Keeps.bind_after {first : List ChunkId} (htracks : act.Tracks)
    (hs : s.space.store.Sound) (h : act.Keeps s first)
    (hnext : ∀ a t, t.space.store.Sound → (next a).Keeps t (filled a t)) :
    (act >>= next).Keeps s (first ++ filledAfter act filled s) := by
  refine .bind htracks hs (h.mono (List.subset_append_left _ _)) fun a t hrun ht => ?_
  rw [filledAfter, hrun]
  exact (hnext a t ht).mono (List.subset_append_right _ _)

/-- What comes before stores nothing. -/
theorem Op.Idle.keeps_bind (h : act.Idle) (hs : s.space.store.Sound)
    (hnext : ∀ a t, t.space.store.Sound → (next a).Keeps t (filled a t)) :
    (act >>= next).Keeps s (filledAfter act filled s) :=
  .bind_after h.tracks hs (h.keeps s []) hnext

/-- A part that only reads fills nothing, so the whole keeps what the rest fills. -/
theorem Op.Reads.keeps_bind {keeps : Prop} (h : act.Reads keeps) (hs : s.space.store.Sound)
    (hnext : ∀ a t, t.space.store.Sound → (next a).Keeps t (filled a t)) :
    (act >>= next).Keeps s (filledAfter act filled s) := by
  have hkept : act.Keeps s [] := .of_store (h.looked s hs).store
  exact .bind_after h.spares.tracks hs hkept hnext

end

/-! ## Values behind references -/

/-- A value that is stored behind a slot fills the chunk that it is put into, and what it fills
itself. If it cannot be stored, the chunk holds what it held. -/
theorem storeBehind_fills {hint : Nat} {body : Op Slot Unit} (hbody : body.Leaves [])
    {filled : Scene Slot → List ChunkId}
    (h : ∀ s, s.space.store.Sound → body.Keeps s (filled s)) {s : Scene Slot}
    (hs : s.space.store.Sound) :
    (storeBehind hint body).Keeps s (filledBehind hint body filled s) := by
  -- either the slot holds a live chunk, which is filled again, or a new chunk is allocated for it
  by_cases hheld : (!s.subject.chunk.isNull && s.space.store.contains s.subject.chunk) = true
  · obtain ⟨content, hcontent⟩ : ∃ content, s.space.store.content? s.subject.chunk = some content :=
      Option.isSome_iff_exists.mp (ChunkStore.mem_live_iff.mp
        (ChunkStore.contains_iff.mp (Bool.and_eq_true_iff.mp hheld).2))
    intro c hc hout
    rw [filledBehind, inBody?, if_pos hheld, hcontent, List.mem_append, not_or] at hout
    obtain ⟨hinside, hunstored⟩ := hout
    by_cases hown : c = s.subject.chunk
    · -- the chunk of the slot is filled only if the value is stored completely
      subst hown
      cases hrun : storeBehind hint body s with
      | ok chunk t =>
        rw [filledAfter, hrun, List.mem_singleton] at hunstored
        rw [storeBehind_held hheld] at hrun
        obtain ⟨_, _, -, hpure⟩ := bind_ok.mp hrun
        exact absurd (pure_ok.mp hpure).1 hunstored
      | error e t =>
        rw [outcome_of_error hrun, hcontent]
        exact storeBehind_failed hbody hs hrun hcontent
    -- any other chunk is kept by the body, which runs in a transaction on the held chunk's content
    · have hwork : (withChunk s.subject.chunk (inTransaction (body >>= fun _ => Op.cutHere)) >>=
          fun _ => pure s.subject.chunk).Keeps s
            (s.subject.chunk :: filled { s with stream := (ByteStream.ofBytes content).begin }) :=
        .bind (hbody.bind fun _ => .cutHere).inTransaction.withChunk.tracks hs
          (.withChunk hcontent (.inTransaction (.bind hbody.tracks hs (h _ hs) fun _ t _ _ =>
            .of_store rfl))) fun _ _ _ _ => .of_store rfl
      have hkept := hwork c hc (List.not_mem_cons_of_ne_of_not_mem hown hinside)
      rwa [outcome, ← storeBehind_held hheld] at hkept
  -- the frame of a new chunk keeps what its filling keeps, and the new chunk itself is not live yet
  · have hwork : (allocateWith hint body >>= fun chunk =>
        Op.modifySubject (fun slot => { slot with chunk }) >>= fun _ => pure chunk).Keeps s
          (filledBehind hint body filled s) := by
      refine .bind hbody.tracks.allocateWith.tracks hs
        (.allocateWith hbody.tracks hs fun t ht hsound => ?_) fun _ _ _ _ => .of_store rfl
      rw [filledBehind, inBody?, if_neg hheld, ht]
      exact (h t hsound).mono (List.subset_append_left _ _)
    intro c hc hout
    have hkept := hwork c hc hout
    rwa [outcome, ← storeBehind_new hheld] at hkept

/-! ## Fields and records -/

section

variable {writeIn : WriteIn} {inside : FilledIn}
  (hin : ∀ p s, s.space.store.Sound → (writeIn p).Keeps s (inside p s))

include hin

/-- A field fills the chunks of the value in its slot. -/
theorem writeFieldWith_fills (f : BoundField) {s : Scene Record} (hs : s.space.store.Sound) :
    (writeFieldWith writeIn f).Keeps s (filledByField inside f s) := by
  have hidle := Op.Idle.plain
  -- only a placed value can fill chunks; of the others it is enough that they are idle
  cases hf : f.encoding with
  | placed p marker =>
    rw [writeFieldWith, filledByField, hf]
    refine .inField (.subject_bind ?_)
    dsimp only
    split
    · exact .of_store rfl
    · rename_i hallowed
      split
      · exact (hidle.bind (hidle.write [0]) fun _ =>
          hidle.bind (hidle.space (hidle.questions.inlineSize p)) fun _ =>
            hidle.writeZeros _).keeps s _
      · rename_i hmarked
        have hvalue : ((s.subject.slot f.slot).isNull && (marker || !f.nullable)) = false := by
          rw [Bool.and_or_distrib_left, Bool.or_eq_false_iff]
          exact ⟨Bool.eq_false_iff.mpr hmarked, Bool.eq_false_iff.mpr hallowed⟩
        rw [hvalue, if_neg Bool.false_ne_true]
        cases marker with
        -- the marker of a present value is one byte in the record's own stream
        | true => exact Op.Idle.keeps_bind (hidle.write _) hs fun _ t ht => .on (hin p _ ht)
        | false => exact Op.Idle.keeps_bind (hidle.pure ()) hs fun _ t ht => .on (hin p _ ht)
  | _ =>
    have hplain : (writeFieldWith (fun _ => pure ()) f).Idle :=
      hidle.writeFieldWith (fun _ => hidle.pure _) f
    rw [writeFieldWith, hf] at hplain ⊢
    exact hplain.keeps s _

variable (hleaves : ∀ p, (writeIn p).Leaves [])

include hleaves

/-- A run of fields fills what its fields fill, each from where the one before stopped. -/
theorem writeFields_fills (fields : List BoundField) {s : Scene Record}
    (hs : s.space.store.Sound) :
    (writeFields writeIn fields).Keeps s (filledByFields writeIn inside fields s) := by
  induction fields generalizing s with
  | nil => exact .of_store rfl
  | cons f rest ih =>
    have htracks : (writeFieldWith writeIn f).Tracks := (leaves.writeFieldWith hleaves f).tracks
    exact .bind_after htracks hs (writeFieldWith_fills hin f hs) fun _ t ht => ih ht

/-- A body fills what its fields fill. -/
theorem writeBody_fills (l : Layout) {s : Scene Record} (hs : s.space.store.Sound) :
    (writeBody writeIn l).Keeps s (filledByBody writeIn inside l s) := by
  have hidle := Op.Idle.plain
  refine Op.Idle.keeps_bind (hidle.deriveRecord l) hs fun _ t ht => .config_bind ?_
  split
  · refine .subject_bind (Op.Idle.keeps_bind (hidle.space (hidle.questions.checkedSize _ _)) ht
      fun expected u hu => .position_bind ?_)
    have htracks : (writeFields writeIn l.fields).Tracks :=
      (leaves.forM (leaves.writeFieldWith hleaves) l.fields).tracks
    refine .bind htracks hu (writeFields_fills hin hleaves l.fields hu) fun _ v _ _ => ?_
    refine .position_bind ?_
    split
    · exact .of_store rfl
    · exact .of_store rfl
  · exact writeFields_fills hin hleaves l.fields ht

/-- A record fills what its body fills. -/
theorem writeRecordWith_fills (l : Layout) {s : Scene Record} (hs : s.space.store.Sound) :
    (writeRecordWith writeIn l).Keeps s (filledByRecord writeIn inside l s) := by
  refine .subject_bind (Op.Idle.keeps_bind (.space (idle.requireSchema l _)) hs fun _ t ht => ?_)
  have htracks : (writeBody writeIn l).Tracks := (leaves.writeBody hleaves l).tracks
  exact .subject_bind (.onFailure (.rollback htracks ht (writeBody_fills hin hleaves l ht)))

/-! ## Values -/

variable {s : Scene Slot} (hs : s.space.store.Sound)

include hs

/-- A record within a slot fills what the record's own write fills. -/
theorem writeInside_fills {layout : SpaceM Layout} (h : layout.Idle) :
    (Op.space layout >>= fun l => Op.on Slot.recordPart (writeRecordWith writeIn l)).Keeps s
      (filledByInner writeIn inside layout s) :=
  Op.Idle.keeps_bind (.space h) hs fun l _ ht => .on (writeRecordWith_fills hin hleaves l ht)

/-- A stored record fills its own chunk and those that its fields fill. -/
theorem storeRecordBehind_fills (l : Layout) (r : Record) :
    (storeRecordBehind writeIn l r).Keeps s (filledByStored writeIn inside l r s) := by
  have hbody : (Op.on Slot.recordPart (writeRecordWith writeIn l)).Leaves [] :=
    leaves.on Slot.recordPart_names (leaves.writeRecordWith hleaves l)
  exact Op.Idle.keeps_bind (.space (idle.recordSize l r)) hs fun _ _ ht =>
    storeBehind_fills hbody (fun _ hu => .on (writeRecordWith_fills hin hleaves l hu)) ht

omit hin hleaves in
/-- A text behind a reference fills the chunk it is stored in. -/
theorem writeTextBehind_fills :
    writeTextBehind.Keeps s (filledByValue writeIn inside .chunkText s) := by
  obtain ⟨space, stream, value, chunk⟩ := s
  refine .subject_bind ?_
  cases value with
  | null => exact ((Op.Idle.plain.forgetChunk).bind fun _ => Op.Idle.plain.write _).keeps _ _
  | text t =>
    refine .bind (storeBehind_leaves (leaves.write _)).tracks hs
      (storeBehind_fills (leaves.write _) (fun u _ => (Op.Idle.plain.write _).keeps u []) hs)
      fun chunk u _ _ => (Op.Idle.plain.write _).keeps u _
  | _ => exact .of_store rfl

/-- A reference is written once the record is stored. -/
theorem storeRecordBehind_bind_fills (l : Layout) (r : Record) {next : ChunkId → Op Slot Unit}
    (hnext : ∀ chunk, (next chunk).Idle) :
    (storeRecordBehind writeIn l r >>= next).Keeps s (filledByStored writeIn inside l r s) := by
  have htracks : (storeRecordBehind writeIn l r).Tracks := (leaves.storeRecordBehind hleaves l r).tracks
  exact .bind htracks hs (storeRecordBehind_fills hin hleaves hs l r) fun chunk t _ _ =>
    (hnext chunk).keeps t _

/-- A record behind a reference fills its chunk and those behind it. -/
theorem writeRecordBehind_fills (schema : SchemaId) :
    (writeRecordBehind writeIn schema).Keeps s
      (filledByValue writeIn inside (.chunkRecord schema) s) := by
  obtain ⟨space, stream, value, chunk⟩ := s
  refine .subject_bind (.catalog_bind ?_)
  cases value with
  | null => exact ((Op.Idle.plain.forgetChunk).bind fun _ => Op.Idle.plain.write _).keeps _ _
  | record r =>
    dsimp only [filledByValue]
    split
    · exact Op.Idle.keeps_bind (.space (idle.layout _ _)) hs fun l t ht =>
        storeRecordBehind_bind_fills hin hleaves ht l r fun _ => Op.Idle.plain.write _
    · exact .of_store rfl
  | _ => exact .of_store rfl

/-- A choice behind a reference fills its chunk and those behind it. -/
theorem writeChoiceBehind_fills (choice : ChoiceId) :
    (writeChoiceBehind writeIn choice).Keeps s
      (filledByValue writeIn inside (.chunkChoice choice) s) := by
  have hput (tag : Nat) (chunk : ChunkId) : (do
      Op.stream (ByteSink.writeU32 tag)
      writeChunkId chunk : Op Slot Unit).Idle :=
    Op.Idle.plain.bind (Op.Idle.plain.write _) fun _ => Op.Idle.plain.write _
  obtain ⟨space, stream, value, chunk⟩ := s
  refine .subject_bind (.catalog_bind ?_)
  cases value with
  | null => exact ((Op.Idle.plain.forgetChunk).bind fun _ => hput 0 _).keeps _ _
  | record r =>
    exact Op.Idle.keeps_bind (.space (idle.tagOf _ _)) hs fun tag t ht =>
      Op.Idle.keeps_bind (.space (idle.variantLayout _ _)) ht fun l u hu =>
        storeRecordBehind_bind_fills hin hleaves hu l r fun _ => hput tag _
  | _ => exact .of_store rfl

/-- An open record behind a reference fills its chunk and those behind it. -/
theorem writeOpenBehind_fills :
    (writeOpenBehind writeIn).Keeps s (filledByValue writeIn inside .chunkOpen s) := by
  have hput (tag : Nat) (chunk : ChunkId) : (do
      Op.stream (ByteSink.writeU32 tag)
      writeChunkId chunk : Op Slot Unit).Idle :=
    Op.Idle.plain.bind (Op.Idle.plain.write _) fun _ => Op.Idle.plain.write _
  obtain ⟨space, stream, value, chunk⟩ := s
  -- the three questions fill nothing; what is left is the storing and the reference
  refine .subject_bind (Op.Idle.keeps_bind (.space (idle.typeId _)) hs fun id t ht => ?_)
  dsimp only
  split
  · exact ((Op.Idle.plain.forgetChunk).bind fun _ => hput id _).keeps _ _
  · refine Op.Idle.keeps_bind (.space (idle.openPlacement _)) ht fun q u hu =>
      Op.Idle.keeps_bind (.space (idle.placedSize _ _)) hu fun hint v hv => ?_
    have hbody : (Op.on Slot.loosePart (writeIn q)).Leaves [] :=
      leaves.on Slot.loosePart_names (hleaves q)
    exact .bind (storeBehind_leaves hbody).tracks hv
      (storeBehind_fills hbody (fun _ hw => .on (hin q _ hw)) hv) fun chunk w _ _ =>
        (hput id chunk).keeps w _

/-- A record in its slot is written only when its schema is the slot's. -/
theorem writeInner_fills (schema : SchemaId) (kind : LayoutKind) {p : Placement}
    (hp : ∀ r, s.subject.value = .record r → filledByValue writeIn inside p s =
      if r.schema = schema then filledByInner writeIn inside (SpaceM.layout schema kind) s else []) :
    (writeInner writeIn schema kind).Keeps s (filledByValue writeIn inside p s) := by
  obtain ⟨space, stream, value, chunk⟩ := s
  refine .subject_bind (.catalog_bind ?_)
  cases value with
  | record r =>
    rw [hp r rfl]
    dsimp only
    split
    · exact writeInside_fills hin hleaves hs (idle.layout _ _)
    · exact .of_store rfl
  | _ => exact .of_store rfl

/-- A wrapped value fills what its carrier fills. -/
theorem writeWrapped_fills (wrapper : WrapperId) (carrier : SchemaId) (kind : LayoutKind) :
    (writeWrapped writeIn wrapper carrier kind).Keeps s
      (filledByValue writeIn inside (.wrapped wrapper carrier kind) s) := by
  obtain ⟨space, stream, value, chunk⟩ := s
  refine .subject_bind (.catalog_bind ?_)
  cases value with
  | wrapped found r =>
    dsimp only [filledByValue]
    split
    · exact writeInside_fills hin hleaves hs (idle.layout _ _)
    · exact .of_store rfl
  | _ => exact .of_store rfl

/-- An inline choice fills what the chosen record fills. -/
theorem writeChoice_fills (choice : ChoiceId) :
    (writeChoice writeIn choice).Keeps s
      (filledByValue writeIn inside (.inlineChoice choice) s) := by
  obtain ⟨space, stream, value, chunk⟩ := s
  refine .subject_bind (.catalog_bind ?_)
  cases value with
  | null => exact (Op.Idle.plain.writeVarint 0).keeps _ _
  | record r =>
    exact Op.Idle.keeps_bind (.space (idle.tagOf _ _)) hs fun tag t ht =>
      Op.Idle.keeps_bind (Op.Idle.plain.writeVarint _) ht fun _ u hu =>
        writeInside_fills hin hleaves hu (idle.variantLayout _ _)
  | _ => exact .of_store rfl

omit hleaves in
/-- An open slot fills what the record in it fills. -/
theorem writeOpen_fills :
    (writeOpen writeIn).Keeps s (filledByValue writeIn inside .inlineOpen s) := by
  obtain ⟨space, stream, value, chunk⟩ := s
  refine .subject_bind (Op.Idle.keeps_bind (.space (idle.typeId _)) hs fun id t ht =>
    Op.Idle.keeps_bind (Op.Idle.plain.writeVarint _) ht fun _ u hu => ?_)
  split
  · exact .of_store rfl
  · exact Op.Idle.keeps_bind (.space (idle.openPlacement _)) hu fun q v hv => .on (hin q _ hv)

end

/-- By induction on the depth, one placement after another. -/
theorem writeWithin_fills (depth : Nat) (p : Placement) {s : Scene Slot}
    (hs : s.space.store.Sound) : (writeWithin depth p).Keeps s (filledWithin depth p s) := by
  -- the scalars, inline texts and handles are idle; every other placement has a lemma of its own
  have hidle := Op.Idle.plain
  induction depth generalizing p s with
  | zero => exact .of_store rfl
  | succ depth ih =>
    have hin (p : Placement) (s : Scene Slot) (hs : s.space.store.Sound) :
        (writeWithin depth p).Keeps s (filledWithin depth p s) := ih p hs
    have hleaves (p : Placement) : (writeWithin depth p).Leaves [] := leaves.writeWithin depth p
    refine .subject_bind ?_
    cases p with
    | scalar kind => exact (hidle.writeScalar _ _).keeps s _
    | inlineText => exact (hidle.writeText _).keeps s _
    | chunkText => exact writeTextBehind_fills hs
    | inlineRecord schema =>
      exact writeInner_fills hin hleaves hs _ _ fun r hr => by simp only [filledByValue, hr]
    | fixedRecord schema =>
      exact writeInner_fills hin hleaves hs _ _ fun r hr => by simp only [filledByValue, hr]
    | chunkRecord schema => exact writeRecordBehind_fills hin hleaves hs _
    | handle schema fixed => exact (hidle.writeHandle _ _ _).keeps s _
    | inlineChoice choice => exact writeChoice_fills hin hleaves hs _
    | chunkChoice choice => exact writeChoiceBehind_fills hin hleaves hs _
    | inlineOpen => exact writeOpen_fills hin hs
    | chunkOpen => exact writeOpenBehind_fills hin hleaves hs
    | wrapped wrapper carrier kind => exact writeWrapped_fills hin hleaves hs _ _ _

/-! ## Whole writes -/

/-- A record's write keeps every chunk it has filled, whether it then fails or not. -/
theorem writeRecord_fills (l : Layout) {s : Scene Record} (hs : s.space.store.Sound) :
    (writeRecord l).Keeps s (filledByWrite l s) :=
  .subject_bind (writeRecordWith_fills (fun p _ ht => writeWithin_fills _ p ht)
    (leaves.writeWithin _) l hs)

/-- The write of one field keeps every chunk it has filled. -/
theorem writeField_fills (f : BoundField) {s : Scene Record} (hs : s.space.store.Sound) :
    (writeField f).Keeps s (filledByField (filledWithin s.subject.walkDepth) f s) :=
  .subject_bind (writeFieldWith_fills (fun p _ ht => writeWithin_fills _ p ht) f hs)

/-- The planned fields keep every chunk they have filled; skipped ones fill none. -/
theorem writeWanted_fills (depth : Nat) (l : Layout) (governing : Option Record)
    (fields wanted : List BoundField) {s : Scene Record} (hs : s.space.store.Sound) :
    (writeWanted depth l governing fields wanted).Keeps s
      (filledByWanted depth l governing fields wanted s) := by
  induction fields generalizing governing wanted s with
  | nil =>
    cases wanted with
    | nil => exact .of_store rfl
    | cons first rest => exact .of_store rfl
  | cons f rest ih =>
    cases wanted with
    | nil => exact .of_store rfl
    | cons first wanted =>
      rw [writeWanted, filledByWanted]
      split
      -- a wanted field is written, and the stream is cut behind the last one
      · refine .bind_after (leaves.writeField f).tracks hs (writeField_fills f hs) fun _ t ht => ?_
        dsimp only
        split
        · exact Op.Idle.keeps_bind (.still fun _ => rfl) ht fun _ u hu => ih _ _ hu
        · exact Op.Idle.keeps_bind (Op.Idle.plain.pure ()) ht fun _ u hu => ih _ _ hu
      · split
        -- a field that decides sizes is read for those behind it
        · have hread (r : Record) :
              (Op.withSubject r (readFieldWith (readWithin depth) f) : Op Record _).Reads True :=
            .withSubject (readFieldWith_reads (readWithin_reads depth) f)
          exact Op.Idle.keeps_bind Op.Idle.plain.catalog hs fun c t ht =>
            (hread _).keeps_bind ht fun _ u hu => ih _ _ hu
        -- any other field is skipped
        · have hskip : (skipFieldWith (skipWithin depth) f governing : Op Record Unit).Reads True :=
            skipFieldWith_reads (skipWithin_reads depth) f governing
          exact hskip.keeps_bind hs fun _ t ht => ih _ _ ht

/-- Opening a plan fills no chunk. -/
theorem openPlan_idle (l : Layout) (plan : Plan) : (openPlan l plan).Idle := by
  have hidle := Op.Idle.plain
  refine hidle.bind hidle.subject fun r => hidle.bind (hidle.space (idle.requireSchema l r)) fun _ =>
    hidle.bind (hidle.forM hidle.deriveField _) fun _ => hidle.bind hidle.config fun config =>
      hidle.bind hidle.subject fun now => ?_
  have hdepth : (readDepth : Op Record Nat).Idle := .still fun _ => rfl
  dsimp only
  split
  · exact hidle.bind (hidle.space (idle.checkPlanned plan now)) fun _ => hdepth
  · exact hidle.bind (hidle.pure ()) fun _ => hdepth

/-- A planned write is its opening, then the wanted fields under the guard. -/
theorem writePlanned_open (l : Layout) (plan : Plan) :
    writePlanned l plan = openPlan l plan >>= fun depth =>
      guardingChunks (if 1 < plan.write.length
        then inTransaction (writeWanted depth l none l.fields plan.write)
        else writeWanted depth l none l.fields plan.write) := by
  simp only [writePlanned, openPlan, bind_assoc]
  refine bind_congr fun r => bind_congr fun _ => bind_congr fun _ => bind_congr fun config =>
    bind_congr fun now => ?_
  split
  · simp
  · simp

/-- A planned write keeps every chunk it has filled, whether it then fails or not. -/
theorem writePlanned_fills (l : Layout) (plan : Plan) {s : Scene Record}
    (hs : s.space.store.Sound) : (writePlanned l plan).Keeps s (filledByPlan l plan s) := by
  rw [writePlanned_open]
  refine (openPlan_idle l plan).keeps_bind hs fun depth t ht => .subject_bind (.onFailure ?_)
  have htracks := (writeWanted_leaves depth l none l.fields plan.write).tracks
  split
  · exact .rollback htracks.inTransaction ht (.inTransaction (writeWanted_fills _ _ _ _ _ ht))
  · exact .rollback htracks ht (writeWanted_fills _ _ _ _ _ ht)

/-! ## After a failure -/

/-- A failed write, of a whole record or of some of its fields, leaves every chunk live that was
live. Such a chunk holds the bytes that it held, unless it is named in the record and a value was
stored into it completely before the failure. -/
theorem failedWrites_keep_unfilled {s t : Scene Record} (hs : s.space.store.Sound) (l : Layout)
    (plan : Plan) {e : FormatError} {c : ChunkId} {content : Bytes}
    (hc : s.space.store.content? c = some content) :
    (writeRecord l s = .error e t → c ∈ t.space.store.live ∧
      (c ∉ s.subject.companions ∨ c ∉ filledByWrite l s →
        t.space.store.content? c = some content)) ∧
    (writePlanned l plan s = .error e t → c ∈ t.space.store.live ∧
      (c ∉ s.subject.companions ∨ c ∉ filledByPlan l plan s →
        t.space.store.content? c = some content)) := by
  have hlive : c ∈ s.space.store.live := ChunkStore.mem_live_iff.mpr (by rw [hc]; rfl)
  have hgen {act : Op Record Unit} {filled : List ChunkId} (h : act.Leaves [])
      (hkeeps : act.Keeps s filled) (hrun : act s = .error e t) : c ∈ t.space.store.live ∧
        (c ∉ s.subject.companions ∨ c ∉ filled → t.space.store.content? c = some content) := by
    have hsub := h.tracks.live_subset hs hlive
    have hframe := (h.frame s hs).kept c hlive
    have hkept := hkeeps c hlive
    rw [outcome_of_error hrun] at hsub hframe hkept
    exact ⟨hsub, fun hout => (hout.elim hframe hkept).trans hc⟩
  exact ⟨hgen (leaves.writeRecord l) (writeRecord_fills l hs),
    hgen (writePlanned_leaves l plan) (writePlanned_fills l plan hs)⟩

/-- Only the first chunk is filled before the failure. So the second holds what it held, although the
slot that fails names it. -/
theorem failedWrites_keep_unfilled_two_texts :
    (twoTextsMisfit ⟨2⟩).space.store.Sound ∧
      ∃ e t, writeRecord twoTextsLayout (twoTextsMisfit ⟨2⟩) = .error e t ∧
        (⟨2⟩ : ChunkId) ∈ (twoTextsMisfit ⟨2⟩).subject.companions ∧
        filledByWrite twoTextsLayout (twoTextsMisfit ⟨2⟩) = [⟨1⟩] ∧
        t.space.store.content? ⟨2⟩ = some (Utf8.encode "right") := by
  have hs := (twoTextsMisfit_prepared ⟨2⟩).space.store
  obtain ⟨hnone, -, -, hheld, -⟩ := twoTextsMisfit_fails
  obtain ⟨e, hfails⟩ := fails_to_after hnone
  have hfilled : filledByWrite twoTextsLayout (twoTextsMisfit ⟨2⟩) = [⟨1⟩] := by decide +kernel
  have hout : (⟨2⟩ : ChunkId) ∉ filledByWrite twoTextsLayout (twoTextsMisfit ⟨2⟩) := by
    rw [hfilled]
    decide
  exact ⟨hs, e, _, hfails, by decide, hfilled, ((failedWrites_keep_unfilled hs twoTextsLayout
    (.full twoTextsLayout) hheld).1 hfails).2 (.inr hout)⟩

/-- The chunk behind the first slot is filled anew before the write fails at the second. -/
theorem failedWrites_keep_not_named :
    ¬∀ (l : Layout) (s t : Scene Record) (e : FormatError), Prepared l s →
      writeRecord l s = .error e t → ∀ c content, s.space.store.content? c = some content →
        t.space.store.content? c = some content := by
  intro hall
  obtain ⟨hnone, -, hheld, -, hnow⟩ := twoTextsMisfit_fails
  obtain ⟨e, hfails⟩ := fails_to_after hnone
  have hkept := hall _ _ _ _ (twoTextsMisfit_prepared ⟨2⟩) hfails ⟨1⟩ _ hheld
  rw [hnow] at hkept
  exact absurd hkept (by decide)

end RecordLayout
