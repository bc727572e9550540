import Mathlib
import RecordLayout.Proofs.Codec.Walk
import RecordLayout.Proofs.Layout.Verdict

/-!
# Writing again after more has been compiled

A write may compile layouts that it comes across. If it is done once more, from the same state but for a
compiler that has learnt all that the first write has learnt, and perhaps more, then every layout and
placement that it asks for is there already: it does what the first write did, and compiles nothing.

Main results:

* `Repeatable.bind`, `Repeatable.around` — operations one after another, and one inside another;
* `layout_repeatable`, `openPlacement_repeatable`, `inlineSize_repeatable` — questions that compile;
* `repeatable` — every write.
-/

namespace RecordLayout

/-! ## Operations that can be repeated -/

/-- The compiler rests again and has forgotten nothing. -/
structure Part.Learns {σ : Type} (p : Part σ Compiler) (s t : σ) : Prop where
  resting : (p.get t).Resting
  grows : (p.get s).Grows (p.get t)

/-- If the operation is repeated with a compiler that has learnt all that it has learnt itself, it ends
alike and leaves that compiler as it is. -/
def Repeatable {ε σ α : Type} (p : Part σ Compiler) (act : EStateM ε σ α) : Prop :=
  ∀ s, (p.get s).Resting → p.Learns s (outcome act s).2 ∧
    ∀ c, (p.get (outcome act s).2).Grows c →
      outcome act (p.set c s) = ((outcome act s).1, p.set c (outcome act s).2)

namespace Repeatable

variable {ε δ σ τ α β : Type} {p : Part σ Compiler} {q : Part τ Compiler}

/-- An operation that has nothing to do with the compiler. -/
theorem blind {act : EStateM ε σ α} (hkeep : ∀ s, p.get (outcome act s).2 = p.get s)
    (h : ∀ s c, outcome act (p.set c s) = ((outcome act s).1, p.set c (outcome act s).2)) :
    Repeatable p act := by
  intro s hs
  refine ⟨⟨?_, ?_⟩, fun c _ => h s c⟩
  · rw [hkeep]
    exact hs
  · rw [hkeep]
    exact .refl _

theorem pure (a : α) : Repeatable p (Pure.pure a : EStateM ε σ α) :=
  blind (fun _ => rfl) fun _ _ => rfl

theorem throw (e : ε) : Repeatable p (MonadExcept.throw e : EStateM ε σ α) :=
  blind (fun _ => rfl) fun _ _ => rfl

/-- Repeatable acts compose. -/
theorem bind {act : EStateM ε σ α} {next : α → EStateM ε σ β} (h : Repeatable p act)
    (hnext : ∀ a, Repeatable p (next a)) : Repeatable p (act >>= next) := by
  -- the second run starts with what the first has compiled, and so does the rest after it
  intro s hs
  obtain ⟨hlearns, hagain⟩ := h s hs
  rw [outcome_bind]
  cases hrun : act s with
  | error e t =>
    rw [outcome_of_error hrun] at hlearns hagain
    refine ⟨hlearns, fun c hc => ?_⟩
    rw [outcome_bind, outcome_eq_error.mp (hagain c hc)]
  | ok a t =>
    rw [outcome_of_ok hrun] at hlearns hagain
    obtain ⟨hlearns', hagain'⟩ := hnext a t hlearns.resting
    refine ⟨⟨hlearns'.resting, hlearns.grows.trans hlearns'.grows⟩, fun c hc => ?_⟩
    -- the first step is repeated with a compiler that knows what the second one has learnt too
    rw [outcome_bind, outcome_eq_ok.mp (hagain c (hlearns'.grows.trans hc))]
    exact hagain' c hc

/-- Work on another state, which is reached and left without regard to the compiler. How it is left may
depend on the state `s` in which all this begins. -/
theorem around_at {act : EStateM ε τ α} {act' : EStateM δ σ β} {s : σ} (h : Repeatable q act)
    (hs : (p.get s).Resting) (enter : σ → τ) (leave : σ → Except ε α × τ → Except δ β × σ)
    (hrun : outcome act' s = leave s (outcome act (enter s)))
    (hagain : ∀ c, outcome act' (p.set c s) = leave (p.set c s) (outcome act (enter (p.set c s))))
    (hstart : q.get (enter s) = p.get s) (hend : ∀ out, p.get (leave s out).2 = q.get out.2)
    (henter : ∀ c, enter (p.set c s) = q.set c (enter s))
    (hleave : ∀ c r t, leave (p.set c s) (r, q.set c t) =
      ((leave s (r, t)).1, p.set c (leave s (r, t)).2)) :
    p.Learns s (outcome act' s).2 ∧ ∀ c, (p.get (outcome act' s).2).Grows c →
      outcome act' (p.set c s) = ((outcome act' s).1, p.set c (outcome act' s).2) := by
  rw [← hstart] at hs
  obtain ⟨hlearns, hsame⟩ := h (enter s) hs
  rw [hrun, hend]
  refine ⟨⟨?_, ?_⟩, fun c hc => ?_⟩
  · rw [hend]
    exact hlearns.resting
  · rw [hend, ← hstart]
    exact hlearns.grows
  · rw [hagain, henter, hsame c hc, hleave]

/-- An act around a repeatable one is repeatable when it passes the compiler through. -/
theorem around {act : EStateM ε τ α} {act' : EStateM δ σ β} (h : Repeatable q act)
    (enter : σ → τ) (leave : σ → Except ε α × τ → Except δ β × σ)
    (hrun : ∀ s, outcome act' s = leave s (outcome act (enter s)))
    (hstart : ∀ s, q.get (enter s) = p.get s) (hend : ∀ s out, p.get (leave s out).2 = q.get out.2)
    (henter : ∀ s c, enter (p.set c s) = q.set c (enter s))
    (hleave : ∀ s c r t, leave (p.set c s) (r, q.set c t) =
      ((leave s (r, t)).1, p.set c (leave s (r, t)).2)) : Repeatable p act' :=
  fun s hs => h.around_at hs enter leave (hrun s) (fun c => hrun (p.set c s)) (hstart s) (hend s)
    (henter s) (hleave s)

end Repeatable

/-! ## Questions -/

section

variable {α : Type}

/-- The whole of a compiler. -/
def Compiler.whole : Part Compiler Compiler := ⟨id, fun c _ => c⟩

/-- Compiling is repeatable in any space. -/
theorem compile_repeatable {act : CompileM α} (h : Repeatable Compiler.whole act) :
    Repeatable Workspace.compilerPart (SpaceM.compile act) :=
  h.around (fun w => w.compiler) (fun w out => (out.1, { w with compiler := out.2 }))
    (fun _ => outcome_within_eq) (fun _ => rfl) (fun _ _ => rfl) (fun _ _ => rfl) fun _ _ _ _ => rfl

/-- Asking for a layout twice gives the same answer twice. -/
theorem layout_repeatable (id : SchemaId) (kind : LayoutKind) :
    Repeatable Compiler.whole (Compiler.layout id kind) := by
  intro c hc
  have hc : c.Resting := hc
  obtain ⟨hrest, hret⟩ := ((Compiler.Resting.answers (id, kind)).leads hc).of_outcome rfl
  exact ⟨⟨hrest, hret.toGrows⟩, fun c' hc' =>
    layout_done (hc'.layouts _ _ (hc.layout_kept id kind))⟩

/-- Asking for a placement twice gives the same answer twice. -/
theorem placement_repeatable (type : ValueType) :
    Repeatable Compiler.whole (Compiler.placement type .flexible) := by
  intro c hc
  have hc : c.Resting := hc
  have hrefers : PlacementRule.flexible.isFixed = true → c.catalog.Refers type :=
    fun hfixed => absurd hfixed Bool.false_ne_true
  obtain ⟨hin, hret⟩ := (placementWith_leads (Compiler.Resting.serves _ _ (⟨0, 0⟩, .standard))
    (hc.within (⟨0, 0⟩, .standard)) hrefers).of_outcome rfl
  exact ⟨⟨hc.returns hret hin.good, hret.toGrows⟩, fun c' hc' =>
    placementWith_done (hc'.placements _ _ (placementWith_kept (hc.placing _)))⟩

/-- Asking for an inline size twice gives the same answer twice. -/
theorem inlineSize_repeatable (p : Placement) :
    Repeatable Compiler.whole (p.inlineSize Compiler.layout) := by
  intro c hc
  -- the size asks for layouts only, and each of these requests is repeatable
  have hJ : Compatible c.catalog
      (Repeats (fun d => d.Resting ∧ d.catalog = c.catalog) True) :=
    Repeats.compatible fun _ hd => hd.2
  have hask (id : SchemaId) (kind : LayoutKind) (_ : Compiler.Askable (id, kind)) :
      Repeats (fun d => d.Resting ∧ d.catalog = c.catalog) True (Compiler.layout id kind)
        (Compiler.layout id kind) (fun _ => True) fun _ => True := by
    rintro d ⟨hd, hcat⟩
    obtain ⟨-, hagain⟩ := layout_repeatable id kind d hd
    refine ⟨⟨((((Compiler.Resting.answers (id, kind)).leads hd).mono
      fun _ _ _ _ _ => trivial).strengthen fun hrest hret => ?_), fun _ _ _ => trivial⟩,
      fun _ => hagain⟩
    exact ⟨hrest, hret.catalog.trans hcat⟩
  have hsize : Repeats (fun d => d.Resting ∧ d.catalog = c.catalog) True
      (p.inlineSize Compiler.layout) (p.inlineSize Compiler.layout) (fun _ => True)
      fun _ => True :=
    hJ.bind (hJ.placementSize hask fun _ _ => trivial) fun _ _ => hJ.pure trivial
  obtain ⟨hends, hagain⟩ := hsize c ⟨hc, rfl⟩
  obtain ⟨hd, hret⟩ := hends.leads.of_outcome rfl
  exact ⟨⟨hd.1, hret.toGrows⟩, hagain trivial⟩

/-- A type's number is the same whatever is compiled. -/
theorem typeId_repeatable (v : Value) : Repeatable Workspace.compilerPart (SpaceM.typeId v) := by
  intro w hw
  have hsame (c : Compiler) (hc : w.compiler.Grows c) :
      outcome (SpaceM.typeId v) { w with compiler := c } =
        ((outcome (SpaceM.typeId v) w).1,
          { (outcome (SpaceM.typeId v) w).2 with compiler := c }) ∧
      (outcome (SpaceM.typeId v) w).2.compiler = w.compiler := by
    have hcat : ({ w with compiler := c } : Workspace).catalog = w.catalog := hc.catalog
    -- types are numbered by the catalog and the index, not by the compiler
    rw [SpaceM.typeId, outcome_index, outcome_index, hcat]
    exact ⟨rfl, rfl⟩
  have hkeep := (hsame w.compiler (.refl _)).2
  refine ⟨⟨?_, ?_⟩, fun c hc => (hsame c ?_).1⟩
  · show (outcome (SpaceM.typeId v) w).2.compiler.Resting
    rw [hkeep]
    exact hw
  · show w.compiler.Grows (outcome (SpaceM.typeId v) w).2.compiler
    rw [hkeep]
    exact .refl _
  · rw [← hkeep]
    exact hc

/-- The catalog is the same whatever is compiled. -/
theorem catalog_repeatable : Repeatable Workspace.compilerPart SpaceM.catalog := by
  intro w hw
  refine ⟨⟨hw, .refl _⟩, fun c hc => ?_⟩
  have hcat : c.catalog = w.compiler.catalog := hc.catalog
  show (Except.ok c.catalog, _) = (Except.ok w.compiler.catalog, _)
  rw [hcat]
  rfl

/-- The type of a number is the same whatever is compiled. -/
theorem typeOf_repeatable (id : Nat) :
    Repeatable Workspace.compilerPart (SpaceM.typeOf id) := by
  refine .blind (fun w => ?_) fun w c => ?_
  · simp only [outcome, SpaceM.typeOf]
    cases w.types.resolve id with
    | ok type => rfl
    | error e => rfl
  · have htypes : (Workspace.compilerPart.set c w).types = w.types := rfl
    simp only [outcome, SpaceM.typeOf, htypes]
    cases w.types.resolve id with
    | ok type => rfl
    | error e => rfl

/-- Every question can be repeated. -/
theorem questions_repeatable : SpaceM.Modular (Repeatable Workspace.compilerPart) where
  pure := .pure
  throw := .throw
  bind := .bind
  catalog := catalog_repeatable
  typeId := typeId_repeatable
  layout id kind := compile_repeatable (layout_repeatable id kind)
  openPlacement id := (typeOf_repeatable id).bind fun type =>
    compile_repeatable (placement_repeatable type)
  inlineSize p := compile_repeatable (inlineSize_repeatable p)

end

/-! ## Writing -/

/-- The compiler of a scene. -/
def Scene.compilerPart {τ : Type} : Part (Scene τ) Compiler :=
  ⟨fun s => s.space.compiler, fun c s => { s with space := { s.space with compiler := c } }⟩

namespace Workspace

/-- Keeping a frame does not look at the compiler. -/
theorem keepScope_compiler (w : Workspace) (c : Compiler) :
    { w with compiler := c }.keepScope = { w.keepScope with compiler := c } := by
  unfold keepScope
  dsimp only
  split <;> rfl

/-- Releasing chunks does not look at the compiler. -/
theorem release_compiler (w : Workspace) (c : Compiler) (chunks : List ChunkId) :
    { w with compiler := c }.release chunks = { w.release chunks with compiler := c } := by
  have hstore : ({ w with compiler := c } : Workspace).store = w.store := rfl
  unfold release
  rw [hstore]
  cases w.store.free chunks with
  | ok store => rfl
  | error e => rfl

/-- Undoing a frame does not look at the compiler. -/
theorem undoScope_compiler (w : Workspace) (c : Compiler) :
    { w with compiler := c }.undoScope = { w.undoScope with compiler := c } := by
  unfold undoScope
  dsimp only
  split
  · rename_i inner rest _
    exact release_compiler { w with journal := rest } c inner
  · rfl

/-- Noting a chunk does not look at the compiler. -/
theorem note_compiler (w : Workspace) (c : Compiler) (chunk : ChunkId) :
    { w with compiler := c }.note chunk = { w.note chunk with compiler := c } := by
  unfold note
  dsimp only
  split <;> rfl

/-- What is done without regard to the compiler leaves it as it is. -/
theorem compiler_of_blind (f : Workspace → Workspace)
    (h : ∀ (w : Workspace) (c : Compiler), f { w with compiler := c } = { f w with compiler := c })
    (w : Workspace) : (f w).compiler = w.compiler := by
  have hsame : f w = { f w with compiler := w.compiler } := h w w.compiler
  rw [hsame]

end Workspace

namespace Repeatable

open Scene

variable {τ υ α : Type}

/-- Work on the space is as repeatable in a scene as on its own. -/
theorem space {act : SpaceM α} (h : Repeatable Workspace.compilerPart act) :
    Repeatable compilerPart (Op.space act : Op τ α) :=
  h.around (fun s => s.space) (fun s out => (out.1, { s with space := out.2 }))
    (fun _ => outcome_within_eq) (fun _ => rfl) (fun _ _ => rfl) (fun _ _ => rfl) fun _ _ _ _ => rfl

/-- Work on the stream does not look at the compiler. -/
theorem stream (act : StreamM ByteStream α) : Repeatable compilerPart (Op.stream act : Op τ α) := by
  refine .blind (fun s => ?_) fun s c => ?_
  · rw [Op.stream, outcome_within_eq]
    rfl
  · rw [Op.stream, outcome_within_eq, outcome_within_eq]
    rfl

/-- Work on a part of the subject is as repeatable as the work. -/
theorem on {p : Part τ υ} {act : Op υ α} (h : Repeatable compilerPart act) :
    Repeatable compilerPart (Op.on p act) :=
  h.around (Scene.part p).get (fun s out => (out.1, (Scene.part p).set out.2 s))
    (fun _ => outcome_within_eq) (fun _ => rfl) (fun _ _ => rfl) (fun _ _ => rfl) fun _ _ _ _ => rfl

/-- Naming the field in the error does not look at the compiler. -/
theorem inField {f : BoundField} {act : Op τ α} (h : Repeatable compilerPart act) :
    Repeatable compilerPart (Op.inField f act) := by
  refine h.around id
    (fun _ out => (out.1.mapError (FormatError.inFieldOf f.owner f.name f.typeName), out.2))
    (fun s => ?_) (fun _ => rfl) (fun _ _ => rfl) (fun _ _ => rfl) fun _ _ _ _ => rfl
  simp only [outcome, Op.inField, failingAs, id]
  cases act s with
  | ok a t => rfl
  | error e t => rfl

/-- Mending the subject does not look at the compiler. -/
theorem onFailure {mend : τ → τ} {act : Op τ α} (h : Repeatable compilerPart act) :
    Repeatable compilerPart (Op.onFailure mend act) := by
  refine h.around id (fun _ out => (out.1,
    bif out.1.isOk then out.2 else { out.2 with subject := mend out.2.subject }))
    (fun s => ?_) (fun _ => rfl) (fun _ out => ?_) (fun _ _ => rfl) fun _ _ r _ => ?_
  · simp only [outcome, Op.onFailure, id]
    cases act s with
    | ok a t => rfl
    | error e t => rfl
  · obtain ⟨r, t⟩ := out
    cases r <;> rfl
  · cases r <;> rfl

/-- A frame is repeatable, kept or undone. -/
theorem rollback {act : Op τ α} (h : Repeatable compilerPart act) :
    Repeatable compilerPart (RecordLayout.rollback act) := by
  refine h.around (fun s => { s with space := s.space.openScope }) (fun _ out => (out.1,
    { out.2 with
      space := bif out.1.isOk then out.2.space.keepScope else out.2.space.undoScope }))
    (fun s => ?_) (fun _ => rfl) (fun _ out => ?_) (fun _ _ => rfl) fun _ c r t => ?_
  · simp only [outcome, RecordLayout.rollback]
    cases act { s with space := s.space.openScope } with
    | ok a t => rfl
    | error e t => rfl
  -- neither end of a frame looks at the compiler
  · obtain ⟨r, t⟩ := out
    cases r with
    | ok a => exact Workspace.compiler_of_blind _ Workspace.keepScope_compiler t.space
    | error e => exact Workspace.compiler_of_blind _ Workspace.undoScope_compiler t.space
  · cases r with
    | ok a => exact congrArg (fun w => (_, Scene.mk w _ _)) (t.space.keepScope_compiler c)
    | error e => exact congrArg (fun w => (_, Scene.mk w _ _)) (t.space.undoScope_compiler c)

/-- A transaction is repeatable, applied or dropped. -/
theorem inTransaction {act : Op τ α} (h : Repeatable compilerPart act) :
    Repeatable compilerPart (RecordLayout.inTransaction act) := by
  refine h.around (fun s => { s with stream := s.stream.begin }) (fun _ out =>
    bif out.1.isOk then
      ((outcome ByteStream.commit out.2.stream).1.mapError FormatError.stream >>= fun _ => out.1,
        { out.2 with stream := (outcome ByteStream.commit out.2.stream).2 })
    else (out.1, { out.2 with stream := out.2.stream.discard }))
    (fun s => ?_) (fun _ => rfl) (fun _ out => ?_) (fun _ _ => rfl) fun _ c r t => ?_
  · simp only [outcome, RecordLayout.inTransaction]
    cases act { s with stream := s.stream.begin } with
    | error e t => rfl
    | ok a t =>
      dsimp only
      -- the log is replayed on a stream that both runs share
      cases ByteStream.commit t.stream with
      | ok u stream => rfl
      | error e stream => rfl
  · obtain ⟨r, t⟩ := out
    cases r <;> rfl
  · cases r <;> rfl

/-- Work within a chunk is repeatable. -/
theorem withChunk {chunk : ChunkId} {act : Op τ α} (h : Repeatable compilerPart act) :
    Repeatable compilerPart (RecordLayout.withChunk chunk act) := by
  intro s hs
  -- a chunk that is gone fails alike in both runs; otherwise the act runs on the same content
  cases hopen : s.space.store.open? chunk with
  | error e =>
    have hrun (u : Scene τ) (hu : u.space.store = s.space.store) :
        outcome (RecordLayout.withChunk chunk act) u = (.error (.stream e), u) := by
      simp only [outcome, RecordLayout.withChunk, hu, hopen]
    rw [hrun s rfl]
    exact ⟨⟨hs, .refl _⟩, fun c _ => hrun _ rfl⟩
  | ok opened =>
    let leave (s : Scene τ) (out : Except FormatError α × Scene τ) : Except FormatError α × Scene τ :=
      (out.1, { out.2 with
        space := out.2.space.setStore (out.2.space.store.close chunk out.2.stream),
        stream := s.stream })
    have hrun (u : Scene τ) (hu : u.space.store = s.space.store) :
        outcome (RecordLayout.withChunk chunk act) u =
          leave u (outcome act { u with stream := opened }) := by
      simp only [outcome, RecordLayout.withChunk, hu, hopen]
      cases act { u with stream := opened } with
      | ok a t => rfl
      | error e t => rfl
    exact h.around_at hs (fun s => { s with stream := opened }) leave (hrun s rfl)
      (fun c => hrun _ rfl) rfl (fun _ => rfl) (fun _ => rfl) fun _ _ _ => rfl

/-- Allocating and filling a chunk is repeatable: the store is the same in both runs. -/
theorem allocateWith {hint : Nat} {fill : Op τ Unit} (h : Repeatable compilerPart fill) :
    Repeatable compilerPart (RecordLayout.allocateWith hint fill) := by
  intro s hs
  rcases hall : s.space.heap.allocate (hint + s.space.config.slack) with ⟨result, heap⟩
  cases result with
  | error e =>
    -- only the heap and the settings are looked at, so the chunk is refused again
    have hrun (u : Scene τ) (hheap : u.space.heap = s.space.heap)
        (hconfig : u.space.config = s.space.config) : outcome (RecordLayout.allocateWith hint fill) u =
          (.error (.stream e), { u with space := { u.space with heap } }) := by
      simp only [outcome, RecordLayout.allocateWith, hheap, hconfig, hall]
    rw [hrun s rfl rfl]
    exact ⟨⟨hs, .refl _⟩, fun c _ => hrun _ rfl rfl⟩
  | ok chunk =>
    -- the chunk is noted, or given back if it could not be filled
    let leave (out : Except FormatError Unit × Scene τ) : Except FormatError ChunkId × Scene τ :=
      (out.1.map fun _ => chunk, { out.2 with
        space := bif out.1.isOk then out.2.space.note chunk else out.2.space.release [chunk] })
    have hrun (u : Scene τ) (hheap : u.space.heap = s.space.heap)
        (hconfig : u.space.config = s.space.config) : outcome (RecordLayout.allocateWith hint fill) u =
          leave (outcome (RecordLayout.rollback (RecordLayout.withChunk chunk fill))
            { u with space := { u.space with heap } }) := by
      simp only [outcome, RecordLayout.allocateWith, hheap, hconfig, hall]
      cases RecordLayout.rollback (RecordLayout.withChunk chunk fill)
          { u with space := { u.space with heap, config := s.space.config } } with
      | ok a t => rfl
      | error e t => rfl
    have hfill : Repeatable compilerPart
        (RecordLayout.rollback (RecordLayout.withChunk chunk fill)) := h.withChunk.rollback
    refine hfill.around_at hs (fun s => { s with space := { s.space with heap } }) (fun _ => leave)
      (hrun s rfl rfl) (fun c => hrun _ rfl rfl) rfl (fun out => ?_) (fun _ => rfl) fun c r t => ?_
    · -- neither noting it nor giving it back looks at the compiler
      obtain ⟨r, t⟩ := out
      cases r with
      | ok u =>
        exact Workspace.compiler_of_blind (·.note chunk) (fun w c => w.note_compiler c chunk) t.space
      | error e =>
        exact Workspace.compiler_of_blind (·.release [chunk])
          (fun w c => w.release_compiler c [chunk]) t.space
    · cases r with
      | ok u => exact congrArg (fun w => (_, Scene.mk w _ _)) (t.space.note_compiler c chunk)
      | error e => exact congrArg (fun w => (_, Scene.mk w _ _)) (t.space.release_compiler c [chunk])

/-- Storing behind a slot is repeatable. -/
theorem storeBehind {hint : Nat} {body : Op Slot Unit} (h : Repeatable compilerPart body) :
    Repeatable compilerPart (RecordLayout.storeBehind hint body) := by
  refine (Repeatable.blind (fun _ => rfl) fun _ _ => rfl).bind fun slot =>
    (Repeatable.blind (fun _ => rfl) fun _ _ => rfl).bind fun live => ?_
  split
  · have hcut : Repeatable compilerPart (Op.cutHere : Op Slot Unit) :=
      .blind (fun _ => rfl) fun _ _ => rfl
    exact (h.bind fun _ => hcut).inTransaction.withChunk.bind fun _ => .pure _
  · exact h.allocateWith.bind fun chunk =>
      (Repeatable.blind (fun _ => rfl) fun _ _ => rfl).bind fun _ => .pure _

/-- Deriving a field is repeatable. -/
theorem deriveField (f : BoundField) : Repeatable compilerPart (RecordLayout.deriveField f) := by
  rw [RecordLayout.deriveField]
  split
  · exact .pure _
  · refine (Repeatable.blind (fun _ => rfl) fun _ _ => rfl).bind fun r => ?_
    exact (space (questions_repeatable.derivedValue f r _)).bind fun v =>
      .blind (fun _ => rfl) fun _ _ => rfl

/-- Checking how far the cursor moved does not look at the compiler. -/
theorem movingBy {bytes : Nat} {failure : Nat → FormatError} {act : Op Record Unit}
    (h : Repeatable compilerPart act) :
    Repeatable compilerPart (Op.movingBy bytes failure act) := by
  refine (Repeatable.blind (fun _ => rfl) fun _ _ => rfl).bind fun _ => h.bind fun _ =>
    (Repeatable.blind (fun _ => rfl) fun _ _ => rfl).bind fun _ => ?_
  split
  · exact throw _
  · exact pure _

/-- Freeing the chunks of a failed act is repeatable. -/
theorem guardingChunks {act : Op Record Unit} (h : Repeatable compilerPart act) :
    Repeatable compilerPart (RecordLayout.guardingChunks act) :=
  (Repeatable.blind (fun _ => rfl) fun _ _ => rfl).bind fun _ => h.rollback.onFailure

end Repeatable

/-- Every write can be repeated. -/
theorem repeatable : Op.Modular (Repeatable Workspace.compilerPart)
    fun act => Repeatable Scene.compilerPart act where
  questions := questions_repeatable
  pure := .pure
  throw := .throw
  bind := .bind
  space := .space
  subject := .blind (fun _ => rfl) fun _ _ => rfl
  config := .blind (fun _ => rfl) fun _ _ => rfl
  movingBy h := .movingBy h
  write _ := .stream _
  writeWord _ _ := .stream _
  on _ := .on
  inField := .inField
  deriveField := .deriveField
  guardingChunks := .guardingChunks
  forgetChunk := .blind (fun _ => rfl) fun _ _ => rfl
  storeBehind := .storeBehind

end RecordLayout
