import Mathlib
import RecordLayout.Workspace

/-!
# What operations do

What an operation did is read off its success, one combinator at a time: each lemma here says when a
combinator succeeds, in terms of its parts. In the other direction the same lemmas put a successful
run together. Where failures count too, `outcome` is the state after either.
-/

namespace RecordLayout

/-! ## Sequences -/

section

variable {ε δ σ τ α β : Type}

/-- A sequence succeeds when both parts do, the second from where the first stopped. -/
@[simp] theorem bind_ok {act : EStateM ε σ α} {next : α → EStateM ε σ β} {s u : σ} {b : β} :
    (act >>= next) s = .ok b u ↔ ∃ a t, act s = .ok a t ∧ next a t = .ok b u := by
  simp only [bind, EStateM.bind]
  cases act s with
  | ok a t => simp
  | error e t => simp

/-- A sequence goes on after a first part that succeeds. -/
theorem bind_of_ok {act : EStateM ε σ α} {next : α → EStateM ε σ β} {s t : σ} {a : α}
    (h : act s = .ok a t) : (act >>= next) s = next a t := by
  simp only [bind, EStateM.bind, h]

/-- A sequence fails if its first part does, or the rest after it. -/
theorem bind_error {act : EStateM ε σ α} {next : α → EStateM ε σ β} {s u : σ} {e : ε} :
    (act >>= next) s = .error e u ↔
      act s = .error e u ∨ ∃ a t, act s = .ok a t ∧ next a t = .error e u := by
  simp only [bind, EStateM.bind]
  cases act s with
  | ok a t => simp
  | error e t => simp

/-- A sequence depends on the rest only where the first part leads. -/
theorem bind_congr_ok {act : EStateM ε σ α} {next next' : α → EStateM ε σ β} {s : σ}
    (h : ∀ a t, act s = .ok a t → next a t = next' a t) : (act >>= next) s = (act >>= next') s := by
  simp only [bind, EStateM.bind]
  cases hact : act s with
  | ok a t => exact h a t hact
  | error e t => rfl

/-- The same where no state is passed on. -/
theorem except_bind_ok {x : Except ε α} {f : α → Except ε β} {b : β}
    (h : x >>= f = .ok b) : ∃ a, x = .ok a ∧ f a = .ok b := by
  cases x with
  | ok a => exact ⟨a, rfl, h⟩
  | error e => cases h

@[simp] theorem pure_ok {s t : σ} {a b : α} :
    (pure a : EStateM ε σ α) s = .ok b t ↔ a = b ∧ s = t := by
  simp [pure, EStateM.pure]

@[simp] theorem throw_ok {s t : σ} {e : ε} {b : α} :
    (throw e : EStateM ε σ α) s = .ok b t ↔ False := by
  simp [throw, throwThe, MonadExceptOf.throw, EStateM.throw]

/-- Working on a part succeeds when the work does on that part. -/
theorem within_ok {part : Part σ τ} {act : EStateM ε τ α} {s s' : σ} {a : α} :
    within part act s = .ok a s' ↔ ∃ t, act (part.get s) = .ok a t ∧ s' = part.set t s := by
  simp only [within]
  cases act (part.get s) with
  | ok b t =>
    simp only [EStateM.Result.ok.injEq]
    constructor
    · rintro ⟨rfl, rfl⟩
      exact ⟨t, ⟨rfl, rfl⟩, rfl⟩
    · rintro ⟨t', ⟨rfl, rfl⟩, rfl⟩
      exact ⟨rfl, rfl⟩
  | error e t => simp

/-- Restating errors does not touch a success. -/
@[simp] theorem failingAs_ok {restate : ε → δ} {act : EStateM ε σ α} {s s' : σ} {a : α} :
    failingAs restate act s = .ok a s' ↔ act s = .ok a s' := by
  simp only [failingAs]
  cases act s with
  | ok b t => simp
  | error e t => simp

/-- Lifting a plain outcome leaves the state. -/
@[simp] theorem ofExcept_ok {outcome : Except ε α} {s s' : σ} {a : α} :
    (ofExcept outcome : EStateM ε σ α) s = .ok a s' ↔ outcome = .ok a ∧ s = s' := by
  cases outcome with
  | ok b => simp [ofExcept]
  | error e => simp [ofExcept]

/-- Lifting a plain error leaves the state. -/
@[simp] theorem ofExcept_error {outcome : Except ε α} {s s' : σ} {e : ε} :
    (ofExcept outcome : EStateM ε σ α) s = .error e s' ↔ outcome = .error e ∧ s = s' := by
  cases outcome with
  | ok b => simp [ofExcept, pure, EStateM.pure]
  | error e => simp [ofExcept, throw, throwThe, MonadExceptOf.throw, EStateM.throw]

/-- A conditional operation succeeds if the chosen one does. -/
theorem ite_ok {c : Prop} [Decidable c] {x y : EStateM ε σ α} {s s' : σ} {a : α} :
    (if c then x else y) s = .ok a s' ↔ c ∧ x s = .ok a s' ∨ ¬c ∧ y s = .ok a s' := by
  by_cases hc : c <;> simp [hc]

end

/-! ## Operations on a scene -/

namespace Op

variable {τ υ α : Type} {s s' : Scene τ} {a : α}

/-- Work on the space changes only the space. -/
theorem space_ok {act : SpaceM α} :
    (Op.space act : Op τ α) s = .ok a s' ↔
      ∃ w, act s.space = .ok a w ∧ s' = { s with space := w } :=
  within_ok

/-- Work on the stream changes only the stream. -/
theorem stream_ok {act : StreamM ByteStream α} :
    (Op.stream act : Op τ α) s = .ok a s' ↔
      ∃ b, act s.stream = .ok a b ∧ s' = { s with stream := b } := by
  simp only [Op.stream, within_ok, failingAs_ok]
  exact Iff.rfl

/-- Work on a part of the subject changes the space, the stream and that part. -/
theorem on_ok {p : Part τ υ} {act : Op υ α} :
    Op.on p act s = .ok a s' ↔
      ∃ t, act ⟨s.space, s.stream, p.get s.subject⟩ = .ok a t ∧
        s' = ⟨t.space, t.stream, p.set t.subject s.subject⟩ :=
  within_ok

/-- Work on another subject returns that subject and leaves the own one. -/
theorem withSubject_ok {subject : υ} {act : Op υ α} {out : α × υ} :
    (Op.withSubject subject act : Op τ (α × υ)) s = .ok out s' ↔
      ∃ t, act ⟨s.space, s.stream, subject⟩ = .ok out.1 t ∧ out.2 = t.subject ∧
        s' = ⟨t.space, t.stream, s.subject⟩ := by
  obtain ⟨b, x⟩ := out
  simp only [withSubject]
  cases act ⟨s.space, s.stream, subject⟩ with
  | ok c t =>
    simp only [EStateM.Result.ok.injEq, Prod.mk.injEq]
    constructor
    · rintro ⟨⟨rfl, rfl⟩, rfl⟩
      exact ⟨t, ⟨rfl, rfl⟩, rfl, rfl⟩
    · rintro ⟨t', ⟨rfl, rfl⟩, rfl, rfl⟩
      exact ⟨⟨rfl, rfl⟩, rfl⟩
  | error e t => simp

@[simp] theorem subject_ok {x : τ} : (Op.subject : Op τ τ) s = .ok x s' ↔ x = s.subject ∧ s' = s := by
  simp only [subject, EStateM.Result.ok.injEq]
  exact ⟨fun ⟨h, h'⟩ => ⟨h.symm, h'.symm⟩, fun ⟨h, h'⟩ => ⟨h.symm, h'.symm⟩⟩

@[simp] theorem setSubject_ok {x : τ} {u : Unit} :
    (Op.setSubject x : Op τ Unit) s = .ok u s' ↔ s' = { s with subject := x } := by
  simp only [setSubject, EStateM.Result.ok.injEq, true_and]
  exact eq_comm

@[simp] theorem modifySubject_ok {f : τ → τ} {u : Unit} :
    (Op.modifySubject f : Op τ Unit) s = .ok u s' ↔ s' = { s with subject := f s.subject } := by
  simp only [modifySubject, EStateM.Result.ok.injEq, true_and]
  exact eq_comm

@[simp] theorem catalog_ok {c : Catalog} :
    (Op.catalog : Op τ Catalog) s = .ok c s' ↔ c = s.space.catalog ∧ s' = s := by
  simp only [catalog, space_ok, SpaceM.catalog, EStateM.Result.ok.injEq]
  constructor
  · rintro ⟨w, ⟨rfl, rfl⟩, rfl⟩
    exact ⟨rfl, rfl⟩
  · rintro ⟨rfl, rfl⟩
    exact ⟨_, ⟨rfl, rfl⟩, rfl⟩

@[simp] theorem config_ok {c : Config} :
    (Op.config : Op τ Config) s = .ok c s' ↔ c = s.space.config ∧ s' = s := by
  simp only [config, EStateM.Result.ok.injEq]
  exact ⟨fun ⟨h, h'⟩ => ⟨h.symm, h'.symm⟩, fun ⟨h, h'⟩ => ⟨h.symm, h'.symm⟩⟩

@[simp] theorem position_ok {n : Nat} :
    (Op.position : Op τ Nat) s = .ok n s' ↔ n = s.stream.position ∧ s' = s := by
  simp only [position, EStateM.Result.ok.injEq]
  exact ⟨fun ⟨h, h'⟩ => ⟨h.symm, h'.symm⟩, fun ⟨h, h'⟩ => ⟨h.symm, h'.symm⟩⟩

/-- Moving the cursor changes only the stream's position. -/
@[simp] theorem setPosition_ok {n : Nat} {u : Unit} :
    (Op.setPosition n : Op τ Unit) s = .ok u s' ↔
      s' = { s with stream := s.stream.setPosition n } := by
  simp only [setPosition, EStateM.Result.ok.injEq, true_and]
  exact eq_comm

/-- Cutting a stream off ends it at its cursor. -/
@[simp] theorem cutHere_ok {u : Unit} :
    (Op.cutHere : Op τ Unit) s = .ok u s' ↔
      s' = { s with stream := s.stream.setSize s.stream.position } := by
  simp only [cutHere, EStateM.Result.ok.injEq, true_and]
  exact eq_comm

@[simp] theorem inField_ok {f : BoundField} {act : Op τ α} :
    Op.inField f act s = .ok a s' ↔ act s = .ok a s' :=
  failingAs_ok

/-- What is mended on failure is not looked at on success. -/
@[simp] theorem onFailure_ok {mend : τ → τ} {act : Op τ α} :
    Op.onFailure mend act s = .ok a s' ↔ act s = .ok a s' := by
  simp only [onFailure]
  cases act s with
  | ok b t => simp
  | error e t => simp

/-- A write puts its bytes into the stream. -/
theorem write_ok {bytes : Bytes} {u : Unit} :
    (Op.write bytes : Op τ Unit) s = .ok u s' ↔
      ∃ b, s.stream.put bytes = .ok b ∧ s' = { s with stream := b } := by
  rw [Op.write, Op.stream_ok]
  simp only [ByteSink.write]
  cases s.stream.put bytes with
  | ok b => simp
  | error e => simp

end Op

/-! ## Chunks, transactions and rollback -/

section

variable {τ α : Type} {s s' : Scene τ} {a : α}

/-- A live chunk opens as a stream over its content. -/
theorem open?_ok {store : ChunkStore} {chunk : ChunkId} {opened : ByteStream} :
    store.open? chunk = .ok opened ↔
      ∃ content, store.content? chunk = some content ∧ opened = .ofBytes content := by
  simp only [ChunkStore.open?]
  cases store.content? chunk with
  | some content =>
    simp only [Except.ok.injEq, Option.some.injEq, exists_eq_left']
    exact eq_comm
  | none => simp

/-- Working within a chunk reads its content, works on that stream, and stores what the stream then
holds. -/
theorem withChunk_ok {chunk : ChunkId} {act : Op τ α} :
    withChunk chunk act s = .ok a s' ↔
      ∃ content t, s.space.store.content? chunk = some content ∧
        act { s with stream := .ofBytes content } = .ok a t ∧
        s' = { t with
          space := t.space.setStore (t.space.store.close chunk t.stream), stream := s.stream } := by
  simp only [withChunk]
  -- a chunk that is gone fails before anything is run
  cases hopen : s.space.store.open? chunk with
  | error e =>
    constructor
    · intro h
      cases h
    · rintro ⟨content, t, hcontent, -⟩
      rw [open?_ok.mpr ⟨content, hcontent, rfl⟩] at hopen
      cases hopen
  | ok opened =>
    obtain ⟨content, hcontent, rfl⟩ := open?_ok.mp hopen
    simp only [hcontent, Option.some.injEq, exists_and_left, exists_eq_left']
    cases act { s with stream := .ofBytes content } with
    | ok b t =>
      simp only [EStateM.Result.ok.injEq]
      constructor
      · rintro ⟨rfl, rfl⟩
        exact ⟨t, ⟨rfl, rfl⟩, rfl⟩
      · rintro ⟨t', ⟨rfl, rfl⟩, rfl⟩
        exact ⟨rfl, rfl⟩
    | error e t => simp

/-- A transaction succeeds when its act does and its log is replayed whole. -/
theorem inTransaction_ok {act : Op τ α} :
    inTransaction act s = .ok a s' ↔
      ∃ t b, act { s with stream := s.stream.begin } = .ok a t ∧
        ByteStream.commit t.stream = .ok () b ∧ s' = { t with stream := b } := by
  simp only [inTransaction]
  cases act { s with stream := s.stream.begin } with
  | error e t => simp
  | ok c t =>
    cases hcommit : ByteStream.commit t.stream with
    | error e b => simp [hcommit]
    | ok u b =>
      simp only [hcommit, EStateM.Result.ok.injEq]
      constructor
      · rintro ⟨rfl, rfl⟩
        exact ⟨t, b, ⟨rfl, rfl⟩, hcommit, rfl⟩
      · rintro ⟨t', b', ⟨rfl, rfl⟩, hb, rfl⟩
        rw [hcommit] at hb
        cases hb
        exact ⟨rfl, rfl⟩

/-- A successful frame keeps its chunks in the frame around it. -/
theorem rollback_ok {act : Op τ α} :
    rollback act s = .ok a s' ↔
      ∃ t, act { s with space := s.space.openScope } = .ok a t ∧
        s' = { t with space := t.space.keepScope } := by
  simp only [rollback]
  cases act { s with space := s.space.openScope } with
  | ok b t =>
    simp only [EStateM.Result.ok.injEq]
    constructor
    · rintro ⟨rfl, rfl⟩
      exact ⟨t, ⟨rfl, rfl⟩, rfl⟩
    · rintro ⟨t', ⟨rfl, rfl⟩, rfl⟩
      exact ⟨rfl, rfl⟩
  | error e t => simp

/-- What an allocation asks for, and where it fills the chunk. -/
theorem allocateWith_asked {hint : Nat} {fill : Op τ Unit} {chunk : ChunkId}
    (h : allocateWith hint fill s = .ok chunk s') :
    ∃ heap t, heap.store = s.space.store.allocate.2 ∧
      heap.hints = s.space.heap.hints ++ [hint + s.space.config.slack] ∧
      chunk = ⟨s.space.store.next⟩ ∧
      rollback (withChunk chunk fill) { s with space := { s.space with heap } } = .ok () t ∧
      s' = { t with space := t.space.note chunk } := by
  simp only [allocateWith, Allocator.allocate] at h
  split at h
  · cases h
  · rename_i found heap hfound
    split at hfound
    · cases hfound
    · cases hfound
      split at h
      · rename_i t hfill
        cases h
        exact ⟨_, t, rfl, rfl, rfl, hfill, rfl⟩
      · cases h

/-- A new chunk has the next id, and what fills it may be rolled back. -/
theorem allocateWith_ok {hint : Nat} {fill : Op τ Unit} {chunk : ChunkId}
    (h : allocateWith hint fill s = .ok chunk s') :
    ∃ heap t, heap.store = s.space.store.allocate.2 ∧ chunk = ⟨s.space.store.next⟩ ∧
      rollback (withChunk chunk fill) { s with space := { s.space with heap } } = .ok () t ∧
      s' = { t with space := t.space.note chunk } := by
  obtain ⟨heap, t, hstore, -, hrest⟩ := allocateWith_asked h
  exact ⟨heap, t, hstore, hrest⟩

end

/-! ## The state after an operation -/

section

variable {ε δ σ τ α β : Type}

theorem outcome_of_ok {act : EStateM ε σ α} {s t : σ} {a : α} (h : act s = .ok a t) :
    outcome act s = (.ok a, t) := by
  rw [outcome, h]

theorem outcome_of_error {act : EStateM ε σ α} {s t : σ} {e : ε} (h : act s = .error e t) :
    outcome act s = (.error e, t) := by
  rw [outcome, h]

/-- What has not succeeded has failed. -/
theorem error_of_outcome {act : EStateM ε σ α} {s : σ} (h : (outcome act s).1.isOk = false) :
    ∃ e, act s = .error e (outcome act s).2 := by
  cases hrun : act s with
  | ok a t =>
    rw [outcome_of_ok hrun] at h
    cases h
  | error e t => exact ⟨e, by rw [outcome_of_error hrun]⟩

/-- The outcome of a sequence goes on from where a success stopped and is the first part's failure
otherwise. -/
theorem outcome_bind {act : EStateM ε σ α} {next : α → EStateM ε σ β} {s : σ} :
    outcome (act >>= next) s = match act s with
      | .ok a t => outcome (next a) t
      | .error e t => (.error e, t) := by
  simp only [outcome, bind, EStateM.bind]
  cases act s with
  | ok a t => rfl
  | error e t => rfl

/-- The outcome of work on a part is the part's outcome, set back in place. -/
theorem outcome_within_eq {part : Part σ τ} {act : EStateM ε τ α} {s : σ} :
    outcome (within part act) s =
      ((outcome act (part.get s)).1, part.set (outcome act (part.get s)).2 s) := by
  simp only [outcome, within]
  cases act (part.get s) with
  | ok a t => rfl
  | error e t => rfl

/-- The state after work on a part, success or not. -/
theorem outcome_within {part : Part σ τ} {act : EStateM ε τ α} {s : σ} :
    (outcome (within part act) s).2 = part.set (outcome act (part.get s)).2 s := by
  rw [outcome_within_eq]

/-- The outcome of work on the types alone. -/
theorem outcome_index {act : Catalog → IndexM α} {w : Workspace} :
    outcome (SpaceM.index act) w = ((outcome (act w.catalog) w.types).1,
      { w with types := (outcome (act w.catalog) w.types).2 }) := outcome_within_eq

/-- Restating errors ends in the same state. -/
theorem outcome_failingAs {restate : ε → δ} {act : EStateM ε σ α} {s : σ} :
    (outcome (failingAs restate act) s).2 = (outcome act s).2 := by
  simp only [outcome, failingAs]
  cases act s with
  | ok a t => rfl
  | error e t => rfl

end

end RecordLayout
