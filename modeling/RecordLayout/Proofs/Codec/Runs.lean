import Mathlib
import RecordLayout.Proofs.Space
import RecordLayout.Proofs.Stream.Consumed

/-!
# Runs that only learn

Walks over stored records change nothing but what is known of layouts: `Workspace.Runs` says what
such a walk gives and where it leaves the cursor and the subject, wherever at least as much is known.
One rule for each combinator puts a run together from the runs of its parts.

Main results:

* `Runs.bind`, `Runs.space`, `Runs.stream` — sequences, questions and reads;
* `Runs.withChunk` — walks into a chunk, which leave the chunk as it is.
-/

namespace RecordLayout

namespace Workspace

/-- A workspace in which no less is known, and the chunks are as they were. -/
structure Later (w v : Workspace) : Prop extends Le w v where
  heap : v.heap = w.heap
  sound : v.Sound

namespace Later

variable {w v u : Workspace}

theorem refl (hs : w.Sound) : w.Later w := ⟨.refl w, rfl, hs⟩

/-- Being later is transitive. -/
theorem trans (h : w.Later v) (h' : v.Later u) : w.Later u :=
  ⟨h.toLe.trans h'.toLe, h'.heap.trans h.heap, h'.sound⟩

/-- What is learnt makes a space later. -/
theorem learns (h : w.Later v) (hv : v.Learns u) (hs : u.Sound) : w.Later u :=
  h.trans ⟨hv.toLe, hv.heap, hs⟩

/-- A later space has the same store. -/
theorem store (h : w.Later v) : v.store = w.store := by
  rw [Workspace.store, h.heap]
  rfl

/-- Plans do not matter. -/
theorem withPlans (h : w.Later v) (plans : PlanBooks) : w.Later { v with plans := plans } :=
  ⟨⟨h.compiler, h.types, h.config⟩, h.heap, ⟨h.sound.compiler, h.sound.store⟩⟩

end Later

/-- Wherever no less is known than here, the operation gives `a` and takes the stream from `t` to
`t'` and the subject from `x` to `x'`, and only learns. -/
def Runs {τ α : Type} (w : Workspace) (act : Op τ α) (t : ByteStream) (x : τ) (a : α)
    (t' : ByteStream) (x' : τ) : Prop :=
  ∀ v, w.Later v → ∃ v', act ⟨v, t, x⟩ = .ok a ⟨v', t', x'⟩ ∧ v.Learns v' ∧ v'.Sound

variable {τ υ α β : Type} {w : Workspace} {t t' t'' : ByteStream} {x x' x'' : τ} {a : α} {b : β}

namespace Runs

/-- What a run leaves that has taken place. -/
theorem of_ok {act : Op τ α} (h : w.Runs act t x a t' x') (hs : w.Sound) {a' : α} {s' : Scene τ}
    (hrun : act ⟨w, t, x⟩ = .ok a' s') :
    a' = a ∧ ∃ v, s' = ⟨v, t', x'⟩ ∧ w.Learns v ∧ v.Sound := by
  obtain ⟨v, hact, hlearns, hv⟩ := h w (.refl hs)
  rw [hact] at hrun
  cases hrun
  exact ⟨rfl, v, rfl, hlearns, hv⟩

theorem pure (a : α) : w.Runs (Pure.pure a : Op τ α) t x a t x :=
  fun v hv => ⟨v, rfl, .refl v, hv.sound⟩

/-- Runs compose. -/
theorem bind {act : Op τ α} {next : α → Op τ β} (h : w.Runs act t x a t' x')
    (hnext : w.Runs (next a) t' x' b t'' x'') : w.Runs (act >>= next) t x b t'' x'' := by
  intro v hv
  obtain ⟨v₁, hact, hv₁, hs₁⟩ := h v hv
  obtain ⟨v₂, hthen, hv₂, hs₂⟩ := hnext v₁ (hv.learns hv₁ hs₁)
  exact ⟨v₂, bind_ok.mpr ⟨a, _, hact, hthen⟩, hv₁.trans hv₂, hs₂⟩

/-- A question that is answered steadily runs. -/
theorem space {act : SpaceM α} (h : w.Steady act a) : w.Runs (Op.space act : Op τ α) t x a t x := by
  intro v hv
  obtain ⟨v', hrun, hs', hlearns⟩ := h v hv.toLe hv.sound
  exact ⟨v', Op.space_ok.mpr ⟨v', hrun, rfl⟩, hlearns, hs'⟩

/-- A question about the subject. -/
theorem ask {act : SpaceM α} (h : ∀ v : Workspace, act v = .ok a v) :
    w.Runs (Op.space act : Op τ α) t x a t x :=
  fun v hv => ⟨v, Op.space_ok.mpr ⟨v, h v, rfl⟩, .refl v, hv.sound⟩

/-- A step of the stream runs. -/
theorem stream {act : StreamM ByteStream α} (h : act t = .ok a t') :
    w.Runs (Op.stream act : Op τ α) t x a t' x :=
  fun v hv => ⟨v, Op.stream_ok.mpr ⟨t', h, rfl⟩, .refl v, hv.sound⟩

theorem subject : w.Runs (Op.subject : Op τ τ) t x x t x :=
  fun v hv => ⟨v, rfl, .refl v, hv.sound⟩

theorem setSubject (x' : τ) : w.Runs (Op.setSubject x' : Op τ Unit) t x () t x' :=
  fun v hv => ⟨v, rfl, .refl v, hv.sound⟩

theorem modifySubject (f : τ → τ) : w.Runs (Op.modifySubject f : Op τ Unit) t x () t (f x) :=
  fun v hv => ⟨v, rfl, .refl v, hv.sound⟩

theorem catalog : w.Runs (Op.catalog : Op τ Catalog) t x w.catalog t x := by
  intro v hv
  exact ⟨v, Op.catalog_ok.mpr ⟨hv.catalog.symm, rfl⟩, .refl v, hv.sound⟩

theorem ofExcept {outcome : Except FormatError α} (h : outcome = .ok a) :
    w.Runs (RecordLayout.ofExcept outcome : Op τ α) t x a t x :=
  fun v hv => ⟨v, ofExcept_ok.mpr ⟨h, rfl⟩, .refl v, hv.sound⟩

/-- Naming the field in the error does not change a run. -/
theorem inField {act : Op τ α} {f : BoundField} (h : w.Runs act t x a t' x') :
    w.Runs (Op.inField f act) t x a t' x' := by
  intro v hv
  obtain ⟨v', hrun, hrest⟩ := h v hv
  exact ⟨v', Op.inField_ok.mpr hrun, hrest⟩

/-- A run on a part is a run on the whole with the part set. -/
theorem on {p : Part τ υ} {act : Op υ α} {y : υ} (h : w.Runs act t (p.get x) a t' y) :
    w.Runs (Op.on p act) t x a t' (p.set y x) := by
  intro v hv
  obtain ⟨v', hrun, hrest⟩ := h v hv
  exact ⟨v', Op.on_ok.mpr ⟨_, hrun, rfl⟩, hrest⟩

/-- A run on another subject returns that subject. -/
theorem withSubject {act : Op υ α} {y y' : υ} (h : w.Runs act t y a t' y') :
    w.Runs (Op.withSubject y act : Op τ (α × υ)) t x (a, y') t' x := by
  intro v hv
  obtain ⟨v', hrun, hrest⟩ := h v hv
  exact ⟨v', Op.withSubject_ok.mpr ⟨_, hrun, rfl, rfl⟩, hrest⟩

/-- A walk that reads in a chunk leaves the chunk as it is. -/
theorem withChunk {act : Op τ α} {chunk : ChunkId} {content : Bytes} {n : Nat}
    (hcontent : w.store.content? chunk = some content)
    (h : w.Runs act (.ofBytes content) x a ((ByteStream.ofBytes content).ahead n) x') :
    w.Runs (withChunk chunk act) t x a t x' := by
  intro v hv
  obtain ⟨v', hrun, hv', hs'⟩ := h v hv
  have hopened : v.store.content? chunk = some content := by
    rw [hv.store]
    exact hcontent
  -- the content was only read, so writing it back changes nothing
  have hsame : v'.store.close chunk ((ByteStream.ofBytes content).ahead n) = v'.store := by
    rw [ChunkStore.close, ByteStream.ahead_ofBytes,
      ByteStream.content_shown (s := .memory content n) trivial]
    refine ChunkStore.setContent_same hs'.store ?_
    rw [hv'.store]
    exact hopened
  refine ⟨v', withChunk_ok.mpr ⟨content, _, hopened, hrun, ?_⟩, hv', hs'⟩
  show (⟨v', t, x'⟩ : Scene τ) = ⟨v'.setStore (v'.store.close chunk _), t, x'⟩
  rw [hsame]
  rfl

end Runs

end Workspace

end RecordLayout
