import Mathlib
import RecordLayout.Proofs.Outcome
import RecordLayout.Proofs.Question

/-!
# Questions that fail

A question may compile layouts, work out plans and give ids to types, also if it fails half-way. It
never touches the chunks, the open rollback scopes or the settings: `SpaceM.Idle`.

Main results:

* `SpaceM.Idle.bind` — questions one after another;
* `idle` — all the questions that a write asks.
-/

namespace RecordLayout

/-! ## Idle questions -/

/-- The chunks, the open scopes and the settings are the same. -/
structure Workspace.Rests (w w' : Workspace) : Prop where
  heap : w'.heap = w.heap
  journal : w'.journal = w.journal
  config : w'.config = w.config

theorem Workspace.Rests.refl (w : Workspace) : w.Rests w := ⟨rfl, rfl, rfl⟩

theorem Workspace.Rests.trans {w w' w'' : Workspace} (h : w.Rests w') (h' : w'.Rests w'') :
    w.Rests w'' :=
  ⟨h'.heap.trans h.heap, h'.journal.trans h.journal, h'.config.trans h.config⟩

theorem Workspace.Rests.store {w w' : Workspace} (h : w.Rests w') : w'.store = w.store := by
  rw [Workspace.store, Workspace.store, h.heap]

/-- Whatever comes of the question, the chunks and the open scopes are as they were. -/
def SpaceM.Idle {α : Type} (act : SpaceM α) : Prop := ∀ w : Workspace, w.Rests (outcome act w).2

namespace SpaceM.Idle

variable {α β : Type}

theorem pure (a : α) : Idle (Pure.pure a) := fun w => .refl w

theorem throw (e : FormatError) : Idle (MonadExcept.throw e : SpaceM α) := fun w => .refl w

theorem bind {act : SpaceM α} {next : α → SpaceM β} (h : Idle act) (hnext : ∀ a, Idle (next a)) :
    Idle (act >>= next) := by
  intro w
  have hact := h w
  rw [outcome_bind]
  rw [outcome] at hact
  cases hrun : act w with
  | ok a w' =>
    rw [hrun] at hact
    exact hact.trans (hnext a w')
  | error e w' =>
    rw [hrun] at hact
    exact hact

theorem compile (act : CompileM α) : Idle (SpaceM.compile act) := by
  intro w
  rw [SpaceM.compile, outcome_within]
  exact ⟨rfl, rfl, rfl⟩

end SpaceM.Idle

/-! ## All questions -/

theorem typeId_idle (v : Value) : (SpaceM.typeId v).Idle := by
  intro w
  rw [SpaceM.typeId, outcome_index]
  exact ⟨rfl, rfl, rfl⟩

theorem typeOf_idle (id : Nat) : (SpaceM.typeOf id).Idle := by
  intro w
  simp only [outcome, SpaceM.typeOf]
  split <;> (rename_i heq; split at heq <;> cases heq; exact .refl w)

/-- Every question is idle. -/
theorem idle : SpaceM.Modular SpaceM.Idle where
  pure := .pure
  throw := .throw
  bind := .bind
  catalog := fun w => .refl w
  typeId := typeId_idle
  layout _ _ := .compile _
  openPlacement id := (typeOf_idle id).bind fun _ => .compile _
  inlineSize _ := .compile _

end RecordLayout
