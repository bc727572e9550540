/-!
# Operations on a part of a state

An operation on a part of a state is an operation on the whole. Whether it succeeds or fails, what
it did to the part stays done.

* `Part` — a part that can be read and replaced;
* `within` — runs an operation on a part.
-/

namespace RecordLayout

/-- A part of a state that can be read and replaced. -/
structure Part (σ τ : Type) where
  get : σ → τ
  set : τ → σ → σ

/-- Runs an operation on a part of the state. -/
def within {ε σ τ α : Type} (part : Part σ τ) (act : EStateM ε τ α) : EStateM ε σ α := fun s =>
  match act (part.get s) with
  | .ok a t => .ok a (part.set t s)
  | .error e t => .error e (part.set t s)

/-- Restates the failure of an operation. -/
def failingAs {ε δ σ α : Type} (restate : ε → δ) (act : EStateM ε σ α) : EStateM δ σ α := fun s =>
  match act s with
  | .ok a s => .ok a s
  | .error e s => .error (restate e) s

/-- Turns the outcome of a check into an operation. -/
def ofExcept {ε σ α : Type} : Except ε α → EStateM ε σ α
  | .ok a => pure a
  | .error e => throw e

/-- The outcome of an operation and the state after it. -/
def outcome {ε σ α : Type} (act : EStateM ε σ α) (s : σ) : Except ε α × σ :=
  match act s with
  | .ok a s => (.ok a, s)
  | .error e s => (.error e, s)

end RecordLayout
