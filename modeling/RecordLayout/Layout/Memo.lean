import RecordLayout.Part

/-!
# Results that are computed once

A memo keeps the result of a computation under a key, failures included. A computation may ask for
further keys while it runs; asking for a key whose computation is still running fails at once.

* `Memo.fetch` — the kept result, or a computation whose result is kept.
-/

namespace RecordLayout

/-- What a memo knows of a key. -/
inductive MemoSlot (ε ν : Type) where
  /-- The computation is running. -/
  | running
  /-- The computation ended. -/
  | done (result : Except ε ν)

/-- Results under keys. -/
structure Memo (κ ε ν : Type) where
  slots : List (κ × MemoSlot ε ν)
  deriving Inhabited

namespace Memo

variable {κ ε ν : Type} [BEq κ]

/-- A memo that knows nothing. -/
def empty : Memo κ ε ν := ⟨[]⟩

/-- What is known of a key. -/
def find? (m : Memo κ ε ν) (key : κ) : Option (MemoSlot ε ν) := m.slots.lookup key

/-- Replaces what is known of a key. -/
def insert (m : Memo κ ε ν) (key : κ) (slot : MemoSlot ε ν) : Memo κ ε ν :=
  ⟨(key, slot) :: m.slots.filter fun (k, _) => !(k == key)⟩

/-- The values of the computations that succeeded. -/
def values (m : Memo κ ε ν) : List ν :=
  m.slots.filterMap fun (_, slot) => match slot with
    | .done (.ok v) => some v
    | _ => none

/-- The result under a key: the kept one, or that of `compute`, which is then kept. While it
runs, asking for the key fails with `busy`. -/
def fetch {σ : Type} (memo : Part σ (Memo κ ε ν)) (busy : ε) (key : κ)
    (compute : EStateM ε σ ν) : EStateM ε σ ν := fun s =>
  let keep (slot : MemoSlot ε ν) (s : σ) : σ := memo.set ((memo.get s).insert key slot) s
  match (memo.get s).find? key with
  | some (.done (.ok v)) => .ok v s
  | some (.done (.error e)) => .error e s
  | some .running => .error busy s
  | none => match compute (keep .running s) with
    | .ok v s => .ok v (keep (.done (.ok v)) s)
    | .error e s => .error e (keep (.done (.error e)) s)

end Memo

end RecordLayout
