/-!
# Reachability

What can be reached from some nodes of a graph that is given by the successors of each node. The
search goes in rounds; as many rounds as there are nodes reach everything.
-/

namespace RecordLayout

/-- The nodes reached in at most `rounds` rounds from a frontier; `seen` were reached before. -/
def reach {α : Type} [BEq α] (next : α → List α) : Nat → List α → List α → List α
  | 0, seen, _ => seen
  | rounds + 1, seen, frontier =>
    let fresh := (frontier.filter fun node => !seen.contains node).eraseDups
    if fresh.isEmpty then seen else reach next rounds (seen ++ fresh) (fresh.flatMap next)

end RecordLayout
