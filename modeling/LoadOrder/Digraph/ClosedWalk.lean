import LoadOrder.Digraph.ShortestPath

/-!
# Closed walks

A cycle is shown by a walk through all its members along the graph's arcs. The walk starts at the
first member, goes on along the shortest path to the nearest member that is not on it yet for as
long as there is one, and then returns to the start, which is left out at its end. A component
made of one loop comes out as that loop; where several loops share nodes, the walk repeats some.

The members may be any numbers. Those that cannot be walked to are left out, but the walk has to
start: it is refused if the first member is no node.
-/

namespace LoadOrder.Digraph

/-- At most `k` forward legs of a walk that stands at `v`, each to the nearest node that is not on
the walk. The answer is the nodes after `v` with the node that the last leg ends at. -/
def legs (g : Digraph) (inside : Nat → Bool) :
    Nat → NodeSet g.size → Nat → Except GraphFault (List Nat × Nat)
  | 0, _, v => .ok ([], v)
  | k + 1, walked, v => do
    match ← g.shortestPath inside (fun w => !walked.contains w) v with
    | none => return ([], v)
    | some leg =>
      let (rest, last) ← legs g inside k (walked.insertAll leg) (leg.getLastD v)
      return (leg ++ rest, last)

/-- The walk through `members`, inside `members`, from the first of them and without the return to
it. Every leg ends at a member that was not on the walk, so there are no more legs than
members. -/
def closedWalk (g : Digraph) (members : List Nat) : Except GraphFault (List Nat) :=
  match members with
  | [] => .ok []
  | first :: _ => do
    let inside := ((NodeSet.empty g.size).insertAll members).contains
    let (forward, last) ←
      g.legs inside members.length ((NodeSet.empty g.size).insert first) first
    -- the way back ends at the start, which is not written a second time
    let back ← g.shortestPath inside (· == first) last
    return first :: forward ++ (back.getD []).dropLast

end LoadOrder.Digraph
