import LoadOrder.Digraph.Basic
import LoadOrder.Digraph.NodeSet

/-!
# Shortest paths inside a set of nodes

A breadth-first search from a node along the arcs that stay inside a given set. It looks for the
nearest target; among the paths of that length it takes the one whose nodes come first. The start
itself counts only as a target that the path comes back to, so a path has at least one arc.

A search can be asked to start anywhere. Standing on a number that is no node it has nowhere to
look, and is refused.
-/

namespace LoadOrder.Digraph

/-- The successors of the node `v` inside a set, in ascending order. -/
def succsInside (g : Digraph) (inside : Nat → Bool) (v : Nat) : Except GraphFault (List Nat) :=
  (g.succsOfNode v).map fun succs => (succs.filter inside).mergeSort fun a b => a ≤ b

/-- The path found by a search with this queue. An entry of the queue is a node with the way to it
from the start, latest node first and without the start; the nearest nodes stand first. -/
def pathFrom {n : Nat} (next : Nat → Except GraphFault (List Nat)) (target : Nat → Bool)
    (seen : NodeSet n) : List (Nat × List Nat) → Except GraphFault (Option (List Nat))
  | [] => .ok none
  | (v, trail) :: queue =>
    match next v with
    | .error fault => .error fault
    | .ok succs =>
      match succs.find? target with
      | some w => .ok (some (w :: trail).reverse)
      | none =>
        let found := seen.gather succs
        pathFrom next target found.2 (queue ++ found.1.map fun w => (w, w :: trail))
termination_by queue => seen.freeCount + queue.length
decreasing_by
  -- one entry leaves the queue, and each that joins it was free until now
  have := NodeSet.freeCount_gather seen succs
  simp only [List.length_append, List.length_map, List.length_cons]
  omega

/-- The nodes after `start` on the shortest path inside a set from `start` to a target, the target
last; `none` if no path leads to one. -/
def shortestPath (g : Digraph) (inside target : Nat → Bool) (start : Nat) :
    Except GraphFault (Option (List Nat)) :=
  pathFrom (g.succsInside inside) target ((NodeSet.empty g.size).insert start) [(start, [])]

end LoadOrder.Digraph
