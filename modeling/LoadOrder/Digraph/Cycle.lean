import LoadOrder.Digraph.Component

/-!
# Cycles

A component is cyclic if a closed walk of at least one arc runs inside it: it has more than one
node, or its only node has an arc to itself. These components are the graph's cycles.
-/

namespace LoadOrder.Digraph

/-- Whether a component of `g` is cyclic. -/
def isCyclic (g : Digraph) : List Nat → Bool
  | [] => false
  | [v] => (g.succs v).contains v
  | _ => true

/-- The cyclic components, each in ascending order, by their lowest nodes. -/
def cycles (g : Digraph) : List (List Nat) :=
  let members := (g.components.filter g.isCyclic).map fun c => c.mergeSort fun a b => a ≤ b
  members.mergeSort fun a b => a.headD 0 ≤ b.headD 0

end LoadOrder.Digraph
