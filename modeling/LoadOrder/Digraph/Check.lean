import LoadOrder.Digraph.Basic
import LoadOrder.Digraph.NodeSet

/-!
# Checks on an order of the nodes

An order is given as any list of numbers. `respectsArcs` looks at the last place of each node, a
node that is missing counting as last of all; `isComplete` asks for every node once. An order that
passes both is a topological order of all nodes.
-/

namespace LoadOrder.Digraph

/-- The last place of each node in `order`. -/
def places (g : Digraph) (order : List Nat) : Array (Option Nat) :=
  order.zipIdx.foldl (fun places (v, i) => places.setIfInBounds v (some i))
    (Array.replicate g.size none)

/-- Whether the first place comes before the second, a missing place being after all others. -/
def isBefore : Option Nat → Option Nat → Bool
  | some i, some j => i < j
  | some _, none => true
  | none, _ => false

/-- Whether `order` holds nodes only and, by their last places, the source of each arc before its
target. -/
def respectsArcs (g : Digraph) (order : List Nat) : Bool :=
  let places := g.places order
  let place v := places[v]?.getD none
  order.all (· < g.size) && g.arcs.all fun (u, v) => isBefore (place u) (place v)

/-- Whether `order` is as long as there are nodes and holds no number twice and none that is no
node. -/
def isComplete (g : Digraph) (order : List Nat) : Bool :=
  order.length == g.size && ((NodeSet.empty g.size).gather order).1.length == order.length

end LoadOrder.Digraph
