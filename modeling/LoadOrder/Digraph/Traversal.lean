import LoadOrder.Digraph.Basic
import LoadOrder.Digraph.NodeSet

/-!
# Depth-first traversal

A traversal looks for a node with some property among those reachable from a start. It offers the
nodes one by one in depth-first pre-order, a node's neighbours in the order of its arcs, no node
twice, and ends with the first node that is accepted. The list of the offered nodes is the
traversal's record; the answer can be read off it.
-/

namespace LoadOrder.Digraph

/-- The nodes offered from a stack of nodes still to be visited, top first. A node that was met
since it was put on the stack is passed over; any other is offered, and unless it is accepted those
of its neighbours that have not been met go on top of the stack. -/
def offersFrom {n : Nat} (next : Nat → List Nat) (accept : Nat → Bool) (seen : NodeSet n) :
    List Nat → List Nat
  | [] => []
  | v :: stack =>
    if _ : seen.isFree v then
      v :: if accept v then []
        else
          offersFrom next accept (seen.insert v) ((next v).filter (seen.insert v).isFree ++ stack)
    else offersFrom next accept seen stack
termination_by stack => (seen.freeCount, stack.length)
decreasing_by
  -- a node that is offered is free no more; one that is passed over leaves the stack
  · exact Prod.Lex.left _ _ (NodeSet.freeCount_insert_lt ‹_›)
  · exact Prod.Lex.right _ (by simp)

/-- The nodes offered by a traversal from `start` along a way, in order; none if `start` is no
node. -/
def offers (g : Digraph) (way : Way) (accept : Nat → Bool) (start : Nat) : List Nat :=
  offersFrom (g.neighbours way) accept (NodeSet.empty g.size) [start]

/-- Whether a node reachable from `start` along a way, by any number of arcs, is accepted. -/
def finds (g : Digraph) (way : Way) (accept : Nat → Bool) (start : Nat) : Bool :=
  (g.offers way accept start).any accept

end LoadOrder.Digraph
