import LoadOrder.Digraph.Check
import LoadOrder.Digraph.ClosedWalk
import LoadOrder.Digraph.Cycle
import LoadOrder.Digraph.TopoSort
import LoadOrder.Session.Basic

/-!
# Sorting a session

A session is sorted once. Every dangling listener is first put behind the anchor, so that whatever
nothing places runs after the baseline. Then the listeners come in topological order, the earlier
registered first where the order leaves a choice; if they wait for one another, the cycles are
reported instead.
-/

namespace LoadOrder.Session

variable {L : Type}

/-- The cycles of the graph as walks along keys. -/
def listCycles (s : Session L) : Except GraphFault CycleListing := do
  let walks ← s.graph.links.cycles.mapM s.graph.links.closedWalk
  return ⟨walks.map fun walk => walk.filterMap s.keyAt?⟩

/-- Whether an order of the indices passes every check: it respects the edges, it is complete, no
listener dangles, and registry and listeners agree. -/
def approves [DecidableEq L] (s : Session L) (order : List Nat) : Bool :=
  s.graph.links.respectsArcs order && s.graph.links.isComplete order
    && s.graph.links.isAnchored s.inBaselineAt && s.registry.isBijective

/-- The listeners with these indices, in the order of the indices. -/
def schedule (s : Session L) (order : List Nat) : Except Refusal (Schedule L) :=
  match order.mapM s.registry.entry? with
  | some entries => .ok ⟨entries⟩
  | none => .error (.graph .notANode)

/-- Puts the dangling listeners behind the anchor. The answer is the new session with the indices
of the listeners that got an edge. -/
def anchorDangling (s : Session L) : Session L × List Nat :=
  let (graph, anchored) := s.graph.anchorDangling s.inBaselineAt (s.baselineSize - 1)
  ({ s with graph }, anchored)

/-- Puts the listeners in order. -/
def sort [DecidableEq L] (s : Session L) : Reply L (Schedule L) :=
  if s.finished then s.refuse .alreadySorted
  else
    -- from here on the session is sorted, whatever comes of it
    let (s, anchored) := { s with finished := true }.anchorDangling
    let begun : List Event := [.anchored s.side s.anchor anchored.length,
      .sorting s.side s.graph.size s.graph.edgeCount]
    match s.graph.links.topoSort with
    | none =>
      match s.listCycles with
      | .error fault => ⟨.error (.graph fault), s, begun⟩
      | .ok listing => ⟨.error (.cyclic listing), s, begun ++ [.cyclic s.side listing]⟩
    | some order =>
      let checked : List Event :=
        if s.policy.checkOrder && !s.approves order then [.disordered s.side] else []
      match s.schedule order with
      | .error reason => ⟨.error reason, s, begun ++ checked⟩
      | .ok schedule =>
        ⟨.ok schedule, s, begun ++ checked ++ [.sorted s.side schedule.size]⟩

end LoadOrder.Session
