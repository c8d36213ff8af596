import LoadOrder.Digraph.Basic

/-!
# Topological order

`Digraph.topoSort` emits the nodes one at a time, each time the lowest node all of whose
predecessors have been emitted. For this it counts down, for every node, the predecessors still to
come; a node whose count reaches zero is ready. When no node is ready before all are emitted, the
rest waits for itself and there is no order.

The run is a value (`Countdown`) and one emission a function on it (`Countdown.step`), so that
what holds along the way can be stated of every value a run passes through.
-/

namespace LoadOrder.Digraph

/-- Where a run stands. -/
structure Countdown where
  /-- For each node, how many predecessors have not been emitted. -/
  waiting : Array Nat
  /-- The nodes that wait for nothing and have not been emitted, in ascending order. -/
  ready : List Nat
  /-- The emitted nodes, the latest first. -/
  emitted : List Nat

/-- Puts `v` before the first entry of an ascending list that is not below it. -/
def insertAscending (v : Nat) (vs : List Nat) : List Nat :=
  vs.takeWhile (· < v) ++ v :: vs.dropWhile (· < v)

namespace Countdown

/-- The run before the first emission: a node is ready if it has no predecessor. -/
def start (g : Digraph) : Countdown where
  waiting := (Array.range g.size).map fun v => (g.preds v).length
  ready := (List.range g.size).filter fun v => (g.preds v).isEmpty
  emitted := []

/-- How many predecessors `v` still waits for. -/
def waitingFor (c : Countdown) (v : Nat) : Nat :=
  c.waiting[v]?.getD 0

/-- Takes one predecessor off the count of `v`, which gets ready when none is left. -/
def release (c : Countdown) (v : Nat) : Countdown :=
  -- each predecessor is emitted once, so the count is not zero yet
  let left := c.waitingFor v - 1
  { c with
    waiting := c.waiting.setIfInBounds v left
    ready := if left = 0 then insertAscending v c.ready else c.ready }

/-- Emits the lowest ready node and releases its successors; `none` if no node is ready. -/
def step (g : Digraph) (c : Countdown) : Option Countdown :=
  match c.ready with
  | [] => none
  | v :: ready => some ((g.succs v).foldl release { c with ready, emitted := v :: c.emitted })

/-- The run after `k` emissions, or after the last possible one if that comes first. -/
def run (g : Digraph) : Nat → Countdown → Countdown
  | 0, c => c
  | k + 1, c =>
    match c.step g with
    | none => c
    | some c => run g k c

end Countdown

/-- The nodes in an order that puts the source of each arc before its target and, among the nodes
that could come next, always the lowest first. There is none if the nodes run out before all are
emitted. No node is emitted twice, so as many emissions as there are nodes suffice. -/
def topoSort (g : Digraph) : Option (List Nat) :=
  let emitted := (Countdown.run g g.size (Countdown.start g)).emitted
  if emitted.length < g.size then none else some emitted.reverse

end LoadOrder.Digraph
