import LoadOrder.Digraph.Basic

/-!
# Strongly connected components

Two nodes belong to one component if each reaches the other. One depth-first scan finds all
components. It numbers the nodes as it meets them and keeps a stack of those whose component is
not yet known. Exploring a node answers the lowest number on the stack that the exploration ran
into; if that is the node's own number, nothing below it on the stack can be reached from it, and
the stack down to the node is one component.

Components are listed in the order in which they are closed, so a component comes after those it
leads to, and each one from the top of the stack down, so the node met first comes last.
-/

namespace LoadOrder.Digraph

/-- What the scan knows about a node. -/
inductive Mark where
  /-- Not met. -/
  | unmet
  /-- Met as the given number, its component still growing. -/
  | growing (number : Nat)
  /-- In a component that is closed. -/
  | closed
deriving DecidableEq, Repr

/-- Where the scan stands. -/
structure Scan where
  /-- What is known about each node. -/
  marks : Array Mark
  /-- How many nodes have been met, which is the next number. -/
  met : Nat
  /-- The nodes whose component is still growing, the latest met first. -/
  stack : List Nat
  /-- The closed components, the latest closed first. -/
  components : List (List Nat)

namespace Scan

/-- The scan before any node is met. -/
def start (g : Digraph) : Scan where
  marks := Array.replicate g.size .unmet
  met := 0
  stack := []
  components := []

/-- What is known about `v`; a number that is no node counts as done with. -/
def mark (s : Scan) (v : Nat) : Mark :=
  s.marks[v]?.getD .closed

/-- Meets `v`: it gets the next number and goes on the stack. -/
def meet (s : Scan) (v : Nat) : Scan :=
  { s with
    marks := s.marks.setIfInBounds v (.growing s.met)
    met := s.met + 1
    stack := v :: s.stack }

/-- Closes the component of `v`, which is the stack from its top down to `v`. -/
def close (s : Scan) (v : Nat) : Scan :=
  let component := s.stack.takeWhile (· != v) ++ [v]
  { s with
    marks := component.foldl (fun marks w => marks.setIfInBounds w .closed) s.marks
    stack := (s.stack.dropWhile (· != v)).drop 1
    components := component :: s.components }

/-- One successor `w` of a node being explored: an unmet one is explored in turn, and the lowest
number run into so far takes account of what came of `w`. -/
def look (explore : Nat → Scan → Nat × Scan) (found : Nat × Scan) (w : Nat) : Nat × Scan :=
  match found.2.mark w with
  | .unmet =>
    let (low, s) := explore w found.2
    (min found.1 low, s)
  | .growing number => (min found.1 number, found.2)
  | .closed => found

/-- Explores the unmet node `v` with paths of at most `depth` nodes. The answer is the lowest
number of a growing node that the exploration ran into, its own included, with the scan after
it. -/
def explore (g : Digraph) : (depth : Nat) → Nat → Scan → Nat × Scan
  | 0, _, s => (s.met, s)  -- no path of the scan is that long
  | depth + 1, v, s =>
    let number := s.met
    let (low, s) := (g.succs v).foldl (look (explore g depth)) (number, s.meet v)
    (low, if low = number then s.close v else s)

/-- Explores `v` if it has not been met. -/
def root (g : Digraph) (s : Scan) (v : Nat) : Scan :=
  match s.mark v with
  | .unmet => (explore g g.size v s).2
  | _ => s

end Scan

/-- The strongly connected components in the order in which a scan closes them that tries the
nodes in ascending order and follows the arcs in the order they were added. The nodes on a path of
the scan are distinct, so their number bounds the depth. -/
def components (g : Digraph) : List (List Nat) :=
  ((List.range g.size).foldl (Scan.root g) (Scan.start g)).components.reverse

end LoadOrder.Digraph
