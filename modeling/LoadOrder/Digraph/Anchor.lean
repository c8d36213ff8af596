import LoadOrder.Digraph.Traversal

/-!
# Anchoring dangling nodes

Some nodes of a graph are *base* nodes. A node *dangles* if it is not one and no path leads from
it to one or from one to it: nothing places it before or after the base. Anchoring goes through
the nodes in ascending order and puts each one that dangles at its turn behind one chosen node,
the anchor. A node behind one that was just anchored may dangle no more when its turn comes, and
then gets no arc of its own.
-/

namespace LoadOrder.Digraph

/-- Whether `v` is no base node and no path in either direction joins it to one. -/
def dangles (g : Digraph) (base : Nat → Bool) (v : Nat) : Bool :=
  !base v && !g.finds .forward base v && !g.finds .backward base v

/-- Anchors those of the listed nodes that dangle at their turn and that the graph has room for
behind `anchor`. The answer is the new graph with the nodes that got an arc, in their order. -/
def anchorAll (base : Nat → Bool) (anchor : Nat) : Digraph → List Nat → Digraph × List Nat
  | g, [] => (g, [])
  | g, v :: vs =>
    if g.dangles base v && g.admits anchor v then
      let (h, anchored) := anchorAll base anchor (g.insertArc anchor v) vs
      (h, v :: anchored)
    else anchorAll base anchor g vs

/-- Puts every dangling node behind `anchor`, in ascending order of nodes. The answer is the new
graph with the nodes that got an arc. -/
def anchorDangling (g : Digraph) (base : Nat → Bool) (anchor : Nat) : Digraph × List Nat :=
  anchorAll base anchor g (List.range g.size)

/-- Whether no node dangles. -/
def isAnchored (g : Digraph) (base : Nat → Bool) : Bool :=
  (List.range g.size).all fun v => !g.dangles base v

@[simp] theorem size_anchorAll (base : Nat → Bool) (anchor : Nat) (g : Digraph) (vs : List Nat) :
    (anchorAll base anchor g vs).1.size = g.size := by
  induction vs generalizing g with
  | nil => rfl
  | cons v vs ih =>
    unfold anchorAll
    split
    · simp [ih]
    · exact ih g

@[simp] theorem size_anchorDangling (g : Digraph) (base : Nat → Bool) (anchor : Nat) :
    (g.anchorDangling base anchor).1.size = g.size :=
  size_anchorAll base anchor g _

end LoadOrder.Digraph
