import LoadOrder.Digraph.Anchor

/-!
# Graphs of named nodes

A `Graph α` is a directed graph whose nodes are distinct values of `α`. A node has an index, its
position in the order of addition, which never changes; the arcs are those of a `Digraph` on the
indices.
-/

namespace LoadOrder

/-- A directed graph with distinct values for nodes. -/
structure Graph (α : Type) where
  /-- The nodes in the order they were added. -/
  nodes : Array α
  /-- The arcs between the indices of the nodes. -/
  links : Digraph
  /-- Every index of a node is a node of `links`, and no other number is. -/
  size_links : links.size = nodes.size
  /-- No node has two indices. -/
  nodup_nodes : nodes.toList.Nodup

namespace Graph

variable {α : Type}

/-- The graph without nodes. -/
def empty : Graph α :=
  ⟨#[], .empty, rfl, List.nodup_nil⟩

/-! ### Looking -/

/-- The number of nodes. -/
def size (g : Graph α) : Nat :=
  g.nodes.size

/-- The number of edges, which is kept beside them. -/
def edgeCount (g : Graph α) : Nat :=
  g.links.arcCount

/-- The node with index `i`. -/
def node? (g : Graph α) (i : Nat) : Option α :=
  g.nodes[i]?

/-- All edges, grouped by source in the order of the nodes and within one source in the order they
were added. -/
def edges (g : Graph α) : List (α × α) :=
  g.links.arcs.filterMap fun (u, v) => return (← g.node? u, ← g.node? v)

@[simp] theorem size_links_eq (g : Graph α) : g.links.size = g.size :=
  g.size_links

section Identity

variable [DecidableEq α]

/-- The index of a node. -/
def position? (g : Graph α) (a : α) : Option Nat :=
  g.nodes.idxOf? a

/-- Whether `a` is a node. -/
def hasNode (g : Graph α) (a : α) : Bool :=
  g.nodes.contains a

/-- Whether there is an edge from `a` to `b`. -/
def hasEdge (g : Graph α) (a b : α) : Bool :=
  match g.position? a, g.position? b with
  | some u, some v => (g.links.succs u).contains v
  | _, _ => false

/-- The nodes next to `a` along a way, in the order the edges were added; none if `a` is no
node. -/
def neighbours (g : Graph α) (way : Way) (a : α) : List α :=
  match g.position? a with
  | some u => (g.links.neighbours way u).filterMap g.node?
  | none => []

end Identity

/-! ### Growing -/

/-- The graph with the node `a`, and whether it is new. -/
def addNode [DecidableEq α] (g : Graph α) (a : α) : Graph α × Bool :=
  if h : g.nodes.contains a then (g, false)
  else
    ({ nodes := g.nodes.push a
       links := g.links.addNode
       size_links := by simp [g.size_links]
       nodup_nodes := by
        have ha : a ∉ g.nodes := by simpa using h
        have hne : ∀ x ∈ g.nodes.toList, x ≠ a := fun x hx e => ha (e ▸ Array.mem_def.mpr hx)
        simpa [List.nodup_append, g.nodup_nodes] using hne },
      true)

/-- The graph with an edge between the nodes of indices `u` and `v`, and whether it is new. -/
def link (g : Graph α) (u v : Nat) : Except GraphFault (Graph α × Bool) :=
  if u < g.size ∧ v < g.size then
    .ok ({ g with links := g.links.insertArc u v, size_links := by simp [g.size_links] },
      g.links.admits u v)
  else .error .notANode

/-- The graph with an edge from `a` to `b`, and whether it is new. -/
def addEdge [DecidableEq α] (g : Graph α) (a b : α) : Except GraphFault (Graph α × Bool) :=
  match g.position? a, g.position? b with
  | some u, some v => g.link u v
  | _, _ => .error .notANode

/-- The graph with an edge from each node to the next, besides the edges it has. -/
def chain (g : Graph α) : Graph α :=
  { g with links := g.links.chain, size_links := by simp [g.size_links] }

/-- Puts every dangling node behind the one with index `anchor`; `base` tells the base nodes by
index. The answer is the new graph with the indices of the nodes that got an edge. -/
def anchorDangling (g : Graph α) (base : Nat → Bool) (anchor : Nat) : Graph α × List Nat :=
  let anchored := g.links.anchorDangling base anchor
  ({ g with links := anchored.1, size_links := by simp [anchored, g.size_links] }, anchored.2)

end Graph

end LoadOrder
