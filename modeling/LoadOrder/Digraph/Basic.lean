/-!
# Directed graphs on an initial segment of the naturals

The nodes of a `Digraph` are `0, …, size - 1`, numbered in the order they were added. An arc
`u → v` says that `u` comes before `v`. Both directions are kept, each node's neighbours in the
order their arcs were added, because searches run both ways and their order shows.

A graph grows from `Digraph.empty` by `addNode` and `insertArc` alone. What every graph built so
satisfies is part of the type: the two directions hold the same arcs, each once. So every endpoint
of an arc is a node (`source_lt`, `target_lt`), and a search that starts at a node never leaves the
graph. `succs_insertArc` and `preds_insertArc` say what an arc adds to each direction. Beside its
arcs a graph keeps their number; that it is right is not part of the type.
-/

namespace LoadOrder

/-- A finite directed graph, its arcs kept at both ends in the order they were added. -/
@[ext] structure Digraph where
  /-- For each node, the nodes its arcs lead to. -/
  succTable : Array (List Nat)
  /-- For each node, the nodes its arcs come from. -/
  predTable : Array (List Nat)
  /-- How many arcs have been added. -/
  arcCount : Nat
  /-- The tables have a row for the same nodes. -/
  size_predTable : predTable.size = succTable.size
  /-- The tables hold the same arcs. -/
  mem_succTable_iff : ∀ u v : Nat, v ∈ succTable[u]?.getD [] ↔ u ∈ predTable[v]?.getD []
  /-- No arc is kept twice at its source. -/
  nodup_succTable : ∀ u : Nat, (succTable[u]?.getD []).Nodup
  /-- No arc is kept twice at its target. -/
  nodup_predTable : ∀ v : Nat, (predTable[v]?.getD []).Nodup

/-- The way along which arcs are followed. -/
inductive Way where
  /-- From source to target. -/
  | forward
  /-- From target to source. -/
  | backward
deriving DecidableEq, Repr

/-- What a call on a graph can be refused for. -/
inductive GraphFault where
  /-- A number or value stands for a node and is none. -/
  | notANode
deriving DecidableEq, Repr

/-- The wording of a refusal. -/
def GraphFault.message : GraphFault → String
  | .notANode => "Edge endpoint is not a node of the graph"

namespace Digraph

/-- The number of nodes. -/
def size (g : Digraph) : Nat :=
  g.succTable.size

/-- The targets of the arcs out of `u`, in the order the arcs were added; none if `u` is no
node. -/
def succs (g : Digraph) (u : Nat) : List Nat :=
  g.succTable[u]?.getD []

/-- The sources of the arcs into `v`, in the order the arcs were added; none if `v` is no
node. -/
def preds (g : Digraph) (v : Nat) : List Nat :=
  g.predTable[v]?.getD []

/-- The successors of `u`, refused if `u` is no node. -/
def succsOfNode (g : Digraph) (u : Nat) : Except GraphFault (List Nat) :=
  if u < g.size then .ok (g.succs u) else .error .notANode

/-- The neighbours of `v` along a way. -/
def neighbours (g : Digraph) : Way → Nat → List Nat
  | .forward => g.succs
  | .backward => g.preds

/-- All arcs, grouped by source in ascending order and within one source in the order they were
added. -/
def arcs (g : Digraph) : List (Nat × Nat) :=
  (List.range g.size).flatMap fun u => (g.succs u).map fun v => (u, v)

/-! ### Arcs join nodes -/

theorem mem_succs_iff {g : Digraph} {u v : Nat} : v ∈ g.succs u ↔ u ∈ g.preds v :=
  g.mem_succTable_iff u v

theorem nodup_succs (g : Digraph) (u : Nat) : (g.succs u).Nodup :=
  g.nodup_succTable u

theorem nodup_preds (g : Digraph) (v : Nat) : (g.preds v).Nodup :=
  g.nodup_predTable v

/-- The source of an arc is a node. -/
theorem source_lt {g : Digraph} {u v : Nat} (h : v ∈ g.succs u) : u < g.size := by
  refine Decidable.byContradiction fun hu => ?_
  simp [succs, Array.getElem?_eq_none (Nat.not_lt.mp hu)] at h

/-- The target of an arc is a node. -/
theorem target_lt {g : Digraph} {u v : Nat} (h : v ∈ g.succs u) : v < g.size := by
  refine Decidable.byContradiction fun hv => ?_
  have hpred : g.predTable.size ≤ v := g.size_predTable ▸ Nat.not_lt.mp hv
  have hu : u ∈ g.preds v := mem_succs_iff.mp h
  simp [preds, Array.getElem?_eq_none hpred] at hu

/-- A node has a row in the one table. -/
theorem getElem?_succTable {g : Digraph} {u : Nat} (hu : u < g.size) :
    g.succTable[u]? = some (g.succs u) := by
  have hrow : u < g.succTable.size := hu
  simp [succs, hrow]

/-- It has one in the other. -/
theorem getElem?_predTable {g : Digraph} {v : Nat} (hv : v < g.size) :
    g.predTable[v]? = some (g.preds v) := by
  have hrow : v < g.predTable.size := g.size_predTable ▸ hv
  simp [preds, hrow]

/-- What is no node has no successors. -/
theorem succs_eq_nil {g : Digraph} {u : Nat} (hu : g.size ≤ u) : g.succs u = [] :=
  List.eq_nil_iff_forall_not_mem.mpr fun _ hv => Nat.not_lt.mpr hu (source_lt hv)

/-- What is no node has no predecessors. -/
theorem preds_eq_nil {g : Digraph} {v : Nat} (hv : g.size ≤ v) : g.preds v = [] :=
  List.eq_nil_iff_forall_not_mem.mpr fun _ hu =>
    Nat.not_lt.mpr hv (target_lt (mem_succs_iff.mpr hu))

@[simp] theorem mem_arcs {g : Digraph} {u v : Nat} : (u, v) ∈ g.arcs ↔ v ∈ g.succs u := by
  simp only [arcs, List.mem_flatMap, List.mem_range, List.mem_map, Prod.mk.injEq]
  constructor
  · rintro ⟨_, _, _, hw, rfl, rfl⟩
    exact hw
  · exact fun h => ⟨u, source_lt h, v, h, rfl, rfl⟩

/-! ### Growing a graph -/

/-- The graph without nodes. -/
def empty : Digraph where
  succTable := #[]
  predTable := #[]
  arcCount := 0
  size_predTable := rfl
  mem_succTable_iff := by simp
  nodup_succTable := by simp
  nodup_predTable := by simp

/-- A row added at the end of a table is the only new one, and it is empty. -/
private theorem getD_push_nil (rows : Array (List Nat)) (u : Nat) :
    (rows.push [])[u]?.getD [] = rows[u]?.getD [] := by
  rw [Array.getElem?_push]
  split
  · next h => simp [h]
  · rfl

/-- The graph with one more node, which no arc touches. Its index is the old `size`. -/
def addNode (g : Digraph) : Digraph where
  succTable := g.succTable.push []
  predTable := g.predTable.push []
  arcCount := g.arcCount
  size_predTable := by simp [g.size_predTable]
  mem_succTable_iff u v := by
    rw [getD_push_nil, getD_push_nil]; exact g.mem_succTable_iff u v
  nodup_succTable u := by rw [getD_push_nil]; exact g.nodup_succTable u
  nodup_predTable v := by rw [getD_push_nil]; exact g.nodup_predTable v

/-- What a row holds once `x` is added to row `i` of a table. -/
private theorem getD_modify_append (rows : Array (List Nat)) {i : Nat} (hi : i < rows.size)
    (x j : Nat) :
    (rows.modify i (· ++ [x]))[j]?.getD []
      = rows[j]?.getD [] ++ if i = j then [x] else [] := by
  rw [Array.getElem?_modify]
  split
  · next h => subst h; simp [hi]
  · simp

/-- Whether an arc `u → v` can be added: both endpoints are nodes and the arc is not there
yet. -/
def admits (g : Digraph) (u v : Nat) : Bool :=
  u < g.size && v < g.size && !(g.succs u).contains v

theorem admits_iff {g : Digraph} {u v : Nat} :
    g.admits u v ↔ u < g.size ∧ v < g.size ∧ v ∉ g.succs u := by
  simp [admits, and_assoc]

/-- The graph with the arc `u → v`, added after all others. A graph that has the arc, or lacks an
endpoint, stays as it is. -/
def insertArc (g : Digraph) (u v : Nat) : Digraph :=
  if h : g.admits u v then
    have hu : u < g.succTable.size := (admits_iff.mp h).1
    have hv : v < g.predTable.size := g.size_predTable ▸ (admits_iff.mp h).2.1
    have hnew : v ∉ g.succTable[u]?.getD [] := (admits_iff.mp h).2.2
    { succTable := g.succTable.modify u (· ++ [v])
      predTable := g.predTable.modify v (· ++ [u])
      arcCount := g.arcCount + 1
      size_predTable := by simp [g.size_predTable]
      mem_succTable_iff := fun a b => by
        -- what is new in either table is the one arc, read from its two ends
        rw [getD_modify_append _ hu, getD_modify_append _ hv, List.mem_append, List.mem_append,
          g.mem_succTable_iff a b]
        refine or_congr Iff.rfl ?_
        by_cases hua : u = a <;> by_cases hvb : v = b <;> simp [hua, hvb, eq_comm]
      nodup_succTable := fun a => by
        -- the row of `u` did not hold `v` before
        rw [getD_modify_append _ hu]
        split
        · next h => subst h; simpa [List.nodup_append, g.nodup_succTable] using
            fun b hb (e : b = v) => hnew (e ▸ hb)
        · simpa using g.nodup_succTable a
      nodup_predTable := fun b => by
        -- had the row of `v` held `u`, the row of `u` would have held `v`
        rw [getD_modify_append _ hv]
        split
        · next h => subst h; simpa [List.nodup_append, g.nodup_predTable] using
            fun a ha (e : a = u) => hnew ((g.mem_succTable_iff u v).mpr (e ▸ ha))
        · simpa using g.nodup_predTable b }
  else g

/-! ### What growing changes -/

@[simp] theorem size_empty : empty.size = 0 := rfl

@[simp] theorem succs_empty (u : Nat) : empty.succs u = [] := by simp [succs, empty]

@[simp] theorem preds_empty (v : Nat) : empty.preds v = [] := by simp [preds, empty]

@[simp] theorem size_addNode (g : Digraph) : g.addNode.size = g.size + 1 := by
  simp [size, addNode]

@[simp] theorem succs_addNode (g : Digraph) (u : Nat) : g.addNode.succs u = g.succs u :=
  getD_push_nil g.succTable u

@[simp] theorem preds_addNode (g : Digraph) (v : Nat) : g.addNode.preds v = g.preds v :=
  getD_push_nil g.predTable v

@[simp] theorem size_insertArc (g : Digraph) (u v : Nat) : (g.insertArc u v).size = g.size := by
  unfold insertArc
  split <;> simp [size]

/-- Only the source gains a successor, at the end. -/
theorem succs_insertArc {g : Digraph} {u v : Nat} (h : g.admits u v) (a : Nat) :
    (g.insertArc u v).succs a = g.succs a ++ if u = a then [v] else [] := by
  unfold insertArc
  rw [dif_pos h]
  exact getD_modify_append _ (admits_iff.mp h).1 v a

/-- Only the target gains a predecessor, at the end. -/
theorem preds_insertArc {g : Digraph} {u v : Nat} (h : g.admits u v) (b : Nat) :
    (g.insertArc u v).preds b = g.preds b ++ if v = b then [u] else [] := by
  unfold insertArc
  rw [dif_pos h]
  exact getD_modify_append _ (g.size_predTable ▸ (admits_iff.mp h).2.1) u b

/-- An arc that is added is counted. -/
theorem arcCount_insertArc {g : Digraph} {u v : Nat} (h : g.admits u v) :
    (g.insertArc u v).arcCount = g.arcCount + 1 := by
  unfold insertArc
  rw [dif_pos h]

theorem insertArc_of_not_admits {g : Digraph} {u v : Nat} (h : ¬ g.admits u v) :
    g.insertArc u v = g := by
  unfold insertArc
  rw [dif_neg h]

/-! ### Chains -/

/-- The graph with an arc from each node to the next, besides the arcs it has. -/
def chain (g : Digraph) : Digraph :=
  (List.range (g.size - 1)).foldl (fun h u => h.insertArc u (u + 1)) g

@[simp] theorem size_chain (g : Digraph) : g.chain.size = g.size := by
  have hfold : ∀ (us : List Nat) (h : Digraph),
      (us.foldl (fun h u => h.insertArc u (u + 1)) h).size = h.size := by
    intro us
    induction us with
    | nil => exact fun _ => rfl
    | cons u us ih => exact fun h => by simp [ih]
  exact hfold _ g

end Digraph

end LoadOrder
