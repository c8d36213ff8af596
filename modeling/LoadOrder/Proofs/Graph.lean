import LoadOrder.Graph
import LoadOrder.Proofs.Digraph.NamedLog

/-!
# Graphs and what they were made from

A graph is made by adding nodes, adding edges and anchoring, in any order and number. What it has to
answer is told by two lists: the nodes as they were added and the edges as they were inserted, each
at its first time (`nodesOf`, `edgesOf`). `g.Represents nodes edges` says that `g` is a
representation of two such lists: it numbers its nodes as they stand in the one, and the other, read
by numbers, is the log of its arcs. Every call keeps this, adding at most to the end of each list
(`Represents.perform`), so it holds after any history (`represents_after`). Everything that a graph
answers can be read off these lists (`Shows`), which `shows_after` states for all histories.
-/

namespace LoadOrder.Graph

variable {α : Type} [DecidableEq α]

/-! ### Histories -/

/-- A call that changes a graph. -/
inductive Call (α : Type) where
  /-- Add the node `a`. -/
  | node (a : α)
  /-- Add an edge from `a` to `b`. -/
  | edge (a b : α)
  /-- Put every dangling node behind the one with index `anchor`. -/
  | anchor (base : Nat → Bool) (anchor : Nat)

/-- The graph after a call; a call that is refused leaves it as it is. -/
def perform (g : Graph α) : Call α → Graph α
  | .node a => (g.addNode a).1
  | .edge a b =>
    match g.addEdge a b with
    | .ok (h, _) => h
    | .error _ => g
  | .anchor base anchor => (g.anchorDangling base anchor).1

/-- The graph after a history of calls. -/
def after (g : Graph α) (calls : List (Call α)) : Graph α :=
  calls.foldl perform g

/-- The node that a call adds, if it is not there yet. -/
def Call.node? : Call α → Option α
  | .node a => some a
  | _ => none

/-- The edges that a call inserts, whether or not they are there already. -/
def inserted (g : Graph α) : Call α → List (α × α)
  | .node _ => []
  | .edge a b =>
    match g.addEdge a b with
    | .ok _ => [(a, b)]
    | .error _ => []
  | .anchor base anchor => (g.anchorDangling base anchor).2.filterMap fun v =>
      return (← g.node? anchor, ← g.node? v)

/-- The edges that a history inserts, call by call. -/
def insertions (g : Graph α) : List (Call α) → List (α × α)
  | [] => []
  | call :: calls => g.inserted call ++ (g.perform call).insertions calls

/-- The nodes that a history adds, without repeats and in the order in which they were first
added. -/
def nodesOf (calls : List (Call α)) : List α :=
  (calls.filterMap Call.node?).eraseDups

/-- The edges that a history inserts into the graph without nodes, without repeats and in the order
in which they were first inserted. -/
def edgesOf (calls : List (Call α)) : List (α × α) :=
  (empty.insertions calls).eraseDups

/-! ### Nodes and indices -/

variable {g : Graph α} {nodes : List α} {edges : List (α × α)} {a b : α} {i : Nat}

/-- The index of a node and the node of an index belong together. -/
theorem position?_eq_some_iff : g.position? a = some i ↔ g.node? i = some a := by
  have hlist : g.position? a = g.nodes.toList.idxOf? a := by
    rw [position?, ← List.idxOf?_toArray, Array.toArray_toList]
  rw [hlist, node?, ← Array.getElem?_toList, List.idxOf?_eq_some_iff, List.getElem?_eq_some_iff]
  refine exists_congr fun hi => and_iff_left_of_imp ?_
  -- no node stands in two places
  intro hget j hj heq
  have := g.nodup_nodes.getElem_inj_iff.mp (heq.trans hget.symm)
  omega

theorem position?_eq_none_iff : g.position? a = none ↔ a ∉ g.nodes.toList := by
  rw [Option.eq_none_iff_forall_ne_some]
  simp only [ne_eq, position?_eq_some_iff, node?, ← Array.getElem?_toList]
  rw [List.mem_iff_getElem?, not_exists]

/-! ### What a graph represents -/

/-- The graph `g` has these nodes, in this order, and these edges, which were inserted in this
order. -/
structure Represents (g : Graph α) (nodes : List α) (edges : List (α × α)) : Prop where
  /-- The nodes are numbered as they are listed. -/
  toList_nodes : g.nodes.toList = nodes
  /-- The edges are edges between nodes. -/
  mem_nodes : ∀ e ∈ edges, e.1 ∈ nodes ∧ e.2 ∈ nodes
  /-- Read by numbers they are the arcs, in the order in which these were added. -/
  hasLog : g.links.HasLog (edges.map fun e => (nodes.idxOf e.1, nodes.idxOf e.2))

theorem represents_empty : (empty : Graph α).Represents [] [] :=
  ⟨rfl, by simp, Digraph.hasLog_empty⟩

namespace Represents

variable (hg : g.Represents nodes edges)

include hg

theorem nodup_nodes : nodes.Nodup :=
  hg.toList_nodes ▸ g.nodup_nodes

/-- The edges are the log of the arcs, spoken of by the nodes. -/
theorem logsBy : g.links.LogsBy nodes edges :=
  ⟨hg.mem_nodes, hg.hasLog⟩

theorem node?_eq (i : Nat) : g.node? i = nodes[i]? := by
  rw [node?, ← Array.getElem?_toList, hg.toList_nodes]

theorem node?_idxOf (ha : a ∈ nodes) : g.node? (nodes.idxOf a) = some a := by
  rw [hg.node?_eq, List.getElem?_idxOf ha]

theorem position?_of_mem (ha : a ∈ nodes) : g.position? a = some (nodes.idxOf a) :=
  position?_eq_some_iff.mpr (hg.node?_idxOf ha)

theorem position?_of_notMem (ha : a ∉ nodes) : g.position? a = none :=
  position?_eq_none_iff.mpr (hg.toList_nodes ▸ ha)

theorem idxOf_lt_size (ha : a ∈ nodes) : nodes.idxOf a < g.size := by
  rw [size, ← Array.length_toList, hg.toList_nodes]
  exact List.idxOf_lt_length_of_mem ha

theorem admits_iff (ha : a ∈ nodes) (hb : b ∈ nodes) :
    g.links.admits (nodes.idxOf a) (nodes.idxOf b) = decide ((a, b) ∉ edges) := by
  rw [Bool.eq_iff_iff, Digraph.admits_iff, ← hg.logsBy.mem_iff ha hb, decide_eq_true_eq,
    size_links_eq]
  exact ⟨fun h => h.2.2, fun h => ⟨hg.idxOf_lt_size ha, hg.idxOf_lt_size hb, h⟩⟩

/-! ### Calls keep it -/

theorem addNode_of_mem (ha : a ∈ nodes) : g.addNode a = (g, false) := by
  have hcontains : g.nodes.contains a := by
    rw [Array.contains_iff_mem, Array.mem_def, hg.toList_nodes]
    exact ha
  rw [addNode, dif_pos hcontains]

/-- A new node is the last, and the others keep their numbers. -/
theorem addNode_of_notMem (ha : a ∉ nodes) :
    (g.addNode a).2 = true ∧ (g.addNode a).1.Represents (nodes ++ [a]) edges := by
  have hcontains : ¬ g.nodes.contains a := by
    rw [Array.contains_iff_mem, Array.mem_def, hg.toList_nodes]
    exact ha
  have hlater := hg.logsBy.extend (List.prefix_append nodes [a]) hg.hasLog.addNode
  rw [addNode, dif_neg hcontains]
  refine ⟨rfl, ?_, hlater.mem_names, hlater.hasLog⟩
  rw [Array.toList_push, hg.toList_nodes]

theorem addEdge_of_notMem (hab : a ∉ nodes ∨ b ∉ nodes) : g.addEdge a b = .error .notANode := by
  rw [addEdge]
  rcases hab with ha | hb
  · rw [hg.position?_of_notMem ha]
  · rw [hg.position?_of_notMem hb]
    cases g.position? a <;> rfl

/-- Between nodes an edge is inserted, and it is the last unless it is there already. -/
theorem addEdge_of_mem (ha : a ∈ nodes) (hb : b ∈ nodes) :
    ∃ h, g.addEdge a b = .ok (h, decide ((a, b) ∉ edges)) ∧
      h.Represents nodes (if (a, b) ∈ edges then edges else edges ++ [(a, b)]) := by
  have hlt : nodes.idxOf a < g.size ∧ nodes.idxOf b < g.size :=
    ⟨hg.idxOf_lt_size ha, hg.idxOf_lt_size hb⟩
  have hlater := hg.logsBy.insertArc ha hb (by rwa [size_links_eq])
  refine ⟨{ g with
    links := g.links.insertArc (nodes.idxOf a) (nodes.idxOf b)
    size_links := by simp [g.size_links] }, ?_, hg.toList_nodes, hlater.mem_names, hlater.hasLog⟩
  rw [addEdge, hg.position?_of_mem ha, hg.position?_of_mem hb]
  show g.link _ _ = _
  rw [link, if_pos hlt, hg.admits_iff ha hb]

/-- The edges to anchored nodes come last. -/
theorem anchorDangling (base : Nat → Bool) (anchor : Nat) :
    (g.anchorDangling base anchor).1.Represents nodes
      (edges ++ g.inserted (.anchor base anchor)) := by
  have hsize : g.links.size = nodes.length := by
    rw [size_links_eq, size, ← Array.length_toList, hg.toList_nodes]
  have hlater := hg.logsBy.anchorAll hg.nodup_nodes hsize base anchor (List.range g.links.size)
  simp only [← hg.node?_eq] at hlater
  exact ⟨hg.toList_nodes, hlater.mem_names, hlater.hasLog⟩

end Represents

/-- A call adds to the nodes and to the edges at the end, and only what is not there yet. -/
theorem Represents.perform {xs : List α} {ys : List (α × α)}
    (hg : g.Represents xs.eraseDups ys.eraseDups) (call : Call α) :
    (g.perform call).Represents (xs ++ call.node?.toList).eraseDups
      (ys ++ g.inserted call).eraseDups := by
  cases call with
  | node a =>
    show (g.addNode a).1.Represents (xs ++ [a]).eraseDups (ys ++ []).eraseDups
    rw [List.append_nil, eraseDups_concat]
    by_cases ha : a ∈ xs.eraseDups
    · rw [hg.addNode_of_mem ha, if_pos ha]
      exact hg
    · rw [if_neg ha]
      exact (hg.addNode_of_notMem ha).2
  | edge a b =>
    show (g.perform (.edge a b)).Represents (xs ++ []).eraseDups _
    rw [List.append_nil, Graph.perform, inserted]
    by_cases hab : a ∈ xs.eraseDups ∧ b ∈ xs.eraseDups
    · obtain ⟨h, hok, hrep⟩ := hg.addEdge_of_mem hab.1 hab.2
      rw [hok]
      show h.Represents xs.eraseDups (ys ++ [(a, b)]).eraseDups
      rwa [eraseDups_concat]
    · rw [hg.addEdge_of_notMem (Decidable.not_and_iff_not_or_not.mp hab)]
      show g.Represents xs.eraseDups (ys ++ []).eraseDups
      rwa [List.append_nil]
  | anchor base anchor =>
    show (g.anchorDangling base anchor).1.Represents (xs ++ []).eraseDups _
    have hrep := hg.anchorDangling base anchor
    rw [List.append_nil, eraseDups_append_of_nodup hrep.logsBy.nodup]
    exact hrep

theorem Represents.after {xs : List α} {ys : List (α × α)}
    (hg : g.Represents xs.eraseDups ys.eraseDups) (calls : List (Call α)) :
    (g.after calls).Represents (xs ++ calls.filterMap Call.node?).eraseDups
      (ys ++ g.insertions calls).eraseDups := by
  induction calls generalizing g xs ys with
  | nil =>
    show g.Represents (xs ++ []).eraseDups (ys ++ []).eraseDups
    rwa [List.append_nil, List.append_nil]
  | cons call calls ih =>
    have hrest := ih (hg.perform call)
    have hnodes : (call :: calls).filterMap Call.node? =
        call.node?.toList ++ calls.filterMap Call.node? := by
      cases call <;> rfl
    rw [List.append_assoc, List.append_assoc] at hrest
    rwa [hnodes]

theorem represents_after (calls : List (Call α)) :
    ((empty : Graph α).after calls).Represents (nodesOf calls) (edgesOf calls) := by
  have hempty : (empty : Graph α).Represents ([] : List α).eraseDups
      ([] : List (α × α)).eraseDups := represents_empty
  exact hempty.after calls

/-! ### What a graph shows -/

/-- Everything that `g` answers is read off these nodes and edges. -/
structure Shows (g : Graph α) (nodes : List α) (edges : List (α × α)) : Prop where
  /-- The nodes are listed in their order. -/
  toList_nodes : g.nodes.toList = nodes
  /-- The nodes are numbered in their order. -/
  node?_eq : ∀ i, g.node? i = nodes[i]?
  /-- The index of a node is the index of no other, and an index that has a node is that node's. -/
  position?_iff : ∀ a i, g.position? a = some i ↔ g.node? i = some a
  /-- A node is new if it is not there. -/
  addNode_eq : ∀ a, (g.addNode a).2 = decide (a ∉ nodes)
  /-- An edge is refused, and nothing changed, just if one of its ends is no node. -/
  addEdge_refused_iff : ∀ a b,
    (g.addEdge a b = .error .notANode ∧ g.perform (.edge a b) = g) ↔ a ∉ nodes ∨ b ∉ nodes
  /-- Between nodes an edge is taken, and is new if it is not there. -/
  addEdge_taken : ∀ a ∈ nodes, ∀ b ∈ nodes, ∃ h, g.addEdge a b = .ok (h, decide ((a, b) ∉ edges))
  /-- The successors of a node are the targets of its edges, in their order. -/
  successors_eq : ∀ a, g.neighbours .forward a = (edges.filter fun e => e.1 = a).map Prod.snd
  /-- The predecessors of a node are the sources of the edges to it, in their order. -/
  predecessors_eq : ∀ b, g.neighbours .backward b = (edges.filter fun e => e.2 = b).map Prod.fst
  /-- Being a successor and being a predecessor are one thing seen from both ends. -/
  mem_successors_iff : ∀ a b, b ∈ g.neighbours .forward a ↔ a ∈ g.neighbours .backward b
  /-- The edges are listed by the numbers of their sources, those of one source in their order. -/
  edges_eq : g.edges = edges.mergeSort fun e f => nodes.idxOf e.1 ≤ nodes.idxOf f.1
  /-- What is there is what is listed. -/
  hasEdge_iff : ∀ a b, g.hasEdge a b ↔ (a, b) ∈ edges
  /-- The edges are counted. -/
  edgeCount_eq : g.edgeCount = edges.length
  /-- And the count agrees with the arcs that are there. -/
  length_arcs : g.links.arcs.length = g.edgeCount
  /-- The count goes up by one for an edge that is new and by none for another. -/
  edgeCount_addEdge : ∀ a b h new,
    g.addEdge a b = .ok (h, new) → h.edgeCount = g.edgeCount + new.toNat

theorem idxOf_beq (ha : a ∈ nodes) (b : α) : (nodes.idxOf a == nodes.idxOf b) = decide (a = b) := by
  rw [Bool.eq_iff_iff, beq_iff_eq, decide_eq_true_eq]
  exact List.idxOf_inj ha

namespace Represents

variable (hg : g.Represents nodes edges)

include hg

/-- Along a way that the arcs are kept for by their ends `near`, a node has for neighbours the ends
`far` of the edges whose end `near` it is. -/
theorem neighbours_eq {way : Way} {near far : α × α → α}
    (hlinks : ∀ u, g.links.neighbours way u =
      (edges.filter fun e => nodes.idxOf (near e) == u).map fun e => nodes.idxOf (far e))
    (hends : ∀ e ∈ edges, near e ∈ nodes ∧ far e ∈ nodes) (a : α) :
    g.neighbours way a = (edges.filter fun e => near e = a).map far := by
  rw [neighbours]
  by_cases ha : a ∈ nodes
  · have hfilter : (edges.filter fun e => nodes.idxOf (near e) == nodes.idxOf a) =
        edges.filter fun e => near e = a :=
      List.filter_congr fun e he => idxOf_beq (hends e he).1 a
    rw [hg.position?_of_mem ha]
    show (g.links.neighbours way (nodes.idxOf a)).filterMap g.node? = _
    rw [hlinks, hfilter, List.filterMap_map, List.filterMap_eq_map_iff_forall_eq_some]
    exact fun e he => hg.node?_idxOf (hends e (List.mem_filter.mp he).1).2
  · rw [hg.position?_of_notMem ha, eq_comm, List.map_eq_nil_iff, List.filter_eq_nil_iff]
    intro e he heq
    exact ha (of_decide_eq_true heq ▸ (hends e he).1)

theorem successors_eq (a : α) :
    g.neighbours .forward a = (edges.filter fun e => e.1 = a).map Prod.snd := by
  refine hg.neighbours_eq (fun u => ?_) hg.mem_nodes a
  show g.links.succs u = _
  rw [hg.hasLog.succs_eq, List.filter_map, List.map_map]
  rfl

theorem predecessors_eq (b : α) :
    g.neighbours .backward b = (edges.filter fun e => e.2 = b).map Prod.fst := by
  refine hg.neighbours_eq (fun v => ?_) (fun e he => (hg.mem_nodes e he).symm) b
  show g.links.preds v = _
  rw [hg.hasLog.preds_eq, List.filter_map, List.map_map]
  rfl

theorem edges_eq : g.edges = edges.mergeSort fun e f => nodes.idxOf e.1 ≤ nodes.idxOf f.1 := by
  rw [Graph.edges, hg.logsBy.arcs_eq, List.filterMap_map,
    (List.filterMap_eq_map_iff_forall_eq_some (g := id)).mpr, List.map_id]
  intro e he
  obtain ⟨hfrom, hto⟩ := hg.mem_nodes e (List.mem_mergeSort.mp he)
  simp [Digraph.ends, hg.node?_idxOf hfrom, hg.node?_idxOf hto]

theorem hasEdge_iff (a b : α) : g.hasEdge a b ↔ (a, b) ∈ edges := by
  rw [hasEdge]
  by_cases hab : a ∈ nodes ∧ b ∈ nodes
  · rw [hg.position?_of_mem hab.1, hg.position?_of_mem hab.2, hg.logsBy.mem_iff hab.1 hab.2]
    exact List.contains_iff_mem
  · refine iff_of_false ?_ (hab ∘ hg.mem_nodes (a, b))
    rcases Decidable.not_and_iff_not_or_not.mp hab with ha | hb
    · simp [hg.position?_of_notMem ha]
    · rw [hg.position?_of_notMem hb]
      simp

theorem edgeCount_eq : g.edgeCount = edges.length := by
  rw [edgeCount, hg.hasLog.arcCount_eq, List.length_map]

theorem shows : g.Shows nodes edges where
  toList_nodes := hg.toList_nodes
  node?_eq := hg.node?_eq
  position?_iff _ _ := position?_eq_some_iff
  addNode_eq a := by
    by_cases ha : a ∈ nodes
    · rw [hg.addNode_of_mem ha, decide_eq_false (not_not_intro ha)]
    · rw [(hg.addNode_of_notMem ha).1, decide_eq_true ha]
  addEdge_refused_iff a b := by
    refine ⟨fun hrefused => ?_, fun hab => ?_⟩
    · refine Decidable.not_and_iff_not_or_not.mp fun hab => ?_
      obtain ⟨h, hok, -⟩ := hg.addEdge_of_mem hab.1 hab.2
      exact absurd (hok.symm.trans hrefused.1) (by simp)
    · have herror := hg.addEdge_of_notMem hab
      exact ⟨herror, by rw [Graph.perform, herror]⟩
  addEdge_taken a ha b hb := by
    obtain ⟨h, hok, -⟩ := hg.addEdge_of_mem ha hb
    exact ⟨h, hok⟩
  successors_eq := hg.successors_eq
  predecessors_eq := hg.predecessors_eq
  mem_successors_iff a b := by
    rw [hg.successors_eq, hg.predecessors_eq]
    simp
  edges_eq := hg.edges_eq
  hasEdge_iff := hg.hasEdge_iff
  edgeCount_eq := hg.edgeCount_eq
  length_arcs := hg.hasLog.length_arcs
  edgeCount_addEdge a b h new hok := by
    by_cases hab : a ∈ nodes ∧ b ∈ nodes
    · obtain ⟨h', hok', hrep⟩ := hg.addEdge_of_mem hab.1 hab.2
      obtain ⟨rfl, rfl⟩ := Prod.mk.inj (Except.ok.inj (hok'.symm.trans hok))
      rw [hrep.edgeCount_eq, hg.edgeCount_eq]
      by_cases hmem : (a, b) ∈ edges <;> simp [hmem]
    · have herror := hg.addEdge_of_notMem (Decidable.not_and_iff_not_or_not.mp hab)
      exact absurd (herror.symm.trans hok) (by simp)

end Represents

/-- Later calls keep the nodes at their places. -/
theorem nodesOf_isPrefix (calls more : List (Call α)) :
    nodesOf calls <+: nodesOf (calls ++ more) := by
  rw [nodesOf, nodesOf, List.filterMap_append, List.eraseDups_append]
  exact List.prefix_append _ _

/-- After any history of calls on the graph without nodes, whatever the graph answers is told by the
nodes that were added and the edges that were inserted, each at its first time; and a node keeps its
index for good. -/
theorem shows_after (calls : List (Call α)) :
    (empty.after calls).Shows (nodesOf calls) (edgesOf calls) ∧
      ∀ more a i, (empty.after calls).position? a = some i →
        (empty.after (calls ++ more)).position? a = some i := by
  refine ⟨(represents_after calls).shows, fun more a i hi => ?_⟩
  rw [position?_eq_some_iff, (represents_after _).node?_eq] at hi ⊢
  obtain ⟨later, hlater⟩ := nodesOf_isPrefix calls more
  rw [← hlater, List.getElem?_append_left (List.getElem?_eq_some_iff.mp hi).1, hi]

example :
    let calls : List (Call Char) := [.node 'b', .node 'a', .node 'b', .node 'c', .edge 'c' 'b',
      .edge 'b' 'd', .edge 'a' 'c', .edge 'c' 'b', .edge 'c' 'a', .edge 'c' 'c']
    nodesOf calls = ['b', 'a', 'c'] ∧
      edgesOf calls = [('c', 'b'), ('a', 'c'), ('c', 'a'), ('c', 'c')] ∧
      (empty.after calls).edges = [('a', 'c'), ('c', 'b'), ('c', 'a'), ('c', 'c')] := by
  cbv

end LoadOrder.Graph
