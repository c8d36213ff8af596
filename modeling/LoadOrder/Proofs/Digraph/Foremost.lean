import LoadOrder.Graph
import LoadOrder.Proofs.Digraph.Anchoring
import LoadOrder.Proofs.Digraph.Scan
import Mathlib.Data.Fin.Tuple.Take
import Mathlib.Data.List.Permutation

/-!
# Which nodes are anchored

What anchoring adds, arc by arc. Whatever the anchor is, the nodes that are anchored come last among
its successors, in ascending order; each of them has it as its last predecessor; and no other node
gets an arc (`succs_anchorAll`, `preds_anchorAll`, `sublist_anchorAll`).

Which nodes these are is decided one by one, on a graph that has changed since. If the anchor is a
base node, the outcome can be told from the graph at the beginning: they are its *foremost* dangling
nodes, those that no lower dangling node reaches. For then an arc to a dangling node saves exactly
what this node reaches (`Fans.dangling_iff_of_base`), and a node that was saved before its turn is
reached from one that was not (`mem_anchorAll_iff`).

`Graph.anchorDangling_exact` puts this together with what an anchor in the base leaves alone: the
components, the arcs from a node to itself, and whether there is a cycle.
-/

namespace LoadOrder

namespace Digraph

variable {g h : Digraph} {base : Nat → Bool} {a u v x : Nat} {vs : List Nat}

/-! ### The arcs that are added -/

theorem anchorAll_cons_of_pos (hv : g.dangles base v && g.admits a v) :
    anchorAll base a g (v :: vs) = ((anchorAll base a (g.insertArc a v) vs).1,
      v :: (anchorAll base a (g.insertArc a v) vs).2) := by
  rw [anchorAll, if_pos hv]

theorem anchorAll_cons_of_neg (hv : ¬ (g.dangles base v && g.admits a v)) :
    anchorAll base a g (v :: vs) = anchorAll base a g vs := by
  rw [anchorAll, if_neg hv]

/-- The nodes that are anchored are some of those that were looked at, in the same order. -/
theorem sublist_anchorAll (base : Nat → Bool) (a : Nat) (g : Digraph) (vs : List Nat) :
    (anchorAll base a g vs).2.Sublist vs := by
  induction vs generalizing g with
  | nil => exact List.Sublist.refl _
  | cons x vs ih =>
    by_cases hx : g.dangles base x && g.admits a x
    · rw [anchorAll_cons_of_pos hx]
      exact (ih _).cons_cons x
    · rw [anchorAll_cons_of_neg hx]
      exact (ih g).cons x

/-- The anchor gets the anchored nodes as its last successors, and no other node gets any. -/
theorem succs_anchorAll (base : Nat → Bool) (a : Nat) (g : Digraph) (vs : List Nat) (u : Nat) :
    (anchorAll base a g vs).1.succs u =
      g.succs u ++ if u = a then (anchorAll base a g vs).2 else [] := by
  induction vs generalizing g with
  | nil => simp [anchorAll]
  | cons x vs ih =>
    by_cases hx : g.dangles base x && g.admits a x
    · rw [anchorAll_cons_of_pos hx, ih, succs_insertArc (Bool.and_eq_true_iff.mp hx).2,
        List.append_assoc]
      by_cases hu : u = a
      · rw [if_pos hu, if_pos hu.symm, if_pos hu, List.singleton_append]
      · rw [if_neg hu, if_neg (Ne.symm hu), if_neg hu, List.append_nil]
    · rw [anchorAll_cons_of_neg hx, ih]

/-- An anchored node was no successor of the anchor. -/
theorem notMem_succs_of_mem_anchorAll (hv : v ∈ (anchorAll base a g vs).2) : v ∉ g.succs a := by
  have hnodup := nodup_succs (anchorAll base a g vs).1 a
  rw [succs_anchorAll, if_pos rfl, List.nodup_append] at hnodup
  exact fun hold => hnodup.2.2 v hold v hv rfl

/-- The anchored nodes get the anchor as their last predecessor, and no other node gets any. -/
theorem preds_anchorAll (base : Nat → Bool) (a : Nat) (g : Digraph) (vs : List Nat) (v : Nat) :
    (anchorAll base a g vs).1.preds v =
      g.preds v ++ if v ∈ (anchorAll base a g vs).2 then [a] else [] := by
  induction vs generalizing g with
  | nil => simp [anchorAll]
  | cons x vs ih =>
    by_cases hx : g.dangles base x && g.admits a x
    · have hadmits : g.admits a x := (Bool.and_eq_true_iff.mp hx).2
      -- a node that has just got its arc does not get another
      have hnew : x ∉ (anchorAll base a (g.insertArc a x) vs).2 := by
        intro hmem
        refine notMem_succs_of_mem_anchorAll hmem ?_
        rw [succs_insertArc hadmits, if_pos rfl]
        exact List.mem_append_right _ List.mem_cons_self
      rw [anchorAll_cons_of_pos hx, ih, preds_insertArc hadmits, List.append_assoc]
      by_cases hv : x = v
      · subst hv
        simp [hnew]
      · simp [hv, Ne.symm hv]
    · rw [anchorAll_cons_of_neg hx, ih]

/-! ### The nodes that get an arc -/

/-- The node dangles, and no lower node that dangles reaches it. -/
def Foremost (g : Digraph) (base : Nat → Bool) (v : Nat) : Prop :=
  g.Dangling base v ∧ ∀ u, u < v → g.Dangling base u → ¬ g.Reaches u v

/-- The node is one of those still to be looked at and dangles, and no lower one of them that
dangles reaches it. -/
def ForemostAmong (g : Digraph) (base : Nat → Bool) (vs : List Nat) (v : Nat) : Prop :=
  v ∈ vs ∧ g.Dangling base v ∧ ∀ u ∈ vs, u < v → g.Dangling base u → ¬ g.Reaches u v

/-- A node that does not dangle makes no difference. -/
theorem foremostAmong_cons_of_not_dangling (hx : ¬ g.Dangling base x) :
    g.ForemostAmong base (x :: vs) v ↔ g.ForemostAmong base vs v := by
  refine ⟨?_, ?_⟩
  · rintro ⟨hv, hvd, hnone⟩
    rcases List.mem_cons.mp hv with rfl | hv
    · exact absurd hvd hx
    · exact ⟨hv, hvd, fun u hu => hnone u (List.mem_cons_of_mem x hu)⟩
  · rintro ⟨hv, hvd, hnone⟩
    refine ⟨List.mem_cons_of_mem x hv, hvd, ?_⟩
    intro u hu huv hud
    rcases List.mem_cons.mp hu with rfl | hu
    · exact absurd hud hx
    · exact hnone u hu huv hud

/-- Once the first node has got its arc, foremost among the others is what was foremost with it. -/
theorem foremostAmong_cons_of_dangling (hfan : Fans g h a (· = x)) (hbase : base a)
    (hx : g.Dangling base x) (hfirst : ∀ y ∈ vs, x < y) :
    g.ForemostAmong base (x :: vs) v ↔ v = x ∨ h.ForemostAmong base vs v := by
  have hstill : ∀ w, h.Dangling base w ↔ g.Dangling base w ∧ ¬ g.Reaches x w := fun w => by
    rw [hfan.dangling_iff_of_base (fun y hy => hy ▸ hx) hbase, forall_eq]
  refine ⟨?_, ?_⟩
  · rintro ⟨hv, hvd, hnone⟩
    rcases List.mem_cons.mp hv with rfl | hv
    · exact Or.inl rfl
    · have hxv : ¬ g.Reaches x v := hnone x List.mem_cons_self (hfirst v hv) hx
      refine Or.inr ⟨hv, (hstill v).mpr ⟨hvd, hxv⟩, ?_⟩
      intro u hu huv hud hpath
      have hold : g.Dangling base u := ((hstill u).mp hud).1
      rcases hfan.reaches_iff.mp hpath with hpath | ⟨hua, -⟩
      · exact hnone u (List.mem_cons_of_mem x hu) huv hold hpath
      · exact (hold.2 a hbase).1 hua
  · rintro (rfl | ⟨hv, hvd, hnone⟩)
    · -- nothing lower comes with the first node
      refine ⟨List.mem_cons_self, hx, ?_⟩
      intro u hu huv
      rcases List.mem_cons.mp hu with rfl | hu
      · exact absurd huv (lt_irrefl u)
      · exact absurd huv (hfirst u hu).asymm
    · obtain ⟨hold, hxv⟩ := (hstill v).mp hvd
      refine ⟨List.mem_cons_of_mem x hv, hold, ?_⟩
      intro u hu huv hud hpath
      rcases List.mem_cons.mp hu with rfl | hu
      · exact hxv hpath
      -- a node that dangles no more is reached from the first one, and so is what it reaches
      · by_cases hxu : g.Reaches x u
        · exact hxv (hxu.trans hpath)
        · exact hnone u hu huv ((hstill u).mpr ⟨hud, hxu⟩) (hfan.reaches hpath)

/-- A pass that puts nodes behind a base node anchors those that are foremost at its beginning. -/
theorem mem_anchorAll_iff (ha : a < g.size) (hbase : base a) (hvs : ∀ x ∈ vs, x < g.size)
    (hsorted : vs.Pairwise (· < ·)) :
    v ∈ (anchorAll base a g vs).2 ↔ g.ForemostAmong base vs v := by
  induction vs generalizing g with
  | nil => simp [anchorAll, ForemostAmong]
  | cons x vs ih =>
    have hx : x < g.size := hvs x List.mem_cons_self
    have htail : ∀ y ∈ vs, y < g.size := fun y hy => hvs y (List.mem_cons_of_mem x hy)
    obtain ⟨hfirst, hsorted⟩ := List.pairwise_cons.mp hsorted
    by_cases hcond : g.dangles base x && g.admits a x
    · have hdangling : g.Dangling base x := (dangles_iff hx).mp (Bool.and_eq_true_iff.mp hcond).1
      rw [anchorAll_cons_of_pos hcond, List.mem_cons,
        foremostAmong_cons_of_dangling (fans_insertArc ha hx) hbase hdangling hfirst,
        ih (by simpa using ha) (by simpa using htail) hsorted]
    · -- the node is passed over, and not for want of room: it is no successor of a base node
      have hsafe : ¬ g.Dangling base x := by
        intro hdangling
        refine hcond (Bool.and_eq_true_iff.mpr
          ⟨(dangles_iff hx).mpr hdangling, admits_iff.mpr ⟨ha, hx, ?_⟩⟩)
        exact fun harc => (hdangling.2 a hbase).2 (Arc.reaches harc)
      rw [anchorAll_cons_of_neg hcond, foremostAmong_cons_of_not_dangling hsafe,
        ih ha htail hsorted]

theorem mem_anchorDangling_iff (ha : a < g.size) (hbase : base a) :
    v ∈ (g.anchorDangling base a).2 ↔ v < g.size ∧ g.Foremost base v := by
  rw [anchorDangling, mem_anchorAll_iff ha hbase (fun x hx => List.mem_range.mp hx)
    List.pairwise_lt_range, ForemostAmong, List.mem_range]
  refine and_congr_right fun hv => and_congr_right fun _ => ?_
  -- what is lower than a node is a node
  exact ⟨fun hnone u huv => hnone u (List.mem_range.mpr (huv.trans hv)) huv,
    fun hnone u _ huv => hnone u huv⟩

/-- Graphs with as many nodes and the same links between them have the same components. -/
theorem isComponent_congr (hsize : h.size = g.size)
    (hlinked : ∀ u v, h.Linked u v ↔ g.Linked u v) (c : List Nat) :
    h.IsComponent c ↔ g.IsComponent c := by
  refine ⟨?_, ?_⟩
  · rintro ⟨hne, hnodup, hlt, hmem⟩
    exact ⟨hne, hnodup, fun v hv => hsize ▸ hlt v hv,
      fun v hv w => (hmem v hv w).trans (hlinked v w)⟩
  · rintro ⟨hne, hnodup, hlt, hmem⟩
    exact ⟨hne, hnodup, fun v hv => hsize.symm ▸ hlt v hv,
      fun v hv w => (hmem v hv w).trans (hlinked v w).symm⟩

end Digraph

namespace Graph

variable {α : Type}

/-- `h` is `g` with `anchored`, the foremost of its dangling nodes, put behind the base node `a`. -/
structure PutBehind (g h : Graph α) (base : Nat → Bool) (a : Nat) (anchored : List Nat) :
    Prop where
  /-- The nodes are the same. -/
  nodes_eq : h.nodes = g.nodes
  /-- The anchored nodes are those that dangled and that no lower dangling node reached. -/
  mem_iff : ∀ v, v ∈ anchored ↔ v < g.size ∧ g.links.Foremost base v
  /-- They were anchored in ascending order. -/
  ascending : anchored.Pairwise (· < ·)
  /-- In this order they come behind the successors that `a` had, and the other nodes have the
  successors that they had. -/
  succs_eq : ∀ u, h.links.succs u = g.links.succs u ++ if u = a then anchored else []
  /-- Each of them has `a` behind the predecessors that it had, and the other nodes have the
  predecessors that they had. -/
  preds_eq : ∀ v, h.links.preds v = g.links.preds v ++ if v ∈ anchored then [a] else []
  /-- The same nodes reach each other. -/
  linked_iff : ∀ u v, h.links.Linked u v ↔ g.links.Linked u v
  /-- The strongly connected components are the same. -/
  isComponent_iff : ∀ c, h.links.IsComponent c ↔ g.links.IsComponent c
  /-- The same nodes have an arc to themselves. -/
  loop_iff : ∀ v, h.links.Arc v v ↔ g.links.Arc v v
  /-- There is a cycle exactly if there was one. -/
  acyclic_iff : h.links.Acyclic ↔ g.links.Acyclic
  /-- No node dangles any more. -/
  isAnchored : h.links.isAnchored base

/-- Anchoring at a base node puts the foremost dangling nodes behind it and changes nothing else. -/
theorem anchorDangling_exact (g : Graph α) (base : Nat → Bool) (a : Nat) (ha : a < g.size)
    (hbase : base a) :
    g.PutBehind (g.anchorDangling base a).1 base a (g.anchorDangling base a).2 := by
  have hnode : a < g.links.size := g.size_links_eq.symm ▸ ha
  have hanch := Digraph.anchored_anchorDangling base hnode
  -- a dangling node does not reach the anchor, which is in the base
  have hopen : ∀ x, g.links.Dangling base x → ¬ g.links.Reaches x a :=
    fun x hx => (hx.2 a hbase).1
  have hlinked : ∀ u v, (g.anchorDangling base a).1.links.Linked u v ↔ g.links.Linked u v :=
    fun u v => hanch.fans.linked_iff fun x hx => hopen x (hanch.dangling x hx)
  refine ⟨rfl, ?_, ?_, fun u => Digraph.succs_anchorAll base a g.links _ u,
    fun v => Digraph.preds_anchorAll base a g.links _ v, hlinked,
    fun c => Digraph.isComponent_congr hanch.size_eq hlinked c, ?_, ?_, ?_⟩
  · intro v
    rw [← g.size_links_eq]
    exact Digraph.mem_anchorDangling_iff hnode hbase
  · exact List.pairwise_lt_range.sublist (Digraph.sublist_anchorAll base a g.links _)
  · -- a new arc leads to a dangling node, and the anchor is none
    intro v
    refine (hanch.fans v v).trans (or_iff_left ?_)
    rintro ⟨rfl, hv⟩
    exact (hanch.dangling v hv).1 hbase
  · refine hanch.acyclic_iff.trans (and_iff_left ?_)
    exact fun v _ hv => hopen v hv
  · rw [Digraph.isAnchored_iff]
    intro v hv hdangling
    have hlt : v < g.links.size := hanch.size_eq ▸ hv
    exact ((hanch.dangling_iff hlt).mp hdangling).2 a hbase (Digraph.Reaches.refl _ a)

/-- Two base nodes, and three others of which the last reaches the first and the first the second.
The last has its turn when the first already has its arc, and so both of them get one. -/
theorem anchorDangling_exact_of_five :
    ∃ g : Graph Nat, (1 < g.size ∧ g.edges = [(0, 1), (2, 3), (4, 2)]) ∧
      (g.anchorDangling (· < 2) 1).2 = [2, 4] ∧
      g.PutBehind (g.anchorDangling (· < 2) 1).1 (· < 2) 1 (g.anchorDangling (· < 2) 1).2 := by
  refine ⟨⟨#[0, 1, 2, 3, 4], (((Nat.repeat Digraph.addNode 5 .empty).insertArc 0 1).insertArc 2
    3).insertArc 4 2, by cbv, by decide⟩, ⟨?_, ?_⟩, ?_, ?_⟩
  · show 1 < 5
    decide
  · cbv
  · cbv
  · exact anchorDangling_exact _ _ 1 (show 1 < 5 by decide) rfl

end Graph

end LoadOrder
