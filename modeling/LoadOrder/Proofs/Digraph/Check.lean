import LoadOrder.Digraph.Check
import LoadOrder.Proofs.Digraph.NodeSet
import LoadOrder.Proofs.Digraph.TopologicalOrder

/-!
# What the checks on an order decide

`isComplete` decides whether a list is an order of all nodes (`isComplete_iff`). On such an order
each node has one place, its index (`getD_places`), and `respectsArcs` decides whether the source of
each arc comes before its target (`respectsArcs_iff`). So the two checks together decide whether a
list is a topological order (`isTopological_iff_checks`), and the one that sorting finds passes them
(`checks_of_topoSort`).
-/

namespace LoadOrder.Digraph

variable {g : Digraph} {order : List Nat} {v : Nat}

/-- As many different numbers below `n` as there are such numbers are all of them. -/
theorem perm_range_iff {n : Nat} :
    order.Perm (List.range n) ↔ order.length = n ∧ order.Nodup ∧ ∀ v ∈ order, v < n := by
  refine ⟨?_, ?_⟩
  · intro hperm
    refine ⟨by rw [hperm.length_eq, List.length_range], hperm.nodup_iff.mpr List.nodup_range, ?_⟩
    exact fun v hv => List.mem_range.mp (hperm.subset hv)
  · rintro ⟨hlength, hnodup, hlt⟩
    have hsub : order.Subperm (List.range n) :=
      List.subperm_of_subset hnodup fun v hv => List.mem_range.mpr (hlt v hv)
    exact hsub.perm_of_length_le (by rw [hlength, List.length_range])

/-- A list is as long as there are nodes and holds no node twice exactly if it is an order of all
nodes. -/
theorem isComplete_iff : g.isComplete order ↔ order.Perm (List.range g.size) := by
  have hfree : ∀ v, (NodeSet.empty g.size).isFree v ↔ v < g.size := by simp
  simp only [isComplete, Bool.and_eq_true, beq_iff_eq, NodeSet.length_gather_eq_iff, hfree,
    perm_range_iff]

/-- Writing down the places of a list from `k` on leaves each of its entries with its own, and the
slots of all other numbers as they were. -/
theorem getD_foldl_zipIdx {write : Array (Option Nat) → Nat × Nat → Array (Option Nat)}
    (hwrite : ∀ places v i, write places (v, i) = places.setIfInBounds v (some i))
    (hnodup : order.Nodup) (k : Nat) {places : Array (Option Nat)} (hv : v < places.size) :
    ((order.zipIdx k).foldl write places)[v]?.getD none =
      if v ∈ order then some (k + order.idxOf v) else places[v]?.getD none := by
  induction order generalizing k places with
  | nil => simp
  | cons x order ih =>
    obtain ⟨hx, hnodup⟩ := List.nodup_cons.mp hnodup
    rw [List.zipIdx_cons, List.foldl_cons, hwrite, ih hnodup (k + 1) (by simpa using hv)]
    by_cases hmem : v ∈ order
    · have hne : x ≠ v := fun heq => hx (heq ▸ hmem)
      rw [if_pos hmem, if_pos (List.mem_cons_of_mem x hmem), List.idxOf_cons_ne order hne]
      congr 1
      omega
    · rw [if_neg hmem]
      by_cases heq : x = v
      · subst heq
        rw [if_pos List.mem_cons_self, List.idxOf_cons_self,
          Array.getElem?_setIfInBounds_self_of_lt hv]
        rfl
      · rw [if_neg (by simp [hmem, Ne.symm heq]), Array.getElem?_setIfInBounds_ne heq]

/-- In an order of all nodes the place of a node is its index. -/
theorem getD_places (hperm : order.Perm (List.range g.size)) (hv : v < g.size) :
    (g.places order)[v]?.getD none = some (order.idxOf v) := by
  rw [places, getD_foldl_zipIdx (fun _ _ _ => rfl) (hperm.nodup_iff.mpr List.nodup_range) 0
    (by simpa using hv), if_pos (hperm.mem_iff.mpr (List.mem_range.mpr hv)), Nat.zero_add]

theorem respectsArcs_iff (hperm : order.Perm (List.range g.size)) :
    g.respectsArcs order ↔ ∀ u v, g.Arc u v → Precedes order u v := by
  have hnodup : order.Nodup := hperm.nodup_iff.mpr List.nodup_range
  have hnodes : order.all (· < g.size) := by
    simpa using fun v hv => List.mem_range.mp (hperm.subset hv)
  have hbefore : ∀ u v, g.Arc u v →
      (isBefore ((g.places order)[u]?.getD none) ((g.places order)[v]?.getD none) ↔
        Precedes order u v) := by
    intro u v harc
    have hv : v ∈ order := hperm.mem_iff.mpr (List.mem_range.mpr (target_lt harc))
    rw [getD_places hperm (source_lt harc), getD_places hperm (target_lt harc), isBefore,
      decide_eq_true_iff, precedes_iff_idxOf_lt hnodup hv]
  simp only [respectsArcs, hnodes, Bool.true_and, List.all_eq_true, Prod.forall, mem_arcs]
  exact forall₂_congr fun u v => forall_congr' fun harc => hbefore u v harc

/-- An order passes both checks exactly if it is topological. -/
theorem isTopological_iff_checks :
    g.IsTopological order ↔ g.respectsArcs order ∧ g.isComplete order := by
  rw [isComplete_iff]
  refine ⟨?_, ?_⟩
  · intro horder
    exact ⟨(respectsArcs_iff horder.perm).mpr horder.precedes, horder.perm⟩
  · rintro ⟨hrespects, hperm⟩
    exact ⟨hperm, (respectsArcs_iff hperm).mp hrespects⟩

/-- The order that is found passes both checks. -/
theorem checks_of_topoSort (hsort : g.topoSort = some order) :
    g.respectsArcs order ∧ g.isComplete order :=
  isTopological_iff_checks.mp (topoSort_eq_some_iff.mp hsort).1

end LoadOrder.Digraph
