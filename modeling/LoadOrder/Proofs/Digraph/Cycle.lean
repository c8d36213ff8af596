import LoadOrder.Digraph.Cycle
import LoadOrder.Proofs.Digraph.Component
import LoadOrder.Proofs.Digraph.TopologicalOrder
import Mathlib.Data.List.Sort

/-!
# The cycles of a graph

`g.cycles` are the components with a node on a cycle (`isComponent_of_mem_cycles`,
`exists_mem_cycles_iff`). All nodes of such a component are on a cycle, and two nodes on cycles
are in one of them exactly if they are linked, so the cycles do not overlap
(`disjoint_cycles`). Each is in ascending order (`pairwise_of_mem_cycles`), and they come by their
lowest nodes (`pairwise_cycles`).

There is only one list of lists of which all this is true (`ListsCycles.unique`), so it tells what
`cycles` answers (`cycles_exact`). The answer is empty exactly if the nodes can be sorted: the one
search follows the arcs forward and the other counts them backward, but both find the same cycles.
-/

namespace LoadOrder.Digraph

open Relation

variable {g : Digraph} {u v w : Nat} {c d : List Nat}

theorem IsComponent.perm (hc : g.IsComponent c) (hperm : d.Perm c) : g.IsComponent d where
  ne_nil := fun hnil => hc.ne_nil (hnil ▸ hperm).symm.eq_nil
  nodup := hperm.nodup_iff.mpr hc.nodup
  lt_size v hv := hc.lt_size v (hperm.mem_iff.mp hv)
  mem_iff v hv w := by
    rw [hperm.mem_iff]
    exact hc.mem_iff v (hperm.mem_iff.mp hv) w

/-- A cyclic component is one whose nodes are on cycles. -/
theorem IsComponent.isCyclic_iff (hc : g.IsComponent c) (hv : v ∈ c) :
    g.isCyclic c ↔ g.OnCycle v := by
  match c with
  | [] => cases hv
  | [w] =>
    obtain rfl : v = w := List.mem_singleton.mp hv
    rw [isCyclic, List.contains_iff_mem]
    refine ⟨?_, ?_⟩
    · intro harc
      exact Arc.leads harc
    · intro hcycle
      obtain ⟨x, harc, hxv⟩ := TransGen.head'_iff.mp hcycle
      -- the first node on the way back is linked to `v`, so it is `v`
      have hlinked : g.Linked v x := ⟨Arc.reaches harc, hxv⟩
      have hx : x = v := List.mem_singleton.mp ((hc.mem_iff v hv x).mpr hlinked)
      exact hx ▸ harc
  | x :: y :: c =>
    -- two different nodes of a component are on a cycle, and with them all of it
    have hxy : x ≠ y := fun heq => by
      have hnodup := hc.nodup
      rw [heq] at hnodup
      simp at hnodup
    have hx : x ∈ x :: y :: c := List.mem_cons_self
    have hcycle : g.OnCycle x :=
      Linked.onCycle_of_ne ((hc.mem_iff x hx y).mp (by simp)) hxy
    exact iff_of_true rfl (((hc.mem_iff x hx v).mp hv).onCycle hcycle)

theorem mem_cycles_iff :
    c ∈ g.cycles ↔ ∃ d ∈ g.components, g.isCyclic d ∧ d.mergeSort (fun a b => a ≤ b) = c := by
  unfold cycles
  rw [(List.mergeSort_perm _ _).mem_iff, List.mem_map]
  simp only [List.mem_filter, and_assoc]

theorem isComponent_of_mem_cycles (hc : c ∈ g.cycles) : g.IsComponent c := by
  obtain ⟨d, hd, -, rfl⟩ := mem_cycles_iff.mp hc
  exact (isComponent_of_mem hd).perm (List.mergeSort_perm d _)

theorem onCycle_of_mem_cycles (hc : c ∈ g.cycles) (hv : v ∈ c) : g.OnCycle v := by
  obtain ⟨d, hd, hcyclic, rfl⟩ := mem_cycles_iff.mp hc
  exact ((isComponent_of_mem hd).isCyclic_iff (List.mem_mergeSort.mp hv)).mp hcyclic

/-- The nodes of the cycles are those that are on a cycle. -/
theorem exists_mem_cycles_iff : (∃ c ∈ g.cycles, v ∈ c) ↔ g.OnCycle v := by
  refine ⟨?_, ?_⟩
  · rintro ⟨c, hc, hv⟩
    exact onCycle_of_mem_cycles hc hv
  · intro hv
    obtain ⟨d, hd, hvd⟩ := exists_mem_components hv.source_lt
    have hcyclic := ((isComponent_of_mem hd).isCyclic_iff hvd).mpr hv
    exact ⟨_, mem_cycles_iff.mpr ⟨d, hd, hcyclic, rfl⟩, List.mem_mergeSort.mpr hvd⟩

theorem disjoint_cycles (g : Digraph) : g.cycles.Pairwise List.Disjoint := by
  have hcyclic : ((g.components.filter g.isCyclic).map fun c =>
      c.mergeSort fun a b => a ≤ b).Pairwise List.Disjoint := by
    refine List.pairwise_map.mpr ((disjoint_components g).filter _ |>.imp ?_)
    intro c d hdisjoint v hv hw
    exact hdisjoint (List.mem_mergeSort.mp hv) (List.mem_mergeSort.mp hw)
  exact (List.mergeSort_perm _ _).symm.pairwise hcyclic fun h => h.symm

/-- A list without repeats is sorted into an ascending one. -/
theorem pairwise_lt_mergeSort (hnodup : c.Nodup) :
    (c.mergeSort fun a b => a ≤ b).Pairwise (· < ·) := by
  have hle : (c.mergeSort fun a b => a ≤ b).Pairwise fun a b => decide (a ≤ b) = true :=
    List.pairwise_mergeSort (fun a b c hab hbc => by simp at *; omega)
      (fun a b => by simpa using le_total a b) c
  have hnodup' : (c.mergeSort fun a b => a ≤ b).Nodup :=
    (List.mergeSort_perm c _).nodup_iff.mpr hnodup
  exact (hle.and hnodup').imp fun ⟨hab, hne⟩ => lt_of_le_of_ne (by simpa using hab) hne

theorem pairwise_of_mem_cycles (hc : c ∈ g.cycles) : c.Pairwise (· < ·) := by
  obtain ⟨d, hd, -, rfl⟩ := mem_cycles_iff.mp hc
  exact pairwise_lt_mergeSort (isComponent_of_mem hd).nodup

/-- A cycle of the graph is what is linked to some node on a cycle, in ascending order. -/
theorem mem_cycles_iff_isComponent :
    c ∈ g.cycles ↔ g.IsComponent c ∧ c.Pairwise (· < ·) ∧ ∃ v ∈ c, g.OnCycle v := by
  refine ⟨?_, ?_⟩
  · intro hc
    have hcomponent := isComponent_of_mem_cycles hc
    obtain ⟨v, hv⟩ := List.exists_mem_of_ne_nil c hcomponent.ne_nil
    exact ⟨hcomponent, pairwise_of_mem_cycles hc, v, hv, onCycle_of_mem_cycles hc hv⟩
  · rintro ⟨hcomponent, hascending, v, hv, hcycle⟩
    obtain ⟨d, hd, hvd⟩ := exists_mem_cycles_iff.mpr hcycle
    -- two components with a common node have the same nodes
    have hmem : ∀ w, w ∈ c ↔ w ∈ d := fun w =>
      (hcomponent.mem_iff v hv w).trans ((isComponent_of_mem_cycles hd).mem_iff v hvd w).symm
    exact hascending.eq_of_mem_iff (pairwise_of_mem_cycles hd) hmem ▸ hd

/-- The cycles come by their lowest nodes, no two of which are the same. -/
theorem pairwise_cycles (g : Digraph) :
    g.cycles.Pairwise fun c d => c.headD 0 < d.headD 0 := by
  have hle : g.cycles.Pairwise fun c d => decide (c.headD 0 ≤ d.headD 0) = true :=
    List.pairwise_mergeSort (fun a b c hab hbc => by simp at *; omega)
      (fun a b => by simpa using le_total (a.headD 0) (b.headD 0)) _
  have hhead : ∀ c ∈ g.cycles, c.headD 0 ∈ c := fun c hc => by
    cases c with
    | nil => exact absurd rfl (isComponent_of_mem_cycles hc).ne_nil
    | cons v c => exact List.mem_cons_self
  refine (hle.and (disjoint_cycles g)).imp_of_mem ?_
  rintro c d hc hd ⟨hcd, hdisjoint⟩
  refine lt_of_le_of_ne (by simpa using hcd) ?_
  -- two cycles with the same lowest node would overlap
  intro heq
  exact hdisjoint (hhead c hc) (heq ▸ hhead d hd)

/-! ### The cycles are told by the paths -/

/-- The first node of `c` is lower than the first node of `d`. -/
def StartsBelow (c d : List Nat) : Prop :=
  ∃ u v, c.head? = some u ∧ d.head? = some v ∧ u < v

instance : Std.Irrefl StartsBelow where
  irrefl := by
    rintro c ⟨u, v, hu, hv, huv⟩
    obtain rfl : u = v := Option.some.inj (hu.symm.trans hv)
    exact lt_irrefl u huv

instance : Std.Antisymm StartsBelow where
  antisymm := by
    rintro c d ⟨u, v, hu, hv, huv⟩ ⟨v', u', hv', hu', hvu⟩
    obtain rfl : u = u' := Option.some.inj (hu.symm.trans hu')
    obtain rfl : v = v' := Option.some.inj (hv.symm.trans hv')
    exact absurd hvu huv.asymm

/-- The lists `cs` hold the nodes that are on cycles, each list those that are linked to one
another. -/
structure ListsCycles (g : Digraph) (cs : List (List Nat)) : Prop where
  /-- Every list has a first node. -/
  ne_nil : ∀ c ∈ cs, c ≠ []
  /-- No node is in two lists. -/
  disjoint : cs.Pairwise List.Disjoint
  /-- Each list is in ascending order, without repeats. -/
  ascending : ∀ c ∈ cs, c.Pairwise (· < ·)
  /-- The lists come in ascending order of their first nodes. -/
  startsBelow : cs.Pairwise StartsBelow
  /-- The nodes listed are those that are on a cycle. -/
  mem_iff : ∀ v, (∃ c ∈ cs, v ∈ c) ↔ g.OnCycle v
  /-- Two nodes are in one list exactly if each reaches the other and they are on cycles. -/
  together_iff : ∀ u v, (∃ c ∈ cs, u ∈ c ∧ v ∈ c) ↔ g.Linked u v ∧ g.OnCycle u ∧ g.OnCycle v

namespace ListsCycles

variable {cs ds : List (List Nat)}

/-- A list holds what is linked to any of its nodes. -/
theorem mem_iff_linked (hcs : g.ListsCycles cs) (hc : c ∈ cs) (hv : v ∈ c) :
    w ∈ c ↔ g.Linked v w ∧ g.OnCycle v ∧ g.OnCycle w := by
  rw [← hcs.together_iff]
  refine ⟨fun hw => ⟨c, hc, hv, hw⟩, ?_⟩
  rintro ⟨d, hd, hvd, hwd⟩
  -- the list that has both nodes has `v` in common with `c`
  have hsymm : Std.Symm (@List.Disjoint Nat) := ⟨fun _ _ hdisjoint => hdisjoint.symm⟩
  have hcd : c = d := by
    by_contra hne
    exact hcs.disjoint.forall hc hd hne hv hvd
  exact hcd ▸ hwd

theorem subset (hcs : g.ListsCycles cs) (hds : g.ListsCycles ds) : cs ⊆ ds := by
  intro c hc
  obtain ⟨v, hv⟩ := List.exists_mem_of_ne_nil c (hcs.ne_nil c hc)
  obtain ⟨d, hd, hvd⟩ := (hds.mem_iff v).mpr ((hcs.mem_iff v).mp ⟨c, hc, hv⟩)
  -- both lists hold what is linked to `v`, in ascending order
  have hmem : ∀ w, w ∈ c ↔ w ∈ d := fun w =>
    (hcs.mem_iff_linked hc hv).trans (hds.mem_iff_linked hd hvd).symm
  exact (hcs.ascending c hc).eq_of_mem_iff (hds.ascending d hd) hmem ▸ hd

/-- The cycles can be listed in one way only. -/
theorem unique (hcs : g.ListsCycles cs) (hds : g.ListsCycles ds) : cs = ds :=
  List.Subset.antisymm_of_pairwise hcs.startsBelow hds.startsBelow (hcs.subset hds)
    (hds.subset hcs)

end ListsCycles

theorem listsCycles_cycles (g : Digraph) : g.ListsCycles g.cycles where
  ne_nil c hc := (isComponent_of_mem_cycles hc).ne_nil
  disjoint := disjoint_cycles g
  ascending c hc := pairwise_of_mem_cycles hc
  startsBelow := by
    refine (pairwise_cycles g).imp_of_mem ?_
    intro c d hc hd hlt
    obtain ⟨u, c, rfl⟩ := List.exists_cons_of_ne_nil (isComponent_of_mem_cycles hc).ne_nil
    obtain ⟨v, d, rfl⟩ := List.exists_cons_of_ne_nil (isComponent_of_mem_cycles hd).ne_nil
    exact ⟨u, v, rfl, rfl, hlt⟩
  mem_iff v := exists_mem_cycles_iff
  together_iff u v := by
    refine ⟨?_, ?_⟩
    · rintro ⟨c, hc, hu, hv⟩
      exact ⟨((isComponent_of_mem_cycles hc).mem_iff u hu v).mp hv, onCycle_of_mem_cycles hc hu,
        onCycle_of_mem_cycles hc hv⟩
    · rintro ⟨hlinked, hcycle, -⟩
      obtain ⟨c, hc, hu⟩ := exists_mem_cycles_iff.mpr hcycle
      exact ⟨c, hc, hu, ((isComponent_of_mem_cycles hc).mem_iff u hu v).mpr hlinked⟩

theorem cycles_eq_nil_iff : g.cycles = [] ↔ g.Acyclic := by
  refine ⟨?_, ?_⟩
  · intro hnil v hv
    obtain ⟨c, hc, -⟩ := exists_mem_cycles_iff.mpr hv
    rw [hnil] at hc
    cases hc
  · intro hacyclic
    refine List.eq_nil_iff_forall_not_mem.mpr fun c hc => ?_
    obtain ⟨v, hv⟩ := List.exists_mem_of_ne_nil c (isComponent_of_mem_cycles hc).ne_nil
    exact hacyclic v (onCycle_of_mem_cycles hc hv)

/-- The cycles are the one way to list the nodes that are on a cycle, linked ones together, each
list and the lists among themselves in ascending order. There is nothing to list exactly if the
nodes can be sorted. -/
theorem cycles_exact (g : Digraph) :
    (∀ cs, g.cycles = cs ↔ g.ListsCycles cs) ∧
    (g.cycles = [] ↔ ∃ order, g.topoSort = some order) := by
  refine ⟨?_, ?_⟩
  · intro cs
    exact ⟨fun heq => heq ▸ listsCycles_cycles g, fun hcs => (listsCycles_cycles g).unique hcs⟩
  · rw [cycles_eq_nil_iff, ← Option.isSome_iff_exists, ← Option.ne_none_iff_isSome, Ne,
      topoSort_eq_none_iff, not_exists]
    exact Iff.rfl

end LoadOrder.Digraph
