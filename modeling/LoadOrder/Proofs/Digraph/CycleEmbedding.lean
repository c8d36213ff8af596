import LoadOrder.Proofs.Digraph.ClosedWalk
import LoadOrder.Proofs.Digraph.Cycle
import LoadOrder.Proofs.Digraph.Embedding

/-!
# Cycles of a graph inside another

If `h` is what is left of `g` without some nodes that no arc leads out of (`Embeds f h g`), then
the cycles of `g` are those of `h` by their new numbers (`Embeds.cycles_eq`), and so are the walks
around them (`Embeds.closedWalk_map`). A search for a path takes the successors of a node in
ascending order. So it does not show in which order the arcs were added, and it sees no node that
is taken out, since its set holds none.
-/

namespace LoadOrder.Digraph.Embeds

variable {f : Nat → Nat} {g h : Digraph} {v w x : Nat} {c d vs : List Nat}
  {inside inside' target target' : Nat → Bool}

/-! ### The cycles -/

theorem isComponent_map_iff (he : Embeds f h g) :
    g.IsComponent (c.map f) ↔ h.IsComponent c := by
  refine ⟨?_, ?_⟩
  · rintro ⟨hne, hnodup, hlt, hmem⟩
    refine ⟨fun hnil => hne (by rw [hnil, List.map_nil]), hnodup.of_map f, ?_, ?_⟩
    · intro v hv
      exact (he.lt_size_iff v).mp (hlt (f v) (List.mem_map_of_mem hv))
    · intro v hv w
      rw [← he.linked_iff, ← hmem (f v) (List.mem_map_of_mem hv),
        List.mem_map_of_injective he.injective]
  · rintro ⟨hne, hnodup, hlt, hmem⟩
    refine ⟨by simpa using hne, hnodup.map he.injective, ?_, ?_⟩
    · intro x hx
      obtain ⟨v, hv, rfl⟩ := List.mem_map.mp hx
      exact (he.lt_size_iff v).mpr (hlt v hv)
    · intro x hx y
      obtain ⟨v, hv, rfl⟩ := List.mem_map.mp hx
      refine ⟨?_, ?_⟩
      · intro hy
        obtain ⟨w, hw, rfl⟩ := List.mem_map.mp hy
        exact he.linked_iff.mpr ((hmem v hv w).mp hw)
      · -- what reaches a node that is left is left
        intro hlinked
        obtain ⟨w, rfl, -⟩ := he.exists_reaches hlinked.2
        exact List.mem_map_of_mem ((hmem v hv w).mpr (he.linked_iff.mp hlinked))

theorem pairwise_map_iff (he : Embeds f h g) :
    (c.map f).Pairwise (· < ·) ↔ c.Pairwise (· < ·) := by
  rw [List.pairwise_map]
  simp only [he.strictMono.lt_iff_lt]

theorem map_mem_cycles_iff (he : Embeds f h g) : c.map f ∈ g.cycles ↔ c ∈ h.cycles := by
  rw [mem_cycles_iff_isComponent, mem_cycles_iff_isComponent, he.isComponent_map_iff,
    he.pairwise_map_iff]
  simp only [List.mem_map, exists_exists_and_eq_and, he.onCycle_iff]

/-- The nodes of a cycle are nodes that are left. -/
theorem exists_of_mem_cycles (he : Embeds f h g) (hd : d ∈ g.cycles) :
    ∃ c : List Nat, c.map f = d := by
  have hexists : d ∈ Set.range (List.map f) := by
    rw [Set.range_list_map]
    exact fun x hx => he.exists_of_onCycle (onCycle_of_mem_cycles hd hx)
  exact hexists

/-- Both graphs have the same cycles. -/
theorem cycles_eq (he : Embeds f h g) : g.cycles = h.cycles.map (List.map f) := by
  have hmem : ∀ d, d ∈ g.cycles ↔ d ∈ h.cycles.map (List.map f) := by
    intro d
    rw [List.mem_map]
    refine ⟨?_, ?_⟩
    · intro hd
      obtain ⟨c, rfl⟩ := he.exists_of_mem_cycles hd
      exact ⟨c, he.map_mem_cycles_iff.mp hd, rfl⟩
    · rintro ⟨c, hc, rfl⟩
      exact he.map_mem_cycles_iff.mpr hc
  -- and lists them by their lowest nodes
  have hascending : (h.cycles.map (List.map f)).Pairwise fun c d => c.headD 0 < d.headD 0 := by
    refine List.pairwise_map.mpr ((pairwise_cycles h).imp_of_mem ?_)
    intro c d hc hd hlt
    obtain ⟨u, c, rfl⟩ := List.exists_cons_of_ne_nil (isComponent_of_mem_cycles hc).ne_nil
    obtain ⟨v, d, rfl⟩ := List.exists_cons_of_ne_nil (isComponent_of_mem_cycles hd).ne_nil
    exact he.strictMono.lt_iff_lt.mpr hlt
  have hnodup : ∀ {ds : List (List Nat)}, ds.Pairwise (fun c d => c.headD 0 < d.headD 0) →
      ds.Nodup := fun hds => hds.imp fun hlt heq => by
    rw [heq] at hlt
    exact Nat.lt_irrefl _ hlt
  refine List.Perm.eq_of_pairwise ?_ (pairwise_cycles g) hascending
    ((List.perm_ext_iff_of_nodup (hnodup (pairwise_cycles g)) (hnodup hascending)).mpr hmem)
  intro c d _ _ hcd hdc
  exact absurd hdc (Nat.lt_asymm hcd)

/-! ### Searching inside a set -/

/-- The successors inside a set of nodes that are left, in ascending order. -/
theorem succsInside_map (he : Embeds f h g) (hinside : ∀ v, inside (f v) = inside' v)
    (hleft : ∀ x, inside x → ∃ w, f w = x) (v : Nat) :
    g.succsInside inside (f v) = (h.succsInside inside' v).map (List.map f) := by
  by_cases hv : v < h.size
  · have hfv : f v < g.size := (he.lt_size_iff v).mpr hv
    simp only [succsInside, succsOfNode, if_pos hv, if_pos hfv, Except.map]
    have hg := pairwise_lt_mergeSort ((g.nodup_succs (f v)).filter inside)
    have hh := pairwise_lt_mergeSort ((h.nodup_succs v).filter inside')
    -- both lists ascend, so it is enough that they hold the same nodes
    refine congrArg Except.ok (hg.eq_of_mem_iff (he.pairwise_map_iff.mpr hh) ?_)
    intro x
    rw [List.mem_mergeSort, List.mem_filter, List.mem_map]
    refine ⟨?_, ?_⟩
    · rintro ⟨harc, hx⟩
      obtain ⟨w, rfl⟩ := hleft x hx
      refine ⟨w, List.mem_mergeSort.mpr (List.mem_filter.mpr ⟨?_, hinside w ▸ hx⟩), rfl⟩
      exact (he.arc_iff v w).mp harc
    · rintro ⟨w, hw, rfl⟩
      obtain ⟨harc, hw⟩ := List.mem_filter.mp (List.mem_mergeSort.mp hw)
      exact ⟨(he.arc_iff v w).mpr harc, hinside w ▸ hw⟩
  · have hfv : ¬ f v < g.size := fun hlt => hv ((he.lt_size_iff v).mp hlt)
    simp only [succsInside, succsOfNode, if_neg hv, if_neg hfv, Except.map]

section Seen

variable {seen : NodeSet g.size} {seen' : NodeSet h.size}

theorem contains_insert (he : Embeds f h g) (hseen : ∀ v, seen.contains (f v) = seen'.contains v)
    (v w : Nat) : (seen.insert (f w)).contains (f v) = (seen'.insert w).contains v := by
  rw [NodeSet.contains_insert, NodeSet.contains_insert, hseen, decide_eq_decide.mpr
    (he.lt_size_iff w), Bool.beq_eq_decide_eq, Bool.beq_eq_decide_eq,
    decide_eq_decide.mpr he.injective.eq_iff]

theorem contains_insertAll (he : Embeds f h g)
    (hseen : ∀ v, seen.contains (f v) = seen'.contains v) (vs : List Nat) (v : Nat) :
    (seen.insertAll (vs.map f)).contains (f v) = (seen'.insertAll vs).contains v := by
  rw [Bool.eq_iff_iff, NodeSet.contains_insertAll, NodeSet.contains_insertAll, hseen,
    he.lt_size_iff, List.mem_map_of_injective he.injective]

/-- The same nodes are gathered from a list. -/
theorem gather_map (he : Embeds f h g) (hseen : ∀ v, seen.contains (f v) = seen'.contains v)
    (vs : List Nat) :
    (seen.gather (vs.map f)).1 = (seen'.gather vs).1.map f ∧
      ∀ v, (seen.gather (vs.map f)).2.contains (f v) = (seen'.gather vs).2.contains v := by
  induction vs generalizing seen seen' with
  | nil => exact ⟨rfl, hseen⟩
  | cons w vs ih =>
    have hfree : seen.isFree (f w) = seen'.isFree w := by
      rw [NodeSet.isFree_eq, NodeSet.isFree_eq, hseen, decide_eq_decide.mpr (he.lt_size_iff w)]
    rw [List.map_cons]
    unfold NodeSet.gather
    rw [hfree]
    split
    · obtain ⟨hgathered, hcontains⟩ := ih fun v => he.contains_insert hseen v w
      exact ⟨congrArg (f w :: ·) hgathered, hcontains⟩
    · exact ih hseen

/-- A search takes the same course in both graphs. -/
theorem pathFrom_map (he : Embeds f h g) {next next' : Nat → Except GraphFault (List Nat)}
    (hnext : ∀ v, next (f v) = (next' v).map (List.map f))
    (htarget : ∀ v, target (f v) = target' v)
    (hseen : ∀ v, seen.contains (f v) = seen'.contains v) (queue : List (Nat × List Nat)) :
    pathFrom next target seen (queue.map (Prod.map f (List.map f))) =
      (pathFrom next' target' seen' queue).map (Option.map (List.map f)) := by
  have hfind : ∀ succs : List Nat,
      (succs.map f).find? target = (succs.find? target').map f := fun succs => by
    rw [List.find?_map, show target ∘ f = target' from funext htarget]
  fun_induction pathFrom next' target' seen' queue generalizing seen
  case case1 seen' =>
    rw [List.map_nil, pathFrom]
    rfl
  case case2 seen' v trail queue fault hfault =>
    rw [List.map_cons, Prod.map, pathFrom, hnext, hfault]
    rfl
  case case3 seen' v trail queue succs hsuccs w hw =>
    rw [List.map_cons, Prod.map, pathFrom, hnext, hsuccs]
    simp only [Except.map, hfind, hw, Option.map_some, List.map_reverse, List.map_cons]
  case case4 seen' v trail queue succs hsuccs hnone found ih =>
    -- the nodes found join both queues, each with the way to it
    obtain ⟨hgathered, hcontains⟩ := he.gather_map hseen succs
    have hrest := ih hcontains
    rw [List.map_append, List.map_map] at hrest
    rw [List.map_cons, Prod.map, pathFrom, hnext, hsuccs]
    simp only [Except.map, hfind, hnone, Option.map_none, hgathered, List.map_map]
    exact hrest

theorem shortestPath_map (he : Embeds f h g) (hinside : ∀ v, inside (f v) = inside' v)
    (hleft : ∀ x, inside x → ∃ w, f w = x) (htarget : ∀ v, target (f v) = target' v) (v : Nat) :
    g.shortestPath inside target (f v) =
      (h.shortestPath inside' target' v).map (Option.map (List.map f)) := by
  have hempty : ∀ v, (NodeSet.empty g.size).contains (f v) = (NodeSet.empty h.size).contains v := by
    simp
  exact he.pathFrom_map (fun w => he.succsInside_map hinside hleft w) htarget
    (fun w => he.contains_insert hempty w v) [(v, [])]

/-! ### Walks -/

theorem legs_map (he : Embeds f h g) (hinside : ∀ v, inside (f v) = inside' v)
    (hleft : ∀ x, inside x → ∃ w, f w = x) (k : Nat)
    (hseen : ∀ v, seen.contains (f v) = seen'.contains v) (v : Nat) :
    g.legs inside k seen (f v) =
      (h.legs inside' k seen' v).map (Prod.map (List.map f) f) := by
  induction k generalizing v seen seen' with
  | zero => rfl
  | succ k ih =>
    have htarget : ∀ w, (!seen.contains (f w)) = !seen'.contains w := fun w => by rw [hseen]
    have hleg : g.shortestPath inside (fun w => !seen.contains w) (f v) =
        (h.shortestPath inside' (fun w => !seen'.contains w) v).map (Option.map (List.map f)) :=
      he.shortestPath_map hinside hleft htarget v
    unfold legs
    rw [hleg]
    cases h.shortestPath inside' (fun w => !seen'.contains w) v with
    | error fault => rfl
    | ok found =>
      cases found with
      | none => rfl
      | some leg =>
        have hrest := ih (fun w => he.contains_insertAll hseen leg w) (leg.getLastD v)
        have hlast : (leg.map f).getLastD (f v) = f (leg.getLastD v) := by
          rw [List.getLastD_eq_getLast?, List.getLastD_eq_getLast?, List.getLast?_map,
            Option.getD_map]
        show (g.legs inside k (seen.insertAll (leg.map f)) ((leg.map f).getLastD (f v))).bind _ =
          ((h.legs inside' k (seen'.insertAll leg) (leg.getLastD v)).bind _).map _
        rw [hlast, hrest]
        cases h.legs inside' k (seen'.insertAll leg) (leg.getLastD v) with
        | error fault => rfl
        | ok walked =>
          show Except.ok (leg.map f ++ walked.1.map f, f walked.2) = _
          rw [← List.map_append]
          rfl

end Seen

/-- The walk through some nodes that are left. -/
theorem closedWalk_map (he : Embeds f h g) (c : List Nat) :
    g.closedWalk (c.map f) = (h.closedWalk c).map (List.map f) := by
  cases c with
  | nil => rfl
  | cons first c =>
    have hempty : ∀ v, (NodeSet.empty g.size).contains (f v) =
        (NodeSet.empty h.size).contains v := by
      simp
    have hinside : ∀ v, ((NodeSet.empty g.size).insertAll ((first :: c).map f)).contains (f v) =
        ((NodeSet.empty h.size).insertAll (first :: c)).contains v :=
      he.contains_insertAll hempty (first :: c)
    have hleft : ∀ x, ((NodeSet.empty g.size).insertAll ((first :: c).map f)).contains x →
        ∃ w, f w = x := by
      intro x hx
      rw [NodeSet.contains_insertAll, NodeSet.contains_empty] at hx
      obtain ⟨w, -, hw⟩ := List.mem_map.mp (hx.resolve_left Bool.false_ne_true).2
      exact ⟨w, hw⟩
    have hfirst : ∀ v, (f v == f first) = (v == first) := fun v => by
      rw [Bool.beq_eq_decide_eq, Bool.beq_eq_decide_eq, decide_eq_decide.mpr he.injective.eq_iff]
    have hlegs := he.legs_map hinside hleft (first :: c).length
      (fun v => he.contains_insert hempty v first) first
    rw [closedWalk, List.map_cons, closedWalk]
    rw [List.map_cons] at hlegs hinside hleft
    rw [List.length_cons, List.length_map, ← List.length_cons, hlegs]
    cases h.legs ((NodeSet.empty h.size).insertAll (first :: c)).contains (first :: c).length
        ((NodeSet.empty h.size).insert first) first with
    | error fault => rfl
    | ok walked =>
      obtain ⟨forward, last⟩ := walked
      have hback : g.shortestPath
            ((NodeSet.empty g.size).insertAll (f first :: c.map f)).contains
            (· == f first) (f last) =
          (h.shortestPath ((NodeSet.empty h.size).insertAll (first :: c)).contains
            (· == first) last).map (Option.map (List.map f)) :=
        he.shortestPath_map hinside hleft hfirst last
      show (g.shortestPath _ (· == f first) (f last)).bind _ =
        ((h.shortestPath _ (· == first) last).bind _).map _
      rw [hback]
      cases h.shortestPath ((NodeSet.empty h.size).insertAll (first :: c)).contains (· == first)
          last with
      | error fault => rfl
      | ok back =>
        cases back with
        | none => simp [Except.map, Except.bind, pure, Except.pure]
        | some back => simp [Except.map, Except.bind, pure, Except.pure, List.map_dropLast]

end LoadOrder.Digraph.Embeds
