import LoadOrder.Digraph.Traversal
import LoadOrder.Proofs.Digraph.NodeSet
import LoadOrder.Proofs.Digraph.Reachability

/-!
# What a traversal finds

A traversal from a stack finds an accepted node exactly if one can be reached from an entry of the
stack through nodes that have not been met (`any_offersFrom_iff`). The induction is the
traversal's own: a node that is offered is met from then on, and a path that came back to it can
be cut to the part behind its last visit (`split_at_last_visit`).

From the start, when nothing has been met, this is reachability along the way of the traversal
(`finds_iff`).
-/

namespace LoadOrder.Digraph

open Relation

/-- A path to `w` either never enters `v`, or it ends in `v`, or it goes on from its last visit to
`v` without entering `v` again. -/
theorem split_at_last_visit {r : Nat → Nat → Prop} {s v w : Nat} (hpath : ReflTransGen r s w) :
    ReflTransGen (fun x y => r x y ∧ y ≠ v) s w ∨ w = v ∨
      ∃ t, r v t ∧ t ≠ v ∧ ReflTransGen (fun x y => r x y ∧ y ≠ v) t w := by
  induction hpath with
  | refl => exact Or.inl ReflTransGen.refl
  | @tail x y _ hstep ih =>
    by_cases hy : y = v
    · exact Or.inr (Or.inl hy)
    -- the step keeps off `v`, so it prolongs whichever path there is to its start
    · rcases ih with havoid | rfl | ⟨t, hvt, ht, havoid⟩
      · exact Or.inl (havoid.tail ⟨hstep, hy⟩)
      · exact Or.inr (Or.inr ⟨y, hstep, hy, ReflTransGen.refl⟩)
      · exact Or.inr (Or.inr ⟨t, hvt, ht, havoid.tail ⟨hstep, hy⟩⟩)

section OffersFrom

variable {n : Nat} {next : Nat → List Nat} {accept : Nat → Bool}

/-- An accepted node can be reached from `s` through free nodes, `s` included. -/
def FindsFree (next : Nat → List Nat) (accept : Nat → Bool) (seen : NodeSet n) (s : Nat) : Prop :=
  seen.isFree s ∧ ∃ w, ReflTransGen (fun x y => y ∈ next x ∧ seen.isFree y) s w ∧ accept w

variable {seen : NodeSet n} {s v : Nat}

theorem FindsFree.of_insert (hv : seen.isFree v) (hs : FindsFree next accept (seen.insert v) s) :
    FindsFree next accept seen s := by
  obtain ⟨hfree, w, hpath, hw⟩ := hs
  refine ⟨((NodeSet.isFree_insert_iff hv).mp hfree).1, w, ?_, hw⟩
  exact ReflTransGen.mono
    (fun _ _ hstep => ⟨hstep.1, ((NodeSet.isFree_insert_iff hv).mp hstep.2).1⟩) _ _ hpath

/-- Once a free node has been met that is not accepted, what could be found can still be found,
from where it was or from a neighbour of that node. -/
theorem FindsFree.insert (hv : seen.isFree v) (hreject : ¬ accept v)
    (hs : FindsFree next accept seen s) :
    (∃ t ∈ next v, FindsFree next accept (seen.insert v) t)
      ∨ s ≠ v ∧ FindsFree next accept (seen.insert v) s := by
  obtain ⟨hfree, w, hpath, hw⟩ := hs
  -- a path that keeps off `v` is free after the insertion as well
  have hmono : ∀ {t}, ReflTransGen (fun x y => (y ∈ next x ∧ seen.isFree y) ∧ y ≠ v) t w →
      ReflTransGen (fun x y => y ∈ next x ∧ (seen.insert v).isFree y) t w := fun havoid =>
    ReflTransGen.mono (fun _ _ hstep =>
      ⟨hstep.1.1, (NodeSet.isFree_insert_iff hv).mpr ⟨hstep.1.2, hstep.2⟩⟩) _ _ havoid
  have hne : w ≠ v := fun e => hreject (e ▸ hw)
  rcases split_at_last_visit (v := v) hpath with havoid | heq | ⟨t, ⟨hvt, hfreet⟩, ht, havoid⟩
  · by_cases hsv : s = v
    · -- the path starts in `v` and goes on from there
      subst hsv
      rcases ReflTransGen.cases_head havoid with heq | ⟨t, ⟨⟨hvt, hfreet⟩, ht⟩, hrest⟩
      · exact absurd heq.symm hne
      · exact Or.inl ⟨t, hvt, (NodeSet.isFree_insert_iff hv).mpr ⟨hfreet, ht⟩, w, hmono hrest, hw⟩
    · exact Or.inr ⟨hsv, (NodeSet.isFree_insert_iff hv).mpr ⟨hfree, hsv⟩, w, hmono havoid, hw⟩
  · exact absurd heq hne
  -- the path visits `v`, and its part behind the last visit is free
  · exact Or.inl ⟨t, hvt, (NodeSet.isFree_insert_iff hv).mpr ⟨hfreet, ht⟩, w, hmono havoid, hw⟩

theorem any_offersFrom_iff (seen : NodeSet n) (stack : List Nat) :
    (offersFrom next accept seen stack).any accept ↔
      ∃ s ∈ stack, FindsFree next accept seen s := by
  fun_induction offersFrom next accept seen stack with
  | case1 seen => simp
  | case2 seen v stack hv ih =>
    -- `v` is offered, and those of its neighbours that are free are pushed
    rw [List.any_cons]
    by_cases haccept : accept v
    · rw [haccept, Bool.true_or]
      exact iff_of_true rfl ⟨v, List.mem_cons_self, hv, v, ReflTransGen.refl, haccept⟩
    · have hreject : accept v = false := Bool.not_eq_true _ ▸ haccept
      rw [if_neg haccept, hreject, Bool.false_or, ih]
      refine ⟨?_, ?_⟩
      · rintro ⟨s, hs, hfinds⟩
        rcases List.mem_append.mp hs with hs | hs
        · -- a neighbour of `v` is reached from `v`, which is on top of the stack
          obtain ⟨hfree, w, hpath, hw⟩ := hfinds.of_insert hv
          have hnext : s ∈ next v := (List.mem_filter.mp hs).1
          exact ⟨v, List.mem_cons_self, hv, w, hpath.head ⟨hnext, hfree⟩, hw⟩
        · exact ⟨s, List.mem_cons_of_mem v hs, hfinds.of_insert hv⟩
      · rintro ⟨s, hs, hfinds⟩
        rcases hfinds.insert hv haccept with ⟨t, ht, hfindst⟩ | ⟨hne, hfindss⟩
        · exact ⟨t, List.mem_append_left stack (List.mem_filter.mpr ⟨ht, hfindst.1⟩), hfindst⟩
        · have hstack : s ∈ stack := (List.mem_cons.mp hs).resolve_left hne
          exact ⟨s, List.mem_append_right _ hstack, hfindss⟩
  | case3 seen v stack hv ih =>
    -- `v` is dropped, and nothing is found from a node that is not free
    rw [ih]
    refine ⟨?_, ?_⟩
    · rintro ⟨s, hs, hfinds⟩
      exact ⟨s, List.mem_cons_of_mem v hs, hfinds⟩
    · rintro ⟨s, hs, hfinds⟩
      have hne : s ≠ v := fun e => hv (e ▸ hfinds.1)
      exact ⟨s, (List.mem_cons.mp hs).resolve_left hne, hfinds⟩

end OffersFrom

variable {g : Digraph} {u v : Nat}

/-- Following the neighbours along a way is following the arcs one way or the other. -/
theorem reflTransGen_neighbours_iff (g : Digraph) (way : Way) :
    ReflTransGen (fun x y => y ∈ g.neighbours way x) u v ↔
      match way with
      | .forward => g.Reaches u v
      | .backward => g.Reaches v u := by
  cases way with
  | forward => exact Iff.rfl
  | backward =>
    have hswap : (fun x y => y ∈ g.neighbours .backward x) = Function.swap g.Arc := by
      funext x y
      exact propext arc_iff_mem_preds.symm
    rw [hswap]
    exact reflTransGen_swap

theorem lt_of_mem_neighbours {way : Way} (h : v ∈ g.neighbours way u) : v < g.size := by
  cases way with
  | forward => exact target_lt h
  | backward => exact source_lt (arc_iff_mem_preds.mpr h)

/-- A traversal from a node finds what the node reaches along its way. -/
theorem finds_iff {way : Way} {accept : Nat → Bool} :
    g.finds way accept u ↔
      u < g.size ∧ ∃ v, ReflTransGen (fun x y => y ∈ g.neighbours way x) u v ∧ accept v := by
  have hfree : ∀ x, (NodeSet.empty g.size).isFree x ↔ x < g.size := by simp
  unfold finds offers
  rw [any_offersFrom_iff]
  simp only [List.mem_singleton, exists_eq_left, FindsFree, hfree]
  refine and_congr_right fun _ => exists_congr fun v => and_congr_left fun _ => ?_
  -- nothing has been met at the start, so every neighbour is free
  refine ⟨?_, ?_⟩
  · intro hpath
    exact ReflTransGen.mono (fun _ _ hstep => hstep.1) _ _ hpath
  · intro hpath
    exact ReflTransGen.mono (fun _ _ hstep => ⟨hstep, lt_of_mem_neighbours hstep⟩) _ _ hpath

theorem finds_forward_iff {accept : Nat → Bool} :
    g.finds .forward accept u ↔ u < g.size ∧ ∃ v, g.Reaches u v ∧ accept v := by
  rw [finds_iff]
  simp only [reflTransGen_neighbours_iff]

theorem finds_backward_iff {accept : Nat → Bool} :
    g.finds .backward accept u ↔ u < g.size ∧ ∃ v, g.Reaches v u ∧ accept v := by
  rw [finds_iff]
  simp only [reflTransGen_neighbours_iff]

end LoadOrder.Digraph
