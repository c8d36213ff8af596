import LoadOrder.Digraph.ClosedWalk
import LoadOrder.Proofs.Digraph.ShortestPath
import Mathlib.Data.List.Nodup
import Mathlib.Tactic.Linarith

/-!
# The forward legs of a walk

A walk goes forward leg by leg, each one straight to a node of the set that it has not visited,
until the set holds no such node that it leads to. `Strides` says this without a bound on the number
of legs. The bound of `legs` is that of the nodes of the set: every leg visits one node for the
first time, so it is never met, and a higher bound makes no difference (`exists_strides`).

A leg runs through visited nodes, and through none of them twice. So the first one is no longer than
the number of nodes visited before it, and each of the others may be longer by one than the one
before (`Strides.length_flatten_le`).
-/

namespace LoadOrder.Digraph

open Relation

variable {g : Digraph} {inside : Nat → Bool} {v w last : Nat} {visited members front : List Nat}
  {legs : List (List Nat)}

theorem ArcInside.arc (huv : g.ArcInside inside v w) : g.Arc v w :=
  huv.1

/-- What every step of a walk leads to is true of all its nodes but the first. -/
theorem forall_mem_of_isChain {R : Nat → Nat → Prop} {P : Nat → Prop}
    (hchain : (v :: front).IsChain R) (hstep : ∀ x y, R x y → P y) : ∀ w ∈ front, P w := by
  induction front generalizing v with
  | nil => simp
  | cons x front ih =>
    rw [List.isChain_cons_cons] at hchain
    intro w hw
    rcases List.mem_cons.mp hw with rfl | hw
    · exact hstep v w hchain.1
    · exact ih hchain.2 w hw

theorem inside_of_isChain (hchain : (v :: front).IsChain (g.ArcInside inside)) :
    ∀ w ∈ front, inside w :=
  forall_mem_of_isChain hchain fun _ _ hstep => hstep.2

theorem lt_size_of_isChain (hchain : (v :: front).IsChain (g.ArcInside inside)) :
    ∀ w ∈ front, w < g.size :=
  forall_mem_of_isChain hchain fun _ _ hstep => target_lt hstep.1

/-- A walk goes on where it ends. -/
theorem isChain_append_of_getLast? {R : Nat → Nat → Prop} {xs ys : List Nat}
    (hxs : xs.IsChain R) (hlast : xs.getLast? = some w) (hys : (w :: ys).IsChain R) :
    (xs ++ ys).IsChain R := by
  obtain ⟨front, rfl⟩ := List.getLast?_eq_some_iff.mp hlast
  exact hxs.append_overlap hys (List.cons_ne_nil w [])

/-- What a walk goes on with ends it. -/
theorem getLast?_append_of_getLast? {xs ys : List Nat} (hxs : xs.getLast? = some v)
    (hys : (v :: ys).getLast? = some w) : (xs ++ ys).getLast? = some w := by
  obtain ⟨front, rfl⟩ := List.getLast?_eq_some_iff.mp hxs
  rw [List.append_assoc, List.singleton_append, List.getLast?_append, hys, Option.some_or]

theorem getLast?_cons_concat : (v :: (front ++ [w])).getLast? = some w := by
  rw [← List.cons_append, List.getLast?_concat]

/-- A walk that stands at `v` and has visited `visited` goes forward by `legs` and then stands at
`last`: each leg leads straight to a node of the set that has not been visited, and from the last
node no path in the set leads to one. -/
inductive Strides (g : Digraph) (inside : Nat → Bool) :
    List Nat → Nat → List (List Nat) → Nat → Prop where
  /-- Nothing is left that can be visited. -/
  | stop {visited : List Nat} {v : Nat}
      (hnone : ∀ w, TransGen (g.ArcInside inside) v w → w ∈ visited) :
      Strides g inside visited v [] v
  /-- A leg leads to a node that is visited for the first time, and the walk goes on from there. -/
  | leg {visited front : List Nat} {v w last : Nat} {legs : List (List Nat)}
      (hleg : g.IsDirectLeg inside (fun x => !visited.contains x) v front w)
      (hrest : Strides g inside (w :: visited) w legs last) :
      Strides g inside visited v ((front ++ [w]) :: legs) last

namespace IsDirectLeg

variable {target : Nat → Bool}

theorem lt_size (hleg : g.IsDirectLeg inside target v front w) : w < g.size :=
  lt_size_of_isChain hleg.isChain w List.mem_concat_self

theorem mem_inside (hleg : g.IsDirectLeg inside target v front w) : inside w :=
  inside_of_isChain hleg.isChain w List.mem_concat_self

/-- A leg to a node that has not been visited runs through visited nodes. -/
theorem front_subset (hleg : g.IsDirectLeg inside (fun x => !visited.contains x) v front w) :
    front ⊆ visited := by
  intro x hx
  simpa using hleg.not_target x hx

theorem notMem_visited (hleg : g.IsDirectLeg inside (fun x => !visited.contains x) v front w) :
    w ∉ visited := by
  simpa using hleg.target_last

end IsDirectLeg

/-! ### The legs that are made -/

/-- Where nothing is found the walk stands still, whatever the bound. -/
theorem legs_of_none {walked : NodeSet g.size}
    (hfound : g.shortestPath inside (fun w => !walked.contains w) v = .ok none) (k : Nat) :
    g.legs inside k walked v = .ok ([], v) := by
  cases k with
  | zero => rfl
  | succ k =>
    unfold legs
    rw [hfound]
    rfl

/-- A leg that is found comes first, then what is walked from its end. -/
theorem legs_of_some {walked : NodeSet g.size} {rest : List Nat} {k : Nat}
    (hfound : g.shortestPath inside (fun w => !walked.contains w) v = .ok (some (front ++ [w])))
    (hrest : g.legs inside k (walked.insertAll (front ++ [w])) w = .ok (rest, last)) :
    g.legs inside (k + 1) walked v = .ok (front ++ [w] ++ rest, last) := by
  unfold legs
  rw [hfound]
  show Except.bind (g.legs inside k (walked.insertAll (front ++ [w]))
    ((front ++ [w]).getLastD v)) _ = _
  rw [List.getLastD_concat, hrest]
  rfl

/-- With at least as many legs allowed as there are nodes left to visit, the walk goes forward until
it finds no more. -/
theorem exists_strides {walked : NodeSet g.size} (hv : v < g.size)
    (hvisited : ∀ w, walked.contains w = visited.contains w)
    (hmembers : ∀ w, inside w → w ∈ members) :
    ∃ legs last,
      (∀ k, (members.filter fun w => !walked.contains w).length ≤ k →
        g.legs inside k walked v = .ok (legs.flatten, last)) ∧
      g.Strides inside visited v legs last := by
  induction hcount : (members.filter fun w => !walked.contains w).length using
    Nat.strong_induction_on generalizing walked visited v with
  | h count ih =>
    have htarget : (fun w => !walked.contains w) = fun w => !visited.contains w :=
      funext fun w => congrArg not (hvisited w)
    rcases exists_directLeg_or_none inside (fun w => !walked.contains w) hv with
      ⟨front, w, hfound, hleg⟩ | ⟨hfound, hnone⟩
    · rw [htarget] at hleg
      have hnew : ¬ walked.contains w := by simpa [hvisited w] using hleg.notMem_visited
      have hless : (members.filter fun x => !(walked.insertAll (front ++ [w])).contains x).length <
          count := hcount ▸ NodeSet.length_filter_insertAll_lt hleg.lt_size
            (hmembers w hleg.mem_inside) hnew List.mem_concat_self
      -- the nodes on the way have been visited before, so the end is the only new one
      have hvisited' : ∀ x, (walked.insertAll (front ++ [w])).contains x =
          (w :: visited).contains x := by
        intro x
        rw [Bool.eq_iff_iff, NodeSet.contains_insertAll, hvisited, List.contains_iff_mem,
          List.contains_iff_mem, List.mem_append, List.mem_singleton, List.mem_cons]
        refine ⟨?_, ?_⟩
        · rintro (hold | ⟨-, hfront | rfl⟩)
          · exact Or.inr hold
          · exact Or.inr (hleg.front_subset hfront)
          · exact Or.inl rfl
        · rintro (rfl | hold)
          · exact Or.inr ⟨hleg.lt_size, Or.inr rfl⟩
          · exact Or.inl hold
      obtain ⟨legs, last, hlegs, hrest⟩ := ih _ hless hleg.lt_size hvisited' rfl
      refine ⟨(front ++ [w]) :: legs, last, ?_, Strides.leg hleg hrest⟩
      intro k hk
      obtain ⟨k, rfl⟩ : ∃ j, k = j + 1 := ⟨k - 1, by omega⟩
      exact legs_of_some hfound (hlegs k (by omega))
    · refine ⟨[], v, fun k _ => legs_of_none hfound k, Strides.stop ?_⟩
      intro w hpath
      simpa [hvisited w] using hnone w hpath

/-! ### What the legs come to -/

namespace Strides

theorem isChain (hs : g.Strides inside visited v legs last) :
    (v :: legs.flatten).IsChain (g.ArcInside inside) := by
  induction hs with
  | stop _ => exact List.isChain_singleton _
  | leg hleg _ ih =>
    exact isChain_append_of_getLast? hleg.isChain getLast?_cons_concat ih

theorem getLast?_eq (hs : g.Strides inside visited v legs last) :
    (v :: legs.flatten).getLast? = some last := by
  induction hs with
  | stop _ => rfl
  | leg _ _ ih => exact getLast?_append_of_getLast? getLast?_cons_concat ih

/-- In the end all nodes that a path in the set leads to have been visited. -/
theorem mem_of_leads (hs : g.Strides inside visited v legs last)
    (hpath : TransGen (g.ArcInside inside) last w) : w ∈ visited ∨ w ∈ legs.flatten := by
  induction hs with
  | stop hnone => exact Or.inl (hnone w hpath)
  | @leg visited front v x last legs hleg _ ih =>
    rw [List.flatten_cons, List.mem_append]
    rcases ih hpath with hvisited | hrest
    · rcases List.mem_cons.mp hvisited with rfl | hvisited
      · exact Or.inr (Or.inl List.mem_concat_self)
      · exact Or.inl hvisited
    · exact Or.inr (Or.inr hrest)

/-- Unless it makes no leg, the walk ends at a node that it had not visited at the beginning. -/
theorem eq_nil_or_notMem (hs : g.Strides inside visited v legs last) :
    legs = [] ∨ last ∉ visited := by
  induction hs with
  | stop _ => exact Or.inl rfl
  | leg hleg hrest ih =>
    right
    rcases ih with rfl | hnew
    · cases hrest
      exact hleg.notMem_visited
    · exact fun hmem => hnew (List.mem_cons_of_mem _ hmem)

/-- Every leg visits a node of the set for the first time. -/
theorem exists_visited (hs : g.Strides inside visited v legs last) (hnodup : visited.Nodup) :
    ∃ reached : List Nat, reached.Nodup ∧ reached.length = legs.length + visited.length ∧
      ∀ w ∈ reached, w ∈ visited ∨ inside w := by
  induction hs with
  | stop _ => exact ⟨_, hnodup, (Nat.zero_add _).symm, fun w hw => Or.inl hw⟩
  | leg hleg _ ih =>
    obtain ⟨reached, hreached, hlength, hmem⟩ :=
      ih (List.nodup_cons.mpr ⟨hleg.notMem_visited, hnodup⟩)
    refine ⟨reached, hreached, by simp only [hlength, List.length_cons]; omega, ?_⟩
    intro w hw
    rcases hmem w hw with hvisited | hinside
    · rcases List.mem_cons.mp hvisited with rfl | hvisited
      · exact Or.inr hleg.mem_inside
      · exact Or.inl hvisited
    · exact Or.inr hinside

/-- The number of nodes on the legs is bounded by the sum of the numbers of nodes that are visited
before each of them. -/
theorem length_flatten_le (hs : g.Strides inside visited v legs last) (hv : v ∈ visited) :
    2 * legs.flatten.length + legs.length ≤ legs.length * (2 * visited.length + legs.length) := by
  induction hs with
  | stop _ => simp
  | @leg visited front v w last legs hleg _ ih =>
    -- the start of a leg and the nodes on its way are different visited nodes
    have hfront : (v :: front).length ≤ visited.length := by
      refine (hleg.nodup.subperm ?_).length_le
      intro x hx
      rcases List.mem_cons.mp hx with rfl | hx
      · exact hv
      · exact hleg.front_subset hx
    have hrest := ih List.mem_cons_self
    simp only [List.flatten_cons, List.length_append, List.length_cons, List.length_nil]
      at hfront hrest ⊢
    linarith

end Strides

end LoadOrder.Digraph
