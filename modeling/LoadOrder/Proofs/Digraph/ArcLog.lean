import LoadOrder.Digraph.Anchor
import LoadOrder.Proofs.Precedence

/-!
# The log of the arcs

A graph keeps its arcs twice, by source and by target, and counts them. `g.HasLog log` says that
all this is a view of one list, the arcs in the order in which they were added: the successors of a
node are the targets of its arcs in the log, its predecessors the sources of the arcs to it, no arc
is there twice, and there are as many as were counted.
Whatever makes a graph grow adds to its log at the end (`HasLog.insertArc`, `HasLog.anchorAll`).

All arcs, listed by their sources, are the log sorted by source, arcs of one source staying in their
order (`HasLog.arcs_eq`). A stable sort by a number is what comes of it if the things are picked out
of the list number by number (`flatMap_filter_range`).
-/

namespace LoadOrder

/-! ### Sorting by a number -/

section Sorting

variable {β : Type} {key : β → Nat} {xs : List β} {n : Nat}

/-- The thing `x` has a lower number than `y`, or the same and comes before it. -/
def RanksBelow (key : β → Nat) (xs : List β) (x y : β) : Prop :=
  key x < key y ∨ key x = key y ∧ Precedes xs x y

theorem RanksBelow.ne {x y : β} (hxs : xs.Nodup) (hxy : RanksBelow key xs x y) : x ≠ y := by
  rintro rfl
  rcases hxy with hlt | ⟨-, hbefore⟩
  · exact Nat.lt_irrefl _ hlt
  · exact hbefore.ne hxs rfl

theorem RanksBelow.asymm {x y : β} (hxs : xs.Nodup) (hxy : RanksBelow key xs x y) :
    ¬ RanksBelow key xs y x := by
  rintro (hlt | ⟨heq, hback⟩)
  · rcases hxy with hxy | ⟨hxy, -⟩ <;> omega
  · rcases hxy with hxy | ⟨-, hbefore⟩
    · omega
    · exact (hbefore.trans hxs hback).ne hxs rfl

theorem key_le_trans (key : β → Nat) (x y z : β) (hxy : decide (key x ≤ key y) = true)
    (hyz : decide (key y ≤ key z) = true) : decide (key x ≤ key z) = true :=
  decide_eq_true (Nat.le_trans (of_decide_eq_true hxy) (of_decide_eq_true hyz))

theorem key_le_total (key : β → Nat) (x y : β) :
    (decide (key x ≤ key y) || decide (key y ≤ key x)) = true := by
  simpa using Nat.le_total (key x) (key y)

/-- Sorting leaves things of one number in their order. -/
theorem filter_mergeSort {p : β → Bool}
    (hp : ∀ x ∈ xs, ∀ y ∈ xs, p x = true → p y = true → key x ≤ key y) :
    (xs.mergeSort fun x y => key x ≤ key y).filter p = xs.filter p := by
  have hpicked : (xs.filter p).Sublist (xs.mergeSort fun x y => key x ≤ key y) := by
    apply List.sublist_mergeSort (key_le_trans key) (key_le_total key) _ List.filter_sublist
    apply List.pairwise_of_forall_mem_list
    intro x hx y hy
    obtain ⟨hx, hpx⟩ := List.mem_filter.mp hx
    obtain ⟨hy, hpy⟩ := List.mem_filter.mp hy
    exact decide_eq_true (hp x hx y hy hpx hpy)
  have hkept : (xs.filter p).Sublist ((xs.mergeSort fun x y => key x ≤ key y).filter p) := by
    simpa using hpicked.filter p
  exact (hkept.eq_of_length ((List.mergeSort_perm xs _).filter p).length_eq.symm).symm

/-- In a sorted list everything comes behind what ranks below it. -/
theorem pairwise_mergeSort_ranksBelow (hxs : xs.Nodup) :
    (xs.mergeSort fun x y => key x ≤ key y).Pairwise (RanksBelow key xs) := by
  have htrans := key_le_trans key
  have htotal := key_le_total key
  have hnodup : (xs.mergeSort fun x y => key x ≤ key y).Nodup :=
    (List.mergeSort_perm xs _).nodup_iff.mpr hxs
  refine List.pairwise_iff_forall_sublist.mpr fun {x y} hxy => ?_
  have hle : key x ≤ key y := by
    simpa using List.pairwise_iff_forall_sublist.mp (List.pairwise_mergeSort htrans htotal xs) hxy
  rcases Nat.lt_or_eq_of_le hle with hlt | heq
  · exact Or.inl hlt
  · -- had `y` come before `x`, it would do so in the sorted list as well
    have hmem : ∀ z ∈ [x, y], z ∈ xs := fun z hz => List.mem_mergeSort.mp (hxy.subset hz)
    refine Or.inr ⟨heq, ?_⟩
    refine (precedes_or_precedes (hmem x (by simp)) (hmem y (by simp))
      (Precedes.ne hnodup hxy)).resolve_right fun hback => ?_
    have hyx := List.pair_sublist_mergeSort htrans htotal (by simpa using heq.ge) hback
    exact (Precedes.trans hnodup hxy hyx).ne hnodup rfl

/-- To sort things by numbers below `n` is to take those of the number `0`, then those of the number
`1`, and so on. -/
theorem flatMap_filter_range (hxs : xs.Nodup) (hlt : ∀ x ∈ xs, key x < n) :
    ((List.range n).flatMap fun i => xs.filter fun x => key x == i) =
      xs.mergeSort fun x y => key x ≤ key y := by
  have hpicked : ((List.range n).flatMap fun i => xs.filter fun x => key x == i).Pairwise
      (RanksBelow key xs) := by
    rw [List.pairwise_flatMap]
    refine ⟨fun i _ => ?_, List.pairwise_lt_range.imp ?_⟩
    · -- those of one number are in their order
      refine List.pairwise_iff_forall_sublist.mpr fun {x y} hxy => Or.inr ⟨?_, ?_⟩
      · have hkey : ∀ z ∈ [x, y], key z = i := fun z hz => by
          simpa using (List.mem_filter.mp (hxy.subset hz)).2
        rw [hkey x (by simp), hkey y (by simp)]
      · exact hxy.trans List.filter_sublist
    · intro i j hij x hx y hy
      have hxi : key x = i := by simpa using (List.mem_filter.mp hx).2
      have hyj : key y = j := by simpa using (List.mem_filter.mp hy).2
      exact Or.inl (hxi ▸ hyj ▸ hij)
  have hsorted : (xs.mergeSort fun x y => key x ≤ key y).Pairwise (RanksBelow key xs) :=
    pairwise_mergeSort_ranksBelow hxs
  have hperm : ((List.range n).flatMap fun i => xs.filter fun x => key x == i).Perm
      (xs.mergeSort fun x y => key x ≤ key y) := by
    refine (List.perm_ext_iff_of_nodup (hpicked.imp fun h => h.ne hxs)
      (hsorted.imp fun h => h.ne hxs)).mpr fun x => ?_
    rw [List.mem_flatMap, List.mem_mergeSort]
    refine ⟨?_, ?_⟩
    · rintro ⟨i, -, hx⟩
      exact (List.mem_filter.mp hx).1
    · intro hx
      exact ⟨key x, List.mem_range.mpr (hlt x hx), List.mem_filter.mpr ⟨hx, beq_self_eq_true _⟩⟩
  refine hperm.eq_of_pairwise ?_ hpicked hsorted
  intro x y _ _ hxy hyx
  exact absurd hyx (hxy.asymm hxs)

end Sorting

namespace Digraph

variable {g : Digraph} {log : List (Nat × Nat)} {u v : Nat}

/-- The arcs of `g` are those of `log`, which were added one after the other. -/
structure HasLog (g : Digraph) (log : List (Nat × Nat)) : Prop where
  /-- No arc was added twice. -/
  nodup : log.Nodup
  /-- The successors of a node are the targets of the arcs out of it. -/
  succs_eq : ∀ u, g.succs u = (log.filter fun e => e.1 == u).map Prod.snd
  /-- The predecessors of a node are the sources of the arcs into it. -/
  preds_eq : ∀ v, g.preds v = (log.filter fun e => e.2 == v).map Prod.fst
  /-- Each arc was counted. -/
  arcCount_eq : g.arcCount = log.length

theorem hasLog_empty : empty.HasLog [] :=
  ⟨List.nodup_nil, succs_empty, preds_empty, rfl⟩

namespace HasLog

theorem mem_iff (hlog : g.HasLog log) : (u, v) ∈ log ↔ v ∈ g.succs u := by
  rw [hlog.succs_eq, List.mem_map]
  refine ⟨?_, ?_⟩
  · intro hmem
    exact ⟨(u, v), List.mem_filter.mpr ⟨hmem, beq_self_eq_true u⟩, rfl⟩
  · rintro ⟨⟨x, y⟩, hout, rfl⟩
    obtain ⟨hmem, hx⟩ := List.mem_filter.mp hout
    obtain rfl : x = u := eq_of_beq hx
    exact hmem

theorem source_lt (hlog : g.HasLog log) {e : Nat × Nat} (he : e ∈ log) : e.1 < g.size :=
  Digraph.source_lt (hlog.mem_iff.mp he)

/-- A new node has no arcs. -/
theorem addNode (hlog : g.HasLog log) : g.addNode.HasLog log :=
  ⟨hlog.nodup, fun u => (succs_addNode g u).trans (hlog.succs_eq u),
    fun v => (preds_addNode g v).trans (hlog.preds_eq v), hlog.arcCount_eq⟩

/-- A new arc is the last in the log. -/
theorem insertArc (hlog : g.HasLog log) (hnew : g.admits u v) :
    (g.insertArc u v).HasLog (log ++ [(u, v)]) := by
  refine ⟨?_, ?_, ?_, ?_⟩
  · have hnotMem : (u, v) ∉ log := hlog.mem_iff.not.mpr (admits_iff.mp hnew).2.2
    rw [← List.concat_eq_append]
    exact hlog.nodup.concat hnotMem
  · intro x
    rw [succs_insertArc hnew, hlog.succs_eq, List.filter_append, List.map_append]
    by_cases hx : u = x <;> simp [hx]
  · intro y
    rw [preds_insertArc hnew, hlog.preds_eq, List.filter_append, List.map_append]
    by_cases hy : v = y <;> simp [hy]
  · rw [arcCount_insertArc hnew, hlog.arcCount_eq, List.length_append, List.length_singleton]

/-- Arcs that are new and different are the last in the log, in their order. -/
theorem insertArcs {arcs : List (Nat × Nat)} (hlog : g.HasLog log) (hnodup : (log ++ arcs).Nodup)
    (hlt : ∀ e ∈ arcs, e.1 < g.size ∧ e.2 < g.size) :
    (arcs.foldl (fun h e => h.insertArc e.1 e.2) g).HasLog (log ++ arcs) := by
  induction arcs generalizing g log with
  | nil => simpa using hlog
  | cons e arcs ih =>
    have hnew : e ∉ log := by
      rw [List.nodup_append] at hnodup
      exact fun hmem => hnodup.2.2 e hmem e List.mem_cons_self rfl
    obtain ⟨hsource, htarget⟩ := hlt e List.mem_cons_self
    have hadmits : g.admits e.1 e.2 :=
      admits_iff.mpr ⟨hsource, htarget, mt hlog.mem_iff.mpr hnew⟩
    rw [List.foldl_cons, List.append_cons]
    refine ih (hlog.insertArc hadmits) (by rwa [← List.append_cons]) fun e' he' => ?_
    rw [size_insertArc]
    exact hlt e' (List.mem_cons_of_mem e he')

/-- The arcs of a chain are added from the first to the last. -/
theorem chain (hlog : g.HasLog []) :
    g.chain.HasLog ((List.range (g.size - 1)).map fun u => (u, u + 1)) := by
  let arcs := (List.range (g.size - 1)).map fun u => (u, u + 1)
  have hfold : g.chain = arcs.foldl (fun h e => h.insertArc e.1 e.2) g := by
    unfold Digraph.chain
    rw [List.foldl_map]
  rw [hfold]
  refine hlog.insertArcs ?_ ?_
  · refine List.nodup_range.map fun u v heq => ?_
    exact (Prod.mk.inj heq).1
  · intro e he
    obtain ⟨u, hu, rfl⟩ := List.mem_map.mp he
    have := List.mem_range.mp hu
    omega

/-- The arcs to anchored nodes come last, in the order of the nodes. -/
theorem anchorAll (hlog : g.HasLog log) (base : Nat → Bool) (a : Nat) (vs : List Nat) :
    (anchorAll base a g vs).1.HasLog (log ++ (anchorAll base a g vs).2.map fun v => (a, v)) := by
  induction vs generalizing g log with
  | nil => simpa [Digraph.anchorAll] using hlog
  | cons v vs ih =>
    unfold Digraph.anchorAll
    split
    · next hv =>
      have hrest := ih (hlog.insertArc (Bool.and_eq_true_iff.mp hv).2)
      rwa [List.append_assoc, List.singleton_append] at hrest
    · exact ih hlog

/-- The arcs by their sources are the log sorted by source. -/
theorem arcs_eq (hlog : g.HasLog log) : g.arcs = log.mergeSort fun e f => e.1 ≤ f.1 := by
  -- the arcs out of `u` are told by their targets
  have hout : ∀ u, ((g.succs u).map fun v => (u, v)) = log.filter fun e => e.1 == u := by
    intro u
    rw [hlog.succs_eq, List.map_map]
    refine (List.map_congr_left fun e he => ?_).trans (List.map_id _)
    exact Prod.ext (eq_of_beq (List.mem_filter.mp he).2).symm rfl
  calc g.arcs
    _ = (List.range g.size).flatMap fun u => log.filter fun e => e.1 == u :=
      congrArg (List.flatMap · _) (funext hout)
    _ = log.mergeSort fun e f => e.1 ≤ f.1 :=
      flatMap_filter_range hlog.nodup fun e he => hlog.source_lt he

/-- The count is the number of arcs that there are. -/
theorem length_arcs (hlog : g.HasLog log) : g.arcs.length = g.arcCount := by
  rw [hlog.arcs_eq, List.length_mergeSort, hlog.arcCount_eq]

end HasLog

end Digraph

end LoadOrder
