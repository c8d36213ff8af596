import LoadOrder.Digraph.ShortestPath
import LoadOrder.Proofs.Digraph.NodeSet
import LoadOrder.Proofs.Digraph.Reachability
import Mathlib.Data.List.Chain

/-!
# What a search for a path finds

A search from a node never leaves the graph, so it is not refused. If it finds a path, this is a
walk of at least one arc inside the given set that ends at a target (`IsLeg`); if it finds none,
there is no such walk (`shortestPath_spec`).

The search goes on as long as `Searches` holds: each entry of the queue carries a walk to its node,
and a node that has been seen waits in the queue unless all its successors have been seen and are
no targets. With an empty queue the seen nodes are closed under successors, and hold no node that
leads to a target.

A path that is found goes straight to its end (`IsDirectLeg`): on the way it meets no node twice,
does not come back to the start and passes no target. For a node is put into the queue when it is
seen for the first time, and not if it is a target (`exists_directLeg_or_none`).
-/

namespace LoadOrder.Digraph

open Relation

variable {g : Digraph} {inside target : Nat → Bool} {start u v w : Nat} {path : List Nat}

/-- There is an arc `u → v` whose target is in the set. -/
def ArcInside (g : Digraph) (inside : Nat → Bool) (u v : Nat) : Prop :=
  g.Arc u v ∧ inside v

/-- The nodes after `start` on a walk of at least one arc inside the set that ends at a target. -/
structure IsLeg (g : Digraph) (inside target : Nat → Bool) (start : Nat) (path : List Nat) :
    Prop where
  /-- Each node has an arc to the next. -/
  isChain : (start :: path).IsChain (g.ArcInside inside)
  /-- The last node is a target. -/
  target_last : ∃ w, path.getLast? = some w ∧ target w

/-- What holds of the nodes seen and the entries waiting as long as a search from `start` has
found no target. -/
structure Searches (g : Digraph) (inside target : Nat → Bool) (start : Nat)
    (seen : NodeSet g.size) (queue : List (Nat × List Nat)) : Prop where
  /-- The entries are nodes. -/
  lt_size : ∀ entry ∈ queue, entry.1 < g.size
  /-- Each entry comes with a walk to it from the start. -/
  isChain : ∀ entry ∈ queue, (start :: entry.2.reverse).IsChain (g.ArcInside inside) ∧
    (start :: entry.2.reverse).getLast? = some entry.1
  /-- The start has been seen. -/
  contains_start : seen.contains start
  /-- A seen node waits, or its successors have been seen and are no targets. -/
  waits_or_done : ∀ v, seen.contains v → (∃ trail, (v, trail) ∈ queue) ∨
    ∀ w, g.ArcInside inside v w → seen.contains w ∧ ¬ target w

theorem succsInside_eq_ok (inside : Nat → Bool) (hv : v < g.size) :
    g.succsInside inside v = .ok (((g.succs v).filter inside).mergeSort fun a b => a ≤ b) := by
  rw [succsInside, succsOfNode, if_pos hv]
  rfl

theorem succsInside_eq_error (inside : Nat → Bool) (hv : g.size ≤ v) :
    g.succsInside inside v = .error .notANode := by
  rw [succsInside, succsOfNode, if_neg (Nat.not_lt.mpr hv)]
  rfl

/-- Only a node has successors to answer with. -/
theorem lt_size_of_succsInside {succs : List Nat} (hsuccs : g.succsInside inside v = .ok succs) :
    v < g.size := by
  by_contra hv
  rw [succsInside_eq_error inside (Nat.not_lt.mp hv)] at hsuccs
  cases hsuccs

theorem mem_succsInside {succs : List Nat} (hsuccs : g.succsInside inside v = .ok succs) (w : Nat) :
    w ∈ succs ↔ g.ArcInside inside v w := by
  rw [succsInside_eq_ok inside (lt_size_of_succsInside hsuccs)] at hsuccs
  rw [← Except.ok.inj hsuccs, List.mem_mergeSort, List.mem_filter]
  rfl

/-- A walk of at least one arc leads from its first node to its last. -/
theorem leads_of_isChain {R : Nat → Nat → Prop} {front : List Nat}
    (hchain : (v :: (front ++ [w])).IsChain R) : TransGen R v w := by
  induction front generalizing v with
  | nil => exact TransGen.single (List.isChain_pair.mp hchain)
  | cons x front ih =>
    rw [List.cons_append, List.isChain_cons_cons] at hchain
    exact TransGen.head hchain.1 (ih hchain.2)

theorem searches_start (inside target : Nat → Bool) (hstart : start < g.size) :
    Searches g inside target start ((NodeSet.empty g.size).insert start) [(start, [])] := by
  refine ⟨by simpa using hstart, by simp, by simp [hstart], ?_⟩
  -- only the start has been seen, and it waits
  intro v hv
  refine Or.inl ⟨[], ?_⟩
  have hvstart : v = start := by simpa [hstart] using hv
  rw [hvstart]
  exact List.mem_singleton_self _

namespace Searches

variable {seen : NodeSet g.size} {trail succs : List Nat} {queue : List (Nat × List Nat)}

/-- A walk to the first entry goes on to each of its successors. -/
theorem isChain_cons (hs : Searches g inside target start seen ((v, trail) :: queue))
    (hw : g.ArcInside inside v w) :
    (start :: (w :: trail).reverse).IsChain (g.ArcInside inside) ∧
      (start :: (w :: trail).reverse).getLast? = some w := by
  obtain ⟨hchain, hlast⟩ := hs.isChain (v, trail) List.mem_cons_self
  rw [List.reverse_cons, ← List.cons_append]
  refine ⟨List.isChain_append.mpr ⟨hchain, List.isChain_singleton w, ?_⟩, List.getLast?_concat⟩
  intro x hx y hy
  obtain rfl : v = x := Option.some.inj (hlast.symm.trans hx)
  obtain rfl : w = y := by simpa using hy
  exact hw

/-- The first entry leaves the queue, its successors being no targets. -/
theorem next (hs : Searches g inside target start seen ((v, trail) :: queue))
    (hsuccs : ∀ w, w ∈ succs ↔ g.ArcInside inside v w) (hnone : ∀ w ∈ succs, ¬ target w) :
    Searches g inside target start (seen.gather succs).2
      (queue ++ (seen.gather succs).1.map fun w => (w, w :: trail)) := by
  have hlt : ∀ w ∈ succs, w < g.size := fun w hw => target_lt ((hsuccs w).mp hw).1
  refine ⟨?_, ?_, (NodeSet.contains_gather succs).mpr (Or.inl hs.contains_start), ?_⟩
  · -- the new entries are targets of arcs
    intro entry hentry
    rcases List.mem_append.mp hentry with hold | hnew
    · exact hs.lt_size entry (List.mem_cons_of_mem _ hold)
    · obtain ⟨w, hw, rfl⟩ := List.mem_map.mp hnew
      exact hlt w (NodeSet.mem_gather hw)
  · -- the walks to them go by way of `v`
    intro entry hentry
    rcases List.mem_append.mp hentry with hold | hnew
    · exact hs.isChain entry (List.mem_cons_of_mem _ hold)
    · obtain ⟨w, hw, rfl⟩ := List.mem_map.mp hnew
      exact hs.isChain_cons ((hsuccs w).mp (NodeSet.mem_gather hw))
  · -- what has been seen just now waits
    intro x hx
    rcases NodeSet.contains_or_mem_gather hx with hseen | hnew
    · rcases hs.waits_or_done x hseen with ⟨trail', hwaits⟩ | hdone
      · rcases List.mem_cons.mp hwaits with heq | hwaits
        · -- `x` is the entry that leaves
          obtain ⟨rfl, rfl⟩ := Prod.mk.inj heq
          refine Or.inr ?_
          intro w hw
          have hmem : w ∈ succs := (hsuccs w).mpr hw
          exact ⟨(NodeSet.contains_gather succs).mpr (Or.inr ⟨hlt w hmem, hmem⟩), hnone w hmem⟩
        · exact Or.inl ⟨trail', List.mem_append_left _ hwaits⟩
      · exact Or.inr fun w hw =>
          ⟨(NodeSet.contains_gather succs).mpr (Or.inl (hdone w hw).1), (hdone w hw).2⟩
    · exact Or.inl ⟨x :: trail, List.mem_append_right _ (List.mem_map.mpr ⟨x, hnew, rfl⟩)⟩

/-- With nothing left in the queue no target can be reached. -/
theorem not_target (hs : Searches g inside target start seen [])
    (hpath : TransGen (g.ArcInside inside) start w) : ¬ target w := by
  have hdone : ∀ v, seen.contains v → ∀ w, g.ArcInside inside v w → seen.contains w ∧ ¬ target w :=
    fun v hv => (hs.waits_or_done v hv).resolve_left (by simp)
  have hseen : seen.contains w ∧ ¬ target w := by
    induction hpath with
    | single harc => exact hdone start hs.contains_start _ harc
    | tail _ harc ih => exact hdone _ ih.1 _ harc
  exact hseen.2

end Searches

/-- Wherever a search stands, it ends in a walk to a target or in the certainty that there is
none. -/
theorem pathFrom_spec {seen : NodeSet g.size} {queue : List (Nat × List Nat)}
    (hs : Searches g inside target start seen queue) :
    (∃ path, pathFrom (g.succsInside inside) target seen queue = .ok (some path) ∧
        g.IsLeg inside target start path) ∨
      pathFrom (g.succsInside inside) target seen queue = .ok none ∧
        ∀ w, TransGen (g.ArcInside inside) start w → ¬ target w := by
  fun_induction pathFrom (g.succsInside inside) target seen queue with
  | case1 seen => exact Or.inr ⟨rfl, fun w hpath => hs.not_target hpath⟩
  | case2 seen v trail queue fault hfault =>
    -- an entry is a node, so its successors are not refused
    rw [succsInside_eq_ok inside (hs.lt_size (v, trail) List.mem_cons_self)] at hfault
    cases hfault
  | case3 seen v trail queue succs hnext w hfind =>
    -- the target found ends the walk
    have harc := (mem_succsInside hnext w).mp (List.mem_of_find?_eq_some hfind)
    refine Or.inl ⟨_, rfl, (hs.isChain_cons harc).1, w, by simp, List.find?_some hfind⟩
  | case4 seen v trail queue succs hnext hfind found ih =>
    exact ih (hs.next (mem_succsInside hnext) fun w hw => List.find?_eq_none.mp hfind w hw)

/-- A search from a node finds a walk to a target, or there is none. -/
theorem shortestPath_spec (inside target : Nat → Bool) (hstart : start < g.size) :
    (∃ path, g.shortestPath inside target start = .ok (some path) ∧
        g.IsLeg inside target start path) ∨
      g.shortestPath inside target start = .ok none ∧
        ∀ w, TransGen (g.ArcInside inside) start w → ¬ target w :=
  pathFrom_spec (searches_start inside target hstart)

/-- A search that is asked to start at no node is refused. -/
theorem shortestPath_of_size_le (hstart : g.size ≤ start) :
    g.shortestPath inside target start = .error .notANode := by
  rw [shortestPath, pathFrom, succsInside_eq_error inside hstart]

/-! ### What a search finds goes straight to its end -/

/-- A walk of at least one arc inside the set leads from `start` by way of `front` to the target `w`
and meets no other target, no node twice and `start` not again before its end. -/
structure IsDirectLeg (g : Digraph) (inside target : Nat → Bool) (start : Nat) (front : List Nat)
    (w : Nat) : Prop where
  /-- Each node has an arc to the next. -/
  isChain : (start :: (front ++ [w])).IsChain (g.ArcInside inside)
  /-- The walk ends at a target. -/
  target_last : target w
  /-- There is no target on the way. -/
  not_target : ∀ x ∈ front, ¬ target x
  /-- No node is passed twice. -/
  nodup : (start :: front).Nodup

/-- The nodes of an entry's walk are distinct and not the start, they have been seen, and they are
no targets. -/
structure IsTrail {n : Nat} (target : Nat → Bool) (start : Nat) (seen : NodeSet n)
    (trail : List Nat) : Prop where
  /-- No node is there twice. -/
  nodup : (start :: trail).Nodup
  /-- All nodes have been seen. -/
  contains : ∀ x ∈ trail, seen.contains x
  /-- No node is a target. -/
  not_target : ∀ x ∈ trail, ¬ target x

namespace IsTrail

variable {n : Nat} {seen : NodeSet n} {trail succs : List Nat}

theorem gather (htrail : IsTrail target start seen trail) (vs : List Nat) :
    IsTrail target start (seen.gather vs).2 trail :=
  ⟨htrail.nodup, fun x hx => (NodeSet.contains_gather vs).mpr (Or.inl (htrail.contains x hx)),
    htrail.not_target⟩

/-- A walk goes on to a node that is seen for the first time. -/
theorem cons (htrail : IsTrail target start seen trail) (hstart : seen.contains start)
    (hw : w ∈ (seen.gather succs).1) (hnone : ¬ target w) :
    IsTrail target start (seen.gather succs).2 (w :: trail) := by
  obtain ⟨hlt, hnew⟩ : w < n ∧ ¬ seen.contains w := by
    simpa using NodeSet.isFree_of_mem_gather hw
  refine ⟨?_, ?_, ?_⟩
  · -- the start and the walk have been seen before
    have hne : start ≠ w := fun heq => hnew (heq ▸ hstart)
    have hnotMem : w ∉ trail := fun hmem => hnew (htrail.contains w hmem)
    obtain ⟨hstartMem, hnodup⟩ := List.nodup_cons.mp htrail.nodup
    refine List.nodup_cons.mpr ⟨?_, List.nodup_cons.mpr ⟨hnotMem, hnodup⟩⟩
    exact fun hmem => (List.mem_cons.mp hmem).elim hne hstartMem
  · intro x hx
    rcases List.mem_cons.mp hx with rfl | hx
    · exact (NodeSet.contains_gather succs).mpr (Or.inr ⟨hlt, NodeSet.mem_gather hw⟩)
    · exact (htrail.gather succs).contains x hx
  · intro x hx
    rcases List.mem_cons.mp hx with rfl | hx
    · exact hnone
    · exact htrail.not_target x hx

end IsTrail

/-- If all entries come with walks of this kind, the path that is found is such a walk up to its
end. -/
theorem exists_trail_of_pathFrom {n : Nat} {next : Nat → Except GraphFault (List Nat)}
    {seen : NodeSet n} {queue : List (Nat × List Nat)} (hstart : seen.contains start)
    (hqueue : ∀ entry ∈ queue, IsTrail target start seen entry.2)
    (hfound : pathFrom next target seen queue = .ok (some path)) :
    ∃ front w, path = front ++ [w] ∧ (start :: front).Nodup ∧ ∀ x ∈ front, ¬ target x := by
  fun_induction pathFrom next target seen queue with
  | case1 seen => cases hfound
  | case2 seen v trail queue fault hfault => cases hfound
  | case3 seen v trail queue succs hnext w hfind =>
    have htrail := hqueue (v, trail) List.mem_cons_self
    obtain rfl : (w :: trail).reverse = path := Option.some.inj (Except.ok.inj hfound)
    refine ⟨trail.reverse, w, List.reverse_cons, ?_, ?_⟩
    · exact ((List.reverse_perm trail).cons start).nodup_iff.mpr htrail.nodup
    · exact fun x hx => htrail.not_target x (List.mem_reverse.mp hx)
  | case4 seen v trail queue succs hnext hfind found ih =>
    refine ih ((NodeSet.contains_gather succs).mpr (Or.inl hstart)) ?_ hfound
    intro entry hentry
    rcases List.mem_append.mp hentry with hold | hnew
    · exact (hqueue entry (List.mem_cons_of_mem _ hold)).gather succs
    · obtain ⟨w, hw, rfl⟩ := List.mem_map.mp hnew
      have hnone : ¬ target w := List.find?_eq_none.mp hfind w (NodeSet.mem_gather hw)
      exact (hqueue (v, trail) List.mem_cons_self).cons hstart hw hnone

/-- A search from a node finds a way straight to a target, or there is none. -/
theorem exists_directLeg_or_none (inside target : Nat → Bool) (hstart : start < g.size) :
    (∃ front w, g.shortestPath inside target start = .ok (some (front ++ [w])) ∧
        g.IsDirectLeg inside target start front w) ∨
      g.shortestPath inside target start = .ok none ∧
        ∀ w, TransGen (g.ArcInside inside) start w → ¬ target w := by
  rcases shortestPath_spec inside target hstart with ⟨path, hfound, hleg⟩ | hnone
  · have hseen : ((NodeSet.empty g.size).insert start).contains start := by simp [hstart]
    have hqueue : ∀ entry ∈ [(start, ([] : List Nat))],
        IsTrail target start ((NodeSet.empty g.size).insert start) entry.2 := by
      intro entry hentry
      obtain rfl : entry = (start, []) := List.mem_singleton.mp hentry
      exact ⟨List.nodup_singleton start, by simp, by simp⟩
    obtain ⟨front, w, rfl, hnodup, hnot⟩ := exists_trail_of_pathFrom hseen hqueue hfound
    obtain ⟨x, hlast, hx⟩ := hleg.target_last
    obtain rfl : w = x := by simpa using hlast
    exact Or.inl ⟨front, w, hfound, hleg.isChain, hx, hnot, hnodup⟩
  · exact Or.inr hnone

end LoadOrder.Digraph
