import LoadOrder.Proofs.Digraph.Cycle
import LoadOrder.Proofs.Digraph.ParentSearch
import Mathlib.Data.List.Lex
import Mathlib.Data.Prod.Lex

/-!
# Which path a search finds

Of all walks inside the set that end at a target, a search finds one with the fewest arcs, and among
those of this length the lexicographically least (`IsLeastLeg`). `shortestPath_exact` says so for
every start, be it a target itself or not, together with when a search finds nothing and when it is
refused.

Walks are compared by their `weight`, the length first. Each entry of the queue has the least walk
to its node, and the entries stand in the order of these walks (`Advances`). This carries on because
of how the queue is filled: a node that is seen for the first time is a successor of the first
entry, and any other walk to it leaves the nodes that are done by way of an entry
(`Advances.weight_le_or_done`), so it is not before the one through the first.
-/

namespace LoadOrder.Digraph

variable {g : Digraph} {inside target : Nat → Bool} {start u v w : Nat}
  {path other walk trail succs xs ys : List Nat}

/-! ### Comparing walks -/

/-- What walks are compared by: how long they are, and then their nodes from the first on. -/
def weight (walk : List Nat) : ℕ ×ₗ List ℕ :=
  toLex (walk.length, walk)

theorem weight_lt_iff :
    weight xs < weight ys ↔ xs.length < ys.length ∨ xs.length = ys.length ∧ xs < ys :=
  Prod.Lex.toLex_lt_toLex

theorem weight_le_iff :
    weight xs ≤ weight ys ↔ xs.length < ys.length ∨ xs.length = ys.length ∧ xs ≤ ys :=
  Prod.Lex.toLex_le_toLex

theorem weight_injective : Function.Injective weight :=
  fun _ _ heq => (Prod.mk.inj (toLex.injective heq)).2

theorem weight_lt_of_length_lt (hlength : xs.length < ys.length) : weight xs < weight ys :=
  weight_lt_iff.mpr (Or.inl hlength)

theorem weight_lt_concat (xs : List Nat) (w : Nat) : weight xs < weight (xs ++ [w]) :=
  weight_lt_of_length_lt (by simp)

/-- What walks of one length go on with does not matter if they differ before. -/
theorem append_lt_append (hlength : xs.length = ys.length) (hlt : xs < ys) (us vs : List Nat) :
    xs ++ us < ys ++ vs := by
  induction xs generalizing ys with
  | nil =>
    rw [List.eq_nil_of_length_eq_zero hlength.symm] at hlt
    exact absurd hlt (lt_irrefl _)
  | cons x xs ih =>
    cases ys with
    | nil => cases hlength
    | cons y ys =>
      rw [List.cons_append, List.cons_append, List.cons_lt_cons_iff] at *
      exact hlt.imp_right fun h => ⟨h.1, ih (Nat.succ.inj hlength) h.2⟩

theorem weight_concat_lt_concat (hlt : weight xs < weight ys) (v w : Nat) :
    weight (xs ++ [v]) < weight (ys ++ [w]) := by
  rw [weight_lt_iff, List.length_append, List.length_append] at *
  refine hlt.imp (Nat.add_lt_add_right · 1) fun ⟨hlength, hless⟩ => ⟨?_, ?_⟩
  · rw [hlength]
    rfl
  · exact append_lt_append hlength hless [v] [w]

theorem weight_concat_le_concat (hle : weight xs ≤ weight ys) (w : Nat) :
    weight (xs ++ [w]) ≤ weight (ys ++ [w]) := by
  rcases hle.lt_or_eq with hlt | heq
  · exact (weight_concat_lt_concat hlt w w).le
  · rw [weight_injective heq]

/-- Of the ways to go on from where a walk ends, those to lower nodes are the lesser. -/
theorem weight_concat_strictMono (xs : List Nat) : StrictMono fun w => weight (xs ++ [w]) := by
  intro v w hlt
  refine weight_lt_iff.mpr (Or.inr ⟨by simp, List.append_left_lt ?_⟩)
  exact List.cons_lt_cons_iff.mpr (Or.inl hlt)

/-! ### The least walk -/

/-- The nodes after `start` on a walk inside the set to `v`, which has no arc if it goes
nowhere. -/
structure IsWalkTo (g : Digraph) (inside : Nat → Bool) (start v : Nat) (walk : List Nat) :
    Prop where
  /-- Each node has an arc to the next. -/
  isChain : (start :: walk).IsChain (g.ArcInside inside)
  /-- The walk ends at `v`. -/
  getLast?_eq : (start :: walk).getLast? = some v

/-- A walk inside the set to a target, which of all these has the fewest arcs, and is the
lexicographically least of its length. -/
structure IsLeastLeg (g : Digraph) (inside target : Nat → Bool) (start : Nat) (path : List Nat) :
    Prop extends g.IsLeg inside target start path where
  /-- No walk to a target has fewer arcs. -/
  length_le : ∀ other, g.IsLeg inside target start other → path.length ≤ other.length
  /-- Of those with as many, none has the lower node where it differs for the first time. -/
  le_of_length_eq : ∀ other, g.IsLeg inside target start other → path.length = other.length →
    path ≤ other

theorem isLeastLeg_iff : g.IsLeastLeg inside target start path ↔
    g.IsLeg inside target start path ∧
      ∀ other, g.IsLeg inside target start other → weight path ≤ weight other := by
  simp only [weight_le_iff]
  refine ⟨?_, ?_⟩
  · rintro ⟨hleg, hlength, hle⟩
    refine ⟨hleg, fun other hother => ?_⟩
    exact (hlength other hother).lt_or_eq.imp_right fun heq => ⟨heq, hle other hother heq⟩
  · rintro ⟨hleg, hle⟩
    refine ⟨hleg, fun other hother => ?_, fun other hother heq => ?_⟩
    · exact (hle other hother).elim Nat.le_of_lt fun h => h.1.le
    · exact (hle other hother).elim (fun hlt => absurd heq hlt.ne) And.right

/-- There is no more than one least walk to a target. -/
theorem IsLeastLeg.unique (hpath : g.IsLeastLeg inside target start path)
    (hother : g.IsLeastLeg inside target start other) : path = other := by
  have hle := (isLeastLeg_iff.mp hpath).2 other hother.toIsLeg
  have hge := (isLeastLeg_iff.mp hother).2 path hpath.toIsLeg
  exact weight_injective (le_antisymm hle hge)

theorem IsWalkTo.eq_of_concat (hwalk : g.IsWalkTo inside start v (walk ++ [w])) : w = v := by
  have hlast := hwalk.getLast?_eq
  rwa [← List.cons_append, List.getLast?_concat, Option.some.injEq] at hlast

/-- A walk that goes on from a node is a walk to the source of its last arc. -/
theorem exists_isWalkTo (hchain : (start :: (walk ++ [w])).IsChain (g.ArcInside inside)) :
    ∃ u, g.IsWalkTo inside start u walk ∧ g.ArcInside inside u w := by
  rw [← List.cons_append, List.isChain_append] at hchain
  obtain ⟨hwalk, -, hlast⟩ := hchain
  have hu := List.getLast?_eq_some_getLast (List.cons_ne_nil start walk)
  exact ⟨_, ⟨hwalk, hu⟩, hlast _ hu w rfl⟩

/-! ### A search carries on in order -/

/-- The successors inside the set stand in ascending order. -/
theorem pairwise_succsInside (hsuccs : g.succsInside inside v = .ok succs) :
    succs.Pairwise (· < ·) := by
  rw [succsInside_eq_ok inside (lt_size_of_succsInside hsuccs)] at hsuccs
  rw [← Except.ok.inj hsuccs]
  exact pairwise_lt_mergeSort ((g.nodup_succs v).filter inside)

/-- What is found in an ascending list is the lowest of its kind. -/
theorem le_of_find?_eq_some (hsorted : xs.Pairwise (· < ·)) (hfind : xs.find? target = some w)
    (hx : u ∈ xs) (htarget : target u) : w ≤ u := by
  obtain ⟨-, before, later, rfl, hbefore⟩ := List.find?_eq_some_iff_append.mp hfind
  rcases List.mem_append.mp hx with hx | hx
  · exact absurd htarget (by simpa using hbefore u hx)
  · rcases List.mem_cons.mp hx with rfl | hx
    · exact le_rfl
    · exact ((List.pairwise_cons.mp (List.pairwise_append.mp hsorted).2.1).1 u hx).le

/-- What holds of the queue as long as a search has found no target: its entries have the least
walks to their nodes, and stand in their order. -/
structure Advances (g : Digraph) (inside target : Nat → Bool) (start : Nat) (seen : NodeSet g.size)
    (queue : List (Nat × List Nat)) : Prop extends g.Searches inside target start seen queue where
  /-- No walk to the node of an entry is before the one that it comes with. -/
  weight_le : ∀ entry ∈ queue, ∀ walk, g.IsWalkTo inside start entry.1 walk →
    weight entry.2.reverse ≤ weight walk
  /-- The walks of the entries ascend. -/
  ascending : queue.Pairwise fun entry later => weight entry.2.reverse < weight later.2.reverse
  /-- They are all before whatever one of them goes on with. -/
  lt_concat : ∀ entry ∈ queue, ∀ other ∈ queue, ∀ w,
    weight entry.2.reverse < weight (other.2.reverse ++ [w])

theorem advances_start (inside target : Nat → Bool) (hstart : start < g.size) :
    g.Advances inside target start ((NodeSet.empty g.size).insert start) [(start, [])] where
  toSearches := searches_start inside target hstart
  weight_le := by
    intro entry hentry walk _
    obtain rfl := List.mem_singleton.mp hentry
    exact weight_le_iff.mpr (by cases walk <;> simp)
  ascending := List.pairwise_singleton _ _
  lt_concat := by
    intro entry hentry other hother w
    obtain rfl := List.mem_singleton.mp hentry
    obtain rfl := List.mem_singleton.mp hother
    exact weight_lt_concat _ w

namespace Advances

variable {seen : NodeSet g.size} {queue : List (Nat × List Nat)}

/-- A walk is not before that of some entry, unless its end is done. -/
theorem exists_weight_le_or_done (hs : g.Advances inside target start seen queue)
    (hwalk : g.IsWalkTo inside start u walk) :
    (∃ entry ∈ queue, weight entry.2.reverse ≤ weight walk) ∨
      ∀ w, g.ArcInside inside u w → seen.contains w ∧ ¬ target w := by
  -- a seen node that is not done waits, with the least walk to it
  have hseen : ∀ {u walk}, g.IsWalkTo inside start u walk → seen.contains u →
      (∃ entry ∈ queue, weight entry.2.reverse ≤ weight walk) ∨
        ∀ w, g.ArcInside inside u w → seen.contains w ∧ ¬ target w := by
    intro u walk hwalk hu
    refine (hs.waits_or_done u hu).imp_left ?_
    rintro ⟨trail, hwaits⟩
    exact ⟨_, hwaits, hs.weight_le _ hwaits walk hwalk⟩
  induction walk using List.reverseRecOn generalizing u with
  | nil =>
    obtain rfl : start = u := Option.some.inj hwalk.getLast?_eq
    exact hseen hwalk hs.contains_start
  | append_singleton walk x ih =>
    obtain ⟨v, hv, harc⟩ := exists_isWalkTo hwalk.isChain
    obtain rfl : x = u := hwalk.eq_of_concat
    rcases ih hv with ⟨entry, hentry, hle⟩ | hdone
    · exact Or.inl ⟨entry, hentry, hle.trans (weight_lt_concat walk x).le⟩
    · exact hseen hwalk (hdone x harc).1

/-- A walk is not before that of the first entry, unless its end is done. -/
theorem weight_le_or_done (hs : g.Advances inside target start seen ((v, trail) :: queue))
    (hwalk : g.IsWalkTo inside start u walk) :
    weight trail.reverse ≤ weight walk ∨
      ∀ w, g.ArcInside inside u w → seen.contains w ∧ ¬ target w := by
  refine (hs.exists_weight_le_or_done hwalk).imp_left ?_
  rintro ⟨entry, hentry, hle⟩
  rcases List.mem_cons.mp hentry with rfl | hlater
  · exact hle
  · exact ((List.pairwise_cons.mp hs.ascending).1 entry hlater).le.trans hle

/-- The first entry leaves the queue, its successors being no targets, and those that are seen for
the first time join it in ascending order. -/
theorem next (hs : g.Advances inside target start seen ((v, trail) :: queue))
    (hsuccs : g.succsInside inside v = .ok succs)
    (hnone : ∀ w ∈ succs, ¬ target w) :
    g.Advances inside target start (seen.gather succs).2
      (queue ++ (seen.gather succs).1.map fun w => (w, w :: trail)) where
  toSearches := hs.toSearches.next (mem_succsInside hsuccs) hnone
  weight_le := by
    intro entry hentry walk hwalk
    rcases List.mem_append.mp hentry with hold | hnew
    · exact hs.weight_le entry (List.mem_cons_of_mem _ hold) walk hwalk
    obtain ⟨w, hw, rfl⟩ := List.mem_map.mp hnew
    have hunseen : ¬ seen.contains w := by
      have hfree := NodeSet.isFree_of_mem_gather hw
      simp only [NodeSet.isFree_eq, Bool.and_eq_true, Bool.not_eq_true'] at hfree
      simp [hfree.2]
    rw [List.reverse_cons]
    cases walk using List.reverseRecOn with
    | nil =>
      -- the start has been seen
      obtain rfl : start = w := Option.some.inj hwalk.getLast?_eq
      exact absurd hs.contains_start hunseen
    | append_singleton walk x =>
      obtain ⟨u, hu, harc⟩ := exists_isWalkTo hwalk.isChain
      obtain rfl : x = w := hwalk.eq_of_concat
      -- the node before the last is not done, or the last would have been seen
      have hle := (hs.weight_le_or_done hu).resolve_right fun hdone => hunseen (hdone x harc).1
      exact weight_concat_le_concat hle x
  ascending := by
    rw [List.pairwise_append, List.pairwise_map]
    refine ⟨(List.pairwise_cons.mp hs.ascending).2, ?_, ?_⟩
    · refine ((pairwise_succsInside hsuccs).sublist (NodeSet.gather_sublist seen succs)).imp ?_
      intro w x hlt
      rw [List.reverse_cons, List.reverse_cons]
      exact weight_concat_strictMono _ hlt
    · intro entry hold later hnew
      obtain ⟨w, -, rfl⟩ := List.mem_map.mp hnew
      rw [List.reverse_cons]
      exact hs.lt_concat entry (List.mem_cons_of_mem _ hold) _ List.mem_cons_self w
  lt_concat := by
    intro entry hentry other hother x
    rcases List.mem_append.mp hentry with hold | hnew
    · rcases List.mem_append.mp hother with hother | hother
      · exact hs.lt_concat entry (List.mem_cons_of_mem _ hold) other
          (List.mem_cons_of_mem _ hother) x
      · obtain ⟨w, -, rfl⟩ := List.mem_map.mp hother
        rw [List.reverse_cons]
        have hlt := hs.lt_concat entry (List.mem_cons_of_mem _ hold) _ List.mem_cons_self w
        exact hlt.trans (weight_lt_concat _ x)
    · obtain ⟨w, -, rfl⟩ := List.mem_map.mp hnew
      rw [List.reverse_cons]
      rcases List.mem_append.mp hother with hother | hother
      · -- the first entry is before the others
        exact weight_concat_lt_concat ((List.pairwise_cons.mp hs.ascending).1 other hother) w x
      · obtain ⟨y, -, rfl⟩ := List.mem_map.mp hother
        exact weight_lt_of_length_lt (by simp)

/-- The lowest target among the successors of the first entry ends a walk that is before all others
to a target. -/
theorem weight_concat_le (hs : g.Advances inside target start seen ((v, trail) :: queue))
    (hsuccs : g.succsInside inside v = .ok succs)
    (hfind : succs.find? target = some w) (hother : g.IsLeg inside target start other) :
    weight (trail.reverse ++ [w]) ≤ weight other := by
  obtain ⟨x, hlast, htarget⟩ := hother.target_last
  obtain ⟨walk, rfl⟩ := List.getLast?_eq_some_iff.mp hlast
  obtain ⟨u, hu, harc⟩ := exists_isWalkTo hother.isChain
  have hle := (hs.weight_le_or_done hu).resolve_right fun hdone => (hdone x harc).2 htarget
  rcases hle.lt_or_eq with hlt | heq
  · exact (weight_concat_lt_concat hlt w x).le
  · -- the other walk differs in the last node at most, and there `w` is the lowest choice
    obtain rfl : trail.reverse = walk := weight_injective heq
    have huv : v = u := Option.some.inj
      ((hs.isChain (v, trail) List.mem_cons_self).2.symm.trans hu.getLast?_eq)
    have hx : x ∈ succs := (mem_succsInside hsuccs x).mpr (huv ▸ harc)
    have hle : w ≤ x := le_of_find?_eq_some (pairwise_succsInside hsuccs) hfind hx htarget
    exact (weight_concat_strictMono _).monotone hle

end Advances

/-- What a search finds, wherever it stands, is before all other walks to a target. -/
theorem weight_le_of_pathFrom {seen : NodeSet g.size} {queue : List (Nat × List Nat)}
    (hs : g.Advances inside target start seen queue)
    (hfound : pathFrom (g.succsInside inside) target seen queue = .ok (some path))
    (hother : g.IsLeg inside target start other) : weight path ≤ weight other := by
  fun_induction pathFrom (g.succsInside inside) target seen queue with
  | case1 seen => cases hfound
  | case2 seen v trail queue fault hfault => cases hfound
  | case3 seen v trail queue succs hnext w hfind =>
    obtain rfl : (w :: trail).reverse = path := Option.some.inj (Except.ok.inj hfound)
    rw [List.reverse_cons]
    exact hs.weight_concat_le hnext hfind hother
  | case4 seen v trail queue succs hnext hfind found ih =>
    exact ih (hs.next hnext fun w hw => List.find?_eq_none.mp hfind w hw) hfound

/-! ### What a search answers -/

/-- A search from a node finds the least walk to a target, or there is none. -/
theorem exists_leastLeg_or_none (inside target : Nat → Bool) (hstart : start < g.size) :
    (∃ path, g.shortestPath inside target start = .ok (some path) ∧
        g.IsLeastLeg inside target start path) ∨
      g.shortestPath inside target start = .ok none ∧
        ∀ path, ¬ g.IsLeg inside target start path := by
  rcases shortestPath_spec inside target hstart with ⟨path, hfound, hleg⟩ | ⟨hfound, hnone⟩
  · refine Or.inl ⟨path, hfound, isLeastLeg_iff.mpr ⟨hleg, fun other hother => ?_⟩⟩
    exact weight_le_of_pathFrom (advances_start inside target hstart) hfound hother
  · refine Or.inr ⟨hfound, fun path hleg => ?_⟩
    obtain ⟨w, hlast, htarget⟩ := hleg.target_last
    obtain ⟨walk, rfl⟩ := List.getLast?_eq_some_iff.mp hlast
    exact hnone w (leads_of_isChain hleg.isChain) htarget

/-- Whatever the set and the targets, the search that walks back from parent to parent ends, and
only with the answer of the one that keeps the ways. A search is refused exactly if its start is no
node. From a node it finds nothing exactly if no walk of at least one arc inside the set ends at a
target; and what it finds is the one such walk that has the fewest arcs and is lexicographically
least among those of its length. -/
theorem shortestPath_exact (g : Digraph) (inside target : Nat → Bool) (start : Nat) :
    (∀ answer, ParentSearch.Ends (g.succsInside inside) target (ParentSearch.start start) answer ↔
      answer = g.shortestPath inside target start) ∧
    (g.shortestPath inside target start = .error .notANode ↔ g.size ≤ start) ∧
    (g.shortestPath inside target start = .ok none ↔
      start < g.size ∧ ∀ path, ¬ g.IsLeg inside target start path) ∧
    ∀ path, g.shortestPath inside target start = .ok (some path) ↔
      start < g.size ∧ g.IsLeastLeg inside target start path := by
  refine ⟨ends_iff_eq_shortestPath g inside target start, ?_⟩
  rcases Nat.lt_or_ge start g.size with hstart | hstart
  · rcases exists_leastLeg_or_none inside target hstart with
      ⟨found, hfound, hleast⟩ | ⟨hfound, hnone⟩
    · rw [hfound]
      refine ⟨iff_of_false nofun (Nat.not_le.mpr hstart), iff_of_false nofun ?_, fun path => ?_⟩
      · exact fun hnone => hnone.2 found hleast.toIsLeg
      · rw [Except.ok.injEq, Option.some.injEq, and_iff_right hstart]
        exact ⟨fun heq => heq ▸ hleast, fun hpath => hleast.unique hpath⟩
    · rw [hfound]
      refine ⟨iff_of_false nofun (Nat.not_le.mpr hstart), iff_of_true rfl ⟨hstart, hnone⟩, ?_⟩
      exact fun path => iff_of_false nofun fun hpath => hnone path hpath.2.toIsLeg
  · rw [shortestPath_of_size_le hstart]
    have hout : ¬ start < g.size := Nat.not_lt.mpr hstart
    exact ⟨iff_of_true rfl hstart, iff_of_false nofun fun h => hout h.1,
      fun path => iff_of_false nofun fun h => hout h.1⟩

/-- Two ways of the same length lead back to the start, and the way by the lower node is taken even
though its arc was added later. -/
example :
    let g := empty.addNode.addNode.addNode.addNode
    let loops := ((((g.insertArc 0 2).insertArc 0 1).insertArc 2 3).insertArc 1 3).insertArc 3 0
    loops.shortestPath (· != 2) (· == 0) 0 = .ok (some [1, 3, 0]) ∧
      loops.shortestPath (fun _ => true) (· == 0) 0 = .ok (some [1, 3, 0]) ∧
      loops.shortestPath (· != 3) (· == 0) 0 = .ok none := by
  cbv

end LoadOrder.Digraph
