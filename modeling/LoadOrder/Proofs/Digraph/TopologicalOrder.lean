import LoadOrder.Proofs.Digraph.Countdown
import LoadOrder.Proofs.Precedence
import Mathlib.Data.List.Lex

/-!
# The least topological order

A topological order of a graph holds each node once and the source of each arc before its target
(`IsTopological`). Seen from the left, it is a list in which every node can come at its turn
(`isTopological_iff`), and it is the lexicographically least one exactly if every node is the
lowest that can come at its turn (`IsGreedy`): where it differs from another order for the first
time, it has the lower node. In such an order a node comes before all higher ones unless it waits
for something they do not wait for (`IsGreedy.precedes_of_preds`), and a node without arcs before
exactly those lower ones that wait for a higher one (`IsGreedy.precedes_isolated_iff`).

`topoSort_exact` ties this to `topoSort`. It answers `none` exactly if there is a cycle, and
otherwise the least topological order, which is the greedy one. The theorem also says what the run
relies on along the way: nothing gets ready twice, and no count is lowered below zero.
-/

namespace LoadOrder.Digraph

variable {g : Digraph} {u v w : Nat} {order done : List Nat}

/-- Every node stands in the order once, and the source of each arc before its target. -/
structure IsTopological (g : Digraph) (order : List Nat) : Prop where
  /-- The order holds the nodes, each once. -/
  perm : order.Perm (List.range g.size)
  /-- The arcs point to the right. -/
  precedes : ∀ u v, g.Arc u v → Precedes order u v

/-- Every node of the order is the lowest that can come at its turn. -/
def IsGreedy (g : Digraph) (order : List Nat) : Prop :=
  ∀ done v rest, order = done ++ v :: rest → g.IsNext done v

theorem IsTopological.nodup (horder : g.IsTopological order) : order.Nodup :=
  horder.perm.nodup_iff.mpr List.nodup_range

theorem IsTopological.mem_iff (horder : g.IsTopological order) : v ∈ order ↔ v < g.size := by
  rw [horder.perm.mem_iff, List.mem_range]

/-- Along a path the nodes stand from left to right. -/
theorem IsTopological.precedes_of_leads (horder : g.IsTopological order) (huv : g.Leads u v) :
    Precedes order u v := by
  induction huv with
  | single harc => exact horder.precedes _ _ harc
  | tail _ harc ih => exact ih.trans horder.nodup (horder.precedes _ _ harc)

theorem IsTopological.acyclic (horder : g.IsTopological order) : g.Acyclic :=
  fun _ hv => (horder.precedes_of_leads hv).ne horder.nodup rfl

/-- The topological orders of a graph are told by its paths alone. -/
theorem isTopological_iff_leads :
    g.IsTopological order ↔
      order.Perm (List.range g.size) ∧ ∀ u v, g.Leads u v → Precedes order u v :=
  ⟨fun horder => ⟨horder.perm, fun _ _ huv => horder.precedes_of_leads huv⟩,
    fun horder => ⟨horder.1, fun u v harc => horder.2 u v harc.leads⟩⟩

/-- An order of the nodes is topological exactly if each node can come at its turn. -/
theorem isTopological_iff (hperm : order.Perm (List.range g.size)) :
    g.IsTopological order ↔
      ∀ done v rest, order = done ++ v :: rest → g.IsFreeAfter done v := by
  have hnodup : order.Nodup := hperm.nodup_iff.mpr List.nodup_range
  refine ⟨?_, ?_⟩
  · rintro horder done v rest rfl
    refine ⟨horder.mem_iff.mp (by simp), ?_, ?_⟩
    · -- `v` has not come yet
      intro hv
      rw [List.nodup_append] at hnodup
      exact hnodup.2.2 v hv v List.mem_cons_self rfl
    · -- its predecessors have
      intro u harc
      exact (precedes_split_iff hnodup).mp (horder.precedes u v harc)
  · intro hfree
    refine ⟨hperm, ?_⟩
    intro u v harc
    have hv : v ∈ order := hperm.mem_iff.mpr (List.mem_range.mpr (target_lt harc))
    obtain ⟨done, rest, rfl⟩ := List.append_of_mem hv
    exact (precedes_split_iff hnodup).mpr ((hfree done v rest rfl).2.2 u harc)

theorem IsGreedy.isTopological (hgreedy : g.IsGreedy order)
    (hperm : order.Perm (List.range g.size)) : g.IsTopological order :=
  (isTopological_iff hperm).mpr fun done v rest hsplit => (hgreedy done v rest hsplit).1

/-! ### Greedy is least -/

/-- Of two lists of equal length that continue `done`, one by the lowest node that can come each
time and the other by some node that can come, the first is not the greater one. -/
theorem le_of_isNext (done : List Nat) {xs ys : List Nat} (hlength : xs.length = ys.length)
    (hxs : ∀ front v rest, xs = front ++ v :: rest → g.IsNext (done ++ front) v)
    (hys : ∀ front w rest, ys = front ++ w :: rest → g.IsFreeAfter (done ++ front) w) :
    xs ≤ ys := by
  induction xs generalizing done ys with
  | nil =>
    have hnil : ys = [] := List.length_eq_zero_iff.mp hlength.symm
    rw [hnil]
  | cons v xs ih =>
    cases ys with
    | nil => cases hlength
    | cons w ys =>
      have hv : g.IsNext done v := by
        simpa using hxs [] v xs rfl
      have hw : g.IsFreeAfter done w := by
        simpa using hys [] w ys rfl
      rcases (hv.2 w hw).lt_or_eq with hlt | rfl
      · exact le_of_lt (List.Lex.rel hlt)
      · -- where the two agree, the comparison goes on behind their common node
        refine List.cons_le_cons v (ih (done ++ [v]) (Nat.succ.inj hlength) ?_ ?_)
        · intro front x rest hsplit
          rw [List.append_assoc]
          exact hxs (v :: front) x rest (by rw [hsplit, List.cons_append])
        · intro front x rest hsplit
          rw [List.append_assoc]
          exact hys (v :: front) x rest (by rw [hsplit, List.cons_append])

theorem IsGreedy.le {other : List Nat} (hgreedy : g.IsGreedy order)
    (hperm : order.Perm (List.range g.size)) (hother : g.IsTopological other) : order ≤ other := by
  have hlength : order.length = other.length := (hperm.trans hother.perm.symm).length_eq
  refine le_of_isNext (g := g) [] hlength ?_ ?_
  · exact fun front v rest hsplit => hgreedy front v rest hsplit
  · exact fun front w rest hsplit => (isTopological_iff hother.perm).mp hother front w rest hsplit

/-! ### Places in a greedy order -/

/-- What only waits for what stands before `v` comes before `v` as well if it is lower. -/
theorem IsGreedy.precedes_of_preds (hgreedy : g.IsGreedy order)
    (hperm : order.Perm (List.range g.size)) (hu : u < g.size) (hv : v < g.size) (huv : u < v)
    (hpreds : ∀ w, g.Arc w u → Precedes order w v) : Precedes order u v := by
  have hnodup : order.Nodup := hperm.nodup_iff.mpr List.nodup_range
  obtain ⟨done, rest, rfl⟩ := List.append_of_mem (hperm.mem_iff.mpr (List.mem_range.mpr hv))
  rw [precedes_split_iff hnodup]
  by_contra hnew
  -- `u` could have come at the turn of `v`
  have hfree : g.IsFreeAfter done u :=
    ⟨hu, hnew, fun w harc => (precedes_split_iff hnodup).mp (hpreds w harc)⟩
  have hle := (hgreedy done v rest rfl).2 u hfree
  omega

/-- A node without arcs comes before a lower one exactly if that one has to wait for a higher. -/
theorem IsGreedy.precedes_isolated_iff (hgreedy : g.IsGreedy order)
    (hperm : order.Perm (List.range g.size)) (hu : u < g.size) (hvu : v < u)
    (hin : ∀ w, ¬ g.Arc w u) (hout : ∀ w, ¬ g.Arc u w) :
    Precedes order u v ↔ ∃ w, u < w ∧ g.Leads w v := by
  have htopological : g.IsTopological order := hgreedy.isTopological hperm
  have hnodup : order.Nodup := htopological.nodup
  refine ⟨?_, ?_⟩
  · intro huv
    obtain ⟨done, rest, rfl⟩ := List.append_of_mem (htopological.mem_iff.mpr hu)
    have hv : v ∉ done := by
      intro hmem
      have hback : Precedes (done ++ u :: rest) v u := (precedes_split_iff hnodup).mpr hmem
      exact (hback.trans hnodup huv).ne hnodup rfl
    -- of the nodes on the way to `v` that are left at the turn of `u`, one waits for none of them
    let left : Set Nat := { w | w ∉ done ∧ g.Reaches w v }
    have hlt : ∀ w ∈ left, w < g.size := by
      rintro w ⟨-, hwv⟩
      rcases hwv.eq_or_leads with rfl | hleads
      · exact hvu.trans hu
      · exact hleads.source_lt
    obtain ⟨w, ⟨hnew, hwv⟩, hfirst⟩ : ∃ w ∈ left, ∀ x ∈ left, ¬ g.Arc x w := by
      by_contra hnone
      push Not at hnone
      obtain ⟨x, -, hcycle⟩ :=
        exists_onCycle_of_closed hlt ⟨v, hv, Reaches.refl g v⟩ hnone
      exact htopological.acyclic x hcycle
    have hfree : g.IsFreeAfter done w := by
      refine ⟨hlt w ⟨hnew, hwv⟩, hnew, ?_⟩
      intro x harc
      by_contra hx
      exact hfirst x ⟨hx, harc.reaches.trans hwv⟩ harc
    -- so it could have come instead, and it is not `u`, which leads nowhere
    have hle : u ≤ w := (hgreedy done u rest rfl).2 w hfree
    have hleads : g.Leads w v := hwv.leads_of_ne (by omega)
    refine ⟨w, lt_of_le_of_ne hle ?_, hleads⟩
    rintro rfl
    obtain ⟨x, harc, -⟩ := Relation.TransGen.head'_iff.mp hleads
    exact hout x harc
  · rintro ⟨w, huw, hwv⟩
    have huw' := hgreedy.precedes_of_preds hperm hu hwv.source_lt huw fun x harc =>
      absurd harc (hin x)
    exact huw'.trans hnodup (htopological.precedes_of_leads hwv)

/-! ### What a run emits -/

theorem IsNext.congr {others : List Nat} (hv : g.IsNext done v)
    (hmem : ∀ u, u ∈ done ↔ u ∈ others) : g.IsNext others v := by
  simpa only [IsNext, IsFreeAfter, hmem] using hv

theorem Emits.of_append : ∀ {front : List Nat}, g.Emits (front ++ done) → g.Emits done
  | [], hemits => hemits
  | _ :: _, hemits => Emits.of_append hemits.2

/-- What is emitted node by node is a greedy list, read from the first to the latest. -/
theorem Emits.isGreedy {emitted : List Nat} (hemits : g.Emits emitted) :
    g.IsGreedy emitted.reverse := by
  intro done v rest hsplit
  -- read backwards, what has come before `v` is what was emitted before it
  have hemitted : emitted = rest.reverse ++ v :: done.reverse := by
    rw [← List.reverse_reverse emitted, hsplit]
    simp
  rw [hemitted] at hemits
  exact hemits.of_append.1.congr fun u => List.mem_reverse

/-- A run that gets stuck leaves a set of nodes each of which waits for another. -/
theorem exists_onCycle_of_stuck (hstuck : (Countdown.final g).emitted.length < g.size) :
    ∃ v, g.OnCycle v := by
  have htracks := Countdown.tracks_final g
  let rest : Set Nat := { v | v < g.size ∧ v ∉ (Countdown.final g).emitted }
  have hne : rest.Nonempty := by
    by_contra hempty
    -- then all nodes would have been emitted
    have hsubset : List.range g.size ⊆ (Countdown.final g).emitted := fun v hv => by
      by_contra hnew
      exact hempty ⟨v, List.mem_range.mp hv, hnew⟩
    have hlength := (List.nodup_range.subperm hsubset).length_le
    rw [List.length_range] at hlength
    omega
  have hpred : ∀ v ∈ rest, ∃ u ∈ rest, g.Arc u v := by
    rintro v ⟨hv, hnew⟩
    by_contra hnone
    -- a node without such a predecessor could come next, and would be ready
    have hfree : g.IsFreeAfter (Countdown.final g).emitted v := by
      refine ⟨hv, hnew, ?_⟩
      intro u harc
      by_contra hu
      exact hnone ⟨u, ⟨source_lt harc, hu⟩, harc⟩
    have hready : v ∈ (Countdown.final g).ready := htracks.mem_ready_iff_isFreeAfter.mpr hfree
    rw [Countdown.ready_final] at hready
    cases hready
  obtain ⟨v, -, hv⟩ := exists_onCycle_of_closed (fun v hv => hv.1) hne hpred
  exact ⟨v, hv⟩

theorem topoSort_eq_ite (g : Digraph) :
    g.topoSort = if (Countdown.final g).emitted.length < g.size then none
      else some (Countdown.final g).emitted.reverse :=
  rfl

theorem perm_and_isGreedy_of_topoSort (hsort : g.topoSort = some order) :
    order.Perm (List.range g.size) ∧ g.IsGreedy order := by
  rw [topoSort_eq_ite] at hsort
  split at hsort
  · cases hsort
  · next hall =>
    obtain rfl := Option.some.inj hsort
    refine ⟨?_, (Countdown.tracks_final g).emits.isGreedy⟩
    exact (List.reverse_perm _).trans (Countdown.emitted_final_perm (Nat.not_lt.mp hall))

theorem topoSort_eq_none_iff : g.topoSort = none ↔ ∃ v, g.OnCycle v := by
  refine ⟨?_, ?_⟩
  · intro hsort
    rw [topoSort_eq_ite] at hsort
    split at hsort
    · next hstuck => exact exists_onCycle_of_stuck hstuck
    · cases hsort
  · rintro ⟨v, hv⟩
    cases hsort : g.topoSort with
    | none => rfl
    -- an order that is found is topological, and then there is no cycle
    | some order =>
      obtain ⟨hperm, hgreedy⟩ := perm_and_isGreedy_of_topoSort hsort
      exact absurd hv ((hgreedy.isTopological hperm).acyclic v)

/-- The sort finds the least topological order, and finds none only if there is none. -/
theorem topoSort_eq_some_iff :
    g.topoSort = some order ↔
      g.IsTopological order ∧ ∀ other, g.IsTopological other → order ≤ other := by
  refine ⟨?_, ?_⟩
  · intro hsort
    obtain ⟨hperm, hgreedy⟩ := perm_and_isGreedy_of_topoSort hsort
    exact ⟨hgreedy.isTopological hperm, fun other hother => hgreedy.le hperm hother⟩
  · rintro ⟨horder, hleast⟩
    cases hsort : g.topoSort with
    | none =>
      obtain ⟨v, hv⟩ := topoSort_eq_none_iff.mp hsort
      exact absurd hv (horder.acyclic v)
    | some found =>
      -- the order found is least as well
      obtain ⟨hperm, hgreedy⟩ := perm_and_isGreedy_of_topoSort hsort
      have hle : order ≤ found := hleast found (hgreedy.isTopological hperm)
      rw [le_antisymm hle (hgreedy.le hperm horder)]

/-- An order of the nodes that is greedy is the one that the sort finds. -/
theorem IsGreedy.topoSort_eq_some (hgreedy : g.IsGreedy order)
    (hperm : order.Perm (List.range g.size)) : g.topoSort = some order :=
  topoSort_eq_some_iff.mpr
    ⟨hgreedy.isTopological hperm, fun _ hother => hgreedy.le hperm hother⟩

theorem exists_topoSort_iff :
    (∃ order, g.topoSort = some order) ↔ ∃ order, g.IsTopological order := by
  refine ⟨?_, ?_⟩
  · rintro ⟨order, hsort⟩
    exact ⟨order, (topoSort_eq_some_iff.mp hsort).1⟩
  · rintro ⟨order, horder⟩
    cases hsort : g.topoSort with
    | none =>
      obtain ⟨v, hv⟩ := topoSort_eq_none_iff.mp hsort
      exact absurd hv (horder.acyclic v)
    | some found => exact ⟨found, rfl⟩

/-- Graphs with the same topological orders are sorted alike. -/
theorem topoSort_congr {h : Digraph}
    (horders : ∀ order, g.IsTopological order ↔ h.IsTopological order) :
    g.topoSort = h.topoSort := by
  refine Option.ext fun order => ?_
  rw [topoSort_eq_some_iff, topoSort_eq_some_iff]
  simp only [horders]

/-- The sort has no answer exactly if the graph has a cycle. Its answer is the lexicographically
least topological order; equivalently, the order of all nodes in which each is the lowest one
whose predecessors have all come. On the way there (`Countdown.Passes` holds between two steps and
in the middle of a step), whatever is released still waits for something and has been neither ready
nor emitted, and no node is ready or emitted twice. -/
theorem topoSort_exact (g : Digraph) :
    (g.topoSort = none ↔ ∃ v, g.OnCycle v) ∧
    (∀ order, g.topoSort = some order ↔
      g.IsTopological order ∧ ∀ other, g.IsTopological other → order ≤ other) ∧
    (∀ order, g.topoSort = some order ↔
      order.Perm (List.range g.size) ∧ g.IsGreedy order) ∧
    (∀ k, Countdown.Passes g [] (Countdown.run g k (Countdown.start g))) ∧
    (∀ c v rest front back, Countdown.Passes g [] c → c.ready = v :: rest →
      g.succs v = front ++ back → Countdown.Passes g back
        (front.foldl Countdown.release { c with ready := rest, emitted := v :: c.emitted })) ∧
    (∀ pending c, Countdown.Passes g pending c → (c.ready ++ c.emitted).Nodup) ∧
    (∀ w pending c, Countdown.Passes g (w :: pending) c →
      0 < c.waitingFor w ∧ w ∉ c.ready ∧ w ∉ c.emitted) := by
  refine ⟨topoSort_eq_none_iff, fun order => topoSort_eq_some_iff,
    fun order => ⟨perm_and_isGreedy_of_topoSort, ?_⟩, fun k => Countdown.Passes.start.run k, ?_,
    fun pending c hc => hc.tracks.nodup, fun w pending c hc => hc.tracks.release_due⟩
  · rintro ⟨hperm, hgreedy⟩
    exact topoSort_eq_some_iff.mpr
      ⟨hgreedy.isTopological hperm, fun other hother => hgreedy.le hperm hother⟩
  · -- in the middle of a step, the latest node is emitted and some of its successors are released
    intro c v rest front back hc hready hsuccs
    exact (hsuccs ▸ hc.emit hready).foldl_release

end LoadOrder.Digraph
