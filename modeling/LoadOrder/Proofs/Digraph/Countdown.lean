import LoadOrder.Digraph.TopoSort
import LoadOrder.Proofs.Digraph.Reachability
import Mathlib.Data.List.Count
import Mathlib.Data.List.Nodup
import Mathlib.Data.List.TakeWhile

/-!
# What a countdown keeps track of

A countdown emits nodes one by one and counts, for each node, the predecessors still to come.
`Tracks g pending c` is what holds of every value `c` that a run passes through, also in the
middle of an emission, when the successors `pending` of the latest node have not been released:

* the count of a node is the number of its predecessors that have not been emitted, and one more
  if it is pending (`waitingFor_eq`);
* the ready nodes are those that wait for nothing and have not been emitted, in ascending order;
* each node was the lowest one that could come at its turn (`Emits`).

`Passes g` lists the values that a run passes through, move by move. `Tracks.emit` and
`Tracks.release` say that either move keeps the invariant. A release never meets a count of zero,
nor a node that is ready or has been emitted (`Tracks.release_due`), so a node gets ready once.
-/

namespace LoadOrder.Digraph

variable {g : Digraph} {u v w : Nat} {done : List Nat}

/-- Once the nodes `done` have come, `v` can come: it is a node, it has not come yet, and all its
predecessors have. -/
def IsFreeAfter (g : Digraph) (done : List Nat) (v : Nat) : Prop :=
  v < g.size ∧ v ∉ done ∧ ∀ u, g.Arc u v → u ∈ done

/-- `v` is the lowest node that can come once the nodes `done` have. -/
def IsNext (g : Digraph) (done : List Nat) (v : Nat) : Prop :=
  g.IsFreeAfter done v ∧ ∀ w, g.IsFreeAfter done w → v ≤ w

/-- Each node of the list, latest first, was the lowest that could come after those before it. -/
def Emits (g : Digraph) : List Nat → Prop
  | [] => True
  | v :: done => g.IsNext done v ∧ g.Emits done

theorem Emits.nodup : ∀ {emitted : List Nat}, g.Emits emitted → emitted.Nodup
  | [], _ => List.nodup_nil
  | _ :: _, ⟨hnext, hdone⟩ => List.nodup_cons.mpr ⟨hnext.1.2.1, hdone.nodup⟩

theorem Emits.lt_size : ∀ {emitted : List Nat}, g.Emits emitted → v ∈ emitted → v < g.size
  | w :: done, ⟨hnext, hdone⟩, hv => by
    rcases List.mem_cons.mp hv with rfl | hv
    · exact hnext.1.1
    · exact hdone.lt_size hv

theorem Emits.mem_of_arc :
    ∀ {emitted : List Nat}, g.Emits emitted → v ∈ emitted → g.Arc u v → u ∈ emitted
  | w :: done, ⟨hnext, hdone⟩, hv, harc => by
    rcases List.mem_cons.mp hv with rfl | hv
    · exact List.mem_cons_of_mem v (hnext.1.2.2 u harc)
    · exact List.mem_cons_of_mem w (hdone.mem_of_arc hv harc)

/-- A successor of the node emitted last has not been emitted, be it that node itself. -/
theorem Emits.notMem_of_arc (hemits : g.Emits (v :: done)) (harc : g.Arc v w) : w ∉ v :: done := by
  obtain ⟨⟨⟨-, hv, hpreds⟩, -⟩, hdone⟩ := hemits
  intro hw
  rcases List.mem_cons.mp hw with rfl | hw
  · exact hv (hpreds w harc)
  · exact hv (hdone.mem_of_arc hw harc)

/-! ### Insertion into an ascending list -/

theorem mem_insertAscending {vs : List Nat} : w ∈ insertAscending v vs ↔ w = v ∨ w ∈ vs := by
  have hvs : w ∈ vs ↔ w ∈ vs.takeWhile (· < v) ∨ w ∈ vs.dropWhile (· < v) := by
    rw [← List.mem_append, List.takeWhile_append_dropWhile]
  rw [insertAscending, List.mem_append, List.mem_cons, hvs]
  exact or_left_comm

theorem pairwise_insertAscending {vs : List Nat} (hvs : vs.Pairwise (· < ·)) (hv : v ∉ vs) :
    (insertAscending v vs).Pairwise (· < ·) := by
  induction vs with
  | nil => simp [insertAscending]
  | cons x xs ih =>
    obtain ⟨hx, hxs⟩ := List.pairwise_cons.mp hvs
    rw [List.mem_cons, not_or] at hv
    by_cases hlt : x < v
    · have hcons : insertAscending v (x :: xs) = x :: insertAscending v xs := by
        simp [insertAscending, hlt]
      rw [hcons, List.pairwise_cons]
      refine ⟨?_, ih hxs hv.2⟩
      -- `x` stays first: it is below `v` and below the rest
      intro y hy
      rcases mem_insertAscending.mp hy with rfl | hy
      · exact hlt
      · exact hx y hy
    · have hcons : insertAscending v (x :: xs) = v :: x :: xs := by
        simp [insertAscending, hlt]
      have hvx : v < x := by omega
      rw [hcons, List.pairwise_cons]
      refine ⟨?_, hvs⟩
      -- `v` is below `x`, and so below all that follows
      intro y hy
      rcases List.mem_cons.mp hy with rfl | hy
      · exact hvx
      · exact hvx.trans (hx y hy)

/-! ### The invariant -/

namespace Countdown

/-- How many predecessors of `v` are not among the nodes `done`. -/
def missing (g : Digraph) (done : List Nat) (v : Nat) : Nat :=
  (g.preds v).countP (· ∉ done)

theorem missing_eq_zero_iff : missing g done v = 0 ↔ ∀ u, g.Arc u v → u ∈ done := by
  simp [missing, List.countP_eq_zero, arc_iff_mem_preds]

/-- One more node done is one predecessor less for each of its successors. -/
theorem missing_cons (hv : v ∉ done) (w : Nat) :
    missing g done w = missing g (v :: done) w + (g.succs v).count w := by
  have hcount : ∀ preds : List Nat,
      preds.countP (· ∉ done) = preds.countP (· ∉ v :: done) + preds.count v := by
    intro preds
    induction preds with
    | nil => rfl
    | cons x preds ih =>
      rw [List.countP_cons, List.countP_cons, List.count_cons, ih]
      by_cases hx : x = v
      · subst hx
        simp [hv]
        omega
      · simp [hx]
        omega
  -- an arc is listed once at either end
  have hends : (g.preds w).count v = (g.succs v).count w := by
    rw [(g.nodup_preds w).count, (g.nodup_succs v).count]
    simp only [mem_succs_iff]
  rw [missing, hcount, hends, missing]

/-- What holds of a run's value `c` while the nodes `pending` are still to be released. -/
structure Tracks (g : Digraph) (pending : List Nat) (c : Countdown) : Prop where
  /-- There is a count for every node. -/
  size_waiting : c.waiting.size = g.size
  /-- The count of a node is what it waits for. -/
  waitingFor_eq : ∀ v, v < g.size → c.waitingFor v = missing g c.emitted v + pending.count v
  /-- The lowest ready node stands first. -/
  pairwise_ready : c.ready.Pairwise (· < ·)
  /-- Ready are the nodes that wait for nothing and are still to come. -/
  mem_ready_iff : ∀ v, v ∈ c.ready ↔ v < g.size ∧ v ∉ c.emitted ∧ c.waitingFor v = 0
  /-- Every emitted node was the right one at its turn. -/
  emits : g.Emits c.emitted
  /-- What is to be released is a node. -/
  pending_lt : ∀ v ∈ pending, v < g.size
  /-- What is to be released is still to come. -/
  pending_notMem : ∀ v ∈ pending, v ∉ c.emitted

variable {c : Countdown} {pending : List Nat}

theorem waitingFor_start (hv : v < g.size) : (start g).waitingFor v = (g.preds v).length := by
  simp [start, waitingFor, hv]

theorem Tracks.start (g : Digraph) : Tracks g [] (start g) where
  size_waiting := by simp [Countdown.start]
  waitingFor_eq v hv := by
    rw [waitingFor_start hv]
    simp [missing, Countdown.start]
  pairwise_ready := List.Pairwise.filter _ List.pairwise_lt_range
  mem_ready_iff v := by
    refine ⟨?_, ?_⟩
    · -- a source waits for nothing
      intro hv
      have hmem : v < g.size ∧ g.preds v = [] := by
        simpa [Countdown.start] using hv
      refine ⟨hmem.1, by simp [Countdown.start], ?_⟩
      rw [waitingFor_start hmem.1, hmem.2]
      rfl
    · -- and only a source does
      rintro ⟨hv, -, hzero⟩
      rw [waitingFor_start hv, List.length_eq_zero_iff] at hzero
      simp [Countdown.start, hv, hzero]
  emits := trivial
  pending_lt := by simp
  pending_notMem := by simp

/-- Between two emissions the ready nodes are those that can come next. -/
theorem Tracks.mem_ready_iff_isFreeAfter (hc : Tracks g [] c) :
    v ∈ c.ready ↔ g.IsFreeAfter c.emitted v := by
  rw [hc.mem_ready_iff v]
  refine ⟨?_, ?_⟩
  · rintro ⟨hv, hnew, hzero⟩
    rw [hc.waitingFor_eq v hv, List.count_nil, Nat.add_zero] at hzero
    exact ⟨hv, hnew, missing_eq_zero_iff.mp hzero⟩
  · rintro ⟨hv, hnew, hpreds⟩
    refine ⟨hv, hnew, ?_⟩
    rw [hc.waitingFor_eq v hv, List.count_nil, Nat.add_zero]
    exact missing_eq_zero_iff.mpr hpreds

/-- Emitting the first ready node leaves its successors pending. -/
theorem Tracks.emit {rest : List Nat} (hc : Tracks g [] c) (hready : c.ready = v :: rest) :
    Tracks g (g.succs v) { c with ready := rest, emitted := v :: c.emitted } := by
  have hsorted : (v :: rest).Pairwise (· < ·) := hready ▸ hc.pairwise_ready
  obtain ⟨hfirst, hrest⟩ := List.pairwise_cons.mp hsorted
  have hv : v ∈ c.ready := hready ▸ List.mem_cons_self
  have hfree : g.IsFreeAfter c.emitted v := hc.mem_ready_iff_isFreeAfter.mp hv
  have hnext : g.IsNext c.emitted v := by
    refine ⟨hfree, ?_⟩
    -- the ready nodes ascend, so the first is the lowest of those that can come
    intro w hw
    have hmem : w ∈ v :: rest := hready ▸ hc.mem_ready_iff_isFreeAfter.mpr hw
    rcases List.mem_cons.mp hmem with rfl | hw
    · exact le_rfl
    · exact (hfirst w hw).le
  have hemits : g.Emits (v :: c.emitted) := ⟨hnext, hc.emits⟩
  exact {
    size_waiting := hc.size_waiting
    waitingFor_eq := fun w hw => by
      -- what `w` waits for is counted over: one predecessor less, one pending release more
      have hcount := hc.waitingFor_eq w hw
      rw [List.count_nil, Nat.add_zero, missing_cons hfree.2.1 w] at hcount
      exact hcount
    pairwise_ready := hrest
    mem_ready_iff := fun w => by
      have hmem := hc.mem_ready_iff w
      rw [hready, List.mem_cons] at hmem
      rw [List.mem_cons, not_or]
      refine ⟨?_, ?_⟩
      · -- what is left of the ready nodes lies above `v`
        intro hw
        obtain ⟨hlt, hnew, hzero⟩ := hmem.mp (Or.inr hw)
        exact ⟨hlt, ⟨(hfirst w hw).ne', hnew⟩, hzero⟩
      · rintro ⟨hlt, ⟨hne, hnew⟩, hzero⟩
        exact (hmem.mpr ⟨hlt, hnew, hzero⟩).resolve_left hne
    emits := hemits
    pending_lt := fun w hw => target_lt hw
    pending_notMem := fun w hw => hemits.notMem_of_arc hw }

/-- A pending node waits for something, and it is neither ready nor emitted. -/
theorem Tracks.release_due (hc : Tracks g (w :: pending) c) :
    0 < c.waitingFor w ∧ w ∉ c.ready ∧ w ∉ c.emitted := by
  have hw : w < g.size := hc.pending_lt w List.mem_cons_self
  have hpos : 0 < c.waitingFor w := by
    rw [hc.waitingFor_eq w hw, List.count_cons_self]
    omega
  refine ⟨hpos, ?_, hc.pending_notMem w List.mem_cons_self⟩
  -- a ready node would wait for nothing
  intro hready
  have hzero : c.waitingFor w = 0 := ((hc.mem_ready_iff w).mp hready).2.2
  omega

theorem waitingFor_release (hw : w < c.waiting.size) (x : Nat) :
    (c.release w).waitingFor x = if x = w then c.waitingFor w - 1 else c.waitingFor x := by
  by_cases hx : x = w
  · subst hx
    simp [release, waitingFor, hw]
  · have hne : ¬ w = x := fun e => hx e.symm
    simp [release, waitingFor, hx, hne]

/-- Releasing a pending node takes it off the list and makes it ready if it waited for nothing
else. -/
theorem Tracks.release (hc : Tracks g (w :: pending) c) : Tracks g pending (c.release w) := by
  have hw : w < g.size := hc.pending_lt w List.mem_cons_self
  obtain ⟨hpos, hready, hnew⟩ := hc.release_due
  have hcount : ∀ x, (c.release w).waitingFor x
      = if x = w then c.waitingFor w - 1 else c.waitingFor x :=
    waitingFor_release (hc.size_waiting ▸ hw)
  have hemitted : (c.release w).emitted = c.emitted := rfl
  exact {
    size_waiting := by
      rw [Countdown.release, Array.size_setIfInBounds]
      exact hc.size_waiting
    waitingFor_eq := fun x hx => by
      rw [hcount x, hemitted]
      by_cases hxw : x = w
      -- one less on both sides
      · subst hxw
        rw [if_pos rfl, hc.waitingFor_eq x hx, List.count_cons_self]
        omega
      · rw [if_neg hxw, hc.waitingFor_eq x hx, List.count_cons_of_ne (Ne.symm hxw)]
    pairwise_ready := by
      unfold Countdown.release
      dsimp only
      split
      · exact pairwise_insertAscending hc.pairwise_ready hready
      · exact hc.pairwise_ready
    mem_ready_iff := fun x => by
      -- `w` joins the ready nodes if nothing but this release kept it back
      have hmem : x ∈ (c.release w).ready
          ↔ x ∈ c.ready ∨ x = w ∧ c.waitingFor w - 1 = 0 := by
        unfold Countdown.release
        dsimp only
        split
        · next hzero => rw [mem_insertAscending]; simp [hzero, or_comm]
        · next hzero => simp [hzero]
      rw [hmem, hcount x, hemitted]
      by_cases hxw : x = w
      · subst hxw
        simp [hready, hw, hnew]
      · simp [hxw, hc.mem_ready_iff x]
    emits := hc.emits
    pending_lt := fun x hx => hc.pending_lt x (List.mem_cons_of_mem w hx)
    pending_notMem := fun x hx => hc.pending_notMem x (List.mem_cons_of_mem w hx) }

/-! ### What a run passes through -/

/-- The values that a run of `g` passes through, each with the successors of the latest node that
are still to be released. -/
inductive Passes (g : Digraph) : List Nat → Countdown → Prop where
  /-- A run starts between two emissions. -/
  | start : Passes g [] (start g)
  /-- The first ready node is emitted. -/
  | emit {c : Countdown} {v : Nat} {rest : List Nat} (hc : Passes g [] c)
      (hready : c.ready = v :: rest) :
      Passes g (g.succs v) { c with ready := rest, emitted := v :: c.emitted }
  /-- The next pending node is released. -/
  | release {c : Countdown} {w : Nat} {pending : List Nat} (hc : Passes g (w :: pending) c) :
      Passes g pending (c.release w)

theorem Passes.tracks (hc : Passes g pending c) : Tracks g pending c := by
  induction hc with
  | start => exact Tracks.start g
  | emit _ hready ih => exact ih.emit hready
  | release _ ih => exact ih.release

/-- No node is ready twice, nor ready again once it has been emitted. -/
theorem Tracks.nodup (hc : Tracks g pending c) : (c.ready ++ c.emitted).Nodup := by
  have hready : c.ready.Nodup := hc.pairwise_ready.imp ne_of_lt
  rw [List.nodup_append]
  refine ⟨hready, hc.emits.nodup, ?_⟩
  intro v hv w hw e
  exact ((hc.mem_ready_iff v).mp hv).2.1 (e ▸ hw)

theorem Passes.foldl_release {front back : List Nat} (hc : Passes g (front ++ back) c) :
    Passes g back (front.foldl Countdown.release c) := by
  induction front generalizing c with
  | nil => exact hc
  | cons w front ih => exact ih hc.release

/-- What a step does: there is a first ready node, which is emitted and whose successors are
released. -/
theorem step_eq_some {d : Countdown} (hstep : c.step g = some d) :
    ∃ v rest, c.ready = v :: rest
      ∧ d = (g.succs v).foldl release { c with ready := rest, emitted := v :: c.emitted } := by
  unfold step at hstep
  split at hstep
  · cases hstep
  · next v rest hready => exact ⟨v, rest, hready, (Option.some.inj hstep).symm⟩

theorem step_eq_none_iff : c.step g = none ↔ c.ready = [] := by
  unfold step
  split
  · next hready => simp [hready]
  · next v rest hready => simp [hready]

theorem emitted_foldl_release (vs : List Nat) (c : Countdown) :
    (vs.foldl release c).emitted = c.emitted := by
  induction vs generalizing c with
  | nil => rfl
  | cons v vs ih => exact ih (c.release v)

theorem Passes.step {d : Countdown} (hc : Passes g [] c) (hstep : c.step g = some d) :
    Passes g [] d := by
  obtain ⟨v, rest, hready, rfl⟩ := step_eq_some hstep
  have hemit := hc.emit hready
  rw [← List.append_nil (g.succs v)] at hemit
  exact hemit.foldl_release

theorem Passes.run (hc : Passes g [] c) (k : Nat) : Passes g [] (run g k c) := by
  induction k generalizing c with
  | zero => exact hc
  | succ k ih =>
    unfold Countdown.run
    split
    -- the run stops here, or goes on from its next value
    · exact hc
    · next d hstep => exact ih (hc.step hstep)

/-- A run stops early only if no node is ready. -/
theorem ready_run_or_length (g : Digraph) (k : Nat) (c : Countdown) :
    (run g k c).ready = [] ∨ (run g k c).emitted.length = c.emitted.length + k := by
  induction k generalizing c with
  | zero => exact Or.inr rfl
  | succ k ih =>
    unfold run
    split
    · next hstep => exact Or.inl (step_eq_none_iff.mp hstep)
    · next d hstep =>
      obtain ⟨v, rest, -, rfl⟩ := step_eq_some hstep
      refine (ih _).imp_right ?_
      intro hlength
      rw [hlength, emitted_foldl_release, List.length_cons]
      omega

/-! ### Where a run ends -/

/-- The last value of a run. -/
def final (g : Digraph) : Countdown :=
  run g g.size (start g)

theorem tracks_final (g : Digraph) : Tracks g [] (final g) :=
  (Passes.start.run g.size).tracks

theorem emitted_final_subperm (g : Digraph) : (final g).emitted.Subperm (List.range g.size) := by
  have hemits := (tracks_final g).emits
  exact hemits.nodup.subperm fun v hv => List.mem_range.mpr (hemits.lt_size hv)

theorem emitted_final_perm (hlength : g.size ≤ (final g).emitted.length) :
    (final g).emitted.Perm (List.range g.size) := by
  refine (emitted_final_subperm g).perm_of_length_le ?_
  rwa [List.length_range]

/-- As many emissions as there are nodes end a run: no node is ready any more. -/
theorem ready_final (g : Digraph) : (final g).ready = [] := by
  rcases ready_run_or_length g g.size (start g) with hready | hlength
  · exact hready
  · -- a run of full length has emitted all nodes, so none is left to be ready
    have hperm : (final g).emitted.Perm (List.range g.size) := by
      apply emitted_final_perm
      change g.size ≤ (run g g.size (start g)).emitted.length
      rw [hlength]
      exact Nat.le_add_left _ _
    refine List.eq_nil_iff_forall_not_mem.mpr ?_
    intro v hv
    obtain ⟨hlt, hnew, -⟩ := ((tracks_final g).mem_ready_iff v).mp hv
    exact hnew (hperm.mem_iff.mpr (List.mem_range.mpr hlt))

end Countdown

end LoadOrder.Digraph
