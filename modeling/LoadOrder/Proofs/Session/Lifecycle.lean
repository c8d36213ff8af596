import LoadOrder.Proofs.Digraph.Foremost
import LoadOrder.Proofs.Session.History

/-!
# A session is used once

A session is open until its first sort and closed from then on, whatever the sort comes to. That
sort changes nothing but the mark and the graph, and adds to the graph nothing but edges out of the
anchor (`Closes`). To every later call a closed session answers that it has been sorted; it stays as
it is and logs nothing (`perform_of_finished`), and so it goes for all calls to come
(`after_of_finished`, `replies_of_finished`).
-/

namespace LoadOrder.Session

variable {L : Type} [DecidableEq L] {s t : Session L} {calls : List (Call L)}

/-- `t` is `s` closed, with edges out of the anchor to `targets` behind those that `s` has. -/
structure Closes (s t : Session L) (targets : List Nat) : Prop where
  /-- Nothing changes but the graph and the mark. -/
  frame : t = { s with graph := t.graph, finished := true }
  /-- The graph has the same nodes. -/
  nodes_eq : t.graph.nodes = s.graph.nodes
  /-- The targets are the last successors of the anchor, and no other listener gets any. -/
  succs_eq : ∀ u, t.graph.links.succs u =
    s.graph.links.succs u ++ if u = s.registry.rank s.anchor then targets else []
  /-- The anchor is the last predecessor of each target, and no other listener gets any. -/
  preds_eq : ∀ v, t.graph.links.preds v =
    s.graph.links.preds v ++ if v ∈ targets then [s.registry.rank s.anchor] else []

theorem closes_sort (hopen : s.finished = false)
    (hanchor : s.registry.rank s.anchor = s.baselineSize - 1) :
    ∃ targets, s.Closes s.sort.session targets := by
  rw [sort_session hopen]
  refine ⟨(s.graph.links.anchorDangling s.inBaselineAt (s.baselineSize - 1)).2, rfl, rfl, ?_, ?_⟩
  · intro u
    rw [hanchor]
    exact Digraph.succs_anchorAll _ _ _ _ u
  · intro v
    rw [hanchor]
    exact Digraph.preds_anchorAll _ _ _ _ v

/-! ### Calls that come too late -/

/-- That the session has been sorted is found out before anything else. -/
theorem perform_of_finished (hfinished : s.finished = true) (call : Call L) :
    s.perform call = ⟨.error .alreadySorted, s, []⟩ := by
  cases call with
  | register key listener =>
    rw [perform, register, if_pos hfinished]
    rfl
  | declare first second =>
    rw [perform, declare, if_pos hfinished]
    rfl
  | sort =>
    rw [perform, sort, if_pos hfinished]
    rfl

theorem after_of_finished (hfinished : s.finished = true) (later : List (Call L)) :
    s.after later = s := by
  induction later with
  | nil => rfl
  | cons call later ih => rw [after_cons, perform_of_finished hfinished, ih]

theorem replies_of_finished (hfinished : s.finished = true) (later : List (Call L)) :
    s.replies later = later.map fun _ => ⟨.error .alreadySorted, s, []⟩ := by
  induction later with
  | nil => rfl
  | cons call later ih =>
    simp only [replies, perform_of_finished hfinished, List.map_cons, ih]

/-- A session that has been started is closed exactly from its first sort on. This sort changes
nothing but the mark and the edges out of the anchor, and every call after it is refused and without
effect. -/
theorem single_use {side : Side} {baseline : List L} {naming : Naming L} {policy : Policy}
    (hstart : (start side baseline naming policy).result = .ok s) :
    (∀ calls, (s.after calls).finished ↔ .sort ∈ calls) ∧
    (∀ calls, .sort ∉ calls →
      ∃ targets, (s.after calls).Closes (s.after (calls ++ [.sort])) targets) ∧
    (∀ calls, .sort ∈ calls → ∀ later, s.after (calls ++ later) = s.after calls ∧
      (s.after calls).replies later =
        later.map fun _ => ⟨.error .alreadySorted, s.after calls, []⟩) := by
  have hs : IsStart s baseline := isStart_of_start hstart
  have hclosed : ∀ calls, (s.after calls).finished ↔ .sort ∈ calls := by
    intro calls
    rw [finished_after_iff, hs.finished_eq]
    simp
  refine ⟨hclosed, ?_, ?_⟩
  · intro calls hcalls
    rw [after_append]
    have hanchor : (s.after calls).anchor = s.anchor := by rw [(hs.grows hcalls).frame]
    exact closes_sort (hs.finished_after hcalls) (hanchor ▸ (hs.rank_anchor hcalls).2)
  · intro calls hcalls later
    have hfinished := (hclosed calls).mpr hcalls
    rw [after_append]
    exact ⟨after_of_finished hfinished later, replies_of_finished hfinished later⟩

/-- A session with two listeners that wait for each other: the sort fails, and even a key that is
taken and one that is unknown are no longer looked at. -/
theorem single_use_after_cycle :
    ∃ (m n : Key) (s : Session Listener),
      (start .server [⟨"a", "a"⟩] (Naming.byValue "minecraft") .default).result = .ok s ∧
      (∃ listing, (s.after [.register m ⟨"m", "m"⟩, .register n ⟨"n", "n"⟩, .declare n m,
        .declare m n]).sort.result = .error (.cyclic listing)) ∧
      ∃ t, s.after [.register m ⟨"m", "m"⟩, .register n ⟨"n", "n"⟩, .declare n m, .declare m n,
          .sort] = t ∧
        t.replies [.register m ⟨"o", "o"⟩, .declare m ⟨"mod", "o", by decide, by decide,
          by decide⟩] = [⟨.error .alreadySorted, t, []⟩, ⟨.error .alreadySorted, t, []⟩] := by
  let m : Key := ⟨"mod", "m", by decide, by decide, by decide⟩
  let n : Key := ⟨"mod", "n", by decide, by decide, by decide⟩
  let calls : List (Call Listener) :=
    [.register m ⟨"m", "m"⟩, .register n ⟨"n", "n"⟩, .declare n m, .declare m n]
  have hrun : (start .server [⟨"a", "a"⟩] (Naming.byValue "minecraft") .default).result.map
      (fun s => (s.after calls).sort.result) = .ok (.error (.cyclic ⟨[[m, n]]⟩)) := by cbv
  obtain ⟨s, hstart, hresult⟩ := exists_of_map_eq_ok hrun
  have hlate := (single_use hstart).2.2 (calls ++ [.sort]) (by simp)
  exact ⟨m, n, s, hstart, ⟨_, hresult⟩, _, rfl, (hlate _).2⟩

end LoadOrder.Session
