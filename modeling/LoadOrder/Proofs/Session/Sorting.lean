import LoadOrder.Proofs.Session.Edges
import LoadOrder.Session.Sort

/-!
# What a sort does to the session

A sort of an open session leaves behind `s.anchored`, the session with its dangling listeners put
behind the anchor and closed for good, and then answers from the graph of that session alone
(`sort_spec`) and logs what it did (`log_sort`). Keys, listeners and the baseline are the same as
before, so what `Digraph.Anchored` says of the graph can be said in keys.
-/

namespace LoadOrder.Session

variable {L : Type} {s : Session L}

/-- The session with its dangling listeners behind the anchor, and closed. -/
def anchored (s : Session L) : Session L :=
  ({ s with finished := true } : Session L).anchorDangling.1

@[simp] theorem registry_anchored (s : Session L) : s.anchored.registry = s.registry :=
  rfl

theorem aligned_anchored [DecidableEq L] (hs : s.Aligned) : s.anchored.Aligned :=
  ⟨hs.nodes_eq, hs.inStep⟩

/-- What anchoring does to the graph, the baseline listeners being the base nodes. -/
theorem anchored_links [DecidableEq L] (hs : s.Aligned)
    (hanchor : s.baselineSize - 1 < s.registry.size) :
    ∃ nodes, Digraph.Anchored s.graph.links s.anchored.graph.links s.inBaselineAt
      (s.baselineSize - 1) (List.range s.graph.links.size) nodes :=
  ⟨_, Digraph.anchored_anchorDangling s.inBaselineAt (hs.size_eq.symm ▸ hanchor)⟩

/-! ### The answer of a sort -/

section Identity

variable [DecidableEq L]

/-- An order is turned into a schedule, and where there is none the cycles are reported. -/
theorem sort_spec (hopen : s.finished = false) :
    s.sort.session = s.anchored ∧
      s.sort.result =
        match s.anchored.graph.links.topoSort with
        | some order => s.anchored.schedule order
        | none =>
          match s.anchored.listCycles with
          | .error fault => .error (.graph fault)
          | .ok listing => .error (.cyclic listing) := by
  have hanchored : ({ s with finished := true } : Session L).anchorDangling.1 = s.anchored := rfl
  rw [sort, if_neg (by simp [hopen])]
  simp only [hanchored]
  cases s.anchored.graph.links.topoSort with
  | none =>
    cases s.anchored.listCycles with
    | error fault => exact ⟨rfl, rfl⟩
    | ok listing => exact ⟨rfl, rfl⟩
  | some order =>
    cases hschedule : s.anchored.schedule order with
    | error reason => simp only [hschedule, and_self]
    | ok schedule => simp only [hschedule, and_self]

theorem sort_session (hopen : s.finished = false) : s.sort.session = s.anchored :=
  (sort_spec hopen).1

/-- A sort logs how many listeners it put behind the anchor and what it sorts, then whether the
order fails a check that is made, and then what it ends in. -/
theorem log_sort (hopen : s.finished = false) :
    s.sort.log =
      [.anchored s.side s.anchor ({ s with finished := true } : Session L).anchorDangling.2.length,
        .sorting s.side s.anchored.graph.size s.anchored.graph.edgeCount] ++
      match s.anchored.graph.links.topoSort with
      | some order =>
        (if s.policy.checkOrder && !s.anchored.approves order then [.disordered s.side] else []) ++
          match s.anchored.schedule order with
          | .error _ => []
          | .ok schedule => [.sorted s.side schedule.size]
      | none =>
        match s.anchored.listCycles with
        | .error _ => []
        | .ok listing => [.cyclic s.side listing] := by
  have hanchored : ({ s with finished := true } : Session L).anchorDangling.1 = s.anchored := rfl
  have hside : s.anchored.side = s.side := rfl
  have hanchor : s.anchored.anchor = s.anchor := rfl
  have hpolicy : s.anchored.policy = s.policy := rfl
  rw [sort, if_neg (by simp [hopen])]
  simp only [hanchored, hside, hanchor, hpolicy]
  cases s.anchored.graph.links.topoSort with
  | none =>
    cases s.anchored.listCycles with
    | error fault => rfl
    | ok listing => rfl
  | some order =>
    cases hschedule : s.anchored.schedule order with
    | error reason => simp only [hschedule, List.append_nil]
    | ok schedule => simp only [hschedule, List.append_assoc]

theorem finished_sort (s : Session L) : s.sort.session.finished = true := by
  cases hfinished : s.finished with
  | true =>
    -- a second sort is refused
    rw [sort, if_pos hfinished]
    exact hfinished
  | false =>
    rw [sort_session hfinished]
    rfl

/-- A sort registers nothing. -/
theorem registry_sort (s : Session L) : s.sort.session.registry = s.registry := by
  cases hfinished : s.finished with
  | true => rw [sort, if_pos hfinished, refuse]
  | false => rw [sort_session hfinished, registry_anchored]

/-- Only a session that has been sorted refuses for that. -/
theorem finished_of_ne_alreadySorted (hne : s.sort.result ≠ .error .alreadySorted) :
    s.finished = false := by
  cases hfinished : s.finished with
  | false => rfl
  | true =>
    rw [sort, if_pos hfinished] at hne
    exact absurd rfl hne

/-- A session whose sort succeeds was open. -/
theorem finished_of_sort {schedule : Schedule L} (hresult : s.sort.result = .ok schedule) :
    s.finished = false :=
  finished_of_ne_alreadySorted (by rw [hresult]; nofun)

end Identity

end LoadOrder.Session
