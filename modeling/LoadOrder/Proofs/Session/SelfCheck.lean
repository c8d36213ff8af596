import LoadOrder.Proofs.Digraph.Check
import LoadOrder.Proofs.Digraph.InBounds
import LoadOrder.Proofs.Session.AnchorSafety
import LoadOrder.Proofs.Session.Lifecycle

/-!
# What a session finds when it checks its order

A session that has found an order can check it, and logs a warning if a check fails. Whether it
checks has no influence on what it answers and on what becomes of it (`SortsSoundly`): the order
that it found is topological and complete, and registry and listeners agree.

The warning ought never to come, and then whether a session checks would make no difference at all
(`ChecksOut`). One check can fail, though, that no listener dangles any more. Anchoring ties the
dangling listeners to the anchor, and they dangle still if no listener in the baseline namespace
reaches it (`IsStart.dangles_anchored_iff`). An anchor outside the namespace need not be reached by
one, and if it reaches one instead, it does not dangle itself and the sort succeeds
(`not_checksOut_outside`). Nothing else can go wrong (`checksOut_iff`).
-/

namespace LoadOrder

open Relation

variable {L : Type}

/-! ### Turning the check on or off -/

/-- The session with the check of the order turned on or off. -/
def Session.checking (s : Session L) (check : Bool) : Session L :=
  { s with policy := { s.policy with checkOrder := check } }

/-- The reply with the check turned on or off in the session. -/
def Reply.checking {α : Type} (reply : Reply L α) (check : Bool) : Reply L α :=
  { reply with session := reply.session.checking check }

/-- The opening with the check turned on or off in the session, if there is one. -/
def Opening.checking (opening : Opening L) (check : Bool) : Opening L :=
  { opening with result := opening.result.map (·.checking check) }

namespace Session

@[simp] theorem registry_checking (s : Session L) (check : Bool) :
    (s.checking check).registry = s.registry :=
  rfl

@[simp] theorem graph_checking (s : Session L) (check : Bool) :
    (s.checking check).graph = s.graph :=
  rfl

@[simp] theorem finished_checking (s : Session L) (check : Bool) :
    (s.checking check).finished = s.finished :=
  rfl

theorem anchored_checking (s : Session L) (check : Bool) :
    (s.checking check).anchored = s.anchored.checking check :=
  rfl

variable [DecidableEq L] {s : Session L} {key : Key} {order : List Nat} {check : Bool}
  {baseline : List L} {calls : List (Call L)}

/-- Enrolling does not look at the check. -/
theorem enroll_checking (s : Session L) (check : Bool) (key : Key) (listener : L) :
    (s.checking check).enroll key listener =
      (s.enroll key listener).map (Prod.map (·.checking check) id) := by
  have hmax : (s.checking check).policy.maxListeners = s.policy.maxListeners := rfl
  cases hconflict : s.registry.conflict? key listener with
  | some reason =>
    rw [enroll, enroll, registry_checking, hconflict]
    rfl
  | none =>
    have hvacant : (s.checking check).registry.conflict? key listener = none := hconflict
    rw [enroll_of_conflict?_eq_none hvacant, enroll_of_conflict?_eq_none hconflict,
      registry_checking, hmax]
    split
    · rfl
    · rfl

theorem enrollBaseline_checking (s : Session L) (check : Bool) (named : List (Key × L)) :
    enrollBaseline (s.checking check) named = (enrollBaseline s named).checking check := by
  induction named generalizing s with
  | nil => rfl
  | cons entry named ih =>
    obtain ⟨key, listener⟩ := entry
    rw [enrollBaseline, enrollBaseline, enroll_checking]
    cases s.enroll key listener with
    | error reason => rfl
    | ok enrolled =>
      show Opening.mk _ _ = _
      simp only [ih]
      rfl

/-- Two policies that differ in the check start the same session, but for the check. -/
theorem start_checking (side : Side) (baseline : List L) (naming : Naming L) (policy : Policy)
    (check : Bool) :
    start side baseline naming { policy with checkOrder := check } =
      (start side baseline naming policy).checking check := by
  unfold start
  cases naming.nameAll 0 baseline with
  | error reason => rfl
  | ok named =>
    cases hlast : named.getLast? with
    | none =>
      simp only [hlast]
      rfl
    | some entry =>
      have hblank : blank side { policy with checkOrder := check } entry.1 =
          (blank (L := L) side policy entry.1).checking check := rfl
      simp only [hlast, hblank, enrollBaseline_checking]
      -- the baseline is fixed in the same way
      obtain ⟨result, log⟩ := enrollBaseline (blank side policy entry.1) named
      cases result with
      | error reason => rfl
      | ok s => rfl

theorem perform_checking (s : Session L) (check : Bool) {call : Call L} (hcall : call ≠ .sort) :
    (s.checking check).perform call = (s.perform call).checking check := by
  cases call with
  | register key listener =>
    rw [perform, perform, register, register, enroll_checking, finished_checking]
    split
    · rfl
    · cases s.enroll key listener with
      | error reason => rfl
      | ok enrolled => rfl
  | declare first second =>
    rw [perform, perform, declare, declare, finished_checking, registry_checking, graph_checking]
    split
    · rfl
    · cases s.registry.position? first with
      | none => rfl
      | some u =>
        cases s.registry.position? second with
        | none => rfl
        | some v =>
          simp only
          split
          · rfl
          · cases s.graph.link u v with
            | error reason => rfl
            | ok linked => rfl
  | sort => exact absurd rfl hcall

/-- Before the sort the check plays no part in anything. -/
theorem after_checking (hcalls : .sort ∉ calls) :
    (s.checking check).after calls = (s.after calls).checking check := by
  induction calls generalizing s with
  | nil => rfl
  | cons call calls ih =>
    rw [List.mem_cons, not_or] at hcalls
    rw [after_cons, after_cons, perform_checking s check (Ne.symm hcalls.1)]
    exact ih hcalls.2

theorem replies_checking (hcalls : .sort ∉ calls) :
    (s.checking check).replies calls = (s.replies calls).map (·.checking check) := by
  induction calls generalizing s with
  | nil => rfl
  | cons call calls ih =>
    rw [List.mem_cons, not_or] at hcalls
    simp only [replies, perform_checking s check (Ne.symm hcalls.1), List.map_cons]
    exact congrArg _ (ih hcalls.2)

/-- Nor does it in what a sort answers and leaves behind. -/
theorem sort_checking (s : Session L) (check : Bool) :
    (s.checking check).sort.result = s.sort.result ∧
      (s.checking check).sort.session = s.sort.session.checking check := by
  cases hfinished : s.finished with
  | true =>
    rw [sort, sort, finished_checking, if_pos hfinished, if_pos hfinished]
    exact ⟨rfl, rfl⟩
  | false =>
    obtain ⟨hsession, hresult⟩ := sort_spec hfinished
    obtain ⟨hsession', hresult'⟩ := sort_spec ((finished_checking s check).trans hfinished)
    rw [hsession, hsession', hresult, hresult']
    exact ⟨rfl, rfl⟩

/-! ### A check that finds nothing wrong -/

/-- Of the checks on an order that has been found, only one can fail: that no listener dangles. -/
theorem Aligned.approves_iff_isAnchored (hs : s.Aligned)
    (hsort : s.graph.links.topoSort = some order) :
    s.approves order ↔ s.graph.links.isAnchored s.inBaselineAt := by
  obtain ⟨hrespects, hcomplete⟩ := Digraph.checks_of_topoSort hsort
  rw [approves, hrespects, hcomplete, hs.inStep.isBijective_eq_true, Bool.true_and, Bool.true_and,
    Bool.and_true]

theorem Aligned.isAnchored_iff (hs : s.Aligned) :
    s.graph.links.isAnchored s.inBaselineAt ↔ ∀ key, ¬ s.Dangles key := by
  rw [Digraph.isAnchored_iff]
  exact hs.forall_dangling_iff

theorem disordered_notMem_log (hopen : s.finished = false)
    (happroves : ∀ order, s.anchored.graph.links.topoSort = some order →
      s.anchored.approves order) (side : Side) : .disordered side ∉ s.sort.log := by
  rw [log_sort hopen]
  cases hsort : s.anchored.graph.links.topoSort with
  | none =>
    cases s.anchored.listCycles with
    | error fault => simp
    | ok listing => simp
  | some order =>
    have happroves := happroves order hsort
    cases hschedule : s.anchored.schedule order with
    | error reason => simp [happroves, hschedule]
    | ok schedule => simp [happroves, hschedule]

/-- If an order that is found has nothing wrong, then it is the same whether it is checked. -/
theorem perform_sort_checking (hopen : s.finished = false)
    (happroves : ∀ order, s.anchored.graph.links.topoSort = some order →
      s.anchored.approves order) :
    (s.checking check).perform .sort = (s.perform .sort).checking check := by
  have hlog : (s.checking check).sort.log = s.sort.log := by
    have hlinks : (s.anchored.checking check).graph.links = s.anchored.graph.links := rfl
    have hsame : ∀ order, (s.anchored.checking check).approves order = s.anchored.approves order :=
      fun _ => rfl
    rw [log_sort hopen, log_sort ((finished_checking s check).trans hopen), anchored_checking,
      hlinks]
    cases hsort : s.anchored.graph.links.topoSort with
    | none => rfl
    | some order =>
      have happroves := happroves order hsort
      simp only [hsame, happroves, Bool.not_true, Bool.and_false]
      rfl
  obtain ⟨hresult, hsession⟩ := sort_checking s check
  show Reply.mk _ _ _ = Reply.mk _ _ _
  rw [hresult, hsession, hlog]
  rfl

/-! ### What can be said of every sort -/

/-- Everything that the sort of the session that `s` is after these calls, and the checks on what it
finds, are sure of. -/
structure SortsSoundly (s : Session L) (calls : List (Call L)) : Prop where
  /-- The sort ends in a schedule or reports cycles. -/
  outcome : (∃ schedule, (s.after calls).sort.result = .ok schedule) ∨
    ∃ listing, (s.after calls).sort.result = .error (.cyclic listing)
  /-- There is a baseline, so it has a last listener to be the anchor. -/
  one_le_baselineSize : 1 ≤ (s.after calls).baselineSize
  /-- The index of the anchor is that of a node. -/
  anchor_lt : (s.after calls).baselineSize - 1 < (s.after calls).graph.size
  /-- Anchoring ends and never looks outside of a table. -/
  anchorDangling?_eq : (s.after calls).graph.links.anchorDangling? (s.after calls).inBaselineAt
      ((s.after calls).baselineSize - 1) =
    some ((s.after calls).graph.links.anchorDangling (s.after calls).inBaselineAt
      ((s.after calls).baselineSize - 1))
  /-- Neither does the search for an order. -/
  topoSort?_eq : (s.after calls).sort.session.graph.links.topoSort? =
    some (s.after calls).sort.session.graph.links.topoSort
  /-- Neither does the search for cycles, and each has a first member. -/
  cycles?_eq : (s.after calls).sort.session.graph.links.cycles? =
    some (s.after calls).sort.session.graph.links.cycles
  /-- Neither does the check that no listener dangles any more. -/
  isAnchored?_eq : (s.after calls).sort.session.graph.links.isAnchored?
      (s.after calls).sort.session.inBaselineAt =
    some ((s.after calls).sort.session.graph.links.isAnchored
      (s.after calls).sort.session.inBaselineAt)
  /-- An order that is found respects the edges. -/
  respectsArcs : ∀ order, (s.after calls).sort.session.graph.links.topoSort = some order →
    (s.after calls).sort.session.graph.links.respectsArcs order
  /-- An order that is found is complete. -/
  isComplete : ∀ order, (s.after calls).sort.session.graph.links.topoSort = some order →
    (s.after calls).sort.session.graph.links.isComplete order
  /-- Registry and listeners agree. -/
  isBijective : (s.after calls).sort.session.registry.isBijective
  /-- It makes no difference to the calls before whether orders are checked. -/
  replies_eq : ∀ check, (s.checking check).replies calls =
    (s.replies calls).map (·.checking check)
  /-- Nor to what the sort answers. -/
  result_eq : ∀ check, ((s.checking check).after calls).sort.result = (s.after calls).sort.result
  /-- Nor to the session that it leaves behind. -/
  session_eq : ∀ check, ((s.checking check).after calls).sort.session =
    (s.after calls).sort.session.checking check

/-- The check of the order never finds anything wrong in the sort of the session that `s` is after
these calls, and so it might as well be left out. -/
structure ChecksOut (s : Session L) (calls : List (Call L)) : Prop extends
    s.SortsSoundly calls where
  /-- An order that is found passes every check. -/
  approves : ∀ order, (s.after calls).sort.session.graph.links.topoSort = some order →
    (s.after calls).sort.session.approves order
  /-- No order is reported to be wrong. -/
  silent : ∀ side, .disordered side ∉ (s.after calls).sort.log
  /-- It makes no difference to any call, before the sort, in it or after, whether orders are
  checked. -/
  unaffected : ∀ check later, (s.checking check).replies (calls ++ .sort :: later) =
    (s.replies (calls ++ .sort :: later)).map (·.checking check)

namespace IsStart

theorem sortsSoundly (hs : IsStart s baseline) (hcalls : .sort ∉ calls) :
    s.SortsSoundly calls := by
  have halign : (s.after calls).Aligned := hs.aligned_after hcalls
  have hopen := hs.finished_after hcalls
  have hlt := hs.anchor_lt_size hcalls
  refine ⟨?_, ?_, ?_, Digraph.anchorDangling?_eq _ _ _, Digraph.topoSort?_eq _,
    Digraph.cycles?_eq _, Digraph.isAnchored?_eq _ _,
    fun order hsort => (Digraph.checks_of_topoSort hsort).1,
    fun order hsort => (Digraph.checks_of_topoSort hsort).2, ?_,
    fun check => replies_checking hcalls, fun check => ?_, fun check => ?_⟩
  · rcases sort_outcome halign hopen with ⟨entries, -, -, hok⟩ | ⟨-, listing, hresult, -⟩
    · exact Or.inl ⟨_, hok⟩
    · exact Or.inr ⟨listing, hresult⟩
  · rw [hs.baselineSize_after hcalls]
    exact hs.size_pos
  · rw [← Graph.size_links_eq, halign.size_eq]
    exact hlt
  · -- a sort registers nothing
    rw [registry_sort]
    exact halign.inStep.isBijective_eq_true
  · rw [after_checking hcalls]
    exact (sort_checking _ check).1
  · rw [after_checking hcalls]
    exact (sort_checking _ check).2

/-- What dangled before the sort dangles after it unless some listener in the baseline namespace
reaches the anchor. -/
theorem dangles_anchored_iff (hs : IsStart s baseline) (hcalls : .sort ∉ calls) :
    (s.after calls).anchored.Dangles key ↔ (s.after calls).Dangles key ∧
      ∀ base ∈ (s.after calls).registry.keys, (s.after calls).inBaseline base →
        ¬ (s.after calls).Reaches base s.anchor := by
  have halign : (s.after calls).Aligned := hs.aligned_after hcalls
  obtain ⟨nodes, hanch⟩ := hs.exists_anchored hcalls
  have hnone : (∀ v, (s.after calls).inBaselineAt v →
      ¬ (s.after calls).graph.links.Reaches v ((s.after calls).registry.rank s.anchor)) ↔
      ∀ base ∈ (s.after calls).registry.keys, (s.after calls).inBaseline base →
        ¬ (s.after calls).Reaches base s.anchor := by
    rw [forall_inBaselineAt_iff]
    refine forall₂_congr fun base hmem => forall_congr' fun _ => ?_
    rw [halign.reaches_iff hmem, and_iff_right (hs.rank_anchor hcalls).1]
  rw [halign.dangles_iff, (aligned_anchored halign).dangles_iff, ← hnone, and_assoc]
  exact and_congr_right fun hmem => hanch.dangling_iff (halign.rank_lt hmem)

/-- An order that is found passes the check exactly if no listener dangled before the sort, or some
listener in the baseline namespace reaches the anchor. -/
theorem approves_anchored_iff (hs : IsStart s baseline) (hcalls : .sort ∉ calls)
    (hsort : (s.after calls).anchored.graph.links.topoSort = some order) :
    (s.after calls).anchored.approves order ↔
      ((∃ key, (s.after calls).Dangles key) →
        ∃ base ∈ (s.after calls).registry.keys, (s.after calls).inBaseline base ∧
          (s.after calls).Reaches base s.anchor) := by
  have halign : (s.after calls).Aligned := hs.aligned_after hcalls
  have hanch : (s.after calls).anchored.Aligned := aligned_anchored halign
  rw [hanch.approves_iff_isAnchored hsort, hanch.isAnchored_iff]
  simp only [hs.dangles_anchored_iff hcalls]
  refine ⟨?_, ?_⟩
  · rintro hnone ⟨key, hkey⟩
    by_contra hfar
    exact hnone key ⟨hkey, fun base hmem hbase hreach => hfar ⟨base, hmem, hbase, hreach⟩⟩
  · rintro hnear key ⟨hkey, hfar⟩
    obtain ⟨base, hmem, hbase, hreach⟩ := hnear ⟨key, hkey⟩
    exact hfar base hmem hbase hreach

/-- The check finds nothing wrong in a sort exactly if every order that is found passes it. -/
theorem checksOut_iff_approves (hs : IsStart s baseline) (hcalls : .sort ∉ calls) :
    s.ChecksOut calls ↔
      ∀ order, (s.after calls).anchored.graph.links.topoSort = some order →
        (s.after calls).anchored.approves order := by
  have hopen := hs.finished_after hcalls
  refine ⟨fun hchecks => sort_session hopen ▸ hchecks.approves, ?_⟩
  intro happroves
  refine ⟨hs.sortsSoundly hcalls, ?_, disordered_notMem_log hopen happroves, ?_⟩
  · rw [sort_session hopen]
    exact happroves
  · intro check later
    have hclosed : ((s.after calls).perform .sort).session.finished = true :=
      finished_sort (s.after calls)
    have hchecking : (((s.after calls).perform .sort).checking check).session.finished = true :=
      hclosed
    -- before the sort, the sort itself, and the calls that come too late
    rw [replies_append, replies_append, replies_checking hcalls, after_checking hcalls, replies,
      replies, perform_sort_checking hopen happroves, replies_of_finished hclosed,
      replies_of_finished hchecking]
    simp only [List.map_append, List.map_cons, List.map_map]
    rfl

/-- A check finds nothing wrong exactly if the sort fails, or no listener dangled, or some listener
in the baseline namespace reaches the anchor. -/
theorem checksOut_iff_reaches (hs : IsStart s baseline) (hcalls : .sort ∉ calls) :
    s.ChecksOut calls ↔
      ((∃ schedule, (s.after calls).sort.result = .ok schedule) →
        (∃ key, (s.after calls).Dangles key) →
          ∃ base ∈ (s.after calls).registry.keys, (s.after calls).inBaseline base ∧
            (s.after calls).Reaches base s.anchor) := by
  rw [hs.checksOut_iff_approves hcalls]
  rcases sort_outcome (hs.aligned_after hcalls) (hs.finished_after hcalls) with
    ⟨entries, hsort, -, hresult⟩ | ⟨hsort, listing, hresult, -⟩
  · refine ⟨?_, ?_⟩
    · intro happroves _
      exact (hs.approves_anchored_iff hcalls hsort).mp (happroves _ hsort)
    · intro hnear order horder
      exact (hs.approves_anchored_iff hcalls horder).mpr (hnear ⟨_, hresult⟩)
  · -- no order is found, and so none is wrong
    refine iff_of_true ?_ ?_
    · intro order horder
      rw [hsort] at horder
      cases horder
    · rintro ⟨schedule, hok⟩
      rw [hresult] at hok
      cases hok

end IsStart

/-- Whether a session checks its order makes no difference to how it starts, and none to what a sort
answers and leaves behind. The check finds nothing wrong, and then makes no difference to the log
either, exactly if the sort fails, or no listener dangled before it, or some listener in the
baseline namespace reaches the anchor, and so in particular if the anchor is in this namespace
itself. -/
theorem checksOut_iff {side : Side} {naming : Naming L} {policy : Policy}
    (hstart : (start side baseline naming policy).result = .ok s)
    (hopen : (s.after calls).finished = false) :
    (∀ check, start side baseline naming { policy with checkOrder := check } =
      ⟨.ok (s.checking check), (start side baseline naming policy).log⟩) ∧
    s.SortsSoundly calls ∧
    (s.ChecksOut calls ↔
      ((∃ schedule, (s.after calls).sort.result = .ok schedule) →
        (∃ key, (s.after calls).Dangles key) →
          ∃ base ∈ (s.after calls).registry.keys, (s.after calls).inBaseline base ∧
            (s.after calls).Reaches base s.anchor)) ∧
    ((s.after calls).inBaseline s.anchor → s.ChecksOut calls) := by
  have hs : IsStart s baseline := isStart_of_start hstart
  have hcalls : .sort ∉ calls := sort_notMem hopen
  refine ⟨?_, hs.sortsSoundly hcalls, hs.checksOut_iff_reaches hcalls, ?_⟩
  · intro check
    rw [start_checking, Opening.checking, hstart]
    rfl
  · intro hbase
    rw [hs.checksOut_iff_reaches hcalls]
    exact fun _ _ => ⟨s.anchor, (hs.rank_anchor hcalls).1, hbase, ReflTransGen.refl⟩

/-- The baseline is outside its namespace, but a listener inside was declared to run before it, so
that what is put behind the baseline is tied to that one. -/
theorem checksOut_behind_base :
    ∃ (v x y : Key) (s : Session Listener),
      (start .client [⟨"v1", "v1"⟩] (Naming.byValue "mod") .default).result = .ok s ∧
      ¬ s.inBaseline s.anchor ∧
      (∃ schedule, (s.after [.register x ⟨"x", "x"⟩, .declare x v,
        .register y ⟨"y", "y"⟩]).sort.result = .ok schedule ∧ schedule.keys = [x, v, y]) ∧
      s.ChecksOut [.register x ⟨"x", "x"⟩, .declare x v, .register y ⟨"y", "y"⟩] := by
  let v : Key := ⟨"mod", "v1", by decide, by decide, by decide⟩
  let x : Key := ⟨"minecraft", "x", by decide, by decide, by decide⟩
  let y : Key := ⟨"mod", "y", by decide, by decide, by decide⟩
  let calls : List (Call Listener) :=
    [.register x ⟨"x", "x"⟩, .declare x v, .register y ⟨"y", "y"⟩]
  have hrun : (start .client [⟨"v1", "v1"⟩] (Naming.byValue "mod") .default).result.map
      (fun s => ((s.anchor, (s.after calls).finished, s.inBaseline v),
        ((s.after calls).inBaseline x, (s.after calls).registry.keys, (s.after calls).hasEdge x v),
        (s.after calls).sort.result.map Schedule.keys))
      = .ok ((v, false, false), (true, [v, x, y], .ok true), .ok [x, v, y]) := by cbv
  obtain ⟨s, hstart, hafter⟩ := exists_of_map_eq_ok hrun
  obtain ⟨hopening, hrest⟩ := Prod.mk.inj hafter
  obtain ⟨hanchor, hopening⟩ := Prod.mk.inj hopening
  obtain ⟨hopen, hout⟩ := Prod.mk.inj hopening
  obtain ⟨hdeclared, hsort⟩ := Prod.mk.inj hrest
  obtain ⟨hbase, hdeclared⟩ := Prod.mk.inj hdeclared
  obtain ⟨hkeys, hedge⟩ := Prod.mk.inj hdeclared
  refine ⟨v, x, y, s, hstart, ?_, exists_of_map_eq_ok hsort, ?_⟩
  · rw [hanchor, hout]
    decide
  · refine (checksOut_iff hstart hopen).2.2.1.mpr fun _ _ => ⟨x, ?_, hbase, ?_⟩
    · rw [hkeys]
      simp
    · rw [hanchor]
      exact ReflTransGen.single hedge

/-- The baseline is outside its namespace and was declared to run before a listener inside. It does
not dangle, and the sort succeeds; but what is put behind it dangles as before, and the sort reports
a wrong order. -/
theorem not_checksOut_outside :
    ∃ (v x y : Key) (s : Session Listener),
      (start .client [⟨"v1", "v1"⟩] (Naming.byValue "mod") .default).result = .ok s ∧
      (s.after [.register x ⟨"x", "x"⟩, .declare v x, .register y ⟨"y", "y"⟩]).finished = false ∧
      (∃ schedule, (s.after [.register x ⟨"x", "x"⟩, .declare v x,
        .register y ⟨"y", "y"⟩]).sort.result = .ok schedule ∧ schedule.keys = [v, x, y]) ∧
      .disordered .client ∈ (s.after [.register x ⟨"x", "x"⟩, .declare v x,
        .register y ⟨"y", "y"⟩]).sort.log ∧
      ¬ s.ChecksOut [.register x ⟨"x", "x"⟩, .declare v x, .register y ⟨"y", "y"⟩] := by
  let v : Key := ⟨"mod", "v1", by decide, by decide, by decide⟩
  let x : Key := ⟨"minecraft", "x", by decide, by decide, by decide⟩
  let y : Key := ⟨"mod", "y", by decide, by decide, by decide⟩
  let calls : List (Call Listener) :=
    [.register x ⟨"x", "x"⟩, .declare v x, .register y ⟨"y", "y"⟩]
  have hrun : (start .client [⟨"v1", "v1"⟩] (Naming.byValue "mod") .default).result.map
      (fun s => ((s.after calls).finished, (s.after calls).sort.result.map Schedule.keys,
        (s.after calls).sort.log.contains (.disordered .client)))
      = .ok (false, .ok [v, x, y], true) := by cbv
  obtain ⟨s, hstart, hafter⟩ := exists_of_map_eq_ok hrun
  obtain ⟨hopen, hafter⟩ := Prod.mk.inj hafter
  obtain ⟨hsort, hlog⟩ := Prod.mk.inj hafter
  have hmem : .disordered .client ∈ (s.after calls).sort.log := List.contains_iff_mem.mp hlog
  exact ⟨v, x, y, s, hstart, hopen, exists_of_map_eq_ok hsort, hmem,
    fun hchecks => hchecks.silent .client hmem⟩

end Session

end LoadOrder
