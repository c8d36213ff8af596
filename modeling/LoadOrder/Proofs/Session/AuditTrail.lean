import LoadOrder.Proofs.Session.EdgeLog
import LoadOrder.Proofs.Session.Opening
import LoadOrder.Proofs.Session.SelfCheck

/-!
# What the log tells of a session

The log of a history is what its calls log, one after the other (`trail`). It is enough to tell the
session by: the registrations in it are the keys behind the baseline with their indices
(`zipIdx_keys_after`), and the declarations in it that were new are the edges behind the chain of
the baseline, in the order in which they were made (`Logs.after_trail`). A call that is refused is
not in the log, and a sort logs how many edges it made, how many there are then, and what it ends in
(`log_sort_of_ok`, `log_sort_of_cyclic`).

All of this can be relied on (`LogsSoundly`), but for one thing. A sort that found an order may log
a warning before it reports that it is complete, namely that the order is wrong, which it never is.
The log is free of that (`IsAuditTrail`) exactly if the check of the order finds nothing wrong
(`isAuditTrail_iff`).
-/

namespace LoadOrder

open Relation

/-! ### Reading a log -/

namespace Event

/-- The key and the index that are registered, if the event reports that. -/
def registration? : Event → Option (Key × Nat)
  | .registered _ key index => some (key, index)
  | _ => none

/-- The pair of keys that got a new edge, if the event reports that. -/
def insertion? : Event → Option (Key × Key)
  | .declared _ first second true => some (first, second)
  | _ => none

/-- The keys that a log reports to be registered, with their indices. -/
def registrations (log : List Event) : List (Key × Nat) :=
  log.filterMap registration?

/-- The new edges that a log reports to be declared. -/
def insertions (log : List Event) : List (Key × Key) :=
  log.filterMap insertion?

/-- The event warns of these cycles: it shows their listing and counts them. -/
structure Warns (event : Event) (listing : CycleListing) : Prop where
  /-- It is a warning. -/
  level_eq : event.level = .warn
  /-- Its message is the listing. -/
  message_eq : event.message = listing.text
  /-- Its field `cycles` is the number of cycles. -/
  cycles_eq : event.fields.lookup "cycles" = some (.count listing.walks.length)

variable {log later : List Event}

theorem registrations_append :
    registrations (log ++ later) = registrations log ++ registrations later :=
  List.filterMap_append

theorem insertions_append : insertions (log ++ later) = insertions log ++ insertions later :=
  List.filterMap_append

theorem warns_cyclic (side : Side) (listing : CycleListing) :
    (Event.cyclic side listing).Warns listing :=
  ⟨rfl, rfl, rfl⟩

end Event

variable {L : Type}

/-- Whether the call is a sort. -/
def Call.isSort : Call L → Bool
  | .sort => true
  | _ => false

/-- The calls of a history before its first sort. -/
def Call.beforeSort (calls : List (Call L)) : List (Call L) :=
  calls.takeWhile fun call => !call.isSort

namespace Session

variable [DecidableEq L] {s : Session L} {key first second a b : Key} {listener : L}
  {baseline : List L} {log : List (Key × Key)} {calls : List (Call L)}

/-- What is logged along a history. -/
def trail (s : Session L) (calls : List (Call L)) : List Event :=
  (s.replies calls).flatMap Reply.log

/-- What a sort logs before it knows what it will come to, told from the edges before and after. -/
def begun (s : Session L) : List Event :=
  [.anchored s.side s.anchor (s.sort.session.graph.edgeCount - s.graph.edgeCount),
    .sorting s.side s.registry.size s.sort.session.graph.edgeCount]

/-- What the log of a history tells of the session for sure, and what the session that `s` is after
the history is sure to log of the next call. -/
structure LogsSoundly (s : Session L) (calls : List (Call L)) : Prop where
  /-- The registered keys are those of the baseline and then those that are reported. -/
  keys_eq : (s.after calls).registry.keys =
    s.registry.keys ++ (Event.registrations (s.trail calls)).map Prod.fst
  /-- The indices that are reported go on where those of the baseline end. -/
  indices_eq : (Event.registrations (s.trail calls)).map Prod.snd =
    List.range' s.baselineSize (Event.registrations (s.trail calls)).length
  /-- Before the sort the edges are those of the chain and those that are reported to be new. -/
  edge_iff : ∀ a b, (s.after (Call.beforeSort calls)).Edge a b ↔
    (a, b) ∈ s.chainEdges ∨ (a, b) ∈ Event.insertions (s.trail calls)
  /-- No edge that is reported to be new is one of the chain, and none is reported twice. -/
  nodup_edges : (s.chainEdges ++ Event.insertions (s.trail calls)).Nodup
  /-- A registration that is accepted is logged with the first index that is free. -/
  registered : ∀ key listener, (s.after calls).Accepts (.register key listener) →
    ((s.after calls).perform (.register key listener)).log =
      [.registered (s.after calls).side key (s.after calls).registry.size]
  /-- A declaration that is accepted is logged, as not new exactly if the edge is there already. -/
  declared : ∀ first second, (s.after calls).Accepts (.declare first second) → ∃ inserted,
    ((s.after calls).perform (.declare first second)).log =
      [.declared (s.after calls).side first second inserted] ∧
    (inserted = false ↔ (s.after calls).Edge first second)
  /-- A registration or declaration that is refused is not logged. -/
  refused : ∀ call reason, call ≠ .sort → ((s.after calls).perform call).result = .error reason →
    ((s.after calls).perform call).log = []
  /-- A session that has been sorted logs nothing. -/
  closed : (s.after calls).finished → ∀ call, ((s.after calls).perform call).log = []
  /-- A sort of an open session finds an order or cycles. -/
  outcome : (s.after calls).finished = false →
    (∃ schedule, (s.after calls).sort.result = .ok schedule) ∨
      ∃ listing, (s.after calls).sort.result = .error (.cyclic listing)
  /-- A sort takes no edge away, so the edges that it made are those that there are more. -/
  edgeCount_le : (s.after calls).graph.edgeCount ≤ (s.after calls).sort.session.graph.edgeCount
  /-- A sort that finds cycles warns of them. -/
  cyclic : ∀ listing, (s.after calls).sort.result = .error (.cyclic listing) → ∃ warning,
    (s.after calls).sort.log = (s.after calls).begun ++ [warning] ∧ warning.Warns listing
  /-- A sort that finds an order counts the registered listeners in the end. -/
  sorted : ∀ schedule, (s.after calls).sort.result = .ok schedule →
    ∃ checked, (checked = [] ∨ checked = [.disordered (s.after calls).side]) ∧
      (s.after calls).sort.log = (s.after calls).begun ++ checked ++
        [.sorted (s.after calls).side (s.after calls).registry.size]

/-- The log tells the whole history of the session, and nothing else is in it. -/
structure IsAuditTrail (s : Session L) (calls : List (Call L)) : Prop extends
    s.LogsSoundly calls where
  /-- A sort that finds an order counts the registered listeners and logs nothing else. -/
  exact : ∀ schedule, (s.after calls).sort.result = .ok schedule →
    (s.after calls).sort.log = (s.after calls).begun ++
      [.sorted (s.after calls).side (s.after calls).registry.size]

/-! ### Histories -/

theorem trail_cons (s : Session L) (call : Call L) (calls : List (Call L)) :
    s.trail (call :: calls) = (s.perform call).log ++ (s.perform call).session.trail calls :=
  rfl

theorem trail_of_finished (hfinished : s.finished = true) (later : List (Call L)) :
    s.trail later = [] := by
  rw [trail, replies_of_finished hfinished]
  simp

omit [DecidableEq L] in
theorem sort_notMem_beforeSort (calls : List (Call L)) : .sort ∉ Call.beforeSort calls := by
  intro hmem
  have hother := List.mem_takeWhile_imp hmem
  cases hother

/-- Enrolling the baseline is not reported as registering. -/
theorem silent_enrollBaseline (s : Session L) (named : List (Key × L)) :
    Event.registrations (enrollBaseline s named).log = [] ∧
      Event.insertions (enrollBaseline s named).log = [] := by
  induction named generalizing s with
  | nil => exact ⟨rfl, rfl⟩
  | cons entry named ih =>
    obtain ⟨key, listener⟩ := entry
    rw [enrollBaseline]
    -- a listener outside the namespace is warned of, which is neither
    cases s.enroll key listener with
    | error reason => cases s.inBaseline key <;> exact ⟨rfl, rfl⟩
    | ok enrolled =>
      obtain ⟨t, i⟩ := enrolled
      cases s.inBaseline key <;> exact ih t

/-- Neither a registration nor a declaration is reported at the start of a session. -/
theorem silent_start (side : Side) (baseline : List L) (naming : Naming L) (policy : Policy) :
    Event.registrations (start side baseline naming policy).log = [] ∧
      Event.insertions (start side baseline naming policy).log = [] := by
  unfold start
  split
  · exact ⟨rfl, rfl⟩
  · next named _ =>
    split
    · exact ⟨rfl, rfl⟩
    · next anchor _ _ =>
      obtain ⟨hregistrations, hinsertions⟩ := silent_enrollBaseline (blank side policy anchor) named
      dsimp only
      split
      · exact ⟨hregistrations, hinsertions⟩
      · rw [Event.registrations_append, Event.insertions_append, hregistrations, hinsertions]
        exact ⟨rfl, rfl⟩

/-- Nor is one by a sort. -/
theorem silent_sort (s : Session L) :
    Event.registrations s.sort.log = [] ∧ Event.insertions s.sort.log = [] := by
  cases hfinished : s.finished with
  | true =>
    rw [sort, if_pos hfinished]
    exact ⟨rfl, rfl⟩
  | false =>
    rw [log_sort hfinished]
    cases s.anchored.graph.links.topoSort with
    | none =>
      cases s.anchored.listCycles with
      | error fault => exact ⟨rfl, rfl⟩
      | ok listing => exact ⟨rfl, rfl⟩
    | some order =>
      dsimp only
      cases s.policy.checkOrder && !s.anchored.approves order <;>
        cases s.anchored.schedule order <;> exact ⟨rfl, rfl⟩

/-! ### The registered keys -/

/-- A call adds the registration that it logs behind the registered keys. -/
theorem zipIdx_keys_perform (s : Session L) (call : Call L) :
    (s.perform call).session.registry.keys.zipIdx =
      s.registry.keys.zipIdx ++ Event.registrations (s.perform call).log := by
  cases call with
  | register key listener =>
    rcases register_cases s key listener with ⟨reason, hrefused⟩ | ⟨-, t, i, henroll, hregistered⟩
    · rw [perform, hrefused]
      exact (List.append_nil _).symm
    · obtain ⟨-, -, rfl, -⟩ := enroll_eq_ok_iff.mp henroll
      have hkeys : t.registry.keys = s.registry.keys ++ [key] := by
        rw [Registry.keys, toList_of_enroll henroll, List.map_append]
        rfl
      rw [perform, hregistered]
      show t.registry.keys.zipIdx = s.registry.keys.zipIdx ++ [(key, s.registry.size)]
      rw [hkeys, List.zipIdx_append, Nat.zero_add, Registry.length_keys]
      rfl
  | declare first second =>
    rw [registry_perform_declare]
    rcases declare_cases s first second with
      ⟨reason, hrefused⟩ | ⟨-, -, -, -, graph, -, -, haccepted⟩
    · rw [perform, hrefused]
      exact (List.append_nil _).symm
    · rw [perform, haccepted]
      exact (List.append_nil _).symm
  | sort =>
    show s.sort.session.registry.keys.zipIdx = _ ++ Event.registrations s.sort.log
    rw [registry_sort, (silent_sort s).1, List.append_nil]

/-- The registered keys are told by the log, with their indices. -/
theorem zipIdx_keys_after (s : Session L) (calls : List (Call L)) :
    (s.after calls).registry.keys.zipIdx =
      s.registry.keys.zipIdx ++ Event.registrations (s.trail calls) := by
  induction calls generalizing s with
  | nil => exact (List.append_nil _).symm
  | cons call calls ih =>
    rw [after_cons, ih, zipIdx_keys_perform, trail_cons, Event.registrations_append,
      List.append_assoc]

theorem keys_after_eq (s : Session L) (calls : List (Call L)) :
    (s.after calls).registry.keys =
      s.registry.keys ++ (Event.registrations (s.trail calls)).map Prod.fst := by
  have hkeys := congrArg (List.map Prod.fst) (zipIdx_keys_after s calls)
  rwa [List.map_append, List.zipIdx_map_fst, List.zipIdx_map_fst] at hkeys

theorem indices_registrations (s : Session L) (calls : List (Call L)) :
    (Event.registrations (s.trail calls)).map Prod.snd =
      List.range' s.registry.size (Event.registrations (s.trail calls)).length := by
  have hindices := congrArg (List.map Prod.snd) (zipIdx_keys_after s calls)
  rw [List.map_append, List.zipIdx_map_snd, List.zipIdx_map_snd, keys_after_eq, List.length_append,
    List.length_map, ← List.range'_append_1, Nat.zero_add, Registry.length_keys] at hindices
  exact (List.append_cancel_left hindices).symm

/-! ### The edges -/

theorem Logs.edge_iff (hs : s.Logs log) (halign : s.Aligned) :
    s.Edge a b ↔ (a, b) ∈ log := by
  rw [halign.edge_iff]
  refine ⟨?_, ?_⟩
  · rintro ⟨ha, hb, harc⟩
    exact (Digraph.LogsBy.mem_iff hs ha hb).mpr harc
  · intro hmem
    obtain ⟨ha, hb⟩ := hs.mem_names _ hmem
    exact ⟨ha, hb, (Digraph.LogsBy.mem_iff hs ha hb).mp hmem⟩

/-- A call that is no sort makes the edge that it reports to be new, and none if it reports none. -/
theorem Logs.perform_insertions (hs : s.Logs log) (halign : s.Aligned) {call : Call L}
    (hcall : call ≠ .sort) :
    (s.perform call).session.Logs (log ++ Event.insertions (s.perform call).log) := by
  cases call with
  | register key listener =>
    have hsilent : Event.insertions (s.perform (.register key listener)).log = [] := by
      rcases register_cases s key listener with ⟨reason, hrefused⟩ | ⟨-, t, i, -, hregistered⟩
      · rw [Session.perform, hrefused]
        rfl
      · rw [Session.perform, hregistered]
        rfl
    rw [hsilent, List.append_nil]
    exact hs.register halign
  | declare first second =>
    rcases declare_cases s first second with
      ⟨reason, hrefused⟩ | ⟨-, hfirst, hsecond, -, graph, hnodes, hlinks, haccepted⟩
    · rw [Session.perform, hrefused]
      show s.Logs (log ++ [])
      rwa [List.append_nil]
    · have hlater := Digraph.LogsBy.insertArc hs hfirst hsecond
        ⟨halign.rank_lt hfirst, halign.rank_lt hsecond⟩
      -- the graph admits the arc exactly if the edge is not in the log
      have hadmits := (halign.admits_iff hfirst hsecond).trans (not_congr (hs.edge_iff halign))
      rw [Session.perform, haccepted]
      show graph.links.LogsBy s.registry.keys _
      rw [hlinks]
      split at hlater
      · next hmem =>
        rw [Bool.eq_false_iff.mpr (mt hadmits.mp (not_not_intro hmem))]
        show Digraph.LogsBy _ _ (log ++ [])
        rwa [List.append_nil]
      · next hnew =>
        rw [hadmits.mpr hnew]
        exact hlater
  | sort => exact absurd rfl hcall

/-- Before the sort the edges are those of the start and those that the log reports to be new, in
the order in which they were made. -/
theorem Logs.after_trail (hs : s.Logs log) (halign : s.Aligned) (hcalls : .sort ∉ calls) :
    (s.after calls).Logs (log ++ Event.insertions (s.trail calls)) := by
  induction calls generalizing s log with
  | nil =>
    show s.Logs (log ++ [])
    rwa [List.append_nil]
  | cons call calls ih =>
    rw [List.mem_cons, not_or] at hcalls
    have hstep := hs.perform_insertions halign (Ne.symm hcalls.1)
    have hrest := ih hstep (grows_perform halign (Ne.symm hcalls.1)).aligned hcalls.2
    rwa [List.append_assoc, ← Event.insertions_append] at hrest

/-- From the sort on no edge is reported to be new. -/
theorem insertions_trail_beforeSort (s : Session L) (calls : List (Call L)) :
    Event.insertions (s.trail (Call.beforeSort calls)) = Event.insertions (s.trail calls) := by
  induction calls generalizing s with
  | nil => rfl
  | cons call calls ih =>
    cases call with
    | sort =>
      have hfinished : (s.perform .sort).session.finished = true := finished_sort s
      rw [trail_cons, trail_of_finished hfinished, List.append_nil]
      exact (silent_sort s).2.symm
    | register key listener =>
      have hbefore : Call.beforeSort (.register key listener :: calls) =
          .register key listener :: Call.beforeSort calls := rfl
      rw [hbefore, trail_cons, trail_cons, Event.insertions_append, Event.insertions_append, ih]
    | declare first second =>
      have hbefore : Call.beforeSort (.declare first second :: calls) =
          .declare first second :: Call.beforeSort calls := rfl
      rw [hbefore, trail_cons, trail_cons, Event.insertions_append, Event.insertions_append, ih]

omit [DecidableEq L] in
/-- A sort makes as many edges as it reports. -/
theorem Logs.edgeCount_anchored (hs : s.Logs log) :
    s.anchored.graph.edgeCount =
      s.graph.edgeCount + ({ s with finished := true } : Session L).anchorDangling.2.length := by
  have hlater : s.anchored.graph.links.HasLog (_ ++ List.map _ _) :=
    hs.hasLog.anchorAll s.inBaselineAt (s.baselineSize - 1) (List.range s.graph.links.size)
  rw [Graph.edgeCount, Graph.edgeCount, hlater.arcCount_eq, hs.hasLog.arcCount_eq]
  simp only [List.length_append, List.length_map]
  rfl

/-! ### The sort -/

/-- What a sort counts at its beginning is told by the edges before and after, and by the registered
listeners. -/
theorem begun_eq (hs : s.Logs log) (halign : s.Aligned) (hopen : s.finished = false) :
    s.begun =
      [.anchored s.side s.anchor ({ s with finished := true } : Session L).anchorDangling.2.length,
        .sorting s.side s.anchored.graph.size s.anchored.graph.edgeCount] := by
  rw [begun, sort_session hopen, hs.edgeCount_anchored, Nat.add_sub_cancel_left,
    ← Graph.size_links_eq, (aligned_anchored halign).size_eq, registry_anchored]

/-- A sort that finds an order reports the end, and that the order is wrong if a check fails. -/
theorem log_sort_of_ok {schedule : Schedule L} (hs : s.Logs log) (halign : s.Aligned)
    (hok : s.sort.result = .ok schedule) :
    ∃ order, s.anchored.graph.links.topoSort = some order ∧ s.sort.log = s.begun ++
      (if s.policy.checkOrder && !s.anchored.approves order then [.disordered s.side] else []) ++
        [.sorted s.side s.registry.size] := by
  have hopen := finished_of_sort hok
  rcases sort_outcome halign hopen with ⟨entries, hsort, hperm, hentries⟩ | ⟨-, _, hcyclic, -⟩
  · obtain rfl := Except.ok.inj (hok.symm.trans hentries)
    have hschedule : s.anchored.schedule (s.registry.ranks entries) = .ok ⟨entries⟩ := by
      simpa only [hsort, hok, eq_comm] using (sort_spec hopen).2
    have hsize : Schedule.size ⟨entries⟩ = s.registry.size := by
      rw [Schedule.size, hperm.length_eq, Registry.length_toList]
    refine ⟨_, hsort, ?_⟩
    rw [log_sort hopen, ← begun_eq hs halign hopen]
    simp only [hsort, hschedule, hsize, List.append_assoc]
  · rw [hok] at hcyclic
    cases hcyclic

/-- A sort that finds cycles warns of them. -/
theorem log_sort_of_cyclic {listing : CycleListing} (hs : s.Logs log) (halign : s.Aligned)
    (hcyclic : s.sort.result = .error (.cyclic listing)) :
    s.sort.log = s.begun ++ [.cyclic s.side listing] := by
  have hopen : s.finished = false := finished_of_ne_alreadySorted (by rw [hcyclic]; nofun)
  obtain ⟨-, hspec⟩ := sort_spec hopen
  rw [log_sort hopen, ← begun_eq hs halign hopen]
  rcases sort_outcome halign hopen with ⟨entries, -, -, hok⟩ | ⟨hsort, -⟩
  · rw [hok] at hcyclic
    cases hcyclic
  · rw [hsort, hcyclic] at hspec
    rw [hsort]
    cases hlisting : s.anchored.listCycles with
    | error fault =>
      rw [hlisting] at hspec
      cases hspec
    | ok found =>
      rw [hlisting] at hspec
      injection hspec with hrefusal
      injection hrefusal with hfound
      rw [hfound]

/-- If an order is found, nothing comes between the beginning and the end of the log exactly if the
order is not checked or passes the check. -/
theorem exact_iff (hlogs : s.Logs log) (halign : s.Aligned) :
    (∀ schedule, s.sort.result = .ok schedule →
        s.sort.log = s.begun ++ [.sorted s.side s.registry.size]) ↔
      (s.policy.checkOrder → (∃ schedule, s.sort.result = .ok schedule) →
        ∀ order, s.anchored.graph.links.topoSort = some order → s.anchored.approves order) := by
  refine ⟨?_, ?_⟩
  · rintro hexact hcheck ⟨schedule, hok⟩ order horder
    obtain ⟨found, hsort, hlog⟩ := log_sort_of_ok hlogs halign hok
    obtain rfl := Option.some.inj (horder.symm.trans hsort)
    by_contra hwrong
    -- the warning would make the log longer
    rw [hexact schedule hok, hcheck, Bool.eq_false_iff.mpr hwrong] at hlog
    simpa using congrArg List.length hlog
  · intro happroves schedule hok
    obtain ⟨order, hsort, hlog⟩ := log_sort_of_ok hlogs halign hok
    rw [hlog, if_neg, List.append_nil]
    intro hwarned
    obtain ⟨hcheck, hwrong⟩ := Bool.and_eq_true_iff.mp hwarned
    rw [happroves hcheck ⟨schedule, hok⟩ order hsort] at hwrong
    cases hwrong

/-! ### One call -/

theorem log_of_accepts_register (haccepts : s.Accepts (.register key listener)) :
    (s.perform (.register key listener)).log = [.registered s.side key s.registry.size] := by
  obtain ⟨-, t, i, henroll, hregistered⟩ := register_of_accepts haccepts
  obtain ⟨-, -, rfl, -⟩ := enroll_eq_ok_iff.mp henroll
  rw [perform, hregistered]

theorem Aligned.log_of_accepts_declare (hs : s.Aligned)
    (haccepts : s.Accepts (.declare first second)) :
    ∃ inserted, (s.perform (.declare first second)).log = [.declared s.side first second inserted] ∧
      (inserted = false ↔ s.Edge first second) := by
  obtain ⟨-, hfirst, hsecond, -, graph, -, -, haccepted⟩ := declare_of_accepts haccepts
  refine ⟨_, by rw [perform, haccepted], ?_⟩
  rw [← Bool.not_eq_true]
  exact (hs.admits_iff hfirst hsecond).not_left

/-! ### The whole log -/

theorem logsSoundly_of_start {side : Side} {naming : Naming L} {policy : Policy}
    (hstart : (start side baseline naming policy).result = .ok s) (calls : List (Call L)) :
    s.LogsSoundly calls := by
  have hs : IsStart s baseline := isStart_of_start hstart
  have halign : (s.after calls).Aligned := ((Consistent.of_start hstart).after calls).aligned
  have hlogs := logs_after hstart calls
  have hbefore := (logs_of_start hstart).after_trail hs.aligned (sort_notMem_beforeSort calls)
  have hbeforeAlign := hs.aligned_after (sort_notMem_beforeSort calls)
  rw [insertions_trail_beforeSort] at hbefore
  exact {
    keys_eq := keys_after_eq s calls
    indices_eq := hs.baselineSize_eq ▸ indices_registrations s calls
    edge_iff := fun a b => (hbefore.edge_iff hbeforeAlign).trans List.mem_append
    nodup_edges := hbefore.nodup
    registered := fun key listener => log_of_accepts_register
    declared := fun first second => halign.log_of_accepts_declare
    refused := fun call reason hcall hresult => by rw [perform_eq_of_error hcall hresult]
    closed := fun hfinished call => by rw [perform_of_finished hfinished]
    outcome := fun hopen => by
      rcases sort_outcome halign hopen with ⟨entries, -, -, hok⟩ | ⟨-, listing, hcyclic, -⟩
      · exact Or.inl ⟨_, hok⟩
      · exact Or.inr ⟨listing, hcyclic⟩
    edgeCount_le := by
      cases hfinished : (s.after calls).finished with
      | true => rw [sort, if_pos hfinished, refuse]
      | false =>
        rw [sort_session hfinished, hlogs.edgeCount_anchored]
        exact Nat.le_add_right _ _
    cyclic := fun listing hcyclic =>
      ⟨_, log_sort_of_cyclic hlogs halign hcyclic, Event.warns_cyclic _ listing⟩
    sorted := fun schedule hok => by
      obtain ⟨order, -, hlog⟩ := log_sort_of_ok hlogs halign hok
      refine ⟨_, ?_, hlog⟩
      split
      · exact Or.inr rfl
      · exact Or.inl rfl }

/-- Only the warning of a wrong order can be superfluous, and it is logged only if the order is
checked and listeners dangle still. -/
theorem isAuditTrail_iff_reaches {side : Side} {naming : Naming L} {policy : Policy}
    (hstart : (start side baseline naming policy).result = .ok s) :
    s.IsAuditTrail calls ↔
      (policy.checkOrder → (∃ schedule, (s.after calls).sort.result = .ok schedule) →
        (∃ key, (s.after calls).Dangles key) →
          ∃ base ∈ (s.after calls).registry.keys, (s.after calls).inBaseline base ∧
            (s.after calls).Reaches base s.anchor) := by
  have hs : IsStart s baseline := isStart_of_start hstart
  have hlogs := logs_after hstart calls
  have halign : (s.after calls).Aligned := ((Consistent.of_start hstart).after calls).aligned
  -- a sort can succeed only if there was none before
  have hfirst : ∀ {schedule}, (s.after calls).sort.result = .ok schedule → .sort ∉ calls :=
    fun hok => sort_notMem (finished_of_sort hok)
  have hpolicy : .sort ∉ calls → (s.after calls).policy = policy := by
    intro hcalls
    rw [(hs.grows hcalls).frame]
    exact (opens_of_start hstart).policy_eq
  refine Iff.trans ⟨IsAuditTrail.exact, IsAuditTrail.mk (logsSoundly_of_start hstart calls)⟩ ?_
  rw [exact_iff hlogs halign]
  refine ⟨?_, ?_⟩
  · rintro happroves hcheck ⟨schedule, hok⟩
    obtain ⟨order, hsort, -⟩ := log_sort_of_ok hlogs halign hok
    rw [← hpolicy (hfirst hok)] at hcheck
    exact (hs.approves_anchored_iff (hfirst hok) hsort).mp
      (happroves hcheck ⟨schedule, hok⟩ order hsort)
  · rintro hnear hcheck ⟨schedule, hok⟩ order hsort
    rw [hpolicy (hfirst hok)] at hcheck
    exact (hs.approves_anchored_iff (hfirst hok) hsort).mpr (hnear hcheck ⟨schedule, hok⟩)

/-- The log of a session that has been started tells its keys and indices, its edges before the sort
and what the sort made of them, and nothing in it is superfluous but the warning of a wrong order.
There is no such warning exactly if the check is turned off, or the sort fails, or no listener
dangled before it, or some listener in the baseline namespace reaches the anchor, and so in
particular if the anchor is in this namespace itself. -/
theorem isAuditTrail_iff {side : Side} {naming : Naming L} {policy : Policy}
    (hstart : (start side baseline naming policy).result = .ok s) :
    baseline.map naming = s.registry.keys.map some ∧
    (Event.registrations (start side baseline naming policy).log = [] ∧
      Event.insertions (start side baseline naming policy).log = []) ∧
    s.LogsSoundly calls ∧
    (s.IsAuditTrail calls ↔
      (policy.checkOrder → (∃ schedule, (s.after calls).sort.result = .ok schedule) →
        (∃ key, (s.after calls).Dangles key) →
          ∃ base ∈ (s.after calls).registry.keys, (s.after calls).inBaseline base ∧
            (s.after calls).Reaches base s.anchor)) ∧
    ((s.after calls).inBaseline s.anchor → s.IsAuditTrail calls) := by
  have hopens := opens_of_start hstart
  have hnamed : baseline.map naming = s.registry.keys.map some := by
    rw [← hopens.listeners_eq]
    exact map_naming_eq hopens.naming_eq
  refine ⟨hnamed, silent_start side baseline naming policy, logsSoundly_of_start hstart calls,
    isAuditTrail_iff_reaches hstart, ?_⟩
  intro hbase
  rw [isAuditTrail_iff_reaches hstart]
  rintro - ⟨schedule, hok⟩ -
  have hcalls := sort_notMem (finished_of_sort hok)
  exact ⟨s.anchor, ((isStart_of_start hstart).rank_anchor hcalls).1, hbase, ReflTransGen.refl⟩

/-- The edge of the baseline is declared once more, another edge is declared twice, and a key that
is taken is refused: only one edge is new, and the refusal is not logged. -/
theorem isAuditTrail_one_added :
    ∃ (a b m : Key) (s : Session Listener),
      let calls : List (Call Listener) := [.register m ⟨"m", "m"⟩, .declare a b, .declare m b,
        .declare m b, .register m ⟨"n", "n"⟩]
      (start .server [⟨"a", "a"⟩, ⟨"b", "b"⟩] (Naming.byValue "minecraft") .default).result =
        .ok s ∧
      s.trail (calls ++ [.sort]) = [.registered .server m 2, .declared .server a b false,
        .declared .server m b true, .declared .server m b false, .anchored .server b 0,
        .sorting .server 3 2, .sorted .server 3] ∧
      s.IsAuditTrail calls := by
  let a : Key := ⟨"minecraft", "a", by decide, by decide, by decide⟩
  let b : Key := ⟨"minecraft", "b", by decide, by decide, by decide⟩
  let m : Key := ⟨"mod", "m", by decide, by decide, by decide⟩
  let calls : List (Call Listener) := [.register m ⟨"m", "m"⟩, .declare a b, .declare m b,
    .declare m b, .register m ⟨"n", "n"⟩]
  have hrun : (start .server [⟨"a", "a"⟩, ⟨"b", "b"⟩] (Naming.byValue "minecraft")
      .default).result.map (fun s => (s.trail (calls ++ [.sort]), s.inBaseline s.anchor)) =
      .ok ([.registered .server m 2, .declared .server a b false, .declared .server m b true,
        .declared .server m b false, .anchored .server b 0, .sorting .server 3 2,
        .sorted .server 3], true) := by cbv
  obtain ⟨s, hstart, hafter⟩ := exists_of_map_eq_ok hrun
  obtain ⟨htrail, hanchor⟩ := Prod.mk.inj hafter
  have hbase : (s.after calls).inBaseline s.anchor := by
    rw [(isStart_of_start hstart).inBaseline_after (by simp [calls]), hanchor]
  exact ⟨a, b, m, s, hstart, htrail, (isAuditTrail_iff hstart).2.2.2.2 hbase⟩

/-- The baseline is outside its namespace and was declared to run before a listener inside. What is
put behind it dangles as before, and the log has a warning of a wrong order, though the order is
right. -/
theorem not_isAuditTrail_outside :
    ∃ (v x y : Key) (s : Session Listener),
      let calls : List (Call Listener) := [.register x ⟨"x", "x"⟩, .declare v x,
        .register y ⟨"y", "y"⟩]
      (start .client [⟨"v1", "v1"⟩] (Naming.byValue "mod") .default).result = .ok s ∧
      (∃ schedule, (s.after calls).sort.result = .ok schedule ∧ schedule.keys = [v, x, y]) ∧
      (s.after calls).sort.log = [.anchored .client v 1, .sorting .client 3 2, .disordered .client,
        .sorted .client 3] ∧
      ¬ s.IsAuditTrail calls := by
  let v : Key := ⟨"mod", "v1", by decide, by decide, by decide⟩
  let x : Key := ⟨"minecraft", "x", by decide, by decide, by decide⟩
  let y : Key := ⟨"mod", "y", by decide, by decide, by decide⟩
  let calls : List (Call Listener) := [.register x ⟨"x", "x"⟩, .declare v x,
    .register y ⟨"y", "y"⟩]
  have hrun : (start .client [⟨"v1", "v1"⟩] (Naming.byValue "mod") .default).result.map
      (fun s => ((s.after calls).sort.result.map Schedule.keys, (s.after calls).sort.log)) =
      .ok (.ok [v, x, y], [.anchored .client v 1, .sorting .client 3 2, .disordered .client,
        .sorted .client 3]) := by cbv
  obtain ⟨s, hstart, hafter⟩ := exists_of_map_eq_ok hrun
  obtain ⟨hsort, hlog⟩ := Prod.mk.inj hafter
  refine ⟨v, x, y, s, hstart, exists_of_map_eq_ok hsort, hlog, ?_⟩
  intro haudit
  obtain ⟨schedule, hok, -⟩ := exists_of_map_eq_ok hsort
  -- the log would be shorter without the warning
  have hshort := congrArg List.length (hlog.symm.trans (haudit.exact schedule hok))
  cases hshort

end Session

end LoadOrder
