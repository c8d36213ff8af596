import LoadOrder.Proofs.Session.Sorting
import LoadOrder.Proofs.Session.Start
import LoadOrder.Session.Call

/-!
# What a history leaves behind

A call is refused and changes nothing, or does one thing (`register_cases`, `declare_cases`). Which
calls a session `Accepts` is told by what it holds (`Aligned.accepts_register_iff`,
`Aligned.accepts_declare_iff`). Registering grows a session by no edge and declaring by at most one
(`grows_perform`). Along a history without a sort the pairs add up to `s.accepted calls`, the
declarations that were answered with success (`grows_after`); only a sort closes the session
(`finished_after_iff`).

So the edges of an open session are those that have been `Stated`: between neighbours of the
baseline, and those that were accepted (`IsStart.edge_after_iff`). None of them leads from a key
to itself (`not_stated_self`).
-/

namespace LoadOrder.Session

variable {L : Type} {s t : Session L} {key a b : Key} {listener : L} {i : Nat}

/-! ### Calls -/

/-- A declaration is refused, or it names two different registered keys and puts an arc between
their ranks. -/
theorem declare_cases (s : Session L) (a b : Key) :
    (∃ reason, s.declare a b = s.refuse reason) ∨
      s.finished = false ∧ a ∈ s.registry.keys ∧ b ∈ s.registry.keys ∧ a ≠ b ∧
        ∃ graph : Graph L, graph.nodes = s.graph.nodes ∧
          graph.links = s.graph.links.insertArc (s.registry.rank a) (s.registry.rank b) ∧
          s.declare a b = ⟨.ok (), { s with graph }, [.declared s.side a b
            (s.graph.links.admits (s.registry.rank a) (s.registry.rank b))]⟩ := by
  unfold declare
  split
  · exact Or.inl ⟨_, rfl⟩
  · next hopen =>
    cases ha : s.registry.position? a with
    | none => exact Or.inl ⟨_, rfl⟩
    | some u =>
      cases hb : s.registry.position? b with
      | none => exact Or.inl ⟨_, rfl⟩
      | some v =>
        obtain ⟨hakey, rfl⟩ := Registry.position?_eq_some_iff.mp ha
        obtain ⟨hbkey, rfl⟩ := Registry.position?_eq_some_iff.mp hb
        by_cases heq : s.registry.rank a = s.registry.rank b
        · exact Or.inl ⟨_, if_pos heq⟩
        · -- different ranks are those of different keys
          have hne : a ≠ b := fun hab => heq (congrArg s.registry.rank hab)
          simp only [if_neg heq, Graph.link]
          split
          · next reason hlink => exact Or.inl ⟨_, rfl⟩
          · next graph inserted hlink =>
            split at hlink
            · obtain ⟨hgraph, rfl⟩ := Prod.mk.inj (Except.ok.inj hlink)
              refine Or.inr ⟨Bool.not_eq_true _ ▸ hopen, hakey, hbkey, hne, graph, ?_, ?_, rfl⟩
              · rw [← hgraph]
              · rw [← hgraph]
            · cases hlink

section Identity

variable [DecidableEq L]

/-- A registration is refused, or it enrols the listener. -/
theorem register_cases (s : Session L) (key : Key) (listener : L) :
    (∃ reason, s.register key listener = s.refuse reason) ∨
      s.finished = false ∧ ∃ t i, s.enroll key listener = .ok (t, i) ∧
        s.register key listener = ⟨.ok (), t, [.registered s.side key i]⟩ := by
  unfold register
  split
  · exact Or.inl ⟨_, rfl⟩
  · next hopen =>
    cases henroll : s.enroll key listener with
    | error reason => exact Or.inl ⟨reason, rfl⟩
    | ok enrolled => exact Or.inr ⟨Bool.not_eq_true _ ▸ hopen, enrolled.1, enrolled.2, rfl, rfl⟩

/-- The call is not refused. -/
def Accepts (s : Session L) (call : Call L) : Prop :=
  ∃ answer, (s.perform call).result = .ok answer

/-- A registration that is accepted enrols the listener. -/
theorem register_of_accepts (haccepts : s.Accepts (.register key listener)) :
    s.finished = false ∧ ∃ t i, s.enroll key listener = .ok (t, i) ∧
      s.register key listener = ⟨.ok (), t, [.registered s.side key i]⟩ := by
  refine (register_cases s key listener).resolve_left ?_
  rintro ⟨reason, hrefused⟩
  obtain ⟨answer, hok⟩ := haccepts
  rw [perform, hrefused] at hok
  cases hok

/-- A declaration that is accepted puts an arc between the ranks of two different keys. -/
theorem declare_of_accepts (haccepts : s.Accepts (.declare a b)) :
    s.finished = false ∧ a ∈ s.registry.keys ∧ b ∈ s.registry.keys ∧ a ≠ b ∧
      ∃ graph : Graph L, graph.nodes = s.graph.nodes ∧
        graph.links = s.graph.links.insertArc (s.registry.rank a) (s.registry.rank b) ∧
        s.declare a b = ⟨.ok (), { s with graph }, [.declared s.side a b
          (s.graph.links.admits (s.registry.rank a) (s.registry.rank b))]⟩ := by
  refine (declare_cases s a b).resolve_left ?_
  rintro ⟨reason, hrefused⟩
  obtain ⟨answer, hok⟩ := haccepts
  rw [perform, hrefused] at hok
  cases hok

/-- A registration is accepted exactly if the session is open, key and listener are new, and there
is room. -/
theorem Aligned.accepts_register_iff (hs : s.Aligned) : s.Accepts (.register key listener) ↔
    s.finished = false ∧ (key ∉ s.registry.keys ∧ listener ∉ s.registry.listeners) ∧
      s.registry.size < s.policy.maxListeners.toNat := by
  rw [← hs.inStep.conflict?_eq_none_iff]
  refine ⟨?_, ?_⟩
  · intro haccepts
    obtain ⟨hopen, t, i, henroll, -⟩ := register_of_accepts haccepts
    obtain ⟨hnew, hroom, -, -⟩ := enroll_eq_ok_iff.mp henroll
    exact ⟨hopen, hnew, hroom⟩
  · rintro ⟨hopen, hnew, hroom⟩
    refine ⟨none, ?_⟩
    rw [perform, register, if_neg (by simp [hopen]),
      enroll_eq_ok_iff.mpr ⟨hnew, hroom, rfl, rfl⟩]
    rfl

theorem toList_perform_register (haccepts : s.Accepts (.register key listener)) :
    (s.perform (.register key listener)).session.registry.toList =
      s.registry.toList ++ [(key, listener)] := by
  obtain ⟨-, t, i, henroll, hregistered⟩ := register_of_accepts haccepts
  rw [perform, hregistered]
  exact toList_of_enroll henroll

/-- What is registered does not change when something is declared. -/
theorem registry_perform_declare :
    (s.perform (.declare a b)).session.registry = s.registry := by
  rcases declare_cases s a b with ⟨reason, hrefused⟩ | ⟨-, -, -, -, graph, -, -, haccepted⟩
  · rw [perform, hrefused]
    rfl
  · rw [perform, haccepted]

/-- A declaration is accepted exactly if it names two different registered keys of a session that is
open. -/
theorem Aligned.accepts_declare_iff (hs : s.Aligned) : s.Accepts (.declare a b) ↔
    s.finished = false ∧ a ∈ s.registry.keys ∧ b ∈ s.registry.keys ∧ a ≠ b := by
  refine ⟨?_, ?_⟩
  · intro haccepts
    obtain ⟨hopen, ha, hb, hne, -⟩ := declare_of_accepts haccepts
    exact ⟨hopen, ha, hb, hne⟩
  · rintro ⟨hopen, ha, hb, hne⟩
    have hranks : s.registry.rank a ≠ s.registry.rank b := fun heq =>
      hne ((Registry.rank_inj ha).mp heq)
    have hroom : s.registry.rank a < s.graph.size ∧ s.registry.rank b < s.graph.size := by
      rw [← Graph.size_links_eq]
      exact ⟨hs.rank_lt ha, hs.rank_lt hb⟩
    refine ⟨none, ?_⟩
    rw [perform, declare, if_neg (by simp [hopen]), Registry.position?_eq_some_iff.mpr ⟨ha, rfl⟩,
      Registry.position?_eq_some_iff.mpr ⟨hb, rfl⟩]
    simp only [if_neg hranks, Graph.link, if_pos hroom]
    rfl

/-- The pair of keys that a call declares, if it is a declaration and is accepted. -/
def declared? (s : Session L) : Call L → Option (Key × Key)
  | .declare first second =>
    match (s.declare first second).result with
    | .ok _ => some (first, second)
    | .error _ => none
  | _ => none

theorem declared?_of_accepts (haccepts : s.Accepts (.declare a b)) :
    s.declared? (.declare a b) = some (a, b) := by
  obtain ⟨-, -, -, -, graph, -, -, haccepted⟩ := declare_of_accepts haccepts
  rw [declared?, haccepted]

/-- The pairs of keys that were declared along a history and accepted, in order. -/
def accepted (s : Session L) : List (Call L) → List (Key × Key)
  | [] => []
  | call :: calls => (s.declared? call).toList ++ (s.perform call).session.accepted calls

theorem grows_of_declare (hs : s.Aligned) :
    Grows s (s.declare a b).session (s.declared? (.declare a b)).toList := by
  rw [declared?]
  rcases declare_cases s a b with
    ⟨reason, hrefused⟩ | ⟨-, ha, hb, -, graph, hnodes, hlinks, haccepted⟩
  · rw [hrefused]
    exact Grows.refl hs
  · rw [haccepted]
    have ht : ({ s with graph } : Session L).Aligned := hs.of_nodes_eq hnodes
    refine ⟨rfl, ht, List.prefix_refl _, ?_⟩
    intro x y
    have hfan := Digraph.fans_insertArc (hs.rank_lt ha) (hs.rank_lt hb)
    rw [hs.edge_iff, ht.edge_iff, hlinks, hfan]
    simp only [Option.toList_some, List.mem_singleton, Prod.mk.injEq]
    refine ⟨?_, ?_⟩
    · -- the ends of the new arc are the ranks of `a` and `b` alone
      rintro ⟨hx, hy, harc | ⟨hxa, hyb⟩⟩
      · exact Or.inl ⟨hx, hy, harc⟩
      · exact Or.inr ⟨(Registry.rank_inj hx).mp hxa, (Registry.rank_inj hy).mp hyb⟩
    · rintro (⟨hx, hy, harc⟩ | ⟨rfl, rfl⟩)
      · exact ⟨hx, hy, Or.inl harc⟩
      · exact ⟨ha, hb, Or.inr ⟨rfl, rfl⟩⟩

theorem grows_of_register (hs : s.Aligned) : Grows s (s.register key listener).session [] := by
  rcases register_cases s key listener with
    ⟨reason, hrefused⟩ | ⟨-, t, i, henroll, hregistered⟩
  · rw [hrefused]
    exact Grows.refl hs
  · rw [hregistered]
    exact grows_of_enroll hs henroll

/-- Only a sort closes a session. -/
theorem finished_perform_iff {call : Call L} :
    (s.perform call).session.finished ↔ s.finished ∨ call = .sort := by
  cases call with
  | register key listener =>
    have hkept : (s.register key listener).session.finished = s.finished := by
      rcases register_cases s key listener with
        ⟨reason, hrefused⟩ | ⟨-, t, i, henroll, hregistered⟩
      · rw [hrefused]
        rfl
      · obtain ⟨-, -, -, rfl⟩ := enroll_eq_ok_iff.mp henroll
        rw [hregistered]
    simp [perform, hkept]
  | declare first second =>
    have hkept : (s.declare first second).session.finished = s.finished := by
      rcases declare_cases s first second with
        ⟨reason, hrefused⟩ | ⟨-, -, -, -, graph, -, -, haccepted⟩
      · rw [hrefused]
        rfl
      · rw [haccepted]
    simp [perform, hkept]
  | sort => simp [perform, finished_sort]

theorem finished_after_iff {calls : List (Call L)} :
    (s.after calls).finished ↔ s.finished ∨ .sort ∈ calls := by
  induction calls generalizing s with
  | nil => simp
  | cons call calls ih =>
    rw [after_cons, ih, finished_perform_iff, List.mem_cons, or_assoc, eq_comm (a := call)]

theorem sort_notMem {calls : List (Call L)} (hopen : (s.after calls).finished = false) :
    .sort ∉ calls := by
  intro hmem
  rw [finished_after_iff.mpr (Or.inr hmem)] at hopen
  cases hopen

/-- A call that is no sort grows the session by the pair that it declares, if it does. -/
theorem grows_perform {call : Call L} (hs : s.Aligned) (hcall : call ≠ .sort) :
    Grows s (s.perform call).session (s.declared? call).toList := by
  cases call with
  | register key listener => exact grows_of_register hs
  | declare first second => exact grows_of_declare hs
  | sort => exact absurd rfl hcall

/-- A history without a sort grows the session by the pairs that were accepted. -/
theorem grows_after {calls : List (Call L)} (hs : s.Aligned) (hcalls : .sort ∉ calls) :
    Grows s (s.after calls) (s.accepted calls) := by
  induction calls generalizing s with
  | nil => exact Grows.refl hs
  | cons call calls ih =>
    rw [List.mem_cons, not_or] at hcalls
    -- the first call grows the session, and the others what comes of it
    have hstep := grows_perform hs (Ne.symm hcalls.1)
    exact hstep.trans (ih hstep.aligned hcalls.2)

/-- What was accepted was declared. -/
theorem declare_mem_of_mem_accepted {calls : List (Call L)} (hmem : (a, b) ∈ s.accepted calls) :
    .declare a b ∈ calls := by
  induction calls generalizing s with
  | nil => cases hmem
  | cons call calls ih =>
    rw [accepted, List.mem_append] at hmem
    rcases hmem with hcall | hlater
    · cases call with
      | declare first second =>
        rw [declared?] at hcall
        split at hcall
        · obtain ⟨rfl, rfl⟩ := Prod.mk.inj (List.mem_singleton.mp hcall)
          exact List.mem_cons_self
        · cases hcall
      | register key listener => cases hcall
      | sort => cases hcall
    · exact List.mem_cons_of_mem call (ih hlater)

theorem ne_of_mem_accepted {calls : List (Call L)} (hmem : (a, b) ∈ s.accepted calls) :
    a ≠ b := by
  induction calls generalizing s with
  | nil => cases hmem
  | cons call calls ih =>
    rw [accepted, List.mem_append] at hmem
    rcases hmem with hcall | hlater
    · cases call with
      | declare first second =>
        rw [declared?] at hcall
        rcases declare_cases s first second with
          ⟨reason, hrefused⟩ | ⟨-, -, -, hne, graph, -, -, haccepted⟩
        · rw [hrefused] at hcall
          cases hcall
        · rw [haccepted] at hcall
          simp only [Option.toList_some, List.mem_singleton, Prod.mk.injEq] at hcall
          rw [hcall.1, hcall.2]
          exact hne
      | register key listener => cases hcall
      | sort => cases hcall
    · exact ih hlater

/-! ### What has been stated -/

/-- That `a` runs before `b` has been stated: they are neighbours in the baseline that `s` started
with, or it was declared along the history and accepted. -/
def Stated (s : Session L) (calls : List (Call L)) (a b : Key) : Prop :=
  Abuts s.registry.keys a b ∨ (a, b) ∈ s.accepted calls

theorem not_stated_self {calls : List (Call L)} : ¬ s.Stated calls a a := by
  rintro (habuts | hmem)
  · exact Precedes.ne s.registry.keys_nodup (List.IsInfix.sublist habuts) rfl
  · exact ne_of_mem_accepted hmem rfl

namespace IsStart

variable {baseline : List L} {calls : List (Call L)}

theorem grows (hs : IsStart s baseline) (hcalls : .sort ∉ calls) :
    Grows s (s.after calls) (s.accepted calls) :=
  grows_after hs.aligned hcalls

theorem aligned_after (hs : IsStart s baseline) (hcalls : .sort ∉ calls) :
    (s.after calls).Aligned :=
  (hs.grows hcalls).aligned

/-- The edges of an open session are those that have been stated. -/
theorem edge_after_iff (hs : IsStart s baseline) (hcalls : .sort ∉ calls) :
    (s.after calls).Edge a b ↔ s.Stated calls a b := by
  rw [(hs.grows hcalls).edge_iff, hs.edge_iff, Stated]

theorem finished_after (hs : IsStart s baseline) (hcalls : .sort ∉ calls) :
    (s.after calls).finished = false := by
  rw [← Bool.not_eq_true, finished_after_iff, hs.finished_eq]
  simpa using hcalls

/-- The baseline namespace stays the same. -/
theorem inBaseline_after (hs : IsStart s baseline) (hcalls : .sort ∉ calls) :
    (s.after calls).inBaseline = s.inBaseline := by
  rw [(hs.grows hcalls).frame]
  rfl

theorem baselineSize_after (hs : IsStart s baseline) (hcalls : .sort ∉ calls) :
    (s.after calls).baselineSize = s.registry.size := by
  rw [(hs.grows hcalls).frame]
  exact hs.baselineSize_eq

/-- The anchor of an open session is the listener whose index is the last one of the baseline. -/
theorem rank_anchor (hs : IsStart s baseline) (hcalls : .sort ∉ calls) :
    s.anchor ∈ (s.after calls).registry.keys ∧
      (s.after calls).registry.rank s.anchor = (s.after calls).baselineSize - 1 := by
  have hgrows := hs.grows hcalls
  -- later listeners come behind the baseline, so the anchor keeps its rank
  have hlast := hs.anchor_eq
  rw [List.getLast?_eq_getElem?, Registry.length_keys] at hlast
  have hmem : s.anchor ∈ s.registry.keys := List.mem_of_getElem? hlast
  refine ⟨hgrows.prefix_keys.subset hmem, ?_⟩
  rw [Registry.rank_of_isPrefix hgrows.prefix_keys hmem, hs.baselineSize_after hcalls,
    Registry.rank_eq_of_getElem? hlast]

theorem anchor_lt_size (hs : IsStart s baseline) (hcalls : .sort ∉ calls) :
    (s.after calls).baselineSize - 1 < (s.after calls).registry.size := by
  obtain ⟨hanchor, hrank⟩ := hs.rank_anchor hcalls
  exact hrank ▸ Registry.rank_lt_size_iff.mpr hanchor

end IsStart

end Identity

end LoadOrder.Session
