import LoadOrder.Proofs.Session.Consistency

/-!
# Which calls are refused, and what the others do

Before its sort a session registers listeners and takes declarations. `s.Bars call reason` says what
stands in the way of a call: a key or a listener that is taken, a session that is full, a key that
is unknown, a listener that would wait for itself. Where several things do, only the first of them
is the reason. A call is refused exactly if something bars it, for this reason, and nothing has
happened then; any other call does what it is asked for and nothing else (`AnswersExactly`).

Registry and graph are changed one after the other. That neither change can fail once the other is
decided upon rests on what a session always keeps to: as the registry and the graph hold the same
listeners, a listener that is new to the one is new to the other, and a registered key stands for a
node (`Consistent.answersExactly`).
-/

namespace LoadOrder

/-- A graph is its nodes and the arcs between their indices. -/
theorem Graph.eq_of_links_eq {α : Type} {g h : Graph α} (hnodes : g.nodes = h.nodes)
    (hlinks : g.links = h.links) : g = h := by
  cases g
  cases h
  cases hnodes
  cases hlinks
  rfl

namespace Session

variable {L : Type}

/-- What stands in the way of a call on an open session. -/
inductive Bars (s : Session L) : Call L → Refusal → Prop
  /-- The key is registered. -/
  | keyTaken {key : Key} {listener : L} (hkey : key ∈ s.registry.keys) :
      Bars s (.register key listener) (.keyTaken key)
  /-- The key is new, but the very listener is registered under another. -/
  | listenerTaken {key existing : Key} {listener : L} (hkey : key ∉ s.registry.keys)
      (hlistener : (existing, listener) ∈ s.registry.toList) :
      Bars s (.register key listener) (.listenerTaken key existing)
  /-- Key and listener are new, but there are as many listeners as the policy allows. -/
  | full {key : Key} {listener : L} (hkey : key ∉ s.registry.keys)
      (hlistener : listener ∉ s.registry.listeners)
      (hfull : s.registry.size = s.policy.maxListeners.toNat) :
      Bars s (.register key listener)
        (.full (s.policy.maxListeners.toNat + 1) s.policy.maxListeners.toNat)
  /-- The first key is not registered. -/
  | firstUnknown {first second : Key} (hfirst : first ∉ s.registry.keys) :
      Bars s (.declare first second) (.unknownKey first)
  /-- The first key is registered, but the second is not. -/
  | secondUnknown {first second : Key} (hfirst : first ∈ s.registry.keys)
      (hsecond : second ∉ s.registry.keys) : Bars s (.declare first second) (.unknownKey second)
  /-- Both are the same registered key. -/
  | itself {key : Key} (hkey : key ∈ s.registry.keys) :
      Bars s (.declare key key) (.dependsOnItself key)

section Identity

variable [DecidableEq L] {s t : Session L} {key first second : Key} {listener : L}
  {reason : Refusal}

/-- `t` is `s` with one more listener, which comes after all others and is tied to none. -/
structure Adds (s t : Session L) (key : Key) (listener : L) : Prop where
  /-- Nothing changes but the registry and the graph. -/
  frame : t = { s with registry := t.registry, graph := t.graph }
  /-- The pair is the last one registered. -/
  toList_eq : t.registry.toList = s.registry.toList ++ [(key, listener)]
  /-- It leads to its key, and all other listeners to the keys that they led to. -/
  keyFor?_eq : ∀ other, t.registry.keyFor? other =
    if other = listener then some key else s.registry.keyFor? other
  /-- The listener is the last node. -/
  nodes_eq : t.graph.nodes = s.graph.nodes.push listener
  /-- All nodes have the successors that they had. -/
  succs_eq : ∀ u, t.graph.links.succs u = s.graph.links.succs u
  /-- All nodes have the predecessors that they had. -/
  preds_eq : ∀ v, t.graph.links.preds v = s.graph.links.preds v
  /-- The new node has none of either. -/
  isolated : t.graph.links.succs s.graph.size = [] ∧ t.graph.links.preds s.graph.size = []

/-- `t` is `s` with the edge from `first` to `second`. -/
structure Ties (s t : Session L) (first second : Key) : Prop where
  /-- Nothing changes but the graph. -/
  frame : t = { s with graph := t.graph }
  /-- The nodes are the same. -/
  nodes_eq : t.graph.nodes = s.graph.nodes
  /-- The edges are those of `s` and this one. -/
  edge_iff : ∀ a b, t.Edge a b ↔ s.Edge a b ∨ a = first ∧ b = second
  /-- If `s` has the edge, nothing changes at all. -/
  eq_of_edge : s.Edge first second → t = s
  /-- If not, it comes last among those out of `first`, and other listeners get no successor. -/
  succs_eq : ¬ s.Edge first second → ∀ u, t.graph.links.succs u = s.graph.links.succs u ++
    if u = s.registry.rank first then [s.registry.rank second] else []
  /-- It comes last among those into `second` as well, and other listeners get no predecessor. -/
  preds_eq : ¬ s.Edge first second → ∀ v, t.graph.links.preds v = s.graph.links.preds v ++
    if v = s.registry.rank second then [s.registry.rank first] else []

/-- The session refuses a call exactly for what stands in its way, and then nothing has happened;
any other call does what it is asked for and nothing else. -/
structure AnswersExactly (s : Session L) : Prop where
  /-- What bars a call is what it is refused for. -/
  refused_iff : ∀ call reason, call ≠ .sort →
    ((s.perform call).result = .error reason ↔ s.Bars call reason)
  /-- A call that is refused changes nothing and logs nothing. -/
  refused : ∀ call reason, call ≠ .sort → (s.perform call).result = .error reason →
    s.perform call = ⟨.error reason, s, []⟩
  /-- A listener that nothing bars is added. -/
  registered : ∀ key listener, (∀ reason, ¬ s.Bars (.register key listener) reason) →
    s.Accepts (.register key listener) ∧
      s.Adds (s.perform (.register key listener)).session key listener
  /-- A declaration that nothing bars makes an edge. -/
  declared : ∀ first second, (∀ reason, ¬ s.Bars (.declare first second) reason) →
    s.Accepts (.declare first second) ∧
      s.Ties (s.perform (.declare first second)).session first second

/-! ### Registering -/

/-- A listener is barred by what the registry has against it, or else for want of room. -/
theorem Aligned.bars_register_iff (hs : s.Aligned) : s.Bars (.register key listener) reason ↔
    s.registry.conflict? key listener = some reason ∨
      s.registry.conflict? key listener = none ∧
        s.registry.size = s.policy.maxListeners.toNat ∧
        .full (s.policy.maxListeners.toNat + 1) s.policy.maxListeners.toNat = reason := by
  rw [hs.inStep.conflict?_eq_some_iff, hs.inStep.conflict?_eq_none_iff]
  refine ⟨?_, ?_⟩
  · intro hbars
    cases hbars with
    | keyTaken hkey => exact Or.inl (Or.inl ⟨hkey, rfl⟩)
    | listenerTaken hkey hlistener => exact Or.inl (Or.inr ⟨hkey, _, hlistener, rfl⟩)
    | full hkey hlistener hfull => exact Or.inr ⟨⟨hkey, hlistener⟩, hfull, rfl⟩
  · rintro ((⟨hkey, rfl⟩ | ⟨hkey, existing, hlistener, rfl⟩) | ⟨⟨hkey, hlistener⟩, hfull, rfl⟩)
    · exact .keyTaken hkey
    · exact .listenerTaken hkey hlistener
    · exact .full hkey hlistener hfull

/-- A listener is enrolled unless something bars it. -/
theorem Aligned.enroll_eq_error_iff (hs : s.Aligned)
    (hsize : s.registry.size ≤ s.policy.maxListeners.toNat) :
    s.enroll key listener = .error reason ↔ s.Bars (.register key listener) reason := by
  rw [hs.bars_register_iff]
  cases hconflict : s.registry.conflict? key listener with
  | some found =>
    rw [enroll, hconflict]
    simp
  | none =>
    rw [enroll_of_conflict?_eq_none hconflict]
    simp only [reduceCtorEq, false_or, true_and]
    split
    · next hfull =>
      -- there are never more listeners than allowed
      rw [Except.error.injEq, hsize.antisymm hfull, and_iff_right rfl]
    · next hroom =>
      refine iff_of_false (by rintro ⟨⟩) ?_
      rintro ⟨hfull, -⟩
      exact hroom hfull.ge

theorem register_eq_error_iff (hopen : s.finished = false) :
    (s.perform (.register key listener)).result = .error reason ↔
      s.enroll key listener = .error reason := by
  rw [perform, register, if_neg (by simp [hopen])]
  cases s.enroll key listener with
  | error found =>
    show Except.error found = Except.error reason ↔ _
    rw [Except.error.injEq, Except.error.injEq]
  | ok enrolled => exact iff_of_false (by rintro ⟨⟩) (by rintro ⟨⟩)

theorem Aligned.adds_of_enroll (hs : s.Aligned) {i : Nat}
    (henroll : s.enroll key listener = .ok (t, i)) : s.Adds t key listener := by
  obtain ⟨hnodes, hlinks⟩ := graph_of_enroll hs henroll
  have hsuccs : ∀ u, t.graph.links.succs u = s.graph.links.succs u := fun u => by
    rw [hlinks, Digraph.succs_addNode]
  have hpreds : ∀ v, t.graph.links.preds v = s.graph.links.preds v := fun v => by
    rw [hlinks, Digraph.preds_addNode]
  have hnames : ∀ other, t.registry.keyFor? other =
      if other = listener then some key else s.registry.keyFor? other := by
    obtain ⟨-, -, -, rfl⟩ := enroll_eq_ok_iff.mp henroll
    exact Registry.keyFor?_write s.registry key listener
  refine ⟨(grows_of_enroll hs henroll).frame, toList_of_enroll henroll, hnames, hnodes, hsuccs,
    hpreds, ?_, ?_⟩
  · -- the index of the new node was none of the old graph
    rw [hsuccs, ← Graph.size_links_eq]
    exact Digraph.succs_eq_nil le_rfl
  · rw [hpreds, ← Graph.size_links_eq]
    exact Digraph.preds_eq_nil le_rfl

theorem Aligned.adds_register (hs : s.Aligned) (haccepts : s.Accepts (.register key listener)) :
    s.Adds (s.perform (.register key listener)).session key listener := by
  obtain ⟨-, t, i, henroll, hregistered⟩ := register_of_accepts haccepts
  rw [perform, hregistered]
  exact hs.adds_of_enroll henroll

/-! ### Declaring -/

theorem result_declare_of_bars (hopen : s.finished = false)
    (hbars : s.Bars (.declare first second) reason) :
    (s.perform (.declare first second)).result = .error reason := by
  rw [perform, declare, if_neg (by simp [hopen])]
  cases hbars with
  | firstUnknown hfirst =>
    rw [Registry.position?_eq_none_iff.mpr hfirst]
    rfl
  | secondUnknown hfirst hsecond =>
    rw [Registry.position?_eq_some_iff.mpr ⟨hfirst, rfl⟩,
      Registry.position?_eq_none_iff.mpr hsecond]
    rfl
  | itself hkey =>
    rw [Registry.position?_eq_some_iff.mpr ⟨hkey, rfl⟩]
    simp only
    rfl

/-- A declaration is accepted unless something bars it: the graph, for its part, takes every arc
between the nodes of registered keys. -/
theorem Aligned.accepts_declare_or_bars (hs : s.Aligned) (hopen : s.finished = false)
    (first second : Key) :
    s.Accepts (.declare first second) ∨ ∃ reason, s.Bars (.declare first second) reason := by
  by_cases hfirst : first ∈ s.registry.keys
  · by_cases hsecond : second ∈ s.registry.keys
    · by_cases heq : first = second
      · subst heq
        exact Or.inr ⟨_, .itself hfirst⟩
      · exact Or.inl (hs.accepts_declare_iff.mpr ⟨hopen, hfirst, hsecond, heq⟩)
    · exact Or.inr ⟨_, .secondUnknown hfirst hsecond⟩
  · exact Or.inr ⟨_, .firstUnknown hfirst⟩

theorem Aligned.declare_eq_error_iff (hs : s.Aligned) (hopen : s.finished = false) :
    (s.perform (.declare first second)).result = .error reason ↔
      s.Bars (.declare first second) reason := by
  refine ⟨?_, result_declare_of_bars hopen⟩
  intro hresult
  rcases hs.accepts_declare_or_bars hopen first second with ⟨answer, hok⟩ | ⟨found, hbars⟩
  · rw [hok] at hresult
    cases hresult
  · rw [result_declare_of_bars hopen hbars] at hresult
    exact Except.error.inj hresult ▸ hbars

theorem Aligned.ties_declare (hs : s.Aligned) (haccepts : s.Accepts (.declare first second)) :
    s.Ties (s.perform (.declare first second)).session first second := by
  have hgrows := grows_of_declare (a := first) (b := second) hs
  rw [declared?_of_accepts haccepts] at hgrows
  obtain ⟨-, hfirst, hsecond, -, graph, hnodes, hlinks, hdeclared⟩ := declare_of_accepts haccepts
  rw [perform]
  rw [hdeclared] at hgrows ⊢
  have hadmits := hs.admits_iff hfirst hsecond
  refine ⟨rfl, hnodes, ?_, ?_, ?_, ?_⟩
  · intro a b
    rw [hgrows.edge_iff, Option.toList_some, List.mem_singleton, Prod.mk.injEq]
  · intro hedge
    rw [Digraph.insertArc_of_not_admits (hadmits.not_left.mpr hedge)] at hlinks
    rw [Graph.eq_of_links_eq hnodes hlinks]
  · intro hnew u
    rw [hlinks, Digraph.succs_insertArc (hadmits.mpr hnew)]
    simp only [eq_comm]
  · intro hnew v
    rw [hlinks, Digraph.preds_insertArc (hadmits.mpr hnew)]
    simp only [eq_comm]

/-! ### Both -/

/-- A call that is refused is refused without effect. -/
theorem perform_eq_of_error {call : Call L} (hcall : call ≠ .sort)
    (hresult : (s.perform call).result = .error reason) :
    s.perform call = ⟨.error reason, s, []⟩ := by
  cases call with
  | register key listener =>
    rcases register_cases s key listener with ⟨found, hrefused⟩ | ⟨-, t, i, -, hregistered⟩
    · rw [perform, hrefused] at hresult ⊢
      obtain rfl := Except.error.inj hresult
      rfl
    · rw [perform, hregistered] at hresult
      cases hresult
  | declare first second =>
    rcases declare_cases s first second with
      ⟨found, hrefused⟩ | ⟨-, -, -, -, graph, -, -, hdeclared⟩
    · rw [perform, hrefused] at hresult ⊢
      obtain rfl := Except.error.inj hresult
      rfl
    · rw [perform, hdeclared] at hresult
      cases hresult
  | sort => exact absurd rfl hcall

/-- A call that is refused for no reason is accepted. -/
theorem accepts_of_forall {call : Call L}
    (hnone : ∀ reason, (s.perform call).result ≠ .error reason) : s.Accepts call := by
  cases hresult : (s.perform call).result with
  | error reason => exact absurd hresult (hnone reason)
  | ok answer => exact ⟨answer, hresult⟩

theorem Consistent.answersExactly (hs : s.Consistent) (hopen : s.finished = false) :
    s.AnswersExactly := by
  have hrefused : ∀ call reason, call ≠ .sort →
      ((s.perform call).result = .error reason ↔ s.Bars call reason) := by
    intro call reason hcall
    cases call with
    | register key listener =>
      exact (register_eq_error_iff hopen).trans (hs.aligned.enroll_eq_error_iff hs.size_le)
    | declare first second => exact hs.aligned.declare_eq_error_iff hopen
    | sort => exact absurd rfl hcall
  have haccepts : ∀ call : Call L, call ≠ .sort → (∀ reason, ¬ s.Bars call reason) →
      s.Accepts call := fun call hcall hnone =>
    accepts_of_forall fun reason => mt (hrefused call reason hcall).mp (hnone reason)
  refine ⟨hrefused, fun call reason => perform_eq_of_error, ?_, ?_⟩
  · intro key listener hnone
    have haccepted := haccepts (.register key listener) nofun hnone
    exact ⟨haccepted, hs.aligned.adds_register haccepted⟩
  · intro first second hnone
    have haccepted := haccepts (.declare first second) nofun hnone
    exact ⟨haccepted, hs.aligned.ties_declare haccepted⟩

/-- An open session, whatever has been done with it since its start, refuses a call exactly for what
stands in its way and without effect, and does exactly what any other call asks for. -/
theorem answersExactly_after_start {side : Side} {baseline : List L} {naming : Naming L}
    {policy : Policy} {calls : List (Call L)}
    (hstart : (start side baseline naming policy).result = .ok s)
    (hopen : (s.after calls).finished = false) : (s.after calls).AnswersExactly :=
  ((Consistent.of_start hstart).after calls).answersExactly hopen

/-- A session that is full reports a key and a listener that are taken before it reports that. -/
theorem answersExactly_when_full :
    ∃ (a m n : Key) (s : Session Listener),
      (start .client [⟨"a", "a"⟩] (Naming.byValue "minecraft")
        { maxListeners := 2 }).result = .ok s ∧
      ∃ t, s.after [.register m ⟨"m", "m"⟩] = t ∧ t.finished = false ∧
        (t.perform (.register m ⟨"a", "a"⟩)).result = .error (.keyTaken m) ∧
        (t.perform (.register n ⟨"a", "a"⟩)).result = .error (.listenerTaken n a) ∧
        (t.perform (.register n ⟨"n", "n"⟩)).result = .error (.full 3 2) ∧ t.AnswersExactly := by
  let a : Key := ⟨"minecraft", "a", by decide, by decide, by decide⟩
  let m : Key := ⟨"mod", "m", by decide, by decide, by decide⟩
  let n : Key := ⟨"mod", "n", by decide, by decide, by decide⟩
  let calls : List (Call Listener) := [.register m ⟨"m", "m"⟩]
  have hrun : (start .client [⟨"a", "a"⟩] (Naming.byValue "minecraft")
      { maxListeners := 2 }).result.map (fun s => ((s.after calls).finished,
        ((s.after calls).perform (.register m ⟨"a", "a"⟩)).result,
        ((s.after calls).perform (.register n ⟨"a", "a"⟩)).result,
        ((s.after calls).perform (.register n ⟨"n", "n"⟩)).result))
      = .ok (false, .error (.keyTaken m), .error (.listenerTaken n a), .error (.full 3 2)) := by cbv
  obtain ⟨s, hstart, hafter⟩ := exists_of_map_eq_ok hrun
  obtain ⟨hopen, hresults⟩ := Prod.mk.inj hafter
  obtain ⟨hkey, hresults⟩ := Prod.mk.inj hresults
  obtain ⟨hlistener, hfull⟩ := Prod.mk.inj hresults
  exact ⟨a, m, n, s, hstart, s.after calls, rfl, hopen, hkey, hlistener, hfull,
    answersExactly_after_start hstart hopen⟩

end Identity

end Session

end LoadOrder
