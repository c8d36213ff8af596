import LoadOrder.Proofs.Precedence
import LoadOrder.Proofs.Session.Edges
import LoadOrder.Session.Register

/-!
# How a session starts and grows

Until it is sorted, a session only grows. `Grows s t pairs` says that `t` has come of `s` with
listeners added at the end and the edges `pairs` besides those of `s`. Enrolling a listener adds
no edge (`grows_of_enroll`), and the start of a session is a growth from nothing that ends in the
chain of the baseline (`isStart_of_start`): a session that has just been opened `IsStart`.
-/

namespace LoadOrder.Session

variable {L : Type} {s t : Session L} {key a b : Key} {listener : L} {i : Nat}

/-- A session opened for `baseline` that nothing has been done with. -/
structure IsStart [DecidableEq L] (s : Session L) (baseline : List L) : Prop where
  /-- The stores agree. -/
  aligned : s.Aligned
  /-- The listeners are the baseline in the given order. -/
  listeners_eq : s.registry.listeners = baseline
  /-- The anchor is the last of them. -/
  anchor_eq : s.registry.keys.getLast? = some s.anchor
  /-- All of them count as baseline. -/
  baselineSize_eq : s.baselineSize = s.registry.size
  /-- Nothing has been sorted. -/
  finished_eq : s.finished = false
  /-- Each listener waits for the one before it, and there are no other edges. -/
  edge_iff : ∀ a b, s.Edge a b ↔ Abuts s.registry.keys a b

/-- `t` is `s` with listeners added behind its own and the edges `pairs` added to its own. -/
structure Grows [DecidableEq L] (s t : Session L) (pairs : List (Key × Key)) : Prop where
  /-- Nothing but the listeners and the edges has changed. -/
  frame : t = { s with registry := t.registry, graph := t.graph }
  /-- The stores agree. -/
  aligned : t.Aligned
  /-- The listeners of `s` come first. -/
  prefix_toList : s.registry.toList <+: t.registry.toList
  /-- The edges are those of `s` and the new ones. -/
  edge_iff : ∀ a b, t.Edge a b ↔ s.Edge a b ∨ (a, b) ∈ pairs

/-- A success computed from a result is computed from a success. -/
theorem exists_of_map_eq_ok {ε α β : Type} {result : Except ε α} {f : α → β} {b : β}
    (hmap : result.map f = .ok b) : ∃ a, result = .ok a ∧ f a = b := by
  cases result with
  | error fault => cases hmap
  | ok a => exact ⟨a, rfl, Except.ok.inj hmap⟩

/-- A refusal of what is computed from a result is a refusal of the result. -/
theorem map_eq_error_iff {ε α β : Type} {result : Except ε α} {f : α → β} {fault : ε} :
    result.map f = .error fault ↔ result = .error fault := by
  cases result with
  | error found => simp [Except.map]
  | ok a => simp [Except.map]

/-! ### Naming the baseline -/

/-- Naming pairs each listener with its name, and comes to that only if each has one. -/
theorem nameAll_eq_ok_iff {naming : Naming L} {index : Nat} {baseline : List L}
    {named : List (Key × L)} :
    naming.nameAll index baseline = .ok named ↔
      named.map Prod.snd = baseline ∧ ∀ entry ∈ named, naming entry.2 = some entry.1 := by
  induction baseline generalizing index named with
  | nil =>
    rw [Naming.nameAll, Except.ok.injEq, List.map_eq_nil_iff, eq_comm]
    refine ⟨fun hnil => ⟨hnil, ?_⟩, And.left⟩
    rw [hnil]
    nofun
  | cons listener rest ih =>
    rw [Naming.nameAll, List.map_eq_cons_iff]
    cases hkey : naming listener with
    | none =>
      refine iff_of_false nofun ?_
      rintro ⟨⟨entry, tail, rfl, rfl, -⟩, hnamed⟩
      rw [hnamed entry List.mem_cons_self] at hkey
      cases hkey
    | some key =>
      refine ⟨?_, ?_⟩
      · intro hmap
        obtain ⟨tail, htail, rfl⟩ := exists_of_map_eq_ok hmap
        obtain ⟨hrest, hnamed⟩ := ih.mp htail
        exact ⟨⟨_, tail, rfl, rfl, hrest⟩, List.forall_mem_cons.mpr ⟨hkey, hnamed⟩⟩
      · rintro ⟨⟨⟨first, _⟩, tail, rfl, rfl, hrest⟩, hnamed⟩
        obtain ⟨hfirst, htail⟩ := List.forall_mem_cons.mp hnamed
        obtain rfl : key = first := Option.some.inj (hkey.symm.trans hfirst)
        show (naming.nameAll (index + 1) rest).map _ = _
        rw [ih.mpr ⟨hrest, htail⟩]
        rfl

/-- Naming is refused exactly if some listener has no name, and for the first of these. -/
theorem nameAll_eq_error_iff {naming : Naming L} {index : Nat} {baseline : List L}
    {reason : Refusal} :
    naming.nameAll index baseline = .error reason ↔
      ∃ front listener back, baseline = front ++ listener :: back ∧
        (∀ other ∈ front, naming other ≠ none) ∧ naming listener = none ∧
        .unnamed (index + front.length) = reason := by
  induction baseline generalizing index with
  | nil => simp [Naming.nameAll]
  | cons first rest ih =>
    rw [Naming.nameAll]
    cases hkey : naming first with
    | none =>
      refine ⟨fun herror => ⟨[], first, rest, rfl, nofun, hkey, Except.error.inj herror⟩, ?_⟩
      rintro ⟨front, listener, back, hsplit, hfront, hnone, rfl⟩
      cases front with
      | nil => rfl
      | cons other front =>
        -- then the first listener would be one of those that have a name
        obtain ⟨rfl, -⟩ := List.cons.inj hsplit
        exact absurd hkey (hfront first List.mem_cons_self)
    | some key =>
      refine map_eq_error_iff.trans (ih.trans ⟨?_, ?_⟩)
      · rintro ⟨front, listener, back, rfl, hfront, hnone, rfl⟩
        refine ⟨first :: front, listener, back, rfl, ?_, hnone, ?_⟩
        · exact List.forall_mem_cons.mpr ⟨by simp [hkey], hfront⟩
        · rw [List.length_cons, Nat.add_right_comm, Nat.add_assoc]
      · rintro ⟨front, listener, back, hsplit, hfront, hnone, rfl⟩
        cases front with
        | nil =>
          obtain ⟨rfl, -⟩ := List.cons.inj hsplit
          rw [hkey] at hnone
          cases hnone
        | cons other front =>
          obtain ⟨-, hrest⟩ := List.cons.inj hsplit
          refine ⟨front, listener, back, hrest, (List.forall_mem_cons.mp hfront).2, hnone, ?_⟩
          rw [List.length_cons, Nat.add_right_comm, Nat.add_assoc]

/-! ### Listeners that are added -/

section Identity

variable [DecidableEq L]

theorem IsStart.anchor_mem {baseline : List L} (hs : IsStart s baseline) :
    s.anchor ∈ s.registry.keys :=
  List.mem_of_getLast? hs.anchor_eq

theorem Grows.refl (hs : s.Aligned) : Grows s s [] :=
  ⟨rfl, hs, List.prefix_refl _, fun a b => by simp⟩

theorem Grows.trans {r : Session L} {pairs later : List (Key × Key)} (hst : Grows s t pairs)
    (htr : Grows t r later) : Grows s r (pairs ++ later) := by
  refine ⟨?_, htr.aligned, hst.prefix_toList.trans htr.prefix_toList, ?_⟩
  · rw [htr.frame, hst.frame]
  · intro a b
    rw [htr.edge_iff, hst.edge_iff, List.mem_append, or_assoc]

theorem Grows.prefix_keys {pairs : List (Key × Key)} (hst : Grows s t pairs) :
    s.registry.keys <+: t.registry.keys :=
  hst.prefix_toList.map Prod.fst

/-- Where registry and graph have got one more listener each and no edge, keys have the edges that
they had. -/
theorem grows_of_links_eq (hs : s.Aligned) (ht : t.Aligned)
    (hframe : t = { s with registry := t.registry, graph := t.graph })
    (hstarts : s.registry.toList <+: t.registry.toList)
    (hlinks : ∀ u v, t.graph.links.Arc u v ↔ s.graph.links.Arc u v) : Grows s t [] := by
  have hkeys : s.registry.keys <+: t.registry.keys := hstarts.map Prod.fst
  refine ⟨hframe, ht, hstarts, ?_⟩
  intro a b
  rw [ht.edge_iff, hs.edge_iff, hlinks]
  simp only [List.not_mem_nil, or_false]
  refine ⟨?_, ?_⟩
  · rintro ⟨-, -, harc⟩
    -- the ends of an old edge are old listeners
    have ha : a ∈ s.registry.keys :=
      Registry.mem_keys_of_rank_lt hkeys (hs.size_eq ▸ Digraph.source_lt harc)
    have hb : b ∈ s.registry.keys :=
      Registry.mem_keys_of_rank_lt hkeys (hs.size_eq ▸ Digraph.target_lt harc)
    rw [Registry.rank_of_isPrefix hkeys ha, Registry.rank_of_isPrefix hkeys hb] at harc
    exact ⟨ha, hb, harc⟩
  · rintro ⟨ha, hb, harc⟩
    rw [Registry.rank_of_isPrefix hkeys ha, Registry.rank_of_isPrefix hkeys hb]
    exact ⟨hkeys.subset ha, hkeys.subset hb, harc⟩

/-- Once a pair has been found to be vacant, only a want of room keeps it from being enrolled: the
second check of the registry finds what the first has found. -/
theorem enroll_of_conflict?_eq_none (hvacant : s.registry.conflict? key listener = none) :
    s.enroll key listener =
      if s.policy.maxListeners.toNat ≤ s.registry.size then
        .error (.full (s.registry.size + 1) s.policy.maxListeners.toNat)
      else
        .ok ({ s with
          registry := s.registry.write key listener, graph := (s.graph.addNode listener).1 },
          s.registry.size) := by
  simp only [enroll, hvacant, Registry.insert_of_conflict?_eq_none hvacant]

/-- A listener is enrolled if nothing stands in its way and there is room for one more. It comes
last in the registry, and the graph gets a node for it. -/
theorem enroll_eq_ok_iff : s.enroll key listener = .ok (t, i) ↔
    s.registry.conflict? key listener = none ∧
      s.registry.size < s.policy.maxListeners.toNat ∧ s.registry.size = i ∧
      t = { s with
        registry := s.registry.write key listener, graph := (s.graph.addNode listener).1 } := by
  cases hconflict : s.registry.conflict? key listener with
  | some reason =>
    rw [enroll, hconflict]
    exact iff_of_false nofun nofun
  | none =>
    rw [enroll_of_conflict?_eq_none hconflict, and_iff_right rfl]
    split
    · next hfull => exact iff_of_false nofun fun h => Nat.not_lt.mpr hfull h.1
    · next hroom =>
      rw [and_iff_right (Nat.lt_of_not_le hroom), Except.ok.injEq, Prod.mk.injEq, and_comm]
      exact and_congr_right fun _ => eq_comm

theorem toList_of_enroll (henroll : s.enroll key listener = .ok (t, i)) :
    t.registry.toList = s.registry.toList ++ [(key, listener)] := by
  obtain ⟨hvacant, -, -, rfl⟩ := enroll_eq_ok_iff.mp henroll
  exact Registry.toList_write (Registry.conflict?_eq_none_iff.mp hvacant).1 listener

/-- The node that a listener gets is the last one. -/
theorem graph_of_enroll (hs : s.Aligned) (henroll : s.enroll key listener = .ok (t, i)) :
    t.graph.nodes = s.graph.nodes.push listener ∧ t.graph.links = s.graph.links.addNode := by
  obtain ⟨hvacant, -, -, rfl⟩ := enroll_eq_ok_iff.mp henroll
  have hnew : ¬ s.graph.nodes.contains listener := by
    rw [Array.contains_iff_mem, ← Array.mem_toList_iff, hs.nodes_eq]
    exact (hs.inStep.conflict?_eq_none_iff.mp hvacant).2
  rw [Graph.addNode, dif_neg hnew]
  exact ⟨rfl, rfl⟩

/-- The listener comes last on both sides, and in both maps of the registry. -/
theorem aligned_of_enroll (hs : s.Aligned) (henroll : s.enroll key listener = .ok (t, i)) :
    t.Aligned := by
  have hlist := toList_of_enroll henroll
  obtain ⟨hnodes, -⟩ := graph_of_enroll hs henroll
  refine ⟨?_, ?_⟩
  · rw [hnodes, Array.toList_push, hs.nodes_eq, Registry.listeners, Registry.listeners, hlist,
      List.map_append]
    rfl
  · obtain ⟨hvacant, -, -, rfl⟩ := enroll_eq_ok_iff.mp henroll
    exact hs.inStep.write hvacant

theorem grows_of_enroll (hs : s.Aligned) (henroll : s.enroll key listener = .ok (t, i)) :
    Grows s t [] := by
  have hlist := toList_of_enroll henroll
  obtain ⟨hnodes, hlinks⟩ := graph_of_enroll hs henroll
  obtain ⟨-, -, -, rfl⟩ := enroll_eq_ok_iff.mp henroll
  refine grows_of_links_eq hs (aligned_of_enroll hs henroll) rfl ⟨[(key, listener)], hlist.symm⟩ ?_
  -- the new node has no arcs
  intro u v
  rw [hlinks, Digraph.Arc, Digraph.succs_addNode, Digraph.Arc]

/-- A listener is enrolled only while there is room. -/
theorem size_le_of_enroll (henroll : s.enroll key listener = .ok (t, i)) :
    t.registry.size ≤ t.policy.maxListeners.toNat := by
  have hlist := toList_of_enroll henroll
  obtain ⟨-, hroom, -, rfl⟩ := enroll_eq_ok_iff.mp henroll
  rw [← Registry.length_toList, hlist, List.length_append, Registry.length_toList]
  exact hroom

/-! ### Starting -/

/-- What each enrolment keeps is kept when the baseline is enrolled. -/
theorem enrollBaseline_induction {P : Session L → Prop} {named : List (Key × L)}
    (hstep : ∀ {s t : Session L} {key listener i}, P s → s.enroll key listener = .ok (t, i) → P t)
    (hs : P s) (hopening : (enrollBaseline s named).result = .ok t) : P t := by
  induction named generalizing s with
  | nil =>
    obtain rfl : s = t := Except.ok.inj hopening
    exact hs
  | cons entry named ih =>
    obtain ⟨key, listener⟩ := entry
    cases henroll : s.enroll key listener with
    | error reason =>
      rw [enrollBaseline, henroll] at hopening
      cases hopening
    | ok enrolled =>
      rw [enrollBaseline, henroll] at hopening
      exact ih (hstep hs henroll) hopening

theorem grows_of_enrollBaseline {named : List (Key × L)} (hs : s.Aligned)
    (hopening : (enrollBaseline s named).result = .ok t) :
    Grows s t [] ∧ t.registry.toList = s.registry.toList ++ named := by
  induction named generalizing s with
  | nil =>
    obtain rfl : s = t := Except.ok.inj hopening
    exact ⟨Grows.refl hs, by simp⟩
  | cons entry named ih =>
    obtain ⟨key, listener⟩ := entry
    cases henroll : s.enroll key listener with
    | error reason =>
      rw [enrollBaseline, henroll] at hopening
      cases hopening
    | ok enrolled =>
      obtain ⟨r, index⟩ := enrolled
      rw [enrollBaseline, henroll] at hopening
      have hsr := grows_of_enroll hs henroll
      obtain ⟨hrt, hlist⟩ := ih hsr.aligned hopening
      refine ⟨hsr.trans hrt, ?_⟩
      rw [hlist, toList_of_enroll henroll, List.append_assoc]
      rfl

theorem size_le_of_enrollBaseline {named : List (Key × L)}
    (hsize : s.registry.size ≤ s.policy.maxListeners.toNat)
    (hopening : (enrollBaseline s named).result = .ok t) :
    t.registry.size ≤ t.policy.maxListeners.toNat :=
  enrollBaseline_induction (P := fun s => s.registry.size ≤ s.policy.maxListeners.toNat)
    (fun _ henroll => size_le_of_enroll henroll) hsize hopening

theorem aligned_blank (side : Side) (policy : Policy) (anchor : Key) :
    (blank (L := L) side policy anchor).Aligned :=
  ⟨rfl, Registry.inStep_empty⟩

theorem Aligned.fixBaseline (hs : s.Aligned) : s.fixBaseline.Aligned :=
  ⟨hs.nodes_eq, hs.inStep⟩

theorem edge_fixBaseline (hs : s.Aligned) (a b : Key) :
    s.fixBaseline.Edge a b ↔ s.Edge a b ∨ Abuts s.registry.keys a b := by
  have ht : s.fixBaseline.Aligned := hs.fixBaseline
  rw [ht.edge_iff, hs.edge_iff, abuts_iff_getElem?]
  have hchain : ∀ u v, s.fixBaseline.graph.links.Arc u v ↔
      s.graph.links.Arc u v ∨ v = u + 1 ∧ v < s.registry.size := fun u v => by
    rw [← hs.size_eq]
    exact Digraph.arc_chain_iff
  rw [hchain]
  refine ⟨?_, ?_⟩
  · -- an arc of the chain joins neighbouring ranks
    rintro ⟨ha, hb, harc | ⟨hnext, -⟩⟩
    · exact Or.inl ⟨ha, hb, harc⟩
    · exact Or.inr ⟨_, Registry.getElem?_rank ha, hnext ▸ Registry.getElem?_rank hb⟩
  · rintro (⟨ha, hb, harc⟩ | ⟨i, ha, hb⟩)
    · exact ⟨ha, hb, Or.inl harc⟩
    · have hlt : i + 1 < s.registry.size := by
        simpa using (List.getElem?_eq_some_iff.mp hb).1
      refine ⟨List.mem_of_getElem? ha, List.mem_of_getElem? hb, Or.inr ⟨?_, ?_⟩⟩
      · exact (Registry.rank_eq_of_getElem? hb).trans
          (congrArg (· + 1) (Registry.rank_eq_of_getElem? ha).symm)
      · exact Registry.rank_lt_size_iff.mpr (List.mem_of_getElem? hb)

/-- A session that has been started is what enrolling the named baseline comes to, with the baseline
fixed. -/
theorem exists_of_start {side : Side} {baseline : List L} {naming : Naming L} {policy : Policy}
    (hstart : (start side baseline naming policy).result = .ok s) :
    ∃ named anchor r, naming.nameAll 0 baseline = .ok named ∧
      (named.map Prod.fst).getLast? = some anchor ∧
      (enrollBaseline (blank side policy anchor) named).result = .ok r ∧ r.fixBaseline = s := by
  unfold start at hstart
  split at hstart
  · cases hstart
  · next named hnamed =>
    split at hstart
    · cases hstart
    · next anchor listener hlast =>
      cases hopening : (enrollBaseline (blank side policy anchor) named).result with
      | error reason =>
        simp only [hopening] at hstart
        cases hstart
      | ok r =>
        simp only [hopening] at hstart
        refine ⟨named, anchor, r, hnamed, ?_, hopening, Except.ok.inj hstart⟩
        rw [List.getLast?_map, hlast]
        rfl

theorem isStart_of_start {side : Side} {baseline : List L} {naming : Naming L} {policy : Policy}
    (hstart : (start side baseline naming policy).result = .ok s) : IsStart s baseline := by
  obtain ⟨named, anchor, r, hnamed, hlast, hopening, rfl⟩ := exists_of_start hstart
  have hblank : (blank (L := L) side policy anchor).Aligned := aligned_blank side policy anchor
  obtain ⟨hgrows, hlist⟩ := grows_of_enrollBaseline hblank hopening
  have hr : r.registry.toList = named := hlist
  refine ⟨hgrows.aligned.fixBaseline, ?_, ?_, rfl, ?_, ?_⟩
  · -- naming keeps the listeners and their order
    exact (congrArg (List.map Prod.snd) hr).trans (nameAll_eq_ok_iff.mp hnamed).1
  · -- the anchor was chosen before anything was enrolled
    have hanchor : r.anchor = anchor := by rw [hgrows.frame]; rfl
    show (r.registry.toList.map Prod.fst).getLast? = some r.anchor
    rw [hr, hlast, hanchor]
  · show r.finished = false
    rw [hgrows.frame]
    rfl
  · -- there were no edges before the chain
    intro a b
    rw [edge_fixBaseline hgrows.aligned, hgrows.edge_iff, hblank.edge_iff]
    exact or_iff_right (by simp [blank, Registry.keys, Registry.toList, Registry.empty])

/-- A session is started only with as many baseline listeners as it takes. -/
theorem size_le_of_start {side : Side} {baseline : List L} {naming : Naming L} {policy : Policy}
    (hstart : (start side baseline naming policy).result = .ok s) :
    s.registry.size ≤ s.policy.maxListeners.toNat := by
  obtain ⟨named, anchor, r, -, -, hopening, rfl⟩ := exists_of_start hstart
  -- fixing the baseline registers nothing
  have hsize : r.registry.size ≤ r.policy.maxListeners.toNat :=
    size_le_of_enrollBaseline (Nat.zero_le _) hopening
  exact hsize

namespace IsStart

variable {baseline : List L} {u v : Nat}

/-- There is a baseline. -/
theorem size_pos (hs : IsStart s baseline) : 0 < s.registry.size :=
  (Nat.zero_le _).trans_lt (Registry.rank_lt_size_iff.mpr hs.anchor_mem)

/-- The arcs of a session that has just been opened lead from each listener to the next. -/
theorem arc_iff (hs : IsStart s baseline) :
    s.graph.links.Arc u v ↔ v = u + 1 ∧ v < s.registry.size := by
  refine ⟨?_, ?_⟩
  · intro harc
    obtain ⟨a, ha, rfl⟩ := hs.aligned.exists_rank_eq (Digraph.source_lt harc)
    obtain ⟨b, hb, rfl⟩ := hs.aligned.exists_rank_eq (Digraph.target_lt harc)
    have habuts := (hs.edge_iff a b).mp (hs.aligned.edge_iff.mpr ⟨ha, hb, harc⟩)
    obtain ⟨i, hia, hib⟩ := abuts_iff_getElem?.mp habuts
    rw [Registry.rank_eq_of_getElem? hia, Registry.rank_eq_of_getElem? hib]
    exact ⟨rfl, Registry.rank_eq_of_getElem? hib ▸ Registry.rank_lt_size_iff.mpr hb⟩
  · rintro ⟨rfl, hlt⟩
    obtain ⟨a, ha, hranka⟩ := Registry.exists_rank_eq (Nat.lt_of_succ_lt hlt)
    obtain ⟨b, hb, hrankb⟩ := Registry.exists_rank_eq hlt
    have habuts : Abuts s.registry.keys a b := abuts_iff_getElem?.mpr
      ⟨u, hranka ▸ Registry.getElem?_rank ha, hrankb ▸ Registry.getElem?_rank hb⟩
    obtain ⟨-, -, harc⟩ := hs.aligned.edge_iff.mp ((hs.edge_iff a b).mpr habuts)
    rwa [hranka, hrankb] at harc

/-- Each listener but the last has the next one for its only successor. -/
theorem succs_eq (hs : IsStart s baseline) (hu : u + 1 < s.registry.size) :
    s.graph.links.succs u = [u + 1] := by
  refine List.perm_singleton.mp ((List.perm_ext_iff_of_nodup (Digraph.nodup_succs _ u)
    (List.nodup_singleton _)).mpr fun v => ?_)
  rw [List.mem_singleton]
  exact hs.arc_iff.trans (and_iff_left_of_imp fun hv => hv ▸ hu)

end IsStart

end Identity

end LoadOrder.Session
