import LoadOrder.Proofs.Session.Refusals

/-!
# When a session can be started

A session is started from a baseline, a naming and a policy. What stands in the way is told by these
alone (`BarsStart`): a listener without a name, no listener at all, a key that comes a second time,
or more listeners than the policy allows. Missing names are looked for first, in the whole baseline;
then the listeners are enrolled one after the other, and the first that cannot be is the reason,
whose key is looked at before the room that is left.

That a listener is there already is never the reason. One that comes a second time comes with the
same key, and the key is looked at first.

If nothing stands in the way, the session holds the baseline under its names, each listener tied to
the next, and nothing else (`Opens`).
-/

namespace LoadOrder.Session

variable {L : Type}

/-- What stands in the way of starting a session with a baseline, a naming and room for `max`
listeners. -/
inductive BarsStart (baseline : List L) (naming : Naming L) (max : Nat) : Refusal → Prop
  /-- A listener has no name; it is the first one without. -/
  | unnamed {front back : List L} {listener : L} (hsplit : baseline = front ++ listener :: back)
      (hfront : ∀ other ∈ front, naming other ≠ none) (hnone : naming listener = none) :
      BarsStart baseline naming max (.unnamed front.length)
  /-- There is no listener. -/
  | noBaseline (hempty : baseline = []) : BarsStart baseline naming max .noBaseline
  /-- All are named, and a listener has the key of one before it. The listeners before it have
  different keys, and there is room for them. -/
  | keyTaken {front back : List L} {listener : L} {key : Key}
      (hnamed : ∀ other ∈ baseline, naming other ≠ none)
      (hsplit : baseline = front ++ listener :: back) (hnodup : (front.map naming).Nodup)
      (hroom : front.length ≤ max) (hkey : naming listener = some key)
      (htaken : some key ∈ front.map naming) : BarsStart baseline naming max (.keyTaken key)
  /-- All are named, and there is room for the listeners before one and not for this one. All of
  them have different keys. -/
  | full {front back : List L} {listener : L} (hnamed : ∀ other ∈ baseline, naming other ≠ none)
      (hsplit : baseline = front ++ listener :: back) (hnodup : (front.map naming).Nodup)
      (hnew : naming listener ∉ front.map naming) (hfull : front.length = max) :
      BarsStart baseline naming max (.full (max + 1) max)

/-- The session holds the baseline under its names, each listener tied to the next, and has just
been opened. -/
structure Opens [DecidableEq L] (s : Session L) (side : Side) (baseline : List L)
    (naming : Naming L) (policy : Policy) : Prop where
  /-- The side is the given one. -/
  side_eq : s.side = side
  /-- The policy is the given one. -/
  policy_eq : s.policy = policy
  /-- The registered listeners are the baseline in the given order. -/
  listeners_eq : s.registry.listeners = baseline
  /-- Each of them is registered under its name. -/
  naming_eq : ∀ entry ∈ s.registry.toList, naming entry.2 = some entry.1
  /-- The two maps of the registry agree. -/
  inStep : s.registry.InStep
  /-- The nodes are the baseline in the given order. -/
  nodes_eq : s.graph.nodes.toList = baseline
  /-- The arcs lead from each listener to the next, and there are no others. -/
  arcs_eq : s.graph.links.arcs = (List.range (baseline.length - 1)).map fun i => (i, i + 1)
  /-- The anchor is the name of the last listener. -/
  anchor_eq : baseline.getLast?.bind naming = some s.anchor
  /-- All of them count as baseline. -/
  baselineSize_eq : s.baselineSize = baseline.length
  /-- Nothing has been sorted. -/
  finished_eq : s.finished = false

section Identity

variable [DecidableEq L] {s t : Session L} {key : Key} {listener : L} {reason : Refusal} {i : Nat}
  {named front back : List (Key × L)} {baseline : List L} {naming : Naming L} {policy : Policy}
  {side : Side} {anchor : Key}

/-! ### Enrolling one listener after the other -/

theorem result_enrollBaseline_of_ok (henroll : s.enroll key listener = .ok (t, i)) :
    (enrollBaseline s ((key, listener) :: named)).result = (enrollBaseline t named).result := by
  rw [enrollBaseline, henroll]

theorem result_enrollBaseline_of_error (henroll : s.enroll key listener = .error reason) :
    (enrollBaseline s ((key, listener) :: named)).result = .error reason := by
  rw [enrollBaseline, henroll]

/-- Enrolling several listeners is refused for the first one that is. -/
theorem enrollBaseline_eq_error_iff :
    (enrollBaseline s named).result = .error reason ↔
      ∃ front entry back t, named = front ++ entry :: back ∧
        (enrollBaseline s front).result = .ok t ∧ t.enroll entry.1 entry.2 = .error reason := by
  induction named generalizing s with
  | nil =>
    refine iff_of_false nofun ?_
    rintro ⟨front, entry, back, t, hsplit, -⟩
    simp at hsplit
  | cons first named ih =>
    cases henroll : s.enroll first.1 first.2 with
    | error found =>
      rw [result_enrollBaseline_of_error henroll]
      refine ⟨fun herror => ⟨[], first, named, s, rfl, rfl, Except.error.inj herror ▸ henroll⟩, ?_⟩
      rintro ⟨front, entry, back, t, hsplit, hfront, hentry⟩
      cases front with
      | nil =>
        obtain ⟨rfl, -⟩ := List.cons.inj hsplit
        obtain rfl : s = t := Except.ok.inj hfront
        rw [henroll] at hentry
        exact congrArg _ (Except.error.inj hentry)
      | cons other front =>
        obtain ⟨rfl, -⟩ := List.cons.inj hsplit
        rw [result_enrollBaseline_of_error henroll] at hfront
        cases hfront
    | ok enrolled =>
      rw [result_enrollBaseline_of_ok henroll, ih]
      refine ⟨?_, ?_⟩
      · rintro ⟨front, entry, back, t, rfl, hfront, hentry⟩
        refine ⟨first :: front, entry, back, t, rfl, ?_, hentry⟩
        rwa [result_enrollBaseline_of_ok henroll]
      · rintro ⟨front, entry, back, t, hsplit, hfront, hentry⟩
        cases front with
        | nil =>
          obtain ⟨rfl, -⟩ := List.cons.inj hsplit
          obtain rfl : s = t := Except.ok.inj hfront
          rw [henroll] at hentry
          cases hentry
        | cons other front =>
          obtain ⟨rfl, hrest⟩ := List.cons.inj hsplit
          rw [result_enrollBaseline_of_ok henroll] at hfront
          exact ⟨front, entry, back, t, hrest, hfront, hentry⟩

/-- Several listeners can be enrolled exactly if there is room for all of them and neither a key nor
a listener would be registered twice. -/
theorem exists_enrollBaseline_iff (hs : s.Aligned)
    (hsize : s.registry.size ≤ s.policy.maxListeners.toNat) :
    (∃ t, (enrollBaseline s named).result = .ok t) ↔
      (s.registry.keys ++ named.map Prod.fst).Nodup ∧
        (s.registry.listeners ++ named.map Prod.snd).Nodup ∧
        s.registry.size + named.length ≤ s.policy.maxListeners.toNat := by
  induction named generalizing s with
  | nil =>
    refine iff_of_true ⟨s, rfl⟩ ?_
    simpa using ⟨s.registry.keys_nodup, hs.inStep.listeners_nodup, hsize⟩
  | cons first named ih =>
    cases henroll : s.enroll first.1 first.2 with
    | error found =>
      rw [result_enrollBaseline_of_error henroll]
      refine iff_of_false nofun ?_
      rintro ⟨hkeys, hlisteners, hroom⟩
      -- the first of them could be enrolled
      have hkey : first.1 ∉ s.registry.keys := fun hmem =>
        (List.nodup_append.mp hkeys).2.2 _ hmem _ List.mem_cons_self rfl
      have hlistener : first.2 ∉ s.registry.listeners := fun hmem =>
        (List.nodup_append.mp hlisteners).2.2 _ hmem _ List.mem_cons_self rfl
      rw [List.length_cons] at hroom
      have hvacant := hs.inStep.conflict?_eq_none_iff.mpr ⟨hkey, hlistener⟩
      rw [enroll_eq_ok_iff.mpr ⟨hvacant, by omega, rfl, rfl⟩] at henroll
      cases henroll
    | ok enrolled =>
      have hlist := toList_of_enroll henroll
      have hpolicy : enrolled.1.policy = s.policy := by
        obtain ⟨-, -, -, henrolled⟩ := enroll_eq_ok_iff.mp henroll
        rw [henrolled]
      have hlength : enrolled.1.registry.size = s.registry.size + 1 := by
        rw [← Registry.length_toList, hlist, List.length_append, Registry.length_toList]
        rfl
      rw [result_enrollBaseline_of_ok henroll,
        ih (aligned_of_enroll hs henroll) (size_le_of_enroll henroll), hpolicy, hlength,
        Registry.keys, Registry.listeners, hlist]
      simp only [List.map_append, List.map_cons, List.map_nil, List.append_assoc,
        List.singleton_append, List.length_cons, Registry.keys, Registry.listeners,
        Nat.add_assoc, Nat.add_comm 1]

/-! ### Enrolling the baseline -/

omit [DecidableEq L] in
theorem map_naming_eq (hnamed : ∀ entry ∈ named, naming entry.2 = some entry.1) :
    (named.map Prod.snd).map naming = (named.map Prod.fst).map some := by
  rw [List.map_map, List.map_map]
  exact List.map_congr_left hnamed

omit [DecidableEq L] in
/-- A name is in use exactly if it is the key of some listener. -/
theorem some_mem_map_naming_iff (hnamed : ∀ entry ∈ named, naming entry.2 = some entry.1) :
    some key ∈ (named.map Prod.snd).map naming ↔ key ∈ named.map Prod.fst := by
  rw [map_naming_eq hnamed, List.mem_map_of_injective (Option.some_injective Key)]

/-- What a session without listeners has enrolled. -/
theorem enrolled_of_blank
    (hfront : (enrollBaseline (blank side policy anchor) front).result = .ok t) :
    t.registry.toList = front ∧ t.policy = policy ∧ t.Aligned ∧
      t.registry.size ≤ t.policy.maxListeners.toNat := by
  obtain ⟨hgrows, hlist⟩ := grows_of_enrollBaseline (aligned_blank side policy anchor) hfront
  refine ⟨hlist, ?_, hgrows.aligned, size_le_of_enrollBaseline (Nat.zero_le _) hfront⟩
  rw [hgrows.frame]
  rfl

/-- A session without listeners takes those that have different names, as far as there is room. -/
theorem exists_enrollBaseline_blank_iff
    (hnamed : ∀ entry ∈ named, naming entry.2 = some entry.1) :
    (∃ t, (enrollBaseline (blank side policy anchor) named).result = .ok t) ↔
      ((named.map Prod.snd).map naming).Nodup ∧ named.length ≤ policy.maxListeners.toNat := by
  have hkeys : (blank (L := L) side policy anchor).registry.keys = [] := rfl
  have hlisteners : (blank (L := L) side policy anchor).registry.listeners = [] := rfl
  have hsize : (blank (L := L) side policy anchor).registry.size = 0 := rfl
  have hpolicy : (blank (L := L) side policy anchor).policy = policy := rfl
  have hnames : ((named.map Prod.snd).map naming).Nodup ↔ (named.map Prod.fst).Nodup := by
    rw [map_naming_eq hnamed, List.nodup_map_iff (Option.some_injective Key)]
  rw [exists_enrollBaseline_iff (aligned_blank side policy anchor) (Nat.zero_le _), hkeys,
    hlisteners, hsize, hpolicy, List.nil_append, List.nil_append, Nat.zero_add, hnames]
  -- listeners with different names are different
  exact and_congr_right fun hnodup => and_iff_right ((hnames.mpr hnodup).of_map naming)

/-- The listeners in front of one, if nothing is wrong with them, are enrolled before it. -/
theorem exists_enrolled_front (side : Side) (anchor : Key) {before after : List L}
    (hnamed : ∀ entry ∈ named, naming entry.2 = some entry.1)
    (hsplit : named.map Prod.snd = before ++ listener :: after)
    (hnodup : (before.map naming).Nodup) (hroom : before.length ≤ policy.maxListeners.toNat) :
    ∃ front entry back t, named = front ++ entry :: back ∧ front.map Prod.snd = before ∧
      entry.2 = listener ∧ (enrollBaseline (blank side policy anchor) front).result = .ok t := by
  obtain ⟨front, rest, rfl, rfl, hrest⟩ := List.map_eq_append_iff.mp hsplit
  obtain ⟨entry, back, rfl, rfl, -⟩ := List.map_eq_cons_iff.mp hrest
  have hbefore := (List.forall_mem_append.mp hnamed).1
  rw [List.length_map] at hroom
  obtain ⟨t, hfront⟩ := (exists_enrollBaseline_blank_iff hbefore).mpr ⟨hnodup, hroom⟩
  exact ⟨front, entry, back, t, rfl, rfl, rfl, hfront⟩

/-- What keeps a listener of the baseline from being enrolled stands in the way of a start. -/
theorem barsStart_of_enroll {entry : Key × L}
    (hnamed : ∀ other ∈ front ++ entry :: back, naming other.2 = some other.1)
    (hfront : (enrollBaseline (blank side policy anchor) front).result = .ok t)
    (hentry : t.enroll entry.1 entry.2 = .error reason) :
    BarsStart ((front ++ entry :: back).map Prod.snd) naming policy.maxListeners.toNat reason := by
  obtain ⟨hbefore, hafter⟩ := List.forall_mem_append.mp hnamed
  have hkey : naming entry.2 = some entry.1 := hafter entry List.mem_cons_self
  have hall : ∀ other ∈ (front ++ entry :: back).map Prod.snd, naming other ≠ none := by
    intro other hother
    obtain ⟨_, hmem, rfl⟩ := List.mem_map.mp hother
    exact Option.ne_none_iff_exists'.mpr ⟨_, hnamed _ hmem⟩
  obtain ⟨hnodup, hroom⟩ := (exists_enrollBaseline_blank_iff hbefore).mp ⟨t, hfront⟩
  obtain ⟨rfl, rfl, halign, hsize⟩ := enrolled_of_blank hfront
  have hsplit : (t.registry.toList ++ entry :: back).map Prod.snd =
      t.registry.toList.map Prod.snd ++ entry.2 :: back.map Prod.snd := List.map_append
  have hlength : (t.registry.toList.map Prod.snd).length = t.registry.size := List.length_map _
  cases (halign.enroll_eq_error_iff hsize).mp hentry with
  | keyTaken hmem =>
    refine .keyTaken hall hsplit hnodup (hlength.trans_le hsize) hkey ?_
    exact (some_mem_map_naming_iff hbefore).mpr hmem
  | listenerTaken hnew hmem =>
    -- a listener that is there already is there under its name
    obtain rfl := Option.some.inj ((hbefore _ hmem).symm.trans hkey)
    exact absurd (Registry.mem_keys_of_mem hmem) hnew
  | full hnew _ hfull =>
    refine .full hall hsplit hnodup ?_ (hlength.trans hfull)
    rw [hkey]
    exact mt (some_mem_map_naming_iff hbefore).mp hnew

/-- What stops the baseline from being enrolled, once it is named. -/
theorem enrollBaseline_blank_eq_error_iff
    (hnamed : ∀ entry ∈ named, naming entry.2 = some entry.1) (hne : named ≠ []) :
    (enrollBaseline (blank side policy anchor) named).result = .error reason ↔
      BarsStart (named.map Prod.snd) naming policy.maxListeners.toNat reason := by
  rw [enrollBaseline_eq_error_iff]
  refine ⟨?_, ?_⟩
  · rintro ⟨front, entry, back, t, rfl, hfront, hentry⟩
    exact barsStart_of_enroll hnamed hfront hentry
  · intro hbars
    cases hbars with
    | unnamed hsplit _ hnone =>
      obtain ⟨entry, hentry, rfl⟩ := List.mem_map.mp (hsplit ▸ List.mem_append_cons_self)
      rw [hnamed entry hentry] at hnone
      cases hnone
    | noBaseline hempty => exact absurd (List.map_eq_nil_iff.mp hempty) hne
    | keyTaken _ hsplit hnodup hroom hkey htaken =>
      obtain ⟨front, entry, back, t, rfl, rfl, rfl, hfront⟩ :=
        exists_enrolled_front side anchor hnamed hsplit hnodup hroom
      obtain ⟨hbefore, hafter⟩ := List.forall_mem_append.mp hnamed
      obtain rfl := Option.some.inj (hkey.symm.trans (hafter entry List.mem_cons_self))
      obtain ⟨rfl, -, halign, hsize⟩ := enrolled_of_blank hfront
      refine ⟨_, entry, back, t, rfl, hfront,
        (halign.enroll_eq_error_iff hsize).mpr (.keyTaken ?_)⟩
      exact (some_mem_map_naming_iff hbefore).mp htaken
    | full _ hsplit hnodup hnew hfull =>
      obtain ⟨front, entry, back, t, rfl, rfl, rfl, hfront⟩ :=
        exists_enrolled_front side anchor hnamed hsplit hnodup hfull.le
      obtain ⟨hbefore, hafter⟩ := List.forall_mem_append.mp hnamed
      have hkey : naming entry.2 = some entry.1 := hafter entry List.mem_cons_self
      obtain ⟨rfl, rfl, halign, hsize⟩ := enrolled_of_blank hfront
      refine ⟨_, entry, back, t, rfl, hfront,
        (halign.enroll_eq_error_iff hsize).mpr (.full ?_ ?_ ?_)⟩
      · rw [hkey] at hnew
        exact mt (some_mem_map_naming_iff hbefore).mpr hnew
      · -- a listener that is there has a name in use
        exact fun hmem => hnew (List.mem_map_of_mem hmem)
      · rw [← Registry.length_toList, ← hfull, List.length_map]

/-! ### The session that is opened -/

/-- The arcs of a session that has just been opened, in order. -/
theorem IsStart.arcs_eq (hs : IsStart s baseline) :
    s.graph.links.arcs = (List.range (baseline.length - 1)).map fun i => (i, i + 1) := by
  obtain ⟨n, hn⟩ := Nat.exists_eq_succ_of_ne_zero hs.size_pos.ne'
  have hlength : baseline.length - 1 = n := by
    rw [← hs.listeners_eq, Registry.length_listeners, hn]
    rfl
  -- no arc leads out of the last node
  have hlast : s.graph.links.succs n = [] := by
    refine List.eq_nil_iff_forall_not_mem.mpr fun v hv => ?_
    obtain ⟨rfl, hlt⟩ := hs.arc_iff.mp hv
    exact lt_irrefl _ (hn ▸ hlt)
  rw [hlength, Digraph.arcs, hs.aligned.size_eq, hn, List.range_succ, List.flatMap_append,
    List.flatMap_singleton, hlast, List.map_nil, List.append_nil, List.map_eq_flatMap]
  refine List.flatMap_congr fun u hu => ?_
  rw [hs.succs_eq (hn ▸ Nat.succ_lt_succ (List.mem_range.mp hu)), List.map_singleton]

/-- A start that succeeds opens the session. -/
theorem opens_of_start (hstart : (start side baseline naming policy).result = .ok s) :
    s.Opens side baseline naming policy := by
  have hs := isStart_of_start hstart
  obtain ⟨named, anchor, r, hnamed, hlast, hopening, rfl⟩ := exists_of_start hstart
  obtain ⟨rfl, hkeys⟩ := nameAll_eq_ok_iff.mp hnamed
  obtain ⟨hlist, hpolicy, -, -⟩ := enrolled_of_blank hopening
  obtain ⟨hgrows, -⟩ := grows_of_enrollBaseline (aligned_blank side policy anchor) hopening
  have hframe := hgrows.frame
  refine ⟨?_, hpolicy, hs.listeners_eq, hlist.symm ▸ hkeys, hs.aligned.inStep, ?_, hs.arcs_eq, ?_,
    ?_, hs.finished_eq⟩
  · show r.side = side
    rw [hframe]
    rfl
  · exact hs.aligned.nodes_eq.trans hs.listeners_eq
  · -- the last listener has the last key
    obtain ⟨last, hentry, rfl⟩ := Option.map_eq_some_iff.mp (List.getLast?_map ▸ hlast)
    have hanchor : r.anchor = last.1 := by
      rw [hframe]
      rfl
    rw [List.getLast?_map, hentry]
    exact (hkeys last (List.mem_of_getLast? hentry)).trans (congrArg some hanchor.symm)
  · rw [hs.baselineSize_eq, ← Registry.length_listeners, hs.listeners_eq]

/-! ### What a start comes to -/

omit [DecidableEq L] in
/-- A listener without a name stands in the way before anything else. -/
theorem barsStart_iff_of_unnamed {max : Nat} {found : Refusal}
    (hunnamed : naming.nameAll 0 baseline = .error found) :
    BarsStart baseline naming max reason ↔ found = reason := by
  obtain ⟨front, listener, back, hsplit, hfront, hnone, rfl⟩ := nameAll_eq_error_iff.mp hunnamed
  rw [Nat.zero_add] at *
  have hmem : listener ∈ baseline := hsplit ▸ List.mem_append_cons_self
  refine ⟨?_, ?_⟩
  · intro hbars
    cases hbars with
    | unnamed hother hnamed hmissing =>
      -- naming stops at one listener only
      refine Except.error.inj (hunnamed.symm.trans (nameAll_eq_error_iff.mpr
        ⟨_, _, _, hother, hnamed, hmissing, ?_⟩))
      rw [Nat.zero_add]
    | noBaseline hempty => exact absurd hmem (hempty ▸ List.not_mem_nil)
    | keyTaken hnamed => exact absurd hnone (hnamed listener hmem)
    | full hnamed => exact absurd hnone (hnamed listener hmem)
  · rintro rfl
    exact .unnamed hsplit hfront hnone

theorem result_start_of_unnamed (hunnamed : naming.nameAll 0 baseline = .error reason) :
    (start side baseline naming policy).result = .error reason := by
  rw [start, hunnamed]

theorem result_start_of_named (hnamed : naming.nameAll 0 baseline = .ok named)
    (hlast : named.getLast? = some (anchor, listener)) :
    (start side baseline naming policy).result =
      (enrollBaseline (blank side policy anchor) named).result.map fixBaseline := by
  rw [start, hnamed]
  simp only [hlast]
  cases (enrollBaseline (blank side policy anchor) named).result <;> rfl

/-- A start is refused exactly for what stands in its way. -/
theorem result_start_eq_error_iff :
    (start side baseline naming policy).result = .error reason ↔
      BarsStart baseline naming policy.maxListeners.toNat reason := by
  cases hnaming : naming.nameAll 0 baseline with
  | error found =>
    rw [result_start_of_unnamed hnaming, Except.error.injEq, barsStart_iff_of_unnamed hnaming]
  | ok named =>
    obtain ⟨rfl, hkeys⟩ := nameAll_eq_ok_iff.mp hnaming
    cases hlast : named.getLast? with
    | none =>
      obtain rfl := List.getLast?_eq_none_iff.mp hlast
      refine ⟨fun herror => Except.error.inj herror ▸ .noBaseline rfl, ?_⟩
      intro hbars
      cases hbars with
      | noBaseline _ => rfl
      | unnamed hsplit | keyTaken _ hsplit | full _ hsplit => simp at hsplit
    | some last =>
      have hne : named ≠ [] := List.ne_nil_of_mem (List.mem_of_getLast? hlast)
      rw [result_start_of_named hnaming hlast, map_eq_error_iff,
        enrollBaseline_blank_eq_error_iff hkeys hne]

/-- What starting a session comes to. -/
structure StartsExactly (side : Side) (baseline : List L) (naming : Naming L) (policy : Policy) :
    Prop where
  /-- It is refused exactly for what stands in its way. -/
  refused_iff : ∀ reason, (start side baseline naming policy).result = .error reason ↔
    BarsStart baseline naming policy.maxListeners.toNat reason
  /-- It is never refused because a listener is there already. -/
  listener_new : ∀ key found,
    (start side baseline naming policy).result ≠ .error (.listenerTaken key found)
  /-- If nothing stands in its way, there is a session, opened for the baseline. -/
  opens : (∀ reason, ¬ BarsStart baseline naming policy.maxListeners.toNat reason) →
    ∃ s, (start side baseline naming policy).result = .ok s ∧
      s.Opens side baseline naming policy

/-- Whatever the baseline and its naming, a start is refused for the first missing name, else for an
empty baseline, else for the first listener whose key or whose place is not free, its key looked at
first; and if it is not refused, it opens a session for the baseline. -/
theorem startsExactly (side : Side) (baseline : List L) (naming : Naming L) (policy : Policy) :
    StartsExactly side baseline naming policy := by
  refine ⟨fun reason => result_start_eq_error_iff, ?_, ?_⟩
  · intro key found herror
    cases result_start_eq_error_iff.mp herror
  · intro hfree
    cases hstart : (start side baseline naming policy).result with
    | error reason => exact absurd (result_start_eq_error_iff.mp hstart) (hfree reason)
    | ok s => exact ⟨s, rfl, opens_of_start hstart⟩

/-- A listener comes a second time where there is no room for a second: its key is the reason. -/
example :
    (start .client [⟨"a", "a"⟩, ⟨"a", "a"⟩] (Naming.byValue "minecraft")
      { maxListeners := 1 }).result =
        .error (.keyTaken ⟨"minecraft", "a", by decide, by decide, by decide⟩) := by
  cbv

end Identity

end LoadOrder.Session
