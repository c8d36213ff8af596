import LoadOrder.Proofs.Session.Embedding

/-!
# Listeners that nothing waits for

Leave a listener `x` outside the baseline namespace out of a history in which every call succeeds:
its registration and the declarations that something runs before it (`without x calls`). If nothing
was declared to run after `x`, the others do not notice. Call by call the two sessions stay the same
but for `x` (`Omits.step_omitted`, `Omits.step_kept`, `Omits.after`), every call that remains
succeeds, and in the end the one session is inside the other (`Omits.embeds`).
-/

namespace LoadOrder

/-- Whether the call registers a listener under `x` or declares that something runs before it. -/
def Call.endsIn {L : Type} (x : Key) : Call L → Bool
  | .register key _ => key == x
  | .declare _ second => second == x
  | .sort => false

namespace Session

variable {L : Type} {x : Key}

/-- A history without the calls that end in `x`. -/
def without (x : Key) (calls : List (Call L)) : List (Call L) :=
  calls.filter fun call => !call.endsIn x

variable [DecidableEq L] {s full part full' part' : Session L} {key a b : Key} {listener : L}
  {baseline : List L} {call : Call L} {calls : List (Call L)} {pairs : List (Key × Key)}

/-- No call of the history is refused. -/
def AcceptsAll (s : Session L) (calls : List (Call L)) : Prop :=
  ∀ reply ∈ s.replies calls, ∃ answer, reply.result = .ok answer

theorem acceptsAll_cons :
    s.AcceptsAll (call :: calls) ↔ s.Accepts call ∧ (s.perform call).session.AcceptsAll calls := by
  rw [AcceptsAll, replies, List.forall_mem_cons]
  exact Iff.rfl

/-! ### Two sessions in step -/

/-- The sessions differ in nothing but a listener under `x`, which only `full` may have, and which
no other waits for. -/
structure Omits (x : Key) (full part : Session L) : Prop where
  /-- Nothing but listeners and edges differs. -/
  frame : part = { full with registry := part.registry, graph := part.graph }
  /-- Registry and graph of `full` agree. -/
  aligned_full : full.Aligned
  /-- Registry and graph of `part` agree. -/
  aligned_part : part.Aligned
  /-- The other listeners are the same in the same order. -/
  toList_eq : part.registry.toList = full.registry.toList.filter (·.1 ≠ x)
  /-- The edges are the same but for those that end in `x`. -/
  edge_iff : ∀ a b, part.Edge a b ↔ full.Edge a b ∧ b ≠ x
  /-- No edge leads out of `x`. -/
  not_edge : ∀ b, ¬ full.Edge x b

namespace Omits

theorem mem_keys_iff (h : Omits x full part) :
    key ∈ part.registry.keys ↔ key ∈ full.registry.keys ∧ key ≠ x := by
  rw [Registry.keys, h.toList_eq, Registry.keys, List.mem_map, List.mem_map]
  simp only [List.mem_filter, decide_eq_true_eq]
  refine ⟨?_, ?_⟩
  · rintro ⟨entry, ⟨hmem, hne⟩, rfl⟩
    exact ⟨⟨entry, hmem, rfl⟩, hne⟩
  · rintro ⟨⟨entry, hmem, rfl⟩, hne⟩
    exact ⟨entry, ⟨hmem, hne⟩, rfl⟩

/-- A session without `x` is one in which nothing is left out. -/
theorem refl (hs : s.Aligned) (hx : x ∉ s.registry.keys) : Omits x s s := by
  refine ⟨rfl, hs, hs, ?_, ?_, ?_⟩
  · refine (List.filter_eq_self.mpr fun entry hentry => decide_eq_true ?_).symm
    rintro rfl
    exact hx (List.mem_map_of_mem hentry)
  · intro a b
    refine (and_iff_left_of_imp ?_).symm
    rintro hedge rfl
    exact hx (hs.edge_iff.mp hedge).2.1
  · intro b hedge
    exact hx (hs.edge_iff.mp hedge).1

/-- The sessions stay in step when each grows, and by the same but for what ends in `x`. -/
theorem grow (h : Omits x full part) (hfull : Grows full full' pairs)
    (hpart : Grows part part' (pairs.filter (·.2 ≠ x)))
    (hlist : part'.registry.toList = full'.registry.toList.filter (·.1 ≠ x))
    (hsource : ∀ b, (x, b) ∉ pairs) : Omits x full' part' := by
  refine ⟨?_, hfull.aligned, hpart.aligned, hlist, ?_, ?_⟩
  · rw [hpart.frame, h.frame, hfull.frame]
  · intro a b
    rw [hpart.edge_iff, hfull.edge_iff, h.edge_iff, List.mem_filter]
    simp only [decide_eq_true_eq, or_and_right]
  · intro b hedge
    rcases (hfull.edge_iff x b).mp hedge with hold | hnew
    · exact h.not_edge b hold
    · exact hsource b hnew

/-- A call that ends in `x` leaves the sessions in step if `full` alone performs it. -/
theorem step_omitted (h : Omits x full part) (haccepts : full.Accepts call)
    (hends : call.endsIn x) (hfirst : ∀ b, call ≠ .declare x b) :
    Omits x (full.perform call).session part := by
  cases call with
  | register key listener =>
    obtain rfl : key = x := by simpa [Call.endsIn] using hends
    refine h.grow (grows_perform h.aligned_full nofun) (Grows.refl h.aligned_part) ?_ nofun
    rw [toList_perform_register haccepts, List.filter_append, ← h.toList_eq]
    simp
  | declare a b =>
    obtain rfl : b = x := by simpa [Call.endsIn] using hends
    have ha : b ≠ a := fun heq => hfirst b (heq ▸ rfl)
    refine h.grow (grows_perform h.aligned_full nofun) ?_ ?_ ?_
    · rw [declared?_of_accepts haccepts]
      simpa using Grows.refl h.aligned_part
    · rw [registry_perform_declare, h.toList_eq]
    · simp [declared?_of_accepts haccepts, ha]
  | sort => cases hends

/-- Any other call is accepted by both sessions if `full` accepts it, and leaves them in step. -/
theorem step_kept (h : Omits x full part) (haccepts : full.Accepts call) (hsort : call ≠ .sort)
    (hends : ¬ call.endsIn x) (hfirst : ∀ b, call ≠ .declare x b) :
    part.Accepts call ∧ Omits x (full.perform call).session (part.perform call).session := by
  have hfinished : part.finished = full.finished := by rw [h.frame]
  have hgrows := grows_perform h.aligned_full hsort
  have hgrows' := grows_perform h.aligned_part hsort
  cases call with
  | register key listener =>
    have hne : key ≠ x := by simpa [Call.endsIn] using hends
    -- what `part` holds is held by `full`, so it has room as well
    have hlisteners : part.registry.listeners ⊆ full.registry.listeners := by
      rw [Registry.listeners, h.toList_eq]
      exact List.map_subset Prod.snd (List.filter_subset_self _)
    have hsize : part.registry.size ≤ full.registry.size := by
      rw [← Registry.length_toList, h.toList_eq, ← Registry.length_toList]
      exact List.length_filter_le _ _
    have hpart : part.Accepts (.register key listener) := by
      obtain ⟨hopen, ⟨hkey, hlistener⟩, hroom⟩ := h.aligned_full.accepts_register_iff.mp haccepts
      have hpolicy : part.policy = full.policy := by rw [h.frame]
      refine h.aligned_part.accepts_register_iff.mpr ⟨hfinished.trans hopen, ⟨?_, ?_⟩, ?_⟩
      · exact fun hmem => hkey (h.mem_keys_iff.mp hmem).1
      · exact fun hmem => hlistener (hlisteners hmem)
      · rw [hpolicy]
        exact lt_of_le_of_lt hsize hroom
    refine ⟨hpart, h.grow hgrows hgrows' ?_ (by rintro e ⟨⟩)⟩
    rw [toList_perform_register haccepts, toList_perform_register hpart, List.filter_append,
      ← h.toList_eq]
    simp [hne]
  | declare a b =>
    have hb : b ≠ x := by simpa [Call.endsIn] using hends
    have ha : x ≠ a := fun heq => hfirst b (heq ▸ rfl)
    have hpart : part.Accepts (.declare a b) := by
      obtain ⟨hopen, hakey, hbkey, hne⟩ := h.aligned_full.accepts_declare_iff.mp haccepts
      exact h.aligned_part.accepts_declare_iff.mpr ⟨hfinished.trans hopen,
        h.mem_keys_iff.mpr ⟨hakey, ha.symm⟩, h.mem_keys_iff.mpr ⟨hbkey, hb⟩, hne⟩
    rw [declared?_of_accepts haccepts] at hgrows
    rw [declared?_of_accepts hpart] at hgrows'
    refine ⟨hpart, h.grow hgrows (by simpa [hb] using hgrows') ?_ (by simp [ha])⟩
    rw [registry_perform_declare, registry_perform_declare, h.toList_eq]
  | sort => exact absurd rfl hsort

/-- The rest of the history is accepted, and the sessions stay in step. -/
theorem after (h : Omits x full part) (haccepts : full.AcceptsAll calls) (hsort : .sort ∉ calls)
    (hfirst : ∀ b, .declare x b ∉ calls) :
    part.AcceptsAll (without x calls) ∧
      Omits x (full.after calls) (part.after (without x calls)) := by
  induction calls generalizing full part with
  | nil => exact ⟨by simp [without, AcceptsAll, replies], h⟩
  | cons call calls ih =>
    obtain ⟨hcall, hrest⟩ := acceptsAll_cons.mp haccepts
    have hsort' : .sort ∉ calls := fun hmem => hsort (List.mem_cons_of_mem call hmem)
    have hfirst' : ∀ b, .declare x b ∉ calls := fun b hmem =>
      hfirst b (List.mem_cons_of_mem call hmem)
    have hne : ∀ b, call ≠ .declare x b := fun b heq => hfirst b (heq ▸ List.mem_cons_self)
    rw [without, List.filter_cons]
    by_cases hends : call.endsIn x
    · rw [if_neg (by simp [hends])]
      exact ih (h.step_omitted hcall hends hne) hrest hsort' hfirst'
    · rw [if_pos (by simp [hends]), acceptsAll_cons, after_cons, after_cons]
      obtain ⟨hpart, hstep⟩ := h.step_kept hcall
        (fun heq => hsort (heq ▸ List.mem_cons_self)) hends hne
      exact ⟨⟨hpart, (ih hstep hrest hsort' hfirst').1⟩, (ih hstep hrest hsort' hfirst').2⟩

end Omits

/-! ### Indices without one -/

/-- The indices but for `r`, in order. -/
def skip (r i : Nat) : Nat :=
  if i < r then i else i + 1

theorem strictMono_skip (r : Nat) : StrictMono (skip r) := by
  intro i j hij
  unfold skip
  split <;> split <;> omega

theorem getElem?_skip {α : Type} (front back : List α) (y : α) (i : Nat) :
    (front ++ y :: back)[skip front.length i]? = (front ++ back)[i]? := by
  unfold skip
  split
  · next hi => rw [List.getElem?_append_left hi, List.getElem?_append_left hi]
  · next hi =>
    have hle : front.length ≤ i := Nat.not_lt.mp hi
    rw [List.getElem?_append_right (by omega), List.getElem?_append_right hle,
      Nat.sub_add_comm hle, List.getElem?_cons_succ]

namespace Omits

/-- Past the index of `x` the indices of `full` are one higher than those of `part`. -/
theorem entry?_skip (h : Omits x full part) (hx : x ∈ full.registry.keys) (i : Nat) :
    full.registry.entry? (skip (full.registry.rank x) i) = part.registry.entry? i := by
  obtain ⟨listener, hmem⟩ := Registry.exists_mem_of_mem_keys hx
  obtain ⟨front, back, hsplit⟩ := List.append_of_mem hmem
  have hkeys : full.registry.keys = front.map Prod.fst ++ x :: back.map Prod.fst := by
    rw [Registry.keys, hsplit, List.map_append, List.map_cons]
  have hrank : full.registry.rank x = front.length := by
    refine Registry.rank_eq_of_getElem? ?_
    rw [hkeys, List.getElem?_append_right (by simp)]
    simp
  -- no other pair has the key `x`
  have hother : ∀ entry ∈ front ++ back, entry.1 ≠ x := by
    have hnodup := full.registry.keys_nodup
    rw [hkeys, List.nodup_middle, ← List.map_append] at hnodup
    rintro entry hentry rfl
    exact (List.nodup_cons.mp hnodup).1 (List.mem_map_of_mem hentry)
  have hlist : part.registry.toList = front ++ back := by
    rw [h.toList_eq, hsplit, List.filter_append, List.filter_cons_of_neg (by simp),
      ← List.filter_append]
    exact List.filter_eq_self.mpr fun entry hentry => decide_eq_true (hother entry hentry)
  rw [Registry.entry?_eq_getElem?, Registry.entry?_eq_getElem?, hlist, hsplit, hrank,
    getElem?_skip]

/-- With `x` left out of `full`, the one session is inside the other. -/
theorem embeds (h : Omits x full part) (hx : x ∈ full.registry.keys) (hbase : ¬ full.inBaseline x)
    (hrank : full.baselineSize - 1 < full.registry.rank x) :
    Embeds (skip (full.registry.rank x)) part full := by
  have hsize : part.baselineSize = full.baselineSize := by rw [h.frame]
  refine ⟨h.aligned_part, h.aligned_full, strictMono_skip _, h.entry?_skip hx, ?_, ?_, ?_, ?_, ?_⟩
  · rw [h.frame]
    rfl
  · rw [hsize, skip, if_pos hrank]
  · rintro key hkey hin
    refine h.mem_keys_iff.mpr ⟨hkey, ?_⟩
    rintro rfl
    exact hbase hin
  · intro a b
    rw [h.edge_iff]
    refine and_congr_right fun hedge => ?_
    rw [h.mem_keys_iff]
    exact (and_iff_right (h.aligned_full.edge_iff.mp hedge).2.1).symm
  · intro a b hedge
    refine h.mem_keys_iff.mpr ⟨(h.aligned_full.edge_iff.mp hedge).1, ?_⟩
    rintro rfl
    exact h.not_edge b hedge

end Omits

/-! ### The sort without a listener -/

/-- A listener that is registered along a history without refusals is new to the session. -/
theorem registered_of_acceptsAll (hs : s.Aligned) (haccepts : s.AcceptsAll calls)
    (hsort : .sort ∉ calls) (hmem : .register x listener ∈ calls) :
    x ∉ s.registry.keys ∧ x ∈ (s.after calls).registry.keys := by
  induction calls generalizing s with
  | nil => cases hmem
  | cons call calls ih =>
    obtain ⟨hcall, hrest⟩ := acceptsAll_cons.mp haccepts
    rw [List.mem_cons, not_or] at hsort
    have hgrows := grows_perform hs (Ne.symm hsort.1)
    rcases List.mem_cons.mp hmem with rfl | hlater
    · refine ⟨(hs.accepts_register_iff.mp hcall).2.1.1, ?_⟩
      refine (grows_after hgrows.aligned hsort.2).prefix_keys.subset ?_
      rw [Registry.keys, toList_perform_register hcall]
      simp
    · obtain ⟨hnew, hafter⟩ := ih hgrows.aligned hrest hsort.2 hlater
      exact ⟨fun hold => hnew (hgrows.prefix_keys.subset hold), hafter⟩

/-- Take a history in which every call succeeds and a listener `x` outside the baseline namespace
that is registered along it and never declared to run before another. The history without its
registration and without the declarations that something runs before it succeeds as well, and the
sorts end alike: in schedules that differ only by `x`, or in the same report. -/
theorem sort_without {side : Side} {naming : Naming L} {policy : Policy}
    (hstart : (start side baseline naming policy).result = .ok s) (hsort : .sort ∉ calls)
    (haccepts : s.AcceptsAll calls) (hmem : .register x listener ∈ calls)
    (hbase : ¬ s.inBaseline x) (hfirst : ∀ b, .declare x b ∉ calls) :
    s.AcceptsAll (without x calls) ∧
      ((∃ entries, (s.after calls).sort.result = .ok ⟨entries⟩ ∧
          (s.after (without x calls)).sort.result = .ok ⟨entries.filter (·.1 ≠ x)⟩) ∨
        ∃ listing, (s.after calls).sort.result = .error (.cyclic listing) ∧
          (s.after (without x calls)).sort.result = .error (.cyclic listing)) := by
  have hs : IsStart s baseline := isStart_of_start hstart
  obtain ⟨hnew, hx⟩ := registered_of_acceptsAll hs.aligned haccepts hsort hmem
  obtain ⟨haccepts', hafter⟩ :=
    (Omits.refl hs.aligned hnew).after haccepts hsort hfirst
  refine ⟨haccepts', ?_⟩
  have hsort' : .sort ∉ without x calls := fun hin => hsort (List.mem_of_mem_filter hin)
  have hgrows := hs.grows hsort
  have hbase' : ¬ (s.after calls).inBaseline x := by
    rwa [hs.inBaseline_after hsort]
  -- the baseline was there before `x`
  have hbehind : (s.after calls).baselineSize - 1 < (s.after calls).registry.rank x := by
    rw [← (hs.rank_anchor hsort).2]
    exact Registry.rank_lt_rank_of_isPrefix hgrows.prefix_keys
      hs.anchor_mem hnew
  have he := hafter.embeds hx hbase' hbehind
  rcases he.sort_result (hs.finished_after hsort') (hs.finished_after hsort)
      (hs.anchor_lt_size hsort') with
    ⟨entries, hperm, hresult, hresult'⟩ | hcyclic
  · refine Or.inl ⟨entries, hresult, ?_⟩
    rw [hresult']
    -- of the listeners that there are, those left are those under other keys
    refine congrArg (fun left => Except.ok (Schedule.mk left)) (List.filter_congr ?_)
    intro entry hentry
    have hkey : entry.1 ∈ (s.after calls).registry.keys :=
      List.mem_map_of_mem (hperm.subset hentry)
    rw [decide_eq_decide, hafter.mem_keys_iff]
    exact and_iff_right hkey
  · exact Or.inr hcyclic

/-- A listener that waits for one declared to run before the baseline comes last, and the other two
are sorted as they are without it. -/
theorem sort_without_waiting :
    ∃ (a m x : Key) (s : Session Listener) (entries : List (Key × Listener)),
      (start .server [⟨"a", "a"⟩] (Naming.byValue "minecraft") .default).result = .ok s ∧
      entries.map Prod.fst = [m, a, x] ∧
      (s.after [.register x ⟨"x", "x"⟩, .register m ⟨"m", "m"⟩, .declare m x,
        .declare m a]).sort.result = .ok ⟨entries⟩ ∧
      (s.after [.register m ⟨"m", "m"⟩, .declare m a]).sort.result =
        .ok ⟨entries.filter (·.1 ≠ x)⟩ := by
  let a : Key := ⟨"minecraft", "a", by decide, by decide, by decide⟩
  let m : Key := ⟨"mod", "m", by decide, by decide, by decide⟩
  let x : Key := ⟨"mod", "x", by decide, by decide, by decide⟩
  let calls : List (Call Listener) :=
    [.register x ⟨"x", "x"⟩, .register m ⟨"m", "m"⟩, .declare m x, .declare m a]
  have hrun : (start .server [⟨"a", "a"⟩] (Naming.byValue "minecraft") .default).result.map
      (fun s => (s.after calls).sort.result.map Schedule.keys) = .ok (.ok [m, a, x]) := by cbv
  have hreplies : (start .server [⟨"a", "a"⟩] (Naming.byValue "minecraft") .default).result.map
      (fun s => (s.inBaseline x, (s.replies calls).map fun reply => reply.result.map fun _ => ()))
      = .ok (false, List.replicate 4 (.ok ())) := by cbv
  obtain ⟨s, hstart, hsort⟩ := exists_of_map_eq_ok hrun
  obtain ⟨schedule, hresult, hkeys⟩ := exists_of_map_eq_ok hsort
  rw [hstart] at hreplies
  obtain ⟨hbase, hreplies⟩ := Prod.mk.inj (Except.ok.inj hreplies)
  have haccepts : s.AcceptsAll calls := by
    intro reply hreply
    have hok := List.eq_of_mem_replicate (hreplies ▸ List.mem_map_of_mem hreply)
    obtain ⟨answer, hanswer, -⟩ := exists_of_map_eq_ok hok
    exact ⟨answer, hanswer⟩
  have hwithout : without x calls = [.register m ⟨"m", "m"⟩, .declare m a] := by cbv
  have hends := (sort_without hstart (by simp [calls]) haccepts List.mem_cons_self
    (by simp [hbase]) (by simp [calls, m, x])).2
  rw [hwithout, hresult] at hends
  rcases hends with ⟨entries, hentries, hrest⟩ | ⟨listing, hlisting, -⟩
  · obtain rfl : schedule = ⟨entries⟩ := Except.ok.inj hentries
    exact ⟨a, m, x, s, entries, hstart, hkeys, hresult, hrest⟩
  · cases hlisting

end Session

end LoadOrder
