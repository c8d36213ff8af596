import LoadOrder.Proofs.Session.Report

/-!
# Which order a sort ends in

An order of a session's listeners is `Admissible` if it keeps the baseline listeners in the order
they were given in, respects every declaration that was accepted, and has the anchor in front of
every listener that dangled just before the sort. Written down in ranks, the admissible orders are
the topological orders of the graph that the sort leaves behind (`admissible_iff_isTopological`).
-/

namespace LoadOrder.Session

variable {L : Type} {s t : Session L} {a b : Key} {entries : List (Key × L)}
  {baseline : List L} {calls : List (Call L)}

/-! ### Orders of pairs and orders of ranks -/

section Ranks

variable {r : Registry L}

theorem nodup_map_fst (hperm : entries.Perm r.toList) : (entries.map Prod.fst).Nodup :=
  (hperm.map Prod.fst).nodup_iff.mpr r.keys_nodup

theorem precedes_ranks_iff (hperm : entries.Perm r.toList) (ha : a ∈ r.keys) (hb : b ∈ r.keys) :
    Precedes (r.ranks entries) (r.rank a) (r.rank b) ↔ Precedes (entries.map Prod.fst) a b := by
  have hmem : ∀ x, x ∈ entries.map Prod.fst ↔ x ∈ r.keys := fun x =>
    (hperm.map Prod.fst).mem_iff
  refine precedes_map_iff ?_ ((hmem a).mpr ha) ((hmem b).mpr hb)
  intro x hx y _ hxy
  exact (Registry.rank_inj ((hmem x).mp hx)).mp hxy

/-- The ranks of an order of the pairs tell it from all others. -/
theorem ranks_inj {others : List (Key × L)} (hentries : entries.Perm r.toList)
    (hothers : others.Perm r.toList) (hranks : r.ranks entries = r.ranks others) :
    entries = others := by
  have hread := Registry.mapM_entry?_ranks hentries.subset
  rw [hranks, Registry.mapM_entry?_ranks hothers.subset] at hread
  exact (Option.some.inj hread).symm

/-- Some first listeners stand in their order exactly if the key of each precedes that of the
next. -/
theorem listeners_sublist_iff (hnodup : t.registry.listeners.Nodup)
    (hstarts : s.registry.toList <+: t.registry.toList) (hperm : entries.Perm t.registry.toList) :
    s.registry.listeners.Sublist (entries.map Prod.snd) ↔
      ∀ a b, Abuts s.registry.keys a b → Precedes (entries.map Prod.fst) a b := by
  have hmem : s.registry.toList ⊆ entries := fun x hx => hperm.mem_iff.mpr (hstarts.subset hx)
  have hfst : ∀ x ∈ entries, ∀ y ∈ entries, x.1 = y.1 → x = y := fun x hx y hy =>
    List.inj_on_of_nodup_map (nodup_map_fst hperm) hx hy
  have hsnd : ∀ x ∈ entries, ∀ y ∈ entries, x.2 = y.2 → x = y := fun x hx y hy =>
    List.inj_on_of_nodup_map ((hperm.map Prod.snd).nodup_iff.mpr hnodup) hx hy
  calc s.registry.listeners.Sublist (entries.map Prod.snd)
      ↔ s.registry.toList.Sublist entries := map_sublist_map_iff hsnd hmem
    _ ↔ s.registry.keys.Sublist (entries.map Prod.fst) := (map_sublist_map_iff hfst hmem).symm
    _ ↔ ∀ a b, Abuts s.registry.keys a b → Precedes (entries.map Prod.fst) a b :=
        sublist_iff_precedes (nodup_map_fst hperm) (List.map_subset Prod.fst hmem)

end Ranks

section Identity

variable [DecidableEq L]

theorem Aligned.isTopological_ranks_iff (ht : t.Aligned)
    (hperm : entries.Perm t.registry.toList) :
    t.graph.links.IsTopological (t.registry.ranks entries) ↔
      ∀ a b, t.Edge a b → Precedes (entries.map Prod.fst) a b := by
  refine ⟨?_, ?_⟩
  · intro horder a b hedge
    obtain ⟨ha, hb, harc⟩ := ht.edge_iff.mp hedge
    exact (precedes_ranks_iff hperm ha hb).mp (horder.precedes _ _ harc)
  · -- an arc joins the ranks of two keys with an edge
    intro hprecedes
    refine ⟨ht.size_eq ▸ Registry.ranks_perm hperm, ?_⟩
    intro u v harc
    obtain ⟨a, ha, rfl⟩ := ht.exists_rank_eq (Digraph.source_lt harc)
    obtain ⟨b, hb, rfl⟩ := ht.exists_rank_eq (Digraph.target_lt harc)
    exact (precedes_ranks_iff hperm ha hb).mpr
      (hprecedes a b (ht.edge_iff.mpr ⟨ha, hb, harc⟩))

/-! ### Admissible orders are topological -/

/-- An order of the listeners that a sort after these calls may end in, if `s` is the session just
opened for `baseline`. -/
structure Admissible (s : Session L) (baseline : List L) (calls : List (Call L))
    (entries : List (Key × L)) : Prop where
  /-- Each listener is there once, with its key. -/
  perm : entries.Perm (s.after calls).registry.toList
  /-- The baseline listeners stand in the given order. -/
  baseline_sublist : baseline.Sublist (entries.map Prod.snd)
  /-- What was declared and accepted is respected. -/
  declared : ∀ a b, (a, b) ∈ s.accepted calls → Precedes (entries.map Prod.fst) a b
  /-- The anchor stands in front of every dangling listener. -/
  anchored : ∀ key, (s.after calls).Dangles key → Precedes (entries.map Prod.fst) s.anchor key

/-- The admissible orders are the topological orders once the dangling listeners have been put
behind the anchor. -/
theorem admissible_iff_isTopological (hs : IsStart s baseline) (hcalls : .sort ∉ calls)
    (hperm : entries.Perm (s.after calls).registry.toList) :
    s.Admissible baseline calls entries ↔
      (s.after calls).anchored.graph.links.IsTopological
        ((s.after calls).registry.ranks entries) := by
  have hgrows := hs.grows hcalls
  have halign : (s.after calls).Aligned := hgrows.aligned
  obtain ⟨hanchor, hrank⟩ := hs.rank_anchor hcalls
  obtain ⟨nodes, hanch⟩ := anchored_links halign (hrank ▸ Registry.rank_lt_size_iff.mpr hanchor)
  have hranks : ((s.after calls).registry.ranks entries).Perm
      (List.range (s.after calls).graph.links.size) := halign.size_eq ▸ Registry.ranks_perm hperm
  -- the edges before the sort are the chain of the baseline and the accepted declarations
  have hedges : (s.after calls).graph.links.IsTopological ((s.after calls).registry.ranks entries) ↔
      baseline.Sublist (entries.map Prod.snd) ∧
        ∀ a b, (a, b) ∈ s.accepted calls → Precedes (entries.map Prod.fst) a b := by
    rw [halign.isTopological_ranks_iff hperm, ← hs.listeners_eq,
      listeners_sublist_iff halign.inStep.listeners_nodup hgrows.prefix_toList hperm]
    simp only [hs.edge_after_iff hcalls, Stated, or_imp, forall_and]
  -- and a dangling node is the rank of a dangling key
  have hdangling : (∀ v, v < (s.after calls).graph.links.size →
      (s.after calls).graph.links.Dangling (s.after calls).inBaselineAt v →
        Precedes ((s.after calls).registry.ranks entries) ((s.after calls).baselineSize - 1) v) ↔
      ∀ key, (s.after calls).Dangles key → Precedes (entries.map Prod.fst) s.anchor key := by
    rw [← hrank, halign.forall_dangling_iff]
    exact forall₂_congr fun key hkey => precedes_ranks_iff hperm hanchor hkey.1
  rw [hanch.isTopological_iff hranks, hedges, hdangling]
  exact ⟨fun h => ⟨⟨h.baseline_sublist, h.declared⟩, h.anchored⟩,
    fun h => ⟨hperm, h.1.1, h.1.2, h.2⟩⟩

/-- The sort after a history ends in a schedule exactly if some order of the listeners is
admissible, and in a report of cycles otherwise. The schedule is the admissible order whose ranks
are lexicographically least. The anchor that admissible orders speak of is the last of the baseline
listeners that the session was opened with. -/
theorem sort_least_admissible {side : Side} {naming : Naming L} {policy : Policy}
    (hstart : (start side baseline naming policy).result = .ok s) (hcalls : .sort ∉ calls) :
    (s.registry.listeners = baseline ∧ s.registry.keys.getLast? = some s.anchor) ∧
    ((∃ schedule, (s.after calls).sort.result = .ok schedule) ↔
      ∃ entries, s.Admissible baseline calls entries) ∧
    ((¬ ∃ entries, s.Admissible baseline calls entries) →
      ∃ listing, (s.after calls).sort.result = .error (.cyclic listing)) ∧
    (∀ schedule, (s.after calls).sort.result = .ok schedule ↔
      s.Admissible baseline calls schedule.entries ∧
        ∀ other, s.Admissible baseline calls other →
          (s.after calls).registry.ranks schedule.entries
            ≤ (s.after calls).registry.ranks other) := by
  have hs : IsStart s baseline := isStart_of_start hstart
  have halign : (s.after calls).Aligned := hs.aligned_after hcalls
  have htopological : ∀ {entries}, s.Admissible baseline calls entries →
      (s.after calls).anchored.graph.links.IsTopological
        ((s.after calls).registry.ranks entries) := fun hadmissible =>
    (admissible_iff_isTopological hs hcalls hadmissible.perm).mp hadmissible
  refine ⟨⟨hs.listeners_eq, hs.anchor_eq⟩, ?_⟩
  rcases sort_outcome halign (hs.finished_after hcalls) with
    ⟨entries, hsort, hperm, hresult⟩ | ⟨hsort, listing, hresult, -⟩
  · obtain ⟨horder, hleast⟩ := Digraph.topoSort_eq_some_iff.mp hsort
    have hadmissible : s.Admissible baseline calls entries :=
      (admissible_iff_isTopological hs hcalls hperm).mpr horder
    rw [hresult]
    refine ⟨⟨fun _ => ⟨entries, hadmissible⟩, fun _ => ⟨_, rfl⟩⟩,
      fun hnone => absurd ⟨entries, hadmissible⟩ hnone, fun schedule => ⟨?_, ?_⟩⟩
    · intro heq
      obtain rfl := Except.ok.inj heq
      exact ⟨hadmissible, fun other hother => hleast _ (htopological hother)⟩
    · rintro ⟨hschedule, hle⟩
      -- two least orders have the same ranks
      have hranks := le_antisymm (hleast _ (htopological hschedule)) (hle entries hadmissible)
      rw [ranks_inj hperm hschedule.perm hranks]
  · have hnone : ¬ ∃ entries, s.Admissible baseline calls entries := by
      rintro ⟨entries, hadmissible⟩
      obtain ⟨order, hsome⟩ := Digraph.exists_topoSort_iff.mpr ⟨_, htopological hadmissible⟩
      rw [hsort] at hsome
      cases hsome
    rw [hresult]
    -- neither side of the equivalences holds
    refine ⟨iff_of_false ?_ hnone, fun _ => ⟨listing, rfl⟩, fun schedule => iff_of_false ?_ ?_⟩
    · rintro ⟨schedule, hok⟩
      cases hok
    · intro hok
      cases hok
    · intro hleast
      exact hnone ⟨_, hleast.1⟩

/-- A listener declared to run before the baseline comes first, one that nothing was said about
last. -/
theorem sort_least_admissible_two_added :
    ∃ (a m n : Key) (s : Session Listener) (schedule : Schedule Listener),
      (start .server [⟨"a", "a"⟩] (Naming.byValue "minecraft") .default).result = .ok s ∧
      schedule.keys = [n, a, m] ∧
      s.Admissible [⟨"a", "a"⟩]
        [.register m ⟨"m", "m"⟩, .register n ⟨"n", "n"⟩, .declare n a] schedule.entries := by
  let a : Key := ⟨"minecraft", "a", by decide, by decide, by decide⟩
  let m : Key := ⟨"mod", "m", by decide, by decide, by decide⟩
  let n : Key := ⟨"mod", "n", by decide, by decide, by decide⟩
  let calls : List (Call Listener) :=
    [.register m ⟨"m", "m"⟩, .register n ⟨"n", "n"⟩, .declare n a]
  have hrun : (start .server [⟨"a", "a"⟩] (Naming.byValue "minecraft") .default).result.map
      (fun s => (s.after calls).sort.result.map Schedule.keys) = .ok (.ok [n, a, m]) := by cbv
  obtain ⟨s, hstart, hsort⟩ := exists_of_map_eq_ok hrun
  obtain ⟨schedule, hresult, hkeys⟩ := exists_of_map_eq_ok hsort
  refine ⟨a, m, n, s, schedule, hstart, hkeys, ?_⟩
  exact (((sort_least_admissible hstart (by simp [calls])).2.2.2 schedule).mp hresult).1

end Identity

end LoadOrder.Session
