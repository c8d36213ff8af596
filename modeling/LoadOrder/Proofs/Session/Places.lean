import LoadOrder.Proofs.Session.Admissible

/-!
# Places in a schedule

A sort that succeeds leaves a session `t` that `IsSortedTo` the schedule: at every turn comes the
listener that was registered first among those that can come. So the edges and the order of
registration decide which of two listeners comes first (`IsSortedTo.precedes_of_edges`,
`IsSortedTo.precedes_isolated_iff`).
-/

namespace LoadOrder.Session

variable {L : Type} [DecidableEq L] {s t : Session L} {key a b : Key} {schedule : Schedule L}

/-- The schedule is the one in which each listener of `t` is the first registered of those that can
come at its turn. -/
structure IsSortedTo (t : Session L) (schedule : Schedule L) : Prop where
  /-- The stores agree. -/
  aligned : t.Aligned
  /-- The schedule holds the listeners. -/
  perm : schedule.entries.Perm t.registry.toList
  /-- Written down in ranks it is the greedy order of the graph. -/
  greedy : t.graph.links.IsGreedy (t.registry.ranks schedule.entries)

namespace IsSortedTo

theorem ranks_perm (ht : t.IsSortedTo schedule) :
    (t.registry.ranks schedule.entries).Perm (List.range t.graph.links.size) :=
  ht.aligned.size_eq ▸ Registry.ranks_perm ht.perm

theorem isTopological (ht : t.IsSortedTo schedule) :
    t.graph.links.IsTopological (t.registry.ranks schedule.entries) :=
  ht.greedy.isTopological ht.ranks_perm

theorem nodup_keys (ht : t.IsSortedTo schedule) : schedule.keys.Nodup :=
  nodup_map_fst ht.perm

theorem mem_keys_iff (ht : t.IsSortedTo schedule) :
    key ∈ schedule.keys ↔ key ∈ t.registry.keys :=
  (ht.perm.map Prod.fst).mem_iff

/-- Of two listeners one comes first. -/
theorem precedes_iff_not (ht : t.IsSortedTo schedule) (ha : a ∈ t.registry.keys)
    (hb : b ∈ t.registry.keys) (hne : a ≠ b) :
    Precedes schedule.keys a b ↔ ¬ Precedes schedule.keys b a := by
  refine ⟨fun hab hba => (hab.trans ht.nodup_keys hba).ne ht.nodup_keys rfl, ?_⟩
  exact (precedes_or_precedes (ht.mem_keys_iff.mpr ha) (ht.mem_keys_iff.mpr hb) hne).resolve_right

theorem precedes_of_leads (ht : t.IsSortedTo schedule) (hab : t.Leads a b) :
    Precedes schedule.keys a b := by
  obtain ⟨ha, hb, hleads⟩ := ht.aligned.leads_iff.mp hab
  exact (precedes_ranks_iff ht.perm ha hb).mp (ht.isTopological.precedes_of_leads hleads)

theorem not_leads_self (ht : t.IsSortedTo schedule) : ¬ t.Leads a a := fun hcycle =>
  (ht.precedes_of_leads hcycle).ne ht.nodup_keys rfl

/-- What waits only for what comes before `b` and was registered before `b` comes before `b`. -/
theorem precedes_of_edges (ht : t.IsSortedTo schedule) (ha : a ∈ t.registry.keys)
    (hb : b ∈ t.registry.keys) (hab : t.registry.rank a < t.registry.rank b)
    (hedges : ∀ c, t.Edge c a → Precedes schedule.keys c b) : Precedes schedule.keys a b := by
  refine (precedes_ranks_iff ht.perm ha hb).mp (ht.greedy.precedes_of_preds ht.ranks_perm
    (ht.aligned.rank_lt ha) (ht.aligned.rank_lt hb) hab ?_)
  intro w harc
  obtain ⟨c, hc, rfl⟩ := ht.aligned.exists_rank_eq (Digraph.source_lt harc)
  exact (precedes_ranks_iff ht.perm hc hb).mpr (hedges c (ht.aligned.edge_iff.mpr ⟨hc, ha, harc⟩))

/-- A listener without edges comes before one that was registered earlier exactly if that one has to
wait for one that was registered later. -/
theorem precedes_isolated_iff (ht : t.IsSortedTo schedule) (ha : a ∈ t.registry.keys)
    (hb : b ∈ t.registry.keys) (hba : t.registry.rank b < t.registry.rank a)
    (hin : ∀ c, ¬ t.Edge c a) (hout : ∀ c, ¬ t.Edge a c) :
    Precedes schedule.keys a b ↔
      ∃ m, t.registry.rank a < t.registry.rank m ∧ t.Leads m b := by
  have hnodes : (∀ w, ¬ t.graph.links.Arc w (t.registry.rank a)) ∧
      ∀ w, ¬ t.graph.links.Arc (t.registry.rank a) w := by
    refine ⟨?_, ?_⟩
    · intro w harc
      obtain ⟨c, hc, rfl⟩ := ht.aligned.exists_rank_eq (Digraph.source_lt harc)
      exact hin c (ht.aligned.edge_iff.mpr ⟨hc, ha, harc⟩)
    · intro w harc
      obtain ⟨c, hc, rfl⟩ := ht.aligned.exists_rank_eq (Digraph.target_lt harc)
      exact hout c (ht.aligned.edge_iff.mpr ⟨ha, hc, harc⟩)
  rw [Schedule.keys, ← precedes_ranks_iff ht.perm ha hb, ht.greedy.precedes_isolated_iff
    ht.ranks_perm (ht.aligned.rank_lt ha) hba hnodes.1 hnodes.2]
  refine ⟨?_, ?_⟩
  · rintro ⟨w, hlt, hleads⟩
    obtain ⟨m, hm, rfl⟩ := ht.aligned.exists_rank_eq hleads.source_lt
    exact ⟨m, hlt, ht.aligned.leads_iff.mpr ⟨hm, hb, hleads⟩⟩
  · rintro ⟨m, hlt, hleads⟩
    exact ⟨_, hlt, (ht.aligned.leads_iff.mp hleads).2.2⟩

end IsSortedTo

theorem isSortedTo_of_sort (hs : s.Aligned) (hopen : s.finished = false)
    (hresult : s.sort.result = .ok schedule) : s.anchored.IsSortedTo schedule := by
  rcases sort_outcome hs hopen with ⟨entries, hsort, hperm, hok⟩ | ⟨-, listing, herror, -⟩
  · obtain rfl : schedule = ⟨entries⟩ := Except.ok.inj (hresult.symm.trans hok)
    exact ⟨aligned_anchored hs, hperm, (Digraph.perm_and_isGreedy_of_topoSort hsort).2⟩
  · rw [hresult] at herror
    cases herror

end LoadOrder.Session
