import LoadOrder.Proofs.Digraph.CycleEmbedding
import LoadOrder.Proofs.Session.Report

/-!
# A session inside another

`Embeds f part full` says that the session `part` is what is left of `full` when some listeners
outside the baseline are taken out that no listener waits for. The map `f` gives the index in `full`
of each listener of `part`. The graph of `part` is then inside that of `full` in the sense of
`Digraph.Embeds`, before the dangling listeners are put behind the anchor and after
(`Embeds.links`, `Embeds.anchored_links`).

So both sorts end in the same way: in schedules that differ by what was taken out, or in one and the
same report (`Embeds.sort_result`).
-/

namespace LoadOrder.Session

variable {L : Type} {f : Nat → Nat} {part full : Session L} {key a b : Key}
  {entries : List (Key × L)}

/-! ### Listings by other indices -/

/-- Answers to renamed questions that are the renamed answers, for a list of them. -/
theorem mapM_map_eq {ε α β γ δ : Type} {p : α → Except ε β} {q : γ → Except ε δ} {i : α → γ}
    {j : β → δ} (hpq : ∀ x, q (i x) = (p x).map j) (xs : List α) :
    (xs.map i).mapM q = (xs.mapM p).map (List.map j) := by
  induction xs with
  | nil => rfl
  | cons x xs ih =>
    rw [List.map_cons, List.mapM_cons, List.mapM_cons, hpq, ih]
    cases p x with
    | error fault => rfl
    | ok y =>
      cases xs.mapM p with
      | error fault => rfl
      | ok ys => rfl

/-- The cycles of two sessions are shown by the same walks along keys if the one graph is inside the
other and its indices are those of the same keys. -/
theorem listCycles_eq (hkeys : ∀ i, full.keyAt? (f i) = part.keyAt? i)
    (hlinks : Digraph.Embeds f part.graph.links full.graph.links) :
    full.listCycles = part.listCycles := by
  have hwalk : ∀ walk : List Nat, (walk.map f).filterMap full.keyAt? = walk.filterMap part.keyAt? :=
    fun walk => by
      rw [List.filterMap_map]
      exact congrArg (List.filterMap · walk) (funext hkeys)
  rw [listCycles, listCycles, hlinks.cycles_eq, mapM_map_eq hlinks.closedWalk_map]
  cases part.graph.links.cycles.mapM part.graph.links.closedWalk with
  | error fault => rfl
  | ok walks =>
    show Except.ok (CycleListing.mk ((walks.map (List.map f)).map _)) = Except.ok _
    rw [List.map_map]
    simp only [Function.comp_def, hwalk]

/-! ### Listeners taken out -/

variable [DecidableEq L]

/-- The listeners of `part` are listeners of `full` by the indices `f`, in the same order and with
the same edges between them, the baseline is among them, and nothing waits for any other. -/
structure Embeds (f : Nat → Nat) (part full : Session L) : Prop where
  /-- Registry and graph of `part` agree. -/
  aligned_part : part.Aligned
  /-- Registry and graph of `full` agree. -/
  aligned_full : full.Aligned
  /-- The order of registration is kept. -/
  strictMono : StrictMono f
  /-- The same listener is found under the new index of an index. -/
  entry?_eq : ∀ i, full.registry.entry? (f i) = part.registry.entry? i
  /-- Both sessions tell the baseline by the same namespace. -/
  inBaseline_eq : full.inBaseline = part.inBaseline
  /-- The last of the baseline listeners is the same. -/
  anchor_eq : f (part.baselineSize - 1) = full.baselineSize - 1
  /-- No baseline listener is taken out. -/
  mem_of_inBaseline : ∀ key ∈ full.registry.keys, full.inBaseline key → key ∈ part.registry.keys
  /-- The edges are those that do not end in what is taken out. -/
  edge_iff : ∀ a b, part.Edge a b ↔ full.Edge a b ∧ b ∈ part.registry.keys
  /-- Edges lead only out of what is left. -/
  mem_of_edge : ∀ a b, full.Edge a b → a ∈ part.registry.keys

namespace Embeds

/-! ### Keys and indices -/

theorem keyAt?_eq (he : Embeds f part full) (i : Nat) : full.keyAt? (f i) = part.keyAt? i := by
  rw [keyAt?, keyAt?, he.entry?_eq]

theorem rank_eq (he : Embeds f part full) (hkey : key ∈ part.registry.keys) :
    full.registry.rank key = f (part.registry.rank key) := by
  have hat : full.keyAt? (f (part.registry.rank key)) = some key := by
    rw [he.keyAt?_eq, keyAt?_rank hkey]
  exact (keyAt?_eq_some_iff.mp hat).2

theorem mem_full (he : Embeds f part full) (hkey : key ∈ part.registry.keys) :
    key ∈ full.registry.keys := by
  have hat : full.keyAt? (f (part.registry.rank key)) = some key := by
    rw [he.keyAt?_eq, keyAt?_rank hkey]
  exact (keyAt?_eq_some_iff.mp hat).1

/-- A key is left exactly if its index is. -/
theorem exists_eq_rank_iff (he : Embeds f part full) (hkey : key ∈ full.registry.keys) :
    (∃ w, f w = full.registry.rank key) ↔ key ∈ part.registry.keys := by
  refine ⟨?_, fun hpart => ⟨_, (he.rank_eq hpart).symm⟩⟩
  rintro ⟨w, hw⟩
  have hat : part.keyAt? w = some key := by
    rw [← he.keyAt?_eq, hw, keyAt?_rank hkey]
  exact (keyAt?_eq_some_iff.mp hat).1

theorem lt_size_iff (he : Embeds f part full) (i : Nat) :
    f i < full.graph.links.size ↔ i < part.graph.links.size := by
  have hsome : ∀ {s : Session L} {i : Nat}, s.Aligned →
      ((s.registry.entry? i).isSome ↔ i < s.graph.links.size) := fun {s i} hs => by
    rw [hs.size_eq, Registry.entry?_eq_getElem?, isSome_getElem?, ← Registry.length_toList]
  rw [← hsome he.aligned_full, ← hsome he.aligned_part, he.entry?_eq]

/-! ### The graphs -/

theorem links (he : Embeds f part full) :
    Digraph.Embeds f part.graph.links full.graph.links where
  strictMono := he.strictMono
  lt_size_iff := he.lt_size_iff
  arc_iff u v := by
    refine ⟨?_, ?_⟩
    · intro harc
      obtain ⟨a, ha, rfl⟩ := he.aligned_part.exists_rank_eq
        ((he.lt_size_iff u).mp (Digraph.source_lt harc))
      obtain ⟨b, hb, rfl⟩ := he.aligned_part.exists_rank_eq
        ((he.lt_size_iff v).mp (Digraph.target_lt harc))
      rw [← he.rank_eq ha, ← he.rank_eq hb] at harc
      have hedge := he.aligned_full.edge_iff.mpr ⟨he.mem_full ha, he.mem_full hb, harc⟩
      exact (he.aligned_part.edge_iff.mp ((he.edge_iff a b).mpr ⟨hedge, hb⟩)).2.2
    · intro harc
      obtain ⟨a, ha, rfl⟩ := he.aligned_part.exists_rank_eq (Digraph.source_lt harc)
      obtain ⟨b, hb, rfl⟩ := he.aligned_part.exists_rank_eq (Digraph.target_lt harc)
      have hedge := he.aligned_part.edge_iff.mpr ⟨ha, hb, harc⟩
      rw [← he.rank_eq ha, ← he.rank_eq hb]
      exact (he.aligned_full.edge_iff.mp ((he.edge_iff a b).mp hedge).1).2.2
  exists_source x y harc := by
    obtain ⟨a, ha, rfl⟩ := he.aligned_full.exists_rank_eq (Digraph.source_lt harc)
    obtain ⟨b, hb, rfl⟩ := he.aligned_full.exists_rank_eq (Digraph.target_lt harc)
    exact (he.exists_eq_rank_iff ha).mpr
      (he.mem_of_edge a b (he.aligned_full.edge_iff.mpr ⟨ha, hb, harc⟩))

theorem anchored_links (he : Embeds f part full) (ha : part.baselineSize - 1 < part.registry.size) :
    Digraph.Embeds f part.anchored.graph.links full.anchored.graph.links := by
  have hbase : ∀ i, full.inBaselineAt (f i) = part.inBaselineAt i := fun i => by
    rw [inBaselineAt, inBaselineAt, he.keyAt?_eq, he.inBaseline_eq]
  -- a node of the baseline is the index of a key that is left
  have hleft : ∀ x, full.inBaselineAt x → ∃ w, f w = x := by
    intro x hx
    obtain ⟨key, hkey, rfl, hin⟩ := inBaselineAt_iff.mp hx
    exact (he.exists_eq_rank_iff hkey).mpr (he.mem_of_inBaseline key hkey hin)
  have hanchored := he.links.anchorDangling hbase hleft (he.aligned_part.size_eq ▸ ha)
  rw [he.anchor_eq] at hanchored
  exact hanchored

/-! ### The sorts -/

/-- The indices that are left of those of some pairs are those of the pairs that are left. -/
theorem kept_ranks (he : Embeds f part full) (hentries : entries ⊆ full.registry.toList) :
    Digraph.kept f (full.registry.ranks entries) =
      part.registry.ranks (entries.filter (·.1 ∈ part.registry.keys)) := by
  have hf : f.Injective := he.strictMono.injective
  induction entries with
  | nil => rfl
  | cons entry entries ih =>
    have htail := ih fun e he => hentries (List.mem_cons_of_mem entry he)
    have hkey : entry.1 ∈ full.registry.keys := List.mem_map_of_mem (hentries List.mem_cons_self)
    simp only [Registry.ranks, List.map_cons] at htail ⊢
    by_cases hpart : entry.1 ∈ part.registry.keys
    · rw [Digraph.kept_cons_of_eq hf (he.rank_eq hpart).symm, htail,
        List.filter_cons_of_pos (by simpa using hpart), List.map_cons, List.map_cons]
    · have hout : ¬ ∃ w, f w = full.registry.rank entry.1 := fun hexists =>
        hpart ((he.exists_eq_rank_iff hkey).mp hexists)
      rw [Digraph.kept_cons_of_ne hf hout, htail, List.filter_cons_of_neg (by simpa using hpart)]

/-- Pairs of `full` whose keys are left are pairs of `part`. -/
theorem filter_subset (he : Embeds f part full) (hentries : entries ⊆ full.registry.toList) :
    entries.filter (·.1 ∈ part.registry.keys) ⊆ part.registry.toList := by
  intro entry hentry
  obtain ⟨hmem, hkey⟩ := List.mem_filter.mp hentry
  have hkey : entry.1 ∈ part.registry.keys := by simpa using hkey
  -- the pair is found in `part` at the index of its key
  have hread : part.registry.entry? (part.registry.rank entry.1) = some entry := by
    rw [← he.entry?_eq, ← he.rank_eq hkey, Registry.entry?_rank (hentries hmem)]
  rw [Registry.entry?_eq_getElem?] at hread
  exact List.mem_of_getElem? hread

/-- Both sorts end in schedules, and that of `part` is that of `full` without the listeners that are
taken out, or both end in the same report. -/
theorem sort_result (he : Embeds f part full) (hopen : part.finished = false)
    (hopen' : full.finished = false) (ha : part.baselineSize - 1 < part.registry.size) :
    (∃ entries, entries.Perm full.registry.toList ∧ full.sort.result = .ok ⟨entries⟩ ∧
        part.sort.result = .ok ⟨entries.filter (·.1 ∈ part.registry.keys)⟩) ∨
      ∃ listing, full.sort.result = .error (.cyclic listing) ∧
        part.sort.result = .error (.cyclic listing) := by
  have hlinks := he.anchored_links ha
  rcases sort_outcome he.aligned_full hopen' with
    ⟨entries, hsort, hperm, hresult⟩ | ⟨hsort, listing, hresult, -⟩
  · refine Or.inl ⟨entries, hperm, hresult, ?_⟩
    rw [(sort_spec hopen).2, hlinks.topoSort_eq_some hsort, he.kept_ranks hperm.subset]
    show part.anchored.schedule _ = _
    rw [schedule, registry_anchored, Registry.mapM_entry?_ranks (he.filter_subset hperm.subset)]
  · refine Or.inr ⟨listing, hresult, ?_⟩
    -- anchoring leaves the keys as they are
    have hlistings : full.anchored.listCycles = part.anchored.listCycles :=
      listCycles_eq he.keyAt?_eq hlinks
    rw [← hresult, (sort_spec hopen).2, (sort_spec hopen').2, hsort,
      hlinks.topoSort_eq_none_iff.mp hsort, hlistings]

end Embeds

end LoadOrder.Session
