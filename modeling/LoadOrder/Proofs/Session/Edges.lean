import LoadOrder.Proofs.Digraph.Anchoring
import LoadOrder.Proofs.Registry
import LoadOrder.Session.Basic

/-!
# Dependencies between keys

What is asked of a session and what it answers is said in keys, while its graph is one of indices.
`s.Edge a b` says that the session has an edge from the listener under `a` to the one under `b`;
`s.Reaches` and `s.Leads` are the paths along such edges, of any number and of at least one; and a
registered key `Dangles` if it is outside the baseline namespace and no path joins it to a
registered key inside.

In an `Aligned` session, where registry and graph hold the same listeners by the same indices and
the maps of the registry are in step, each of these is the notion of the same name in the graph,
read at the ranks of the keys (`edge_iff`, `reaches_iff`, `leads_iff`, `dangles_iff`).
-/

namespace LoadOrder.Session

open Relation

variable {L : Type} {s : Session L} {key a b : Key} {listener : L} {i v : Nat}

/-- The stores of a session agree. -/
structure Aligned [DecidableEq L] (s : Session L) : Prop where
  /-- Registry and graph hold the same listeners, by the same indices. -/
  nodes_eq : s.graph.nodes.toList = s.registry.listeners
  /-- The two maps of the registry agree. -/
  inStep : s.registry.InStep

section Indices

variable [DecidableEq L]

theorem Aligned.size_eq (hs : s.Aligned) : s.graph.links.size = s.registry.size := by
  rw [Graph.size_links_eq, Graph.size, ← Array.length_toList, hs.nodes_eq,
    Registry.length_listeners]

theorem Aligned.rank_lt (hs : s.Aligned) (hkey : key ∈ s.registry.keys) :
    s.registry.rank key < s.graph.links.size :=
  hs.size_eq ▸ Registry.rank_lt_size_iff.mpr hkey

theorem Aligned.exists_rank_eq (hs : s.Aligned) (hv : v < s.graph.links.size) :
    ∃ key ∈ s.registry.keys, s.registry.rank key = v :=
  Registry.exists_rank_eq (hs.size_eq ▸ hv)

/-- The stores still agree when the graph is exchanged for one with the same nodes. -/
theorem Aligned.of_nodes_eq (hs : s.Aligned) {graph : Graph L}
    (hnodes : graph.nodes = s.graph.nodes) : ({ s with graph } : Session L).Aligned :=
  ⟨(congrArg Array.toList hnodes).trans hs.nodes_eq, hs.inStep⟩

end Indices

/-! ### Keys and indices -/

theorem keyAt?_eq_some_iff : s.keyAt? i = some key ↔ key ∈ s.registry.keys ∧
    s.registry.rank key = i := by
  rw [keyAt?, Registry.map_fst_entry?]
  refine ⟨?_, ?_⟩
  · intro hi
    exact ⟨List.mem_of_getElem? hi, Registry.rank_eq_of_getElem? hi⟩
  · rintro ⟨hkey, rfl⟩
    exact Registry.getElem?_rank hkey

theorem keyAt?_rank (hkey : key ∈ s.registry.keys) :
    s.keyAt? (s.registry.rank key) = some key :=
  keyAt?_eq_some_iff.mpr ⟨hkey, rfl⟩

theorem inBaselineAt_iff :
    s.inBaselineAt i ↔ ∃ key ∈ s.registry.keys, s.registry.rank key = i ∧ s.inBaseline key := by
  rw [inBaselineAt, Option.any_eq_true]
  simp only [keyAt?_eq_some_iff, and_assoc]

theorem inBaselineAt_rank (hkey : key ∈ s.registry.keys) :
    s.inBaselineAt (s.registry.rank key) ↔ s.inBaseline key := by
  rw [inBaselineAt, keyAt?_rank hkey, Option.any_some]

/-- Base nodes are the ranks of the keys in the baseline namespace. -/
theorem forall_inBaselineAt_iff {P : Nat → Prop} :
    (∀ v, s.inBaselineAt v → P v) ↔
      ∀ base ∈ s.registry.keys, s.inBaseline base → P (s.registry.rank base) := by
  refine ⟨?_, ?_⟩
  · intro hall base hmem hbase
    exact hall _ ((inBaselineAt_rank hmem).mpr hbase)
  · intro hall v hv
    obtain ⟨base, hmem, rfl, hbase⟩ := inBaselineAt_iff.mp hv
    exact hall base hmem hbase

section Identity

variable [DecidableEq L]

theorem Aligned.position?_eq (hs : s.Aligned) (hmem : (key, listener) ∈ s.registry.toList) :
    s.graph.position? listener = some (s.registry.rank key) := by
  have hlist : s.graph.position? listener = s.registry.listeners.idxOf? listener := by
    rw [Graph.position?, ← hs.nodes_eq, ← List.idxOf?_toArray, Array.toArray_toList]
  -- the listener stands in the registry at the rank of its key
  obtain ⟨hlt, hentry⟩ := List.getElem?_eq_some_iff.mp
    ((Registry.entry?_eq_getElem? _ _).symm.trans (Registry.entry?_rank hmem))
  have hrank : s.registry.rank key < s.registry.listeners.length := by simpa using hlt
  have hget : s.registry.listeners[s.registry.rank key] = listener := by
    simp only [Registry.listeners, List.getElem_map, hentry]
  rw [hlist, List.idxOf?_eq_some_iff]
  refine ⟨hrank, hget, ?_⟩
  intro j hj heq
  -- no listener stands in two places
  have := hs.inStep.listeners_nodup.getElem_inj_iff.mp (heq.trans hget.symm)
  omega

/-- There is an edge from the listener under `a` to the one under `b`. -/
def Edge (s : Session L) (a b : Key) : Prop :=
  s.hasEdge a b = .ok true

/-- There is a path along edges from `a` to `b`, of any number of them. -/
def Reaches (s : Session L) : Key → Key → Prop :=
  ReflTransGen s.Edge

/-- There is a path of at least one edge from `a` to `b`. -/
def Leads (s : Session L) : Key → Key → Prop :=
  TransGen s.Edge

/-- The registered key is outside the baseline namespace, and no path joins it to one inside, in
either direction. -/
def Dangles (s : Session L) (key : Key) : Prop :=
  key ∈ s.registry.keys ∧ ¬ s.inBaseline key ∧
    ∀ other ∈ s.registry.keys, s.inBaseline other → ¬ s.Reaches key other ∧ ¬ s.Reaches other key

/-! ### Paths of keys and paths of indices -/

theorem Aligned.edge_iff (hs : s.Aligned) :
    s.Edge a b ↔ a ∈ s.registry.keys ∧ b ∈ s.registry.keys ∧
      s.graph.links.Arc (s.registry.rank a) (s.registry.rank b) := by
  have hget : ∀ {key listener}, s.get key = .ok listener ↔ (key, listener) ∈ s.registry.toList :=
    Registry.get_eq_ok_iff
  refine ⟨?_, ?_⟩
  · intro hedge
    unfold Edge hasEdge at hedge
    -- both keys are registered, as otherwise the question is refused
    cases ha : s.get a with
    | error reason => rw [ha] at hedge; cases hedge
    | ok la =>
      cases hb : s.get b with
      | error reason => rw [ha, hb] at hedge; cases hedge
      | ok lb =>
        have hla := hget.mp ha
        have hlb := hget.mp hb
        have harc : s.graph.hasEdge la lb = true := by
          rw [ha, hb] at hedge
          exact Except.ok.inj hedge
        rw [Graph.hasEdge, hs.position?_eq hla, hs.position?_eq hlb] at harc
        exact ⟨Registry.mem_keys_of_mem hla, Registry.mem_keys_of_mem hlb,
          List.contains_iff_mem.mp harc⟩
  · rintro ⟨ha, hb, harc⟩
    -- the listeners under the keys are nodes, by the ranks of the keys
    obtain ⟨la, hla⟩ := Registry.exists_mem_of_mem_keys ha
    obtain ⟨lb, hlb⟩ := Registry.exists_mem_of_mem_keys hb
    have hedge : s.graph.hasEdge la lb = true := by
      rw [Graph.hasEdge, hs.position?_eq hla, hs.position?_eq hlb]
      exact List.contains_iff_mem.mpr harc
    rw [Edge, hasEdge, hget.mpr hla, hget.mpr hlb]
    exact congrArg Except.ok hedge

/-- The graph admits an arc between the listeners under two keys exactly if there is no edge between
the keys. -/
theorem Aligned.admits_iff (hs : s.Aligned) (ha : a ∈ s.registry.keys) (hb : b ∈ s.registry.keys) :
    s.graph.links.admits (s.registry.rank a) (s.registry.rank b) ↔ ¬ s.Edge a b := by
  rw [Digraph.admits_iff, and_iff_right (hs.rank_lt ha), and_iff_right (hs.rank_lt hb), hs.edge_iff,
    and_iff_right ha, and_iff_right hb]
  rfl

theorem Aligned.exists_reaches (hs : s.Aligned) (ha : a ∈ s.registry.keys)
    (hpath : s.graph.links.Reaches (s.registry.rank a) v) :
    ∃ b ∈ s.registry.keys, s.registry.rank b = v ∧ s.Reaches a b := by
  induction hpath with
  | refl => exact ⟨a, ha, rfl, ReflTransGen.refl⟩
  | @tail u v _ harc ih =>
    obtain ⟨b, hb, rfl, hab⟩ := ih
    obtain ⟨c, hc, rfl⟩ := hs.exists_rank_eq (Digraph.target_lt harc)
    exact ⟨c, hc, rfl, hab.tail (hs.edge_iff.mpr ⟨hb, hc, harc⟩)⟩

theorem Aligned.reaches_iff (hs : s.Aligned) (ha : a ∈ s.registry.keys) :
    s.Reaches a b ↔ b ∈ s.registry.keys ∧
      s.graph.links.Reaches (s.registry.rank a) (s.registry.rank b) := by
  refine ⟨?_, ?_⟩
  · intro hab
    induction hab with
    | refl => exact ⟨ha, Digraph.Reaches.refl _ _⟩
    | tail _ hedge ih =>
      obtain ⟨-, hc, harc⟩ := hs.edge_iff.mp hedge
      exact ⟨hc, ih.2.trans harc.reaches⟩
  · rintro ⟨hb, hpath⟩
    -- the path of indices is one of keys, and its end has the rank of `b`
    obtain ⟨c, -, hrank, hac⟩ := hs.exists_reaches ha hpath
    rw [(Registry.rank_inj hb).mp hrank.symm]
    exact hac

theorem Aligned.leads_iff (hs : s.Aligned) :
    s.Leads a b ↔ a ∈ s.registry.keys ∧ b ∈ s.registry.keys ∧
      s.graph.links.Leads (s.registry.rank a) (s.registry.rank b) := by
  refine ⟨?_, ?_⟩
  · intro hab
    obtain ⟨c, hedge, hcb⟩ := TransGen.head'_iff.mp hab
    obtain ⟨ha, hc, harc⟩ := hs.edge_iff.mp hedge
    obtain ⟨hb, hpath⟩ := (hs.reaches_iff hc).mp hcb
    exact ⟨ha, hb, harc.leads.trans_reaches hpath⟩
  · rintro ⟨ha, hb, hpath⟩
    obtain ⟨v, harc, hvb⟩ := TransGen.head'_iff.mp hpath
    obtain ⟨c, hc, rfl⟩ := hs.exists_rank_eq (Digraph.target_lt harc)
    exact TransGen.head' (hs.edge_iff.mpr ⟨ha, hc, harc⟩) ((hs.reaches_iff hc).mpr ⟨hb, hvb⟩)

theorem Aligned.acyclic_iff (hs : s.Aligned) :
    s.graph.links.Acyclic ↔ ∀ key, ¬ s.Leads key key := by
  refine ⟨?_, ?_⟩
  · intro hacyclic key hkey
    exact hacyclic _ (hs.leads_iff.mp hkey).2.2
  · intro hopen v hv
    obtain ⟨key, hkey, rfl⟩ := hs.exists_rank_eq hv.source_lt
    exact hopen key (hs.leads_iff.mpr ⟨hkey, hkey, hv⟩)

theorem Aligned.dangles_iff (hs : s.Aligned) :
    s.Dangles key ↔ key ∈ s.registry.keys ∧
      s.graph.links.Dangling s.inBaselineAt (s.registry.rank key) := by
  refine and_congr_right fun hkey => and_congr (not_congr (inBaselineAt_rank hkey).symm) ?_
  rw [forall_inBaselineAt_iff]
  refine forall₂_congr fun other hother => forall_congr' fun _ => ?_
  rw [hs.reaches_iff hkey, hs.reaches_iff hother, and_iff_right hother, and_iff_right hkey]

/-- The dangling nodes are the ranks of the dangling keys. -/
theorem Aligned.forall_dangling_iff (hs : s.Aligned) {P : Nat → Prop} :
    (∀ v, v < s.graph.links.size → s.graph.links.Dangling s.inBaselineAt v → P v) ↔
      ∀ key, s.Dangles key → P (s.registry.rank key) := by
  refine ⟨?_, ?_⟩
  · intro hall key hkey
    obtain ⟨hmem, hdangling⟩ := hs.dangles_iff.mp hkey
    exact hall _ (hs.rank_lt hmem) hdangling
  · intro hall v hv hdangling
    obtain ⟨key, hkey, rfl⟩ := hs.exists_rank_eq hv
    exact hall key (hs.dangles_iff.mpr ⟨hkey, hdangling⟩)

end Identity

end LoadOrder.Session
