import LoadOrder.Proofs.Session.EdgeLog
import LoadOrder.Proofs.Session.Opening

/-!
# What a snapshot shows

A snapshot shows the arcs of the graph as pairs of keys, and an arc with an end that no key belongs
to would be left out without a word. `t.ShowsExactly keys edges` says that nothing is left out and
nothing made up: the keys are those that were registered, the edges are those of the graph, listed
by their sources, and the dependents of a key are the successors of its listener.

It holds of a session whose log of edges is known, since index by index registry and graph then have
the same listener (`Logs.snapshot_edges_eq`, `Logs.map_keyFor?_edges`); and so it holds after every
history, whatever the calls come to (`snapshot_exact`).
-/

namespace LoadOrder.Session

variable {L : Type} [DecidableEq L] {s : Session L} {key : Key} {listener : L}
  {log : List (Key × Key)}

/-- What a snapshot of the session `t` shows, where `keys` are its keys in the order in which they
were registered, and `edges` its edges by keys in the order in which they came to be. -/
structure ShowsExactly (t : Session L) (keys : List Key) (edges : List (Key × Key)) : Prop where
  /-- The nodes are the registered keys, in their order. -/
  nodes_eq : t.snapshot.nodes = keys
  /-- All edges of the graph are there. -/
  length_edges : t.snapshot.edges.length = t.graph.edgeCount
  /-- No edge is there twice. -/
  nodup_edges : t.snapshot.edges.Nodup
  /-- They are the edges of the graph, each listener of which has its key. -/
  translated : t.graph.edges.map (Prod.map t.registry.keyFor? t.registry.keyFor?) =
    t.snapshot.edges.map (Prod.map some some)
  /-- They are listed by the positions of their sources, those of one source in their order. -/
  edges_eq : t.snapshot.edges = edges.mergeSort fun e f => keys.idxOf e.1 ≤ keys.idxOf f.1
  /-- The dependents of a registered key have for listeners the successors of its listener. -/
  dependents_translated : ∀ key listener, t.get key = .ok listener →
    (t.graph.neighbours .forward listener).map t.registry.keyFor? =
      (t.snapshot.dependents key).map some
  /-- They are the targets of its edges, in their order. -/
  dependents_eq : ∀ key,
    t.snapshot.dependents key = (edges.filter fun e => e.1 = key).map Prod.snd
  /-- Nothing depends on a key that is not registered. -/
  dependents_unknown : ∀ key, key ∉ keys → t.snapshot.dependents key = []

/-! ### Indices, listeners and keys -/

/-- The node at the position of a key is the listener of that key. -/
theorem Consistent.exists_node?_idxOf (hs : s.Consistent) (hkey : key ∈ s.registry.keys) :
    ∃ listener, s.graph.node? (s.registry.keys.idxOf key) = some listener ∧
      s.registry.keyFor? listener = some key := by
  obtain ⟨listener, hmem⟩ := Registry.exists_mem_of_mem_keys hkey
  have hentry : s.registry.entry? (s.registry.keys.idxOf key) = some (key, listener) :=
    Registry.entry?_rank hmem
  refine ⟨listener, ?_, hs.aligned.inStep.keyFor?_eq_some_iff.mpr hmem⟩
  rw [hs.node?_eq, hentry]
  rfl

namespace Logs

/-! ### The edges -/

omit [DecidableEq L] in
/-- No edge is dropped from a snapshot. -/
theorem snapshot_edges_eq (hs : s.Logs log) : s.snapshot.edges =
    log.mergeSort fun e f => s.registry.keys.idxOf e.1 ≤ s.registry.keys.idxOf f.1 := by
  show s.graph.links.arcs.filterMap _ = _
  rw [Digraph.LogsBy.arcs_eq hs, List.filterMap_map,
    (List.filterMap_eq_map_iff_forall_eq_some (g := id)).mpr, List.map_id]
  intro e he
  obtain ⟨hfrom, hto⟩ := hs.mem_names e (List.mem_mergeSort.mp he)
  have hfirst : s.keyAt? (s.registry.keys.idxOf e.1) = some e.1 := keyAt?_rank hfrom
  have hsecond : s.keyAt? (s.registry.keys.idxOf e.2) = some e.2 := keyAt?_rank hto
  simp [Digraph.ends, hfirst, hsecond]

/-- The edges of the graph, from listener to listener, are those of the snapshot. -/
theorem map_keyFor?_edges (hs : s.Logs log) (hcon : s.Consistent) :
    s.graph.edges.map (Prod.map s.registry.keyFor? s.registry.keyFor?) =
      s.snapshot.edges.map (Prod.map some some) := by
  rw [hs.snapshot_edges_eq, Graph.edges, Digraph.LogsBy.arcs_eq hs, List.filterMap_map,
    List.map_filterMap, List.filterMap_eq_map_iff_forall_eq_some]
  intro e he
  obtain ⟨hfrom, hto⟩ := hs.mem_names e (List.mem_mergeSort.mp he)
  obtain ⟨first, hfirst, hfirstKey⟩ := hcon.exists_node?_idxOf hfrom
  obtain ⟨second, hsecond, hsecondKey⟩ := hcon.exists_node?_idxOf hto
  simp [Digraph.ends, hfirst, hsecond, hfirstKey, hsecondKey, Prod.map]

/-! ### The dependents -/

omit [DecidableEq L] in
theorem dependents_eq (hs : s.Logs log) (key : Key) :
    s.snapshot.dependents key = (log.filter fun e => e.1 = key).map Prod.snd := by
  unfold Snapshot.dependents
  rw [hs.snapshot_edges_eq, filter_mergeSort]
  · rfl
  · intro e _ f _ he hf
    rw [eq_of_beq he, eq_of_beq hf]

/-- The successors of a listener, as its graph has them, are the dependents of its key. -/
theorem map_keyFor?_neighbours (hs : s.Logs log) (hcon : s.Consistent)
    (hget : s.get key = .ok listener) :
    (s.graph.neighbours .forward listener).map s.registry.keyFor? =
      (s.snapshot.dependents key).map some := by
  have hneighbours : s.graph.neighbours .forward listener =
      (s.graph.links.succs (s.registry.keys.idxOf key)).filterMap s.graph.node? := by
    unfold Graph.neighbours
    rw [hcon.aligned.position?_eq (Registry.get_eq_ok_iff.mp hget)]
    rfl
  rw [hneighbours, Digraph.LogsBy.succs_idxOf hs, hs.dependents_eq, List.map_map,
    List.filterMap_map, List.map_filterMap, List.filterMap_eq_map_iff_forall_eq_some]
  intro e he
  obtain ⟨second, hsecond, hsecondKey⟩ :=
    hcon.exists_node?_idxOf (hs.mem_names e (List.mem_filter.mp he).1).2
  simp [hsecond, hsecondKey]

/-! ### The snapshot -/

theorem showsExactly (hs : s.Logs log) (hcon : s.Consistent) :
    s.ShowsExactly s.registry.keys log where
  nodes_eq := rfl
  length_edges := by
    rw [hs.snapshot_edges_eq, List.length_mergeSort, Graph.edgeCount, hs.hasLog.arcCount_eq,
      List.length_map]
  nodup_edges := by
    rw [hs.snapshot_edges_eq]
    exact (List.mergeSort_perm log _).nodup_iff.mpr hs.nodup
  translated := hs.map_keyFor?_edges hcon
  edges_eq := hs.snapshot_edges_eq
  dependents_translated _ _ := hs.map_keyFor?_neighbours hcon
  dependents_eq := hs.dependents_eq
  dependents_unknown key hkey := by
    rw [hs.dependents_eq, List.map_eq_nil_iff, List.filter_eq_nil_iff]
    intro e he heq
    exact hkey (of_decide_eq_true heq ▸ (hs.mem_names e he).1)

end Logs

/-- After any history of a session that has been started, before the sort, after one that succeeded
and after one that failed, a snapshot shows just what was registered and the edges that were made,
those of the sort among them. -/
theorem snapshot_exact {side : Side} {baseline : List L} {naming : Naming L} {policy : Policy}
    (hstart : (start side baseline naming policy).result = .ok s) (calls : List (Call L)) :
    baseline.map naming = s.registry.keys.map some ∧
      (s.after calls).ShowsExactly (s.registry.keys ++ (s.registered calls).map Prod.fst)
        (s.edgesOf calls) := by
  have hopens := opens_of_start hstart
  refine ⟨?_, ?_⟩
  · rw [← hopens.listeners_eq]
    exact map_naming_eq hopens.naming_eq
  · rw [← keys_after]
    exact (logs_after hstart calls).showsExactly ((Consistent.of_start hstart).after calls)

/-- Two listeners that wait for each other: the sort fails, and the snapshot shows the edge that it
made to the one that dangled, first of all since the anchor was registered first. -/
theorem snapshot_exact_after_cycle :
    ∃ (a m n : Key) (s : Session Listener),
      let calls : List (Call Listener) := [.register m ⟨"m", "m"⟩, .register n ⟨"n", "n"⟩,
        .declare n m, .declare m n]
      (start .server [⟨"a", "a"⟩] (Naming.byValue "minecraft") .default).result = .ok s ∧
      (s.after calls).sort.result = .error (.cyclic ⟨[[m, n]]⟩) ∧
      (s.after (calls ++ [.sort])).snapshot.edges = [(a, m), (m, n), (n, m)] ∧
      (s.after (calls ++ [.sort])).ShowsExactly [a, m, n] [(n, m), (m, n), (a, m)] := by
  let a : Key := ⟨"minecraft", "a", by decide, by decide, by decide⟩
  let m : Key := ⟨"mod", "m", by decide, by decide, by decide⟩
  let n : Key := ⟨"mod", "n", by decide, by decide, by decide⟩
  let calls : List (Call Listener) := [.register m ⟨"m", "m"⟩, .register n ⟨"n", "n"⟩,
    .declare n m, .declare m n]
  have hrun : (start .server [⟨"a", "a"⟩] (Naming.byValue "minecraft") .default).result.map
      (fun s => ((s.after calls).sort.result, (s.after (calls ++ [.sort])).snapshot.edges,
        s.registry.keys ++ (s.registered (calls ++ [.sort])).map Prod.fst,
        s.edgesOf (calls ++ [.sort]))) =
      .ok (.error (.cyclic ⟨[[m, n]]⟩), [(a, m), (m, n), (n, m)], [a, m, n],
        [(n, m), (m, n), (a, m)]) := by cbv
  obtain ⟨s, hstart, hresult⟩ := exists_of_map_eq_ok hrun
  obtain ⟨hsort, hedges, hkeys, hmade⟩ := by simpa only [Prod.mk.injEq] using hresult
  have hshows := (snapshot_exact hstart (calls ++ [.sort])).2
  rw [hkeys, hmade] at hshows
  exact ⟨a, m, n, s, hstart, hsort, hedges, hshows⟩

end LoadOrder.Session
