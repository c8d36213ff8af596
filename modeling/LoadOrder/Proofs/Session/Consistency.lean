import LoadOrder.Proofs.Digraph.Foremost
import LoadOrder.Proofs.Session.History

/-!
# What a session always keeps to

A session keeps its listeners as registered pairs, in a second map from listeners to keys, and as
nodes of its graph, and nothing in their types ties the three together. `Consistent` says that pairs
and nodes agree by their positions, and with it what else the calls of a session rely on: no key and
no listener is there twice and each leads back to the other, there are no more listeners than the
policy allows, the baseline is there and ends in the anchor, each listener of it still has the next
one as its first successor, and no listener of an open session waits for itself.

A session that has just been started is consistent (`Consistent.of_start`). Each call keeps it so,
whether it is accepted or refused and whatever a sort comes to (`Consistent.perform`), and therefore
every history does (`consistent_after_start`).
-/

namespace LoadOrder.Session

variable {L : Type} [DecidableEq L] {s t : Session L} {key first second : Key} {listener : L}

/-- What holds of a session from its start on, whatever is done with it. -/
structure Consistent (s : Session L) : Prop where
  /-- The graph has a node for each registered listener. -/
  size_eq : s.graph.size = s.registry.size
  /-- The node with an index is the listener that was registered at this position. -/
  node?_eq : ∀ i, s.graph.node? i = (s.registry.entry? i).map Prod.snd
  /-- No key is registered twice. -/
  nodup_keys : s.registry.keys.Nodup
  /-- No listener is registered twice. -/
  nodup_listeners : s.registry.listeners.Nodup
  /-- A key leads to a listener exactly if the listener leads back to the key. -/
  keyFor?_iff : ∀ key listener,
    s.registry.keyFor? listener = some key ↔ s.registry.get key = .ok listener
  /-- There are as many listeners that lead to a key as keys that lead to a listener. -/
  size_names : s.registry.names.size = s.registry.size
  /-- There are no more listeners than the policy allows. -/
  size_le : s.registry.size ≤ s.policy.maxListeners.toNat
  /-- There is a baseline. -/
  one_le_baselineSize : 1 ≤ s.baselineSize
  /-- The baseline is among the registered listeners. -/
  baselineSize_le : s.baselineSize ≤ s.registry.size
  /-- The anchor is the key of the last baseline listener. -/
  keyAt?_anchor : s.keyAt? (s.baselineSize - 1) = some s.anchor
  /-- Each other baseline listener has the next one as its first successor. -/
  head?_succs : ∀ i, i + 1 < s.baselineSize → (s.graph.links.succs i).head? = some (i + 1)
  /-- Until the session has been sorted, no listener waits for itself. -/
  not_arc_self : s.finished = false → ∀ v, ¬ s.graph.links.Arc v v

namespace Consistent

theorem aligned (hs : s.Consistent) : s.Aligned := by
  refine ⟨?_, fun {_ _} => (hs.keyFor?_iff _ _).trans Registry.get_eq_ok_iff, hs.size_names⟩
  refine List.ext_getElem? fun i => ?_
  rw [Array.getElem?_toList, Registry.listeners, List.getElem?_map, ← Registry.entry?_eq_getElem?]
  exact hs.node?_eq i

/-- What registry and graph have in common follows from their holding the same listeners. -/
theorem of_aligned (hs : s.Aligned) (hsize : s.registry.size ≤ s.policy.maxListeners.toNat)
    (hpos : 1 ≤ s.baselineSize) (hanchor : s.keyAt? (s.baselineSize - 1) = some s.anchor)
    (hchain : ∀ i, i + 1 < s.baselineSize → (s.graph.links.succs i).head? = some (i + 1))
    (hloop : s.finished = false → ∀ v, ¬ s.graph.links.Arc v v) : s.Consistent where
  size_eq := by rw [← hs.size_eq, Graph.size_links_eq]
  node?_eq i := by
    rw [Graph.node?, ← Array.getElem?_toList, hs.nodes_eq, Registry.listeners, List.getElem?_map,
      Registry.entry?_eq_getElem?]
  nodup_keys := s.registry.keys_nodup
  nodup_listeners := hs.inStep.listeners_nodup
  keyFor?_iff _ _ := hs.inStep.keyFor?_eq_some_iff.trans Registry.get_eq_ok_iff.symm
  size_names := hs.inStep.size_names
  size_le := hsize
  one_le_baselineSize := hpos
  baselineSize_le := by
    -- the last baseline listener is registered
    obtain ⟨hmem, hrank⟩ := keyAt?_eq_some_iff.mp hanchor
    have hlt := Registry.rank_lt_size_iff.mpr hmem
    omega
  keyAt?_anchor := hanchor
  head?_succs := hchain
  not_arc_self := hloop

theorem of_start {side : Side} {baseline : List L} {naming : Naming L} {policy : Policy}
    (hstart : (start side baseline naming policy).result = .ok s) : s.Consistent := by
  have hs : IsStart s baseline := isStart_of_start hstart
  have hlast := hs.anchor_eq
  rw [List.getLast?_eq_getElem?, Registry.length_keys] at hlast
  refine of_aligned hs.aligned (size_le_of_start hstart) ?_ ?_ ?_ ?_
  · rw [hs.baselineSize_eq]
    exact hs.size_pos
  · rw [hs.baselineSize_eq, keyAt?, Registry.map_fst_entry?]
    exact hlast
  · -- the chain of the baseline is all there is
    intro i hi
    rw [hs.succs_eq (hs.baselineSize_eq ▸ hi)]
    rfl
  · intro _ v harc
    have := (hs.arc_iff.mp harc).1
    omega

/-- A call that leaves the baseline alone and keeps the first successors of its listeners keeps the
session consistent, if it does no harm to the rest. -/
theorem of_frame (hs : s.Consistent) (ht : t.Aligned)
    (hframe : t = { s with registry := t.registry, graph := t.graph, finished := t.finished })
    (hstarts : s.registry.keys <+: t.registry.keys)
    (hsize : t.registry.size ≤ t.policy.maxListeners.toNat)
    (hsuccs : ∀ i, i + 1 < s.baselineSize →
      s.graph.links.succs i <+: t.graph.links.succs i)
    (hloop : t.finished = false → ∀ v, ¬ t.graph.links.Arc v v) : t.Consistent := by
  have hbaseline : t.baselineSize = s.baselineSize := by rw [hframe]
  have hanchor : t.anchor = s.anchor := by rw [hframe]
  refine of_aligned ht hsize (hbaseline ▸ hs.one_le_baselineSize) ?_ ?_ hloop
  · -- the anchor keeps its position among more keys
    obtain ⟨hmem, hrank⟩ := keyAt?_eq_some_iff.mp hs.keyAt?_anchor
    rw [hbaseline, hanchor, keyAt?_eq_some_iff]
    exact ⟨hstarts.subset hmem, (Registry.rank_of_isPrefix hstarts hmem).trans hrank⟩
  · intro i hi
    rw [hbaseline] at hi
    obtain ⟨more, hmore⟩ := hsuccs i hi
    rw [← hmore, List.head?_append, hs.head?_succs i hi]
    rfl

/-! ### One call -/

theorem register (hs : s.Consistent) : (s.register key listener).session.Consistent := by
  rcases register_cases s key listener with ⟨reason, hrefused⟩ | ⟨-, t, i, henroll, haccepted⟩
  · rw [hrefused]
    exact hs
  · rw [haccepted]
    have hgrows := grows_of_enroll hs.aligned henroll
    obtain ⟨-, hlinks⟩ := graph_of_enroll hs.aligned henroll
    have hframe : t = { s with registry := t.registry, graph := t.graph, finished := t.finished } :=
      hgrows.frame.trans (by rw [hgrows.frame])
    refine hs.of_frame hgrows.aligned hframe hgrows.prefix_keys (size_le_of_enroll henroll) ?_ ?_
    · -- the new node has no arcs
      intro i _
      rw [hlinks, Digraph.succs_addNode]
    · intro hopen v
      rw [hlinks, Digraph.Arc, Digraph.succs_addNode]
      refine hs.not_arc_self ?_ v
      rw [hgrows.frame] at hopen
      exact hopen

theorem declare (hs : s.Consistent) : (s.declare first second).session.Consistent := by
  rcases declare_cases s first second with
    ⟨reason, hrefused⟩ | ⟨hopen, hfirst, hsecond, hne, graph, hnodes, hlinks, haccepted⟩
  · rw [hrefused]
    exact hs
  · rw [haccepted]
    have halign : ({ s with graph } : Session L).Aligned := hs.aligned.of_nodes_eq hnodes
    refine hs.of_frame halign rfl (List.prefix_refl _) hs.size_le ?_ ?_
    · -- an arc that is new comes last
      intro i _
      by_cases hnew : s.graph.links.admits (s.registry.rank first) (s.registry.rank second)
      · rw [hlinks, Digraph.succs_insertArc hnew]
        exact List.prefix_append _ _
      · rw [hlinks, Digraph.insertArc_of_not_admits hnew]
    · intro _ v harc
      rw [hlinks, Digraph.fans_insertArc (hs.aligned.rank_lt hfirst) (hs.aligned.rank_lt hsecond)]
        at harc
      rcases harc with hold | ⟨hv, hv'⟩
      · exact hs.not_arc_self hopen v hold
      · exact hne ((Registry.rank_inj hfirst).mp (hv.symm.trans hv'))

theorem sort (hs : s.Consistent) : s.sort.session.Consistent := by
  cases hfinished : s.finished with
  | true =>
    rw [Session.sort, if_pos hfinished]
    exact hs
  | false =>
    rw [sort_session hfinished]
    refine hs.of_frame (aligned_anchored hs.aligned) rfl (List.prefix_refl _) hs.size_le ?_ ?_
    · -- anchoring adds arcs behind those that are there
      intro i _
      exact ⟨_, (Digraph.succs_anchorAll _ _ _ _ i).symm⟩
    · intro hopen
      cases hopen

theorem perform (hs : s.Consistent) (call : Call L) : (s.perform call).session.Consistent := by
  cases call with
  | register key listener => exact hs.register
  | declare first second => exact hs.declare
  | sort => exact hs.sort

/-! ### Histories -/

theorem after (hs : s.Consistent) (calls : List (Call L)) : (s.after calls).Consistent := by
  induction calls generalizing s with
  | nil => exact hs
  | cons call calls ih => exact ih (hs.perform call)

end Consistent

/-- A session that has been started is consistent after every history. -/
theorem consistent_after_start {side : Side} {baseline : List L} {naming : Naming L}
    {policy : Policy} (hstart : (start side baseline naming policy).result = .ok s)
    (calls : List (Call L)) : (s.after calls).Consistent :=
  (Consistent.of_start hstart).after calls

/-- Two baseline listeners, and a history with a listener that is put before them, three calls that
are refused, a sort, and a call that comes too late. -/
theorem consistent_after_start_refused :
    ∃ (m b : Key) (s : Session Listener),
      (start .client [⟨"a", "a"⟩, ⟨"b", "b"⟩] (Naming.byValue "minecraft")
        { maxListeners := 3 }).result = .ok s ∧
      (s.after [.register m ⟨"m", "m"⟩, .register b ⟨"m", "m"⟩, .declare m b, .declare m m,
        .register m ⟨"n", "n"⟩, .sort, .declare b m]).Consistent := by
  let m : Key := ⟨"mod", "m", by decide, by decide, by decide⟩
  let b : Key := ⟨"minecraft", "b", by decide, by decide, by decide⟩
  have hrun : (start .client [⟨"a", "a"⟩, ⟨"b", "b"⟩] (Naming.byValue "minecraft")
      { maxListeners := 3 }).result.map (fun s => s.registry.size) = .ok 2 := by cbv
  obtain ⟨s, hstart, -⟩ := exists_of_map_eq_ok hrun
  exact ⟨m, b, s, hstart, consistent_after_start hstart _⟩

end LoadOrder.Session
