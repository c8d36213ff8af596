import LoadOrder.Proofs.Session.Report

/-!
# When anchoring is harmless

A sort puts the dangling listeners behind the anchor before it orders anything. This ought to leave
alone what was sortable, to give no listener an edge to itself, and to stay out of the cycles that
are reported (`AnchorsSafely`). It does exactly if no dangling listener reaches the anchor
(`anchorsSafely_iff`).

Baseline listeners are told by their namespace, while the anchor is the last of them by position.
An anchor inside the namespace is reached by no dangling listener. One outside may dangle itself:
it is then put behind itself, and a session of it alone cannot be sorted
(`not_anchorsSafely_outside`).
-/

namespace LoadOrder.Session

open Relation

variable {L : Type} [DecidableEq L] {s : Session L} {a b : Key} {baseline : List L}
  {calls : List (Call L)}

/-- Anchoring does no harm in the sort of the session that `s` is after these calls. -/
structure AnchorsSafely (s : Session L) (calls : List (Call L)) : Prop where
  /-- If what has been stated has no cycle, the listeners are put in order. -/
  sortable : (∀ key, ¬ TransGen (s.Stated calls) key key) →
    ∃ schedule, (s.after calls).sort.result = .ok schedule
  /-- No listener waits for itself after the sort. -/
  no_loop : ∀ key, ¬ (s.after calls).sort.session.Edge key key
  /-- Every arrow of a reported cycle, the closing one included, has been stated. -/
  isChain_stated : ∀ listing, (s.after calls).sort.result = .error (.cyclic listing) →
    ∀ walk ∈ listing.walks, (CycleListing.closed walk).IsChain (s.Stated calls)

/-- Around a closed walk every key reaches every other. -/
theorem reflTransGen_of_closed {R : Key → Key → Prop} {walk : List Key}
    (hchain : (CycleListing.closed walk).IsChain R) (ha : a ∈ walk) (hb : b ∈ walk) :
    ReflTransGen R a b := by
  obtain ⟨first, rest, rfl⟩ := List.exists_cons_of_ne_nil (List.ne_nil_of_mem ha)
  have hclosed : CycleListing.closed (first :: rest) = (first :: rest) ++ [first] := rfl
  rw [hclosed] at hchain
  -- from `a` on to the end of the closed walk, which is its first key again
  have hto : ReflTransGen R a first := by
    obtain ⟨front, back, hsplit⟩ := List.append_of_mem ha
    rw [hsplit, List.append_assoc, List.cons_append] at hchain
    exact List.relationReflTransGen_of_exists_isChain_cons (back ++ [first])
      hchain.right_of_append (by simp)
  -- and from there to `b`
  have hfrom : ReflTransGen R first b := by
    obtain ⟨front, back, hsplit⟩ := List.append_of_mem hb
    cases front with
    | nil =>
      rw [List.nil_append, List.cons.injEq] at hsplit
      rw [hsplit.1]
    | cons x front =>
      rw [List.cons_append, List.cons.injEq] at hsplit
      obtain ⟨rfl, rfl⟩ := hsplit
      have hstarts : ((first :: front) ++ [b]).IsChain R := by
        have hwhole : first :: (front ++ b :: back) ++ [first] =
            ((first :: front) ++ [b]) ++ (back ++ [first]) := by simp
        exact (hwhole ▸ hchain).left_of_append
      exact List.relationReflTransGen_of_exists_isChain_cons (front ++ [b]) hstarts (by simp)
  exact hto.trans hfrom

/-! ### What anchoring adds, in keys -/

namespace IsStart

theorem edge_after_eq (hs : IsStart s baseline) (hcalls : .sort ∉ calls) :
    (s.after calls).Edge = s.Stated calls := by
  funext a b
  exact propext (hs.edge_after_iff hcalls)

theorem exists_anchored (hs : IsStart s baseline) (hcalls : .sort ∉ calls) :
    ∃ nodes, Digraph.Anchored (s.after calls).graph.links (s.after calls).anchored.graph.links
      (s.after calls).inBaselineAt ((s.after calls).registry.rank s.anchor)
      (List.range (s.after calls).graph.links.size) nodes := by
  rw [(hs.rank_anchor hcalls).2]
  exact anchored_links (hs.aligned_after hcalls) (hs.anchor_lt_size hcalls)

/-- No dangling node reaches the anchor exactly if no dangling key does. -/
theorem not_reaches_anchor_iff (hs : IsStart s baseline) (hcalls : .sort ∉ calls) :
    (∀ v, v < (s.after calls).graph.links.size →
      (s.after calls).graph.links.Dangling (s.after calls).inBaselineAt v →
        ¬ (s.after calls).graph.links.Reaches v ((s.after calls).registry.rank s.anchor)) ↔
      ∀ key, (s.after calls).Dangles key → ¬ (s.after calls).Reaches key s.anchor := by
  have halign : (s.after calls).Aligned := hs.aligned_after hcalls
  rw [halign.forall_dangling_iff]
  refine forall₂_congr fun key hkey => ?_
  rw [halign.reaches_iff hkey.1, and_iff_right (hs.rank_anchor hcalls).1]

/-- The listeners are put in order exactly if what has been stated has no cycle and no dangling
listener reaches the anchor. -/
theorem exists_schedule_iff (hs : IsStart s baseline) (hcalls : .sort ∉ calls) :
    (∃ schedule, (s.after calls).sort.result = .ok schedule) ↔
      (∀ key, ¬ TransGen (s.Stated calls) key key) ∧
        ∀ key, (s.after calls).Dangles key → ¬ (s.after calls).Reaches key s.anchor := by
  have halign : (s.after calls).Aligned := hs.aligned_after hcalls
  obtain ⟨nodes, hanch⟩ := hs.exists_anchored hcalls
  have hstated : (s.after calls).graph.links.Acyclic ↔
      ∀ key, ¬ TransGen (s.Stated calls) key key := by
    rw [halign.acyclic_iff, ← hs.edge_after_eq hcalls]
    rfl
  rw [← hstated, ← hs.not_reaches_anchor_iff hcalls, ← hanch.acyclic_iff]
  rcases sort_outcome halign (hs.finished_after hcalls) with
    ⟨entries, hsort, -, hresult⟩ | ⟨hsort, listing, hresult, -⟩
  · have horder := (Digraph.topoSort_eq_some_iff.mp hsort).1
    exact iff_of_true ⟨_, hresult⟩ horder.acyclic
  · obtain ⟨v, hv⟩ := Digraph.topoSort_eq_none_iff.mp hsort
    rw [hresult]
    refine iff_of_false ?_ ?_
    · rintro ⟨schedule, hok⟩
      cases hok
    · intro hacyclic
      exact hacyclic v hv

/-- Some listener waits for itself after the sort exactly if the anchor dangled. -/
theorem exists_loop_iff (hs : IsStart s baseline) (hcalls : .sort ∉ calls) :
    (∃ key, (s.after calls).anchored.Edge key key) ↔ (s.after calls).Dangles s.anchor := by
  have halign : (s.after calls).Aligned := hs.aligned_after hcalls
  obtain ⟨hanchor, hrank⟩ := hs.rank_anchor hcalls
  obtain ⟨nodes, hanch⟩ := hs.exists_anchored hcalls
  have hloop : ∀ v, ¬ (s.after calls).graph.links.Arc v v := by
    intro v harc
    -- nothing is stated of a key and itself
    obtain ⟨key, hkey, rfl⟩ := halign.exists_rank_eq (Digraph.source_lt harc)
    exact not_stated_self ((hs.edge_after_iff hcalls).mp (halign.edge_iff.mpr ⟨hkey, hkey, harc⟩))
  rw [halign.dangles_iff, ← hanch.exists_loop_iff
    (halign.rank_lt hanchor) hloop]
  refine ⟨?_, ?_⟩
  · rintro ⟨key, hedge⟩
    exact ⟨hanchor, _, ((aligned_anchored halign).edge_iff.mp hedge).2.2⟩
  · rintro ⟨-, v, harc⟩
    obtain ⟨key, hkey, rfl⟩ := (aligned_anchored halign).exists_rank_eq (Digraph.source_lt harc)
    exact ⟨key, (aligned_anchored halign).edge_iff.mpr ⟨hkey, hkey, harc⟩⟩

end IsStart

/-! ### When no dangling listener reaches the anchor, and when one does -/

theorem anchorsSafely_of_not_reaches (hs : IsStart s baseline) (hcalls : .sort ∉ calls)
    (hnone : ∀ key, (s.after calls).Dangles key → ¬ (s.after calls).Reaches key s.anchor) :
    s.AnchorsSafely calls := by
  have halign : (s.after calls).Aligned := hs.aligned_after hcalls
  have hopen := hs.finished_after hcalls
  obtain ⟨nodes, hanch⟩ := hs.exists_anchored hcalls
  refine ⟨?_, ?_, ?_⟩
  · intro hacyclic
    exact (hs.exists_schedule_iff hcalls).mpr ⟨hacyclic, hnone⟩
  · -- a loop would make the anchor dangle, and it reaches itself
    intro key hedge
    rw [sort_session hopen] at hedge
    exact hnone s.anchor ((hs.exists_loop_iff hcalls).mp ⟨key, hedge⟩) ReflTransGen.refl
  · intro listing hresult walk hwalk
    rcases sort_outcome halign hopen with ⟨entries, -, -, hok⟩ | ⟨-, listing', hresult', hreport⟩
    · rw [hok] at hresult
      cases hresult
    · obtain rfl : listing' = listing := by
        rw [hresult'] at hresult
        injection hresult with h
        injection h
      -- the arrows are edges after the sort between keys that reach each other
      have hstated : ∀ a ∈ walk, ∀ b ∈ walk, (s.after calls).anchored.Edge a b →
          s.Stated calls a b := by
        intro a ha b hb hedge
        obtain ⟨hamem, hbmem, harc⟩ := (aligned_anchored halign).edge_iff.mp hedge
        have hback := ((hreport.linked_iff walk hwalk a ha b).mp hb).2
        have hpath := ((aligned_anchored halign).reaches_iff hbmem).mp hback
        have hold := hanch.arc_of_reaches ((hs.not_reaches_anchor_iff hcalls).mpr hnone) harc
          hpath.2
        exact (hs.edge_after_iff hcalls).mp (halign.edge_iff.mpr ⟨hamem, hbmem, hold⟩)
      refine CycleListing.isChain_closed_iff.mpr ⟨isChain_iff_abuts.mpr ?_, ?_⟩
      · intro a b hab
        exact hstated a (hab.sublist.subset (by simp)) b (hab.sublist.subset (by simp))
          (hreport.edge_of_abuts walk hwalk a b hab)
      · intro first last hfirst hlast
        exact hstated last (List.mem_of_getLast? hlast) first (List.mem_of_head? hfirst)
          (hreport.edge_closing walk hwalk first last hfirst hlast)

theorem not_reaches_of_anchorsSafely (hs : IsStart s baseline) (hcalls : .sort ∉ calls)
    (hsafe : s.AnchorsSafely calls) {key : Key} (hkey : (s.after calls).Dangles key) :
    ¬ (s.after calls).Reaches key s.anchor := by
  intro hreach
  have halign : (s.after calls).Aligned := hs.aligned_after hcalls
  have hopen := hs.finished_after hcalls
  obtain ⟨hanchor, -⟩ := hs.rank_anchor hcalls
  obtain ⟨nodes, hanch⟩ := hs.exists_anchored hcalls
  obtain ⟨hmem, hdangling⟩ := halign.dangles_iff.mp hkey
  have hpath := ((halign.reaches_iff hmem).mp hreach).2
  have hrange : (s.after calls).registry.rank key ∈
      List.range (s.after calls).graph.links.size :=
    List.mem_range.mpr (halign.rank_lt hmem)
  -- the anchor is not put behind itself, so it does not dangle
  have hfast : ¬ (s.after calls).Dangles s.anchor := fun hdangles => by
    obtain ⟨loop, hedge⟩ := (hs.exists_loop_iff hcalls).mpr hdangles
    exact hsafe.no_loop loop (sort_session hopen ▸ hedge)
  rcases sort_outcome halign hopen with ⟨entries, -, -, hok⟩ | ⟨-, listing, hresult, hreport⟩
  · exact ((hs.exists_schedule_iff hcalls).mp ⟨_, hok⟩).2 key hkey hreach
  · -- anchor and key are on one reported cycle, which was one before the sort
    have hleads := hanch.leads _ hrange hdangling
    have hback := hanch.fans.reaches hpath
    obtain ⟨walk, hwalk, hanchorwalk⟩ := (hreport.mem_iff s.anchor).mpr
      ((aligned_anchored halign).leads_iff.mpr ⟨hanchor, hanchor, hleads.trans_reaches hback⟩)
    have hkeywalk : key ∈ walk := (hreport.linked_iff walk hwalk s.anchor hanchorwalk key).mpr
      ⟨((aligned_anchored halign).reaches_iff hanchor).mpr ⟨hmem, hleads.reaches⟩,
        ((aligned_anchored halign).reaches_iff hmem).mpr ⟨hanchor, hback⟩⟩
    have hforth : (s.after calls).Reaches s.anchor key := by
      rw [Reaches, hs.edge_after_eq hcalls]
      exact reflTransGen_of_closed (hsafe.isChain_stated listing hresult walk hwalk) hanchorwalk
        hkeywalk
    have hlinked : (s.after calls).graph.links.Linked ((s.after calls).registry.rank key)
        ((s.after calls).registry.rank s.anchor) :=
      ⟨hpath, ((halign.reaches_iff hanchor).mp hforth).2⟩
    exact hfast (halign.dangles_iff.mpr ⟨hanchor, hdangling.of_linked hlinked⟩)

/-- Anchoring does no harm to an open session exactly if none of its dangling listeners reaches the
anchor, and so in particular if the anchor is in the baseline namespace. -/
theorem anchorsSafely_iff {side : Side} {naming : Naming L} {policy : Policy}
    (hstart : (start side baseline naming policy).result = .ok s)
    (hopen : (s.after calls).finished = false) :
    (s.AnchorsSafely calls ↔
      ∀ key, (s.after calls).Dangles key → ¬ (s.after calls).Reaches key s.anchor) ∧
    ((s.after calls).inBaseline s.anchor → s.AnchorsSafely calls) := by
  have hs : IsStart s baseline := isStart_of_start hstart
  have hcalls : .sort ∉ calls := sort_notMem hopen
  refine ⟨⟨fun hsafe key hkey => not_reaches_of_anchorsSafely hs hcalls hsafe hkey,
    anchorsSafely_of_not_reaches hs hcalls⟩, ?_⟩
  -- a dangling listener reaches nothing in the baseline namespace
  intro hbase
  apply anchorsSafely_of_not_reaches hs hcalls
  intro key hkey
  exact (hkey.2.2 s.anchor (hs.rank_anchor hcalls).1 hbase).1

/-- A listener that nothing was said about is put behind a baseline listener without harm. -/
theorem anchorsSafely_one_added :
    ∃ (m : Key) (s : Session Listener),
      (start .client [⟨"a", "a"⟩] (Naming.byValue "minecraft") .default).result = .ok s ∧
      s.AnchorsSafely [.register m ⟨"m", "m"⟩] := by
  let m : Key := ⟨"mod", "m", by decide, by decide, by decide⟩
  have hrun : (start .client [⟨"a", "a"⟩] (Naming.byValue "minecraft") .default).result.map
      (fun s => ((s.after [.register m ⟨"m", "m"⟩]).finished,
        (s.after [.register m ⟨"m", "m"⟩]).inBaseline s.anchor)) = .ok (false, true) := by cbv
  obtain ⟨s, hstart, hafter⟩ := exists_of_map_eq_ok hrun
  obtain ⟨hopen, hbase⟩ := Prod.mk.inj hafter
  exact ⟨m, s, hstart, (anchorsSafely_iff hstart hopen).2 hbase⟩

/-- A session of one baseline listener outside the baseline namespace: nothing has been stated, and
still the listener is put behind itself, the sort fails, and the arrow reported is the one just
added. -/
theorem not_anchorsSafely_outside :
    ∃ (v : Key) (s : Session Listener),
      (start .client [⟨"v1", "v1"⟩] (Naming.byValue "mod") .default).result = .ok s ∧
      (∀ a b, ¬ s.Stated [] a b) ∧ s.sort.session.Edge v v ∧
      s.sort.result = .error (.cyclic ⟨[[v]]⟩) ∧ ¬ s.AnchorsSafely [] := by
  let v : Key := ⟨"mod", "v1", by decide, by decide, by decide⟩
  have hrun : (start .client [⟨"v1", "v1"⟩] (Naming.byValue "mod") .default).result.map
      (fun s => (s.registry.keys, s.sort.session.hasEdge v v, s.sort.result))
      = .ok ([v], .ok true, .error (.cyclic ⟨[[v]]⟩)) := by cbv
  obtain ⟨s, hstart, hafter⟩ := exists_of_map_eq_ok hrun
  obtain ⟨hkeys, hrest⟩ := Prod.mk.inj hafter
  obtain ⟨hedge, hresult⟩ := Prod.mk.inj hrest
  refine ⟨v, s, hstart, ?_, hedge, hresult, fun hsafe => hsafe.no_loop v hedge⟩
  rintro a b (habuts | hmem)
  · rw [hkeys] at habuts
    have hlength := habuts.length_le
    simp at hlength
  · cases hmem

end LoadOrder.Session
