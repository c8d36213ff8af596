import LoadOrder.Proofs.Session.AnchorSafety
import LoadOrder.Proofs.Session.Embedding

/-!
# The same session stated in other ways

Two histories from one start may register the same listeners in the same order and still differ in
what they declare, in when they declare it and in how often. The graph then holds its arcs in other
orders, or holds other arcs. None of this shows in a sort. If the same is stated up to what follows
from it, the listeners are put in the same order or in none (`IsStart.sort_of_leads`), and if the
same pairs are accepted, the answer is the same to the last arrow of a report
(`IsStart.embeds_of_accepted`).
-/

namespace LoadOrder.Session

open Relation

variable {L : Type} [DecidableEq L] {s t : Session L} {a b : Key} {u v : Nat} {baseline : List L}
  {calls others : List (Call L)}

/-- To accept more pairs changes nothing about what follows if they followed before. -/
theorem transGen_stated_iff (hmore : s.accepted calls ⊆ s.accepted others)
    (hfollows : ∀ a b, (a, b) ∈ s.accepted others → TransGen (s.Stated calls) a b) :
    TransGen (s.Stated calls) a b ↔ TransGen (s.Stated others) a b := by
  refine ⟨TransGen.mono ?_ a b, TransGen.closed ?_ a b⟩
  · rintro c d (habuts | hmem)
    · exact Or.inl habuts
    · exact Or.inr (hmore hmem)
  · rintro c d (habuts | hmem)
    · exact TransGen.single (Or.inl habuts)
    · exact hfollows c d hmem

/-- If the keys of `s` that lead to each other do so in `t`, where they are registered alike, then
so do their indices. -/
theorem leads_of_leads (hs : s.Aligned) (ht : t.Aligned)
    (hlisteners : s.registry.toList = t.registry.toList)
    (hleads : ∀ a b, s.Leads a b → t.Leads a b) (huv : s.graph.links.Leads u v) :
    t.graph.links.Leads u v := by
  obtain ⟨a, ha, rfl⟩ := hs.exists_rank_eq huv.source_lt
  obtain ⟨b, hb, rfl⟩ := hs.exists_rank_eq huv.target_lt
  rw [Registry.rank_congr hlisteners]
  exact (ht.leads_iff.mp (hleads a b (hs.leads_iff.mpr ⟨ha, hb, huv⟩))).2.2

namespace IsStart

/-- Histories differ in the registry and the graph only. -/
theorem frame_after (hs : IsStart s baseline) (hcalls : .sort ∉ calls) (hothers : .sort ∉ others) :
    s.after others = { s.after calls with
      registry := (s.after others).registry, graph := (s.after others).graph } := by
  rw [(hs.grows hothers).frame, (hs.grows hcalls).frame]

/-- If the same follows from what has been stated, both sorts end in the same schedule or both in a
report. -/
theorem sort_of_leads (hs : IsStart s baseline) (hcalls : .sort ∉ calls) (hothers : .sort ∉ others)
    (hlisteners : (s.after calls).registry.toList = (s.after others).registry.toList)
    (hstated : ∀ a b, TransGen (s.Stated calls) a b ↔ TransGen (s.Stated others) a b) :
    (∃ schedule, (s.after calls).sort.result = .ok schedule ∧
        (s.after others).sort.result = .ok schedule) ∨
      ∃ listing listing', (s.after calls).sort.result = .error (.cyclic listing) ∧
        (s.after others).sort.result = .error (.cyclic listing') := by
  have hentry := Registry.entry?_congr hlisteners
  have halign := hs.aligned_after hcalls
  have halign' := hs.aligned_after hothers
  have hleads : ∀ a b, (s.after calls).Leads a b ↔ (s.after others).Leads a b := by
    intro a b
    rw [Leads, Leads, hs.edge_after_eq hcalls, hs.edge_after_eq hothers]
    exact hstated a b
  -- both graphs have the same paths, and the same base nodes and the same anchor
  have hsort : (s.after calls).anchored.graph.links.topoSort =
      (s.after others).anchored.graph.links.topoSort := by
    obtain ⟨nodes, hanch⟩ := hs.exists_anchored hcalls
    obtain ⟨nodes', hanch'⟩ := hs.exists_anchored hothers
    have hbase : (s.after others).inBaselineAt = (s.after calls).inBaselineAt := by
      funext i
      rw [inBaselineAt, inBaselineAt, keyAt?, keyAt?, hentry, hs.inBaseline_after hcalls,
        hs.inBaseline_after hothers]
    rw [hbase, ← Registry.rank_congr hlisteners] at hanch'
    refine hanch.topoSort_congr hanch' ?_ fun u v => ⟨?_, ?_⟩
    · rw [halign.size_eq, halign'.size_eq, ← Registry.length_toList, hlisteners,
        Registry.length_toList]
    · exact leads_of_leads halign halign' hlisteners fun a b => (hleads a b).mp
    · exact leads_of_leads halign' halign hlisteners.symm fun a b => (hleads a b).mpr
  rcases sort_outcome halign (hs.finished_after hcalls) with
    ⟨entries, hsome, hperm, hresult⟩ | ⟨hnone, listing, hresult, -⟩
  · refine Or.inl ⟨⟨entries⟩, hresult, ?_⟩
    rw [(sort_spec (hs.finished_after hothers)).2, ← hsort, hsome]
    show (s.after others).anchored.schedule _ = _
    rw [schedule, registry_anchored, ← hentry, Registry.mapM_entry?_ranks hperm.subset]
  · rcases sort_outcome halign' (hs.finished_after hothers) with
      ⟨entries, hsome, -, -⟩ | ⟨-, listing', hresult', -⟩
    · rw [← hsort, hnone] at hsome
      cases hsome
    · exact Or.inr ⟨listing, listing', hresult, hresult'⟩

/-- If the same pairs are accepted, the one session is inside the other with nothing taken out. -/
theorem embeds_of_accepted (hs : IsStart s baseline) (hcalls : .sort ∉ calls)
    (hothers : .sort ∉ others)
    (hlisteners : (s.after calls).registry.toList = (s.after others).registry.toList)
    (haccepted : ∀ a b, (a, b) ∈ s.accepted calls ↔ (a, b) ∈ s.accepted others) :
    Embeds id (s.after calls) (s.after others) := by
  have hframe := hs.frame_after hcalls hothers
  have hedge : ∀ a b, (s.after others).Edge a b ↔ (s.after calls).Edge a b := by
    intro a b
    rw [hs.edge_after_iff hothers, hs.edge_after_iff hcalls, Stated, Stated, haccepted]
  have halign := hs.aligned_after hcalls
  refine ⟨halign, hs.aligned_after hothers, strictMono_id, ?_, ?_, ?_, ?_, ?_, ?_⟩
  · intro i
    rw [Registry.entry?_congr hlisteners]
    rfl
  · rw [hframe]
    rfl
  · rw [hframe]
    rfl
  · intro key hkey _
    rw [Registry.keys, hlisteners]
    exact hkey
  · intro a b
    rw [hedge]
    exact (and_iff_left_of_imp fun hab => (halign.edge_iff.mp hab).2.1).symm
  · intro a b hab
    exact (halign.edge_iff.mp ((hedge a b).mp hab)).1

/-- If the same pairs are accepted, both sorts have the same answer. -/
theorem sort_of_accepted (hs : IsStart s baseline) (hcalls : .sort ∉ calls)
    (hothers : .sort ∉ others)
    (hlisteners : (s.after calls).registry.toList = (s.after others).registry.toList)
    (haccepted : ∀ a b, (a, b) ∈ s.accepted calls ↔ (a, b) ∈ s.accepted others) :
    (s.after calls).sort.result = (s.after others).sort.result := by
  have he := hs.embeds_of_accepted hcalls hothers hlisteners haccepted
  rcases he.sort_result (hs.finished_after hcalls) (hs.finished_after hothers)
      (hs.anchor_lt_size hcalls) with
    ⟨entries, hperm, hothers, hresult⟩ | ⟨listing, hothers, hresult⟩
  · have hall : entries.filter (·.1 ∈ (s.after calls).registry.keys) = entries := by
      refine List.filter_eq_self.mpr fun entry hentry => ?_
      have hmem : entry ∈ (s.after calls).registry.toList := hlisteners ▸ hperm.subset hentry
      exact decide_eq_true (List.mem_map_of_mem hmem)
    rw [hresult, hothers, hall]
  · rw [hresult, hothers]

end IsStart

/-- Two open sessions from one start that hold the same listeners in the same order are sorted
alike. If the same follows from what has been stated in each, the baseline's order included, then
both sorts end in the same schedule or both in a report of cycles. If the same pairs have been
accepted, be it in another order, repeatedly or between other registrations, then they have the same
answer, reports included. -/
theorem sort_restated {side : Side} {naming : Naming L} {policy : Policy}
    (hstart : (start side baseline naming policy).result = .ok s)
    (hopen : (s.after calls).finished = false) (hopen' : (s.after others).finished = false)
    (hlisteners : (s.after calls).registry.toList = (s.after others).registry.toList) :
    ((∀ a b, TransGen (s.Stated calls) a b ↔ TransGen (s.Stated others) a b) →
      (∃ schedule, (s.after calls).sort.result = .ok schedule ∧
          (s.after others).sort.result = .ok schedule) ∨
        ∃ listing listing', (s.after calls).sort.result = .error (.cyclic listing) ∧
          (s.after others).sort.result = .error (.cyclic listing')) ∧
    ((∀ a b, (a, b) ∈ s.accepted calls ↔ (a, b) ∈ s.accepted others) →
      (s.after calls).sort.result = (s.after others).sort.result) := by
  have hs : IsStart s baseline := isStart_of_start hstart
  exact ⟨hs.sort_of_leads (sort_notMem hopen) (sort_notMem hopen') hlisteners,
    hs.sort_of_accepted (sort_notMem hopen) (sort_notMem hopen') hlisteners⟩

/-- Two listeners are declared to run one after the other before the baseline. To declare that the
first runs before the baseline as well changes nothing, and neither does declaring the rest again
and in another order. -/
theorem sort_restated_two_added :
    ∃ (a m n : Key) (s : Session Listener) (calls others again : List (Call Listener)),
      (start .server [⟨"a", "a"⟩] (Naming.byValue "minecraft") .default).result = .ok s ∧
      s.accepted calls = [(m, a), (n, m)] ∧ s.accepted others = [(m, a), (n, m), (n, a)] ∧
      s.accepted again = [(n, m), (m, a), (n, m)] ∧
      (∃ schedule, (s.after calls).sort.result = .ok schedule ∧ schedule.keys = [n, m, a] ∧
        (s.after others).sort.result = .ok schedule) ∧
      (s.after calls).sort.result = (s.after again).sort.result := by
  let a : Key := ⟨"minecraft", "a", by decide, by decide, by decide⟩
  let m : Key := ⟨"mod", "m", by decide, by decide, by decide⟩
  let n : Key := ⟨"mod", "n", by decide, by decide, by decide⟩
  let calls : List (Call Listener) :=
    [.register m ⟨"m", "m"⟩, .register n ⟨"n", "n"⟩, .declare m a, .declare n m]
  let others : List (Call Listener) := [.register m ⟨"m", "m"⟩, .declare m a,
    .register n ⟨"n", "n"⟩, .declare n m, .declare n a]
  let again : List (Call Listener) := [.register m ⟨"m", "m"⟩, .register n ⟨"n", "n"⟩,
    .declare n m, .declare m a, .declare n m]
  let held : List (Key × Listener) := [(a, ⟨"a", "a"⟩), (m, ⟨"m", "m"⟩), (n, ⟨"n", "n"⟩)]
  have hrun : (start .server [⟨"a", "a"⟩] (Naming.byValue "minecraft") .default).result.map
      (fun s => (s.after calls).sort.result.map Schedule.keys) = .ok (.ok [n, m, a]) := by cbv
  have hcalls : (start .server [⟨"a", "a"⟩] (Naming.byValue "minecraft") .default).result.map
      (fun s => ((s.after calls).finished, (s.after calls).registry.toList, s.accepted calls))
      = .ok (false, held, [(m, a), (n, m)]) := by cbv
  have hothers : (start .server [⟨"a", "a"⟩] (Naming.byValue "minecraft") .default).result.map
      (fun s => ((s.after others).finished, (s.after others).registry.toList, s.accepted others))
      = .ok (false, held, [(m, a), (n, m), (n, a)]) := by cbv
  have hagain : (start .server [⟨"a", "a"⟩] (Naming.byValue "minecraft") .default).result.map
      (fun s => ((s.after again).finished, (s.after again).registry.toList, s.accepted again))
      = .ok (false, held, [(n, m), (m, a), (n, m)]) := by cbv
  obtain ⟨s, hstart, hsort⟩ := exists_of_map_eq_ok hrun
  obtain ⟨schedule, hresult, hkeys⟩ := exists_of_map_eq_ok hsort
  rw [hstart] at hcalls hothers hagain
  simp only [Except.map, Except.ok.injEq, Prod.mk.injEq] at hcalls hothers hagain
  obtain ⟨hopen₁, hlist₁, hcalls⟩ := hcalls
  obtain ⟨hopen₂, hlist₂, hothers⟩ := hothers
  obtain ⟨hopen₃, hlist₃, hagain⟩ := hagain
  refine ⟨a, m, n, s, calls, others, again, hstart, hcalls, hothers, hagain,
    ⟨schedule, hresult, hkeys, ?_⟩, ?_⟩
  · have hma : s.Stated calls m a := Or.inr (by rw [hcalls]; simp)
    have hnm : s.Stated calls n m := Or.inr (by rw [hcalls]; simp)
    have hstated : ∀ x y, TransGen (s.Stated calls) x y ↔ TransGen (s.Stated others) x y := by
      intro x y
      refine transGen_stated_iff ?_ ?_
      · rw [hcalls, hothers]
        exact List.subset_append_left [(m, a), (n, m)] [(n, a)]
      · -- that `n` runs before `a` follows from the other two
        intro x y hmem
        rw [hothers] at hmem
        simp only [List.mem_cons, List.not_mem_nil, or_false, Prod.mk.injEq] at hmem
        rcases hmem with ⟨rfl, rfl⟩ | ⟨rfl, rfl⟩ | ⟨rfl, rfl⟩
        · exact TransGen.single hma
        · exact TransGen.single hnm
        · exact (TransGen.single hnm).tail hma
    rcases (sort_restated hstart hopen₁ hopen₂ (hlist₁.trans hlist₂.symm)).1 hstated with
      ⟨schedule', hresult', hothers'⟩ | ⟨listing, listing', hresult', -⟩
    · rw [hresult] at hresult'
      rw [Except.ok.inj hresult']
      exact hothers'
    · rw [hresult] at hresult'
      cases hresult'
  · refine (sort_restated hstart hopen₁ hopen₃ (hlist₁.trans hlist₃.symm)).2 fun x y => ?_
    rw [hcalls, hagain]
    simp only [List.mem_cons, List.not_mem_nil, or_false]
    tauto

end LoadOrder.Session
