import LoadOrder.Proofs.Session.AnchorSafety
import LoadOrder.Proofs.Session.Places

/-!
# Listeners nothing was said about

A listener that was added and takes part in no accepted declaration is `Unbound`. Outside the
baseline namespace it dangles, and a sort puts it behind the anchor and so behind the whole
baseline. Inside, it counts as baseline and is left alone: it comes at its first chance, and where
the baseline has to wait for a listener registered later, it comes before the baseline.
`sort_places_unbound` says exactly when.
-/

namespace LoadOrder.Session

open Relation

variable {L : Type} [DecidableEq L] {s t : Session L} {key a b x y : Key} {baseline : List L}
  {calls : List (Call L)} {schedule : Schedule L}

/-! ### What a sort adds to what has been stated -/

namespace IsStart

/-- After a sort an edge has been stated or leads from the anchor to a listener that dangled. -/
theorem edge_anchored_cases (hs : IsStart s baseline) (hcalls : .sort ∉ calls)
    (hedge : (s.after calls).anchored.Edge a b) :
    s.Stated calls a b ∨ a = s.anchor ∧ (s.after calls).Dangles b := by
  have halign := hs.aligned_after hcalls
  obtain ⟨nodes, hanch⟩ := hs.exists_anchored hcalls
  obtain ⟨ha, hb, harc⟩ := (aligned_anchored halign).edge_iff.mp hedge
  rcases (hanch.fans _ _).mp harc with hold | ⟨hrank, hnew⟩
  · exact Or.inl ((hs.edge_after_iff hcalls).mp (halign.edge_iff.mpr ⟨ha, hb, hold⟩))
  · exact Or.inr ⟨(Registry.rank_inj ha).mp hrank,
      halign.dangles_iff.mpr ⟨hb, hanch.dangling _ hnew⟩⟩

theorem edge_anchored (hs : IsStart s baseline) (hcalls : .sort ∉ calls)
    (hstated : s.Stated calls a b) : (s.after calls).anchored.Edge a b := by
  have halign := hs.aligned_after hcalls
  obtain ⟨nodes, hanch⟩ := hs.exists_anchored hcalls
  obtain ⟨ha, hb, harc⟩ := halign.edge_iff.mp ((hs.edge_after_iff hcalls).mpr hstated)
  exact (aligned_anchored halign).edge_iff.mpr ⟨ha, hb, hanch.fans.arc harc⟩

/-- After a sort the anchor leads to every listener that dangled. -/
theorem leads_anchored (hs : IsStart s baseline) (hcalls : .sort ∉ calls)
    (hkey : (s.after calls).Dangles key) : (s.after calls).anchored.Leads s.anchor key := by
  have halign := hs.aligned_after hcalls
  obtain ⟨nodes, hanch⟩ := hs.exists_anchored hcalls
  obtain ⟨hmem, hdangling⟩ := halign.dangles_iff.mp hkey
  exact (aligned_anchored halign).leads_iff.mpr ⟨(hs.rank_anchor hcalls).1, hmem,
    hanch.leads _ (List.mem_range.mpr (halign.rank_lt hmem)) hdangling⟩

/-- Every baseline listener reaches the anchor along the baseline. -/
theorem reaches_anchor (hs : IsStart s baseline) (hcalls : .sort ∉ calls)
    (hb : b ∈ s.registry.keys) : (s.after calls).anchored.Reaches b s.anchor :=
  ReflTransGen.mono (fun _ _ habuts => hs.edge_anchored hcalls (Or.inl habuts)) b s.anchor
    (reflTransGen_abuts_getLast hs.anchor_eq hb)

/-- In a session that was sorted, what leads to a baseline listener has been stated. -/
theorem leads_anchored_iff (hs : IsStart s baseline) (hcalls : .sort ∉ calls)
    (ht : (s.after calls).anchored.IsSortedTo schedule) (hb : b ∈ s.registry.keys) :
    (s.after calls).anchored.Leads a b ↔ TransGen (s.Stated calls) a b := by
  -- an edge that the anchor got would close a cycle by way of `b`
  have hstated : ∀ {c d}, (s.after calls).anchored.Edge c d →
      (s.after calls).anchored.Reaches d b → s.Stated calls c d := by
    intro c d hedge hdb
    rcases hs.edge_anchored_cases hcalls hedge with hstated | ⟨rfl, -⟩
    · exact hstated
    · have hback := hs.reaches_anchor hcalls hb
      exact absurd (TransGen.head' hedge (hdb.trans hback)) ht.not_leads_self
  refine ⟨?_, TransGen.mono (fun c d => hs.edge_anchored hcalls) a b⟩
  intro hab
  induction hab using TransGen.head_induction_on with
  | single hedge => exact TransGen.single (hstated hedge ReflTransGen.refl)
  | head hedge hrest ih => exact TransGen.head (hstated hedge hrest.to_reflTransGen) ih

end IsStart

/-! ### Unbound listeners -/

/-- The listener under `x` was added along the history, and no declaration of it was accepted. -/
structure Unbound (s : Session L) (calls : List (Call L)) (x : Key) : Prop where
  /-- It is registered. -/
  mem_keys : x ∈ (s.after calls).registry.keys
  /-- It is none of the baseline listeners. -/
  not_mem_keys : x ∉ s.registry.keys
  /-- No accepted declaration names it. -/
  ne_of_accepted : ∀ a b, (a, b) ∈ s.accepted calls → a ≠ x ∧ b ≠ x

/-- A listener that no call declares anything about is unbound. -/
theorem unbound_of_not_declared (hmem : x ∈ (s.after calls).registry.keys)
    (hnew : x ∉ s.registry.keys) (hcalls : ∀ a b, .declare a b ∈ calls → a ≠ x ∧ b ≠ x) :
    s.Unbound calls x :=
  ⟨hmem, hnew, fun a b hab => hcalls a b (declare_mem_of_mem_accepted hab)⟩

namespace Unbound

theorem not_stated (hx : s.Unbound calls x) :
    ¬ s.Stated calls a x ∧ ¬ s.Stated calls x a := by
  refine ⟨?_, ?_⟩
  · rintro (habuts | hmem)
    · exact hx.not_mem_keys (habuts.subset (by simp))
    · exact (hx.ne_of_accepted a x hmem).2 rfl
  · rintro (habuts | hmem)
    · exact hx.not_mem_keys (habuts.subset (by simp))
    · exact (hx.ne_of_accepted x a hmem).1 rfl

theorem ne_anchor (hs : IsStart s baseline) (hx : s.Unbound calls x) : x ≠ s.anchor := by
  rintro rfl
  exact hx.not_mem_keys hs.anchor_mem

/-- Nothing joins an unbound listener to any other, so it dangles unless it counts as baseline. -/
theorem dangles_iff (hs : IsStart s baseline) (hcalls : .sort ∉ calls) (hx : s.Unbound calls x) :
    (s.after calls).Dangles x ↔ ¬ s.inBaseline x := by
  rw [Dangles, hs.inBaseline_after hcalls]
  refine ⟨fun hdangles => hdangles.2.1, fun hout => ⟨hx.mem_keys, hout, ?_⟩⟩
  intro other _ hother
  rw [Reaches, hs.edge_after_eq hcalls]
  refine ⟨?_, ?_⟩
  · intro hpath
    rcases ReflTransGen.cases_head hpath with rfl | ⟨c, hstated, -⟩
    · exact hout hother
    · exact hx.not_stated.2 hstated
  · intro hpath
    rcases ReflTransGen.cases_tail hpath with rfl | ⟨c, -, hstated⟩
    · exact hout hother
    · exact hx.not_stated.1 hstated

/-- The only edge that an unbound listener may have after a sort is one from the anchor, if it is
outside the baseline namespace. -/
theorem edge_anchored_cases (hs : IsStart s baseline) (hcalls : .sort ∉ calls)
    (hx : s.Unbound calls x) (hedge : (s.after calls).anchored.Edge a x) :
    a = s.anchor ∧ ¬ s.inBaseline x := by
  rcases hs.edge_anchored_cases hcalls hedge with hstated | ⟨rfl, hdangles⟩
  · exact absurd hstated hx.not_stated.1
  · exact ⟨rfl, (hx.dangles_iff hs hcalls).mp hdangles⟩

theorem not_edge_anchored (hs : IsStart s baseline) (hcalls : .sort ∉ calls)
    (hx : s.Unbound calls x) : ¬ (s.after calls).anchored.Edge x a := by
  intro hedge
  rcases hs.edge_anchored_cases hcalls hedge with hstated | ⟨heq, -⟩
  · exact hx.not_stated.2 hstated
  · exact hx.ne_anchor hs heq

theorem rank_lt (hs : IsStart s baseline) (hcalls : .sort ∉ calls) (hx : s.Unbound calls x)
    (hb : b ∈ s.registry.keys) :
    (s.after calls).registry.rank b < (s.after calls).registry.rank x :=
  Registry.rank_lt_rank_of_isPrefix (hs.grows hcalls).prefix_keys hb hx.not_mem_keys

end Unbound

/-! ### Where unbound listeners come -/

section Schedule

variable (hs : IsStart s baseline) (hcalls : .sort ∉ calls)
  (ht : (s.after calls).anchored.IsSortedTo schedule)
include hs hcalls ht

/-- An unbound listener inside the baseline namespace comes before one that was registered earlier
exactly if that one has to wait for one registered later. -/
theorem Unbound.precedes_iff (hx : s.Unbound calls x) (hin : s.inBaseline x)
    (ha : a ∈ (s.after calls).registry.keys)
    (hax : (s.after calls).registry.rank a < (s.after calls).registry.rank x) :
    Precedes schedule.keys a x ↔ ¬ ∃ m,
      (s.after calls).registry.rank x < (s.after calls).registry.rank m ∧
        (s.after calls).anchored.Leads m a := by
  have hne : a ≠ x := by
    rintro rfl
    exact lt_irrefl _ hax
  rw [ht.precedes_iff_not ha hx.mem_keys hne, not_iff_not]
  refine ht.precedes_isolated_iff hx.mem_keys ha hax ?_ ?_
  · intro c hedge
    exact (hx.edge_anchored_cases hs hcalls hedge).2 hin
  · exact fun c => hx.not_edge_anchored hs hcalls

/-- An unbound listener comes behind a baseline listener unless it is inside the baseline namespace
and the other has to wait for one registered later. -/
theorem precedes_baseline_iff (hx : s.Unbound calls x) (hb : b ∈ s.registry.keys) :
    Precedes schedule.keys b x ↔ ¬ (s.inBaseline x ∧ ∃ m,
      (s.after calls).registry.rank x < (s.after calls).registry.rank m ∧
        TransGen (s.Stated calls) m b) := by
  by_cases hin : s.inBaseline x
  · rw [hx.precedes_iff hs hcalls ht hin ((hs.grows hcalls).prefix_keys.subset hb)
      (hx.rank_lt hs hcalls hb)]
    simp only [hs.leads_anchored_iff hcalls ht hb, hin, true_and]
  · refine iff_of_true ?_ fun h => hin h.1
    -- along the baseline to the anchor, and from there to `x`
    exact ht.precedes_of_leads (TransGen.trans_right (hs.reaches_anchor hcalls hb)
      (hs.leads_anchored hcalls ((hx.dangles_iff hs hcalls).mpr hin)))

/-- Of two unbound listeners the one registered first comes first, unless it is outside the baseline
namespace and the other inside, and the anchor has to wait for one registered later than both. -/
theorem precedes_unbound_iff (hx : s.Unbound calls x) (hy : s.Unbound calls y)
    (hxy : (s.after calls).registry.rank x < (s.after calls).registry.rank y) :
    Precedes schedule.keys x y ↔ ¬ (¬ s.inBaseline x ∧ s.inBaseline y ∧ ∃ m,
      (s.after calls).registry.rank y < (s.after calls).registry.rank m ∧
        TransGen (s.Stated calls) m s.anchor) := by
  by_cases hgate : ¬ s.inBaseline x ∧ s.inBaseline y
  · rw [hy.precedes_iff hs hcalls ht hgate.2 hx.mem_keys hxy, ← and_assoc, and_iff_right hgate]
    refine not_congr (exists_congr fun m => and_congr_right fun hm => ?_)
    rw [← hs.leads_anchored_iff hcalls ht hs.anchor_mem]
    have hleads := hs.leads_anchored hcalls ((hx.dangles_iff hs hcalls).mpr hgate.1)
    refine ⟨?_, fun hma => hma.trans hleads⟩
    -- the last edge on the way to `x` comes from the anchor
    intro hmx
    obtain ⟨c, hmc, hedge⟩ := TransGen.tail'_iff.mp hmx
    obtain ⟨rfl, -⟩ := hx.edge_anchored_cases hs hcalls hedge
    rcases reflTransGen_iff_eq_or_transGen.mp hmc with heq | hma
    · have hlt := hy.rank_lt hs hcalls hs.anchor_mem
      rw [heq] at hlt
      omega
    · exact hma
  · refine iff_of_true ?_ fun h => hgate ⟨h.1, h.2.1⟩
    refine ht.precedes_of_edges hx.mem_keys hy.mem_keys hxy ?_
    intro c hedge
    obtain ⟨rfl, hout⟩ := hx.edge_anchored_cases hs hcalls hedge
    -- `y` is outside as well, and so behind the anchor
    have houty : ¬ s.inBaseline y := fun hin => hgate ⟨hout, hin⟩
    exact ht.precedes_of_leads (hs.leads_anchored hcalls ((hy.dangles_iff hs hcalls).mpr houty))

end Schedule

/-- In the schedule of a sort that succeeds, an unbound listener comes behind a baseline listener
unless its key is in the baseline namespace and some listener registered later was stated to run
before that one, directly or by way of others. Two unbound listeners come in the order of
registration unless the earlier is outside the baseline namespace, the later is inside, and some
listener registered later than both was stated to run before the anchor. -/
theorem sort_places_unbound {side : Side} {naming : Naming L} {policy : Policy}
    (hstart : (start side baseline naming policy).result = .ok s)
    (hresult : (s.after calls).sort.result = .ok schedule) :
    (∀ x b, s.Unbound calls x → b ∈ s.registry.keys →
      (Precedes schedule.keys b x ↔ ¬ (s.inBaseline x ∧ ∃ m,
        (s.after calls).registry.rank x < (s.after calls).registry.rank m ∧
          TransGen (s.Stated calls) m b))) ∧
    (∀ x y, s.Unbound calls x → s.Unbound calls y →
      (s.after calls).registry.rank x < (s.after calls).registry.rank y →
        (Precedes schedule.keys x y ↔ ¬ (¬ s.inBaseline x ∧ s.inBaseline y ∧ ∃ m,
          (s.after calls).registry.rank y < (s.after calls).registry.rank m ∧
            TransGen (s.Stated calls) m s.anchor))) := by
  have hs : IsStart s baseline := isStart_of_start hstart
  have hopen : (s.after calls).finished = false := finished_of_sort hresult
  have hcalls := sort_notMem hopen
  have ht := isSortedTo_of_sort (hs.aligned_after hcalls) hopen hresult
  exact ⟨fun x b hx hb => precedes_baseline_iff hs hcalls ht hx hb,
    fun x y hx hy hxy => precedes_unbound_iff hs hcalls ht hx hy hxy⟩

/-- A listener that nothing was said about comes behind the baseline even if that waits for another
listener. -/
theorem sort_places_unbound_outside :
    ∃ (v m x : Key) (s : Session Listener) (schedule : Schedule Listener),
      (start .server [⟨"v", "v"⟩] (Naming.byValue "minecraft") .default).result = .ok s ∧
      (s.after [.register x ⟨"x", "x"⟩, .register m ⟨"m", "m"⟩, .declare m v]).sort.result =
        .ok schedule ∧ Precedes schedule.keys v x := by
  let v : Key := ⟨"minecraft", "v", by decide, by decide, by decide⟩
  let m : Key := ⟨"mod", "m", by decide, by decide, by decide⟩
  let x : Key := ⟨"mod", "x", by decide, by decide, by decide⟩
  let calls : List (Call Listener) :=
    [.register x ⟨"x", "x"⟩, .register m ⟨"m", "m"⟩, .declare m v]
  have hrun : (start .server [⟨"v", "v"⟩] (Naming.byValue "minecraft") .default).result.map
      (fun s => (s.after calls).sort.result.map fun _ => ()) = .ok (.ok ()) := by cbv
  have hkeys : (start .server [⟨"v", "v"⟩] (Naming.byValue "minecraft") .default).result.map
      (fun s => (s.registry.keys, (s.after calls).registry.keys, s.inBaseline x))
      = .ok ([v], [v, x, m], false) := by cbv
  obtain ⟨s, hstart, hsort⟩ := exists_of_map_eq_ok hrun
  obtain ⟨schedule, hresult, -⟩ := exists_of_map_eq_ok hsort
  rw [hstart] at hkeys
  simp only [Except.map, Except.ok.injEq, Prod.mk.injEq] at hkeys
  obtain ⟨hbaseline, hall, hout⟩ := hkeys
  have hx : s.Unbound calls x := by
    refine unbound_of_not_declared (by rw [hall]; simp) (by rw [hbaseline]; decide) ?_
    intro a b hmem
    obtain ⟨rfl, rfl⟩ : a = m ∧ b = v := by simpa [calls] using hmem
    decide
  refine ⟨v, m, x, s, schedule, hstart, hresult, ?_⟩
  exact ((sort_places_unbound hstart hresult).1 x v hx (by rw [hbaseline]; simp)).mpr
    fun hgate => by simp [hout] at hgate

/-! ### Inside the baseline namespace -/

/-- Unbound listeners come behind the baseline and in the order of registration. -/
structure PlacesUnboundLast (s : Session L) (calls : List (Call L)) (schedule : Schedule L) :
    Prop where
  /-- Each comes behind every baseline listener. -/
  behind_baseline : ∀ x, s.Unbound calls x → ∀ b ∈ s.registry.keys, Precedes schedule.keys b x
  /-- Of two the one registered first comes first. -/
  in_order : ∀ x y, s.Unbound calls x → s.Unbound calls y →
    (s.after calls).registry.rank x < (s.after calls).registry.rank y →
      Precedes schedule.keys x y

/-- An unbound listener `x` under a key of the baseline namespace. The baseline listener `v` has to
wait for `m`, so `x` comes before it, and before `y`, which was registered first and has to wait for
`v`. -/
theorem not_placesUnboundLast_inside :
    ∃ (v m x y : Key) (s : Session Listener) (calls : List (Call Listener))
        (schedule : Schedule Listener),
      (start .server [⟨"v", "v"⟩] (Naming.byValue "minecraft") .default).result = .ok s ∧
      calls = [.register y ⟨"y", "y"⟩, .register x ⟨"x", "x"⟩, .register m ⟨"m", "m"⟩,
        .declare m v] ∧
      (s.after calls).sort.result = .ok schedule ∧ schedule.keys = [x, m, v, y] ∧
      s.Unbound calls x ∧ s.Unbound calls y ∧ v ∈ s.registry.keys ∧
      ¬ Precedes schedule.keys v x ∧
      (s.after calls).registry.rank y < (s.after calls).registry.rank x ∧
      ¬ Precedes schedule.keys y x ∧ ¬ s.PlacesUnboundLast calls schedule := by
  let v : Key := ⟨"minecraft", "v", by decide, by decide, by decide⟩
  let m : Key := ⟨"mod", "m", by decide, by decide, by decide⟩
  let x : Key := ⟨"minecraft", "x", by decide, by decide, by decide⟩
  let y : Key := ⟨"mod", "y", by decide, by decide, by decide⟩
  let calls : List (Call Listener) := [.register y ⟨"y", "y"⟩, .register x ⟨"x", "x"⟩,
    .register m ⟨"m", "m"⟩, .declare m v]
  have hrun : (start .server [⟨"v", "v"⟩] (Naming.byValue "minecraft") .default).result.map
      (fun s => (s.after calls).sort.result.map Schedule.keys) = .ok (.ok [x, m, v, y]) := by cbv
  have hafter : (start .server [⟨"v", "v"⟩] (Naming.byValue "minecraft") .default).result.map
      (fun s => (s.registry.keys, (s.after calls).registry.keys)) = .ok ([v], [v, y, x, m]) := by
    cbv
  obtain ⟨s, hstart, hsort⟩ := exists_of_map_eq_ok hrun
  obtain ⟨schedule, hresult, hkeys⟩ := exists_of_map_eq_ok hsort
  rw [hstart] at hafter
  obtain ⟨hbaseline, hall⟩ := Prod.mk.inj (Except.ok.inj hafter)
  have hcalls : ∀ a b, Call.declare a b ∈ calls → a = m ∧ b = v := fun a b hmem => by
    simpa [calls] using hmem
  have hunbound : ∀ z ∈ [x, y], s.Unbound calls z := by
    intro z hz
    refine unbound_of_not_declared ?_ ?_ ?_
    · rw [hall]
      revert z
      decide
    · rw [hbaseline]
      revert z
      decide
    · intro a b hmem
      obtain ⟨rfl, rfl⟩ := hcalls a b hmem
      revert z
      decide
  have hv : v ∈ s.registry.keys := by
    rw [hbaseline]
    simp
  have hvx : ¬ Precedes schedule.keys v x := by
    rw [hkeys, Precedes]
    decide
  have hyx : ¬ Precedes schedule.keys y x := by
    rw [hkeys, Precedes]
    decide
  refine ⟨v, m, x, y, s, calls, schedule, hstart, rfl, hresult, hkeys, hunbound x (by simp),
    hunbound y (by simp), hv, hvx, ?_, hyx, ?_⟩
  · rw [Registry.rank, Registry.rank, hall]
    decide
  · exact fun hlast => hvx (hlast.behind_baseline x (hunbound x (by simp)) v hv)

end LoadOrder.Session
