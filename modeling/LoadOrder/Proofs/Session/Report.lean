import LoadOrder.Proofs.Digraph.ClosedWalk
import LoadOrder.Proofs.Digraph.Cycle
import LoadOrder.Proofs.Session.History
import Mathlib.Data.Fin.Tuple.Take
import Mathlib.Data.List.Forall2
import Mathlib.Data.List.Permutation

/-!
# What a failed sort reports

A session whose listeners wait for one another is given a listing of its cycles. `IsReport t
listing` says what the listing is in terms of the session `t` after the sort: it holds the keys that
lead to themselves, in one walk all those that reach one another, each walk along edges and closed,
begun at its earliest key, and the walks by their earliest keys.

The listing is that of the graph's cycles, read at the ranks of the keys (`isReport_listCycles`).
Topological sort and components agree on what is a cycle, so a sort ends in a schedule of all
listeners or in a report that is not empty, and in nothing else (`sort_outcome`).
-/

namespace LoadOrder

/-! ### Lists in step -/

section Lists

variable {α β ε : Type} {R : α → β → Prop} {xs : List α} {ys : List β}

/-- If each element is answered, and answered rightly, then so is the list. -/
theorem exists_mapM_eq_ok {f : α → Except ε β} (hf : ∀ x ∈ xs, ∃ y, f x = .ok y ∧ R x y) :
    ∃ ys, xs.mapM f = .ok ys ∧ List.Forall₂ R xs ys := by
  induction xs with
  | nil => exact ⟨[], rfl, List.Forall₂.nil⟩
  | cons x xs ih =>
    obtain ⟨y, hy, hxy⟩ := hf x List.mem_cons_self
    obtain ⟨ys, hys, hall⟩ := ih fun z hz => hf z (List.mem_cons_of_mem x hz)
    refine ⟨y :: ys, ?_, List.Forall₂.cons hxy hall⟩
    rw [List.mapM_cons, hy, hys]
    rfl

theorem exists_mem_left (hall : List.Forall₂ R xs ys) {y : β} (hy : y ∈ ys) :
    ∃ x ∈ xs, R x y := by
  induction hall with
  | nil => cases hy
  | @cons x y' xs ys hxy _ ih =>
    rcases List.mem_cons.mp hy with rfl | hy
    · exact ⟨x, List.mem_cons_self, hxy⟩
    · obtain ⟨z, hz, hzy⟩ := ih hy
      exact ⟨z, List.mem_cons_of_mem x hz, hzy⟩

theorem exists_mem_right (hall : List.Forall₂ R xs ys) {x : α} (hx : x ∈ xs) :
    ∃ y ∈ ys, R x y := by
  obtain ⟨y, hy, hxy⟩ := exists_mem_left hall.flip hx
  exact ⟨y, hy, hxy⟩

theorem pairwise_of_forall₂ {P : α → α → Prop} {Q : β → β → Prop} (hall : List.Forall₂ R xs ys)
    (hPQ : ∀ {x x' y y'}, R x y → R x' y' → P x x' → Q y y') (hxs : xs.Pairwise P) :
    ys.Pairwise Q := by
  induction hall with
  | nil => exact List.Pairwise.nil
  | cons hxy hrest ih =>
    rw [List.pairwise_cons] at hxs
    refine List.pairwise_cons.mpr ⟨?_, ih hxs.2⟩
    -- whatever comes behind `y` answers something behind `x`
    intro y' hy'
    obtain ⟨x', hx', hxy'⟩ := exists_mem_left hrest hy'
    exact hPQ hxy hxy' (hxs.1 x' hx')

end Lists

/-- What holds from each key to the next around a closed walk holds along the walk and from its last
key to its first. -/
theorem CycleListing.isChain_closed_iff {R : Key → Key → Prop} {walk : List Key} :
    (closed walk).IsChain R ↔ walk.IsChain R ∧
      ∀ first last, walk.head? = some first → walk.getLast? = some last → R last first := by
  cases walk with
  | nil => simp [closed]
  | cons first rest =>
    rw [closed, List.isChain_append]
    simp only [List.head?_cons, Option.toList_some, List.isChain_singleton, true_and,
      Option.mem_def, Option.some.injEq]
    -- the walk is not empty, and has one first and one last key
    refine and_congr_right fun _ => ⟨?_, ?_⟩
    · rintro hlink _ last rfl hlast
      exact hlink last hlast first rfl
    · rintro hlink last hlast _ rfl
      exact hlink first last rfl hlast

namespace Session

variable {L : Type} {s t : Session L} {key a b : Key} {c : List Nat}
  {walk : List Key} {listing : CycleListing}

/-- Nodes are the ranks of the keys they are translated to. -/
theorem exists_keys_eq {nodes : List Nat} (hlt : ∀ v ∈ nodes, v < t.registry.size) :
    (nodes.filterMap t.keyAt?).map t.registry.rank = nodes ∧
      ∀ key ∈ nodes.filterMap t.keyAt?, key ∈ t.registry.keys := by
  induction nodes with
  | nil => simp
  | cons v nodes ih =>
    obtain ⟨key, hkey, rfl⟩ := Registry.exists_rank_eq (hlt v List.mem_cons_self)
    obtain ⟨hmap, hmem⟩ := ih fun w hw => hlt w (List.mem_cons_of_mem _ hw)
    rw [List.filterMap_cons_some (keyAt?_rank hkey), List.map_cons, hmap]
    refine ⟨rfl, ?_⟩
    intro other hother
    rcases List.mem_cons.mp hother with rfl | hother
    · exact hkey
    · exact hmem other hother

variable [DecidableEq L]

/-- The listing reports the cycles of `t`. -/
structure IsReport (t : Session L) (listing : CycleListing) : Prop where
  /-- Something is reported. -/
  ne_nil : listing.walks ≠ []
  /-- A key is reported exactly if it leads to itself. -/
  mem_iff : ∀ key, (∃ walk ∈ listing.walks, key ∈ walk) ↔ t.Leads key key
  /-- No key is reported in two walks. -/
  disjoint : listing.walks.Pairwise List.Disjoint
  /-- Two keys are on one walk exactly if each reaches the other. -/
  linked_iff : ∀ walk ∈ listing.walks, ∀ a ∈ walk, ∀ b,
    b ∈ walk ↔ t.Reaches a b ∧ t.Reaches b a
  /-- Each key of a walk has an edge to the next. -/
  edge_of_abuts : ∀ walk ∈ listing.walks, ∀ a b, Abuts walk a b → t.Edge a b
  /-- The last key of a walk has an edge to the first. -/
  edge_closing : ∀ walk ∈ listing.walks, ∀ first last, walk.head? = some first →
    walk.getLast? = some last → t.Edge last first
  /-- A walk starts with the key on it that was registered first. -/
  head_least : ∀ walk ∈ listing.walks, ∃ first, walk.head? = some first ∧
    ∀ key ∈ walk, t.registry.rank first ≤ t.registry.rank key
  /-- The walks come in the order in which their first keys were registered. -/
  ascending : listing.walks.Pairwise fun walk later => ∀ first second,
    walk.head? = some first → later.head? = some second →
      t.registry.rank first < t.registry.rank second

/-! ### From indices to keys -/

/-- The walk passes through the keys with the ranks `c`, begins where `c` does, and closes. -/
structure WalksAround (t : Session L) (c : List Nat) (walk : List Key) : Prop where
  /-- The keys on the walk are those with these ranks. -/
  mem_iff : ∀ key, key ∈ walk ↔ key ∈ t.registry.keys ∧ t.registry.rank key ∈ c
  /-- The first key has the first rank. -/
  head : ∃ first, walk.head? = some first ∧ c.head? = some (t.registry.rank first)
  /-- With the return to the first key each key has an edge to the next. -/
  isChain : (CycleListing.closed walk).IsChain t.Edge

theorem exists_walksAround (ht : t.Aligned) (hc : c ∈ t.graph.links.cycles) :
    ∃ nodes, t.graph.links.closedWalk c = .ok nodes ∧
      t.WalksAround c (nodes.filterMap t.keyAt?) := by
  have hcomponent := Digraph.isComponent_of_mem_cycles hc
  obtain ⟨first, tail, rfl⟩ := List.exists_cons_of_ne_nil hcomponent.ne_nil
  obtain ⟨nodes, hwalk, hhead, hmem, hchain⟩ := Digraph.closedWalk_spec hcomponent rfl
    (Digraph.onCycle_of_mem_cycles hc List.mem_cons_self)
  obtain ⟨hmap, hkeys⟩ := exists_keys_eq fun v hv =>
    ht.size_eq ▸ hcomponent.lt_size v ((hmem v).mp hv)
  refine ⟨nodes, hwalk, fun key => ⟨?_, ?_⟩, ?_, ?_⟩
  · -- a key on the walk has its rank among the nodes
    intro hkey
    exact ⟨hkeys key hkey, (hmem _).mp (hmap ▸ List.mem_map_of_mem hkey)⟩
  · -- and a node is the rank of its key
    rintro ⟨hkey, hrank⟩
    exact List.mem_filterMap.mpr ⟨_, (hmem _).mpr hrank, keyAt?_rank hkey⟩
  · -- the walk is not empty, and its first node is the rank of its first key
    rw [← hmap, List.head?_map, Option.map_eq_some_iff] at hhead
    obtain ⟨key, hkey, rfl⟩ := hhead
    exact ⟨key, hkey, rfl⟩
  · -- the walk of keys closes where the walk of nodes does
    have hclosed : (CycleListing.closed (nodes.filterMap t.keyAt?)).map t.registry.rank =
        nodes ++ [first] := by
      rw [CycleListing.closed, List.map_append, hmap, ← Option.toList_map, ← List.head?_map, hmap,
        hhead, Option.toList_some]
    rw [← hclosed, List.isChain_map] at hchain
    have hreg : ∀ key ∈ CycleListing.closed (nodes.filterMap t.keyAt?), key ∈ t.registry.keys := by
      intro key hkey
      rw [CycleListing.closed, List.mem_append, Option.mem_toList] at hkey
      exact hkeys key (hkey.elim id List.mem_of_head?)
    exact hchain.imp_of_mem_imp fun a b ha hb harc => ht.edge_iff.mpr ⟨hreg a ha, hreg b hb, harc⟩

/-- The listing of a session with a cycle reports its cycles. -/
theorem isReport_listCycles (ht : t.Aligned) (hcycle : ∃ v, t.graph.links.OnCycle v) :
    ∃ listing, t.listCycles = .ok listing ∧ t.IsReport listing := by
  obtain ⟨walks, hwalks, hall⟩ := exists_mapM_eq_ok fun c hc => exists_walksAround ht hc
  have haround : List.Forall₂ t.WalksAround t.graph.links.cycles
      (walks.map fun walk => walk.filterMap t.keyAt?) := List.forall₂_map_right_iff.mpr hall
  have hof : ∀ walk ∈ walks.map fun walk => walk.filterMap t.keyAt?,
      ∃ c ∈ t.graph.links.cycles, t.WalksAround c walk := fun walk hwalk =>
    exists_mem_left haround hwalk
  refine ⟨⟨walks.map fun walk => walk.filterMap t.keyAt?⟩, by rw [listCycles, hwalks]; rfl, ?_,
    fun key => ⟨?_, ?_⟩, ?_, ?_, ?_, ?_, ?_, ?_⟩
  · -- a node on a cycle is in some cycle of the graph
    obtain ⟨v, hv⟩ := hcycle
    obtain ⟨c, hc, -⟩ := Digraph.exists_mem_cycles_iff.mpr hv
    obtain ⟨walk, hwalk, -⟩ := exists_mem_right haround hc
    exact List.ne_nil_of_mem hwalk
  · -- the keys reported are those whose ranks are on cycles
    rintro ⟨walk, hwalk, hkey⟩
    obtain ⟨c, hc, hround⟩ := hof walk hwalk
    obtain ⟨hmem, hrank⟩ := (hround.mem_iff key).mp hkey
    exact ht.leads_iff.mpr ⟨hmem, hmem, Digraph.onCycle_of_mem_cycles hc hrank⟩
  · intro hkey
    obtain ⟨hmem, -, hleads⟩ := ht.leads_iff.mp hkey
    obtain ⟨c, hc, hrank⟩ := Digraph.exists_mem_cycles_iff.mpr hleads
    obtain ⟨walk, hwalk, hround⟩ := exists_mem_right haround hc
    exact ⟨walk, hwalk, (hround.mem_iff key).mpr ⟨hmem, hrank⟩⟩
  · -- a key on two walks would have its rank in two cycles
    refine pairwise_of_forall₂ haround ?_ (Digraph.disjoint_cycles t.graph.links)
    intro c d walk later hx hy hdisjoint key hkx hky
    exact hdisjoint ((hx.mem_iff key).mp hkx).2 ((hy.mem_iff key).mp hky).2
  · -- a cycle of the graph holds what is linked to its nodes
    intro walk hwalk a ha b
    obtain ⟨c, hc, hround⟩ := hof walk hwalk
    have hcomponent := Digraph.isComponent_of_mem_cycles hc
    obtain ⟨hmema, hranka⟩ := (hround.mem_iff a).mp ha
    rw [hround.mem_iff b, hcomponent.mem_iff _ hranka, ht.reaches_iff hmema]
    refine ⟨?_, ?_⟩
    · rintro ⟨hmemb, hab, hba⟩
      exact ⟨⟨hmemb, hab⟩, (ht.reaches_iff hmemb).mpr ⟨hmema, hba⟩⟩
    · rintro ⟨⟨hmemb, hab⟩, hba⟩
      exact ⟨hmemb, hab, ((ht.reaches_iff hmemb).mp hba).2⟩
  -- each walk closes
  · intro walk hwalk a b hab
    obtain ⟨c, hc, hround⟩ := hof walk hwalk
    exact isChain_iff_abuts.mp (CycleListing.isChain_closed_iff.mp hround.isChain).1 a b hab
  · intro walk hwalk first last hfirst hlast
    obtain ⟨c, hc, hround⟩ := hof walk hwalk
    exact (CycleListing.isChain_closed_iff.mp hround.isChain).2 first last hfirst hlast
  · -- a cycle of the graph lists its lowest node first, and the walk begins there
    intro walk hwalk
    obtain ⟨c, hc, hround⟩ := hof walk hwalk
    obtain ⟨first, hfirst, hhead⟩ := hround.head
    obtain ⟨tail, rfl⟩ := List.head?_eq_some_iff.mp hhead
    refine ⟨first, hfirst, ?_⟩
    intro key hkey
    rcases List.mem_cons.mp ((hround.mem_iff key).mp hkey).2 with heq | hmem
    · exact le_of_eq heq.symm
    · exact le_of_lt (List.rel_of_pairwise_cons (Digraph.pairwise_of_mem_cycles hc) hmem)
  · -- and the cycles come by their lowest nodes
    refine pairwise_of_forall₂ haround ?_ (Digraph.pairwise_cycles t.graph.links)
    intro c d walk later hx hy hlt first second hfirst hsecond
    obtain ⟨first', hfirst', hheadx⟩ := hx.head
    obtain ⟨second', hsecond', hheady⟩ := hy.head
    obtain rfl := Option.some.inj (hfirst.symm.trans hfirst')
    obtain rfl := Option.some.inj (hsecond.symm.trans hsecond')
    simpa only [List.headD_eq_head?_getD, hheadx, hheady, Option.getD_some] using hlt

/-! ### The outcomes of a sort -/

/-- A sort of an open session ends in a schedule of all listeners in topological order, or in a
report. -/
theorem sort_outcome (hs : s.Aligned) (hopen : s.finished = false) :
    (∃ entries, s.anchored.graph.links.topoSort = some (s.registry.ranks entries) ∧
        entries.Perm s.registry.toList ∧ s.sort.result = .ok ⟨entries⟩) ∨
      s.anchored.graph.links.topoSort = none ∧
        ∃ listing, s.sort.result = .error (.cyclic listing) ∧ s.anchored.IsReport listing := by
  have ht : s.anchored.Aligned := aligned_anchored hs
  rw [(sort_spec hopen).2]
  cases hsort : s.anchored.graph.links.topoSort with
  | some order =>
    obtain ⟨htopological, -⟩ := Digraph.topoSort_eq_some_iff.mp hsort
    obtain ⟨entries, hperm, rfl⟩ := Registry.exists_ranks_eq
      (r := s.registry) (ht.size_eq ▸ htopological.perm)
    -- the order is one of the ranks, and is read back as pairs
    refine Or.inl ⟨entries, rfl, hperm, ?_⟩
    show s.anchored.schedule (s.registry.ranks entries) = _
    rw [schedule, registry_anchored, Registry.mapM_entry?_ranks hperm.subset]
  | none =>
    obtain ⟨listing, hlisting, hreport⟩ :=
      isReport_listCycles ht (Digraph.topoSort_eq_none_iff.mp hsort)
    refine Or.inr ⟨rfl, listing, ?_, hreport⟩
    simp only [hlisting]

/-- Whenever a sort of an open session does not end in a schedule, it reports the cycles of the
session that it leaves behind, all of them and nothing else. -/
theorem sort_report_exact {side : Side} {baseline : List L} {naming : Naming L} {policy : Policy}
    {calls : List (Call L)} (hstart : (start side baseline naming policy).result = .ok s)
    (hopen : (s.after calls).finished = false)
    (hfail : ¬ ∃ schedule, (s.after calls).sort.result = .ok schedule) :
    ∃ listing, (s.after calls).sort.result = .error (.cyclic listing) ∧
      (s.after calls).sort.session.IsReport listing := by
  have halign : (s.after calls).Aligned :=
    (isStart_of_start hstart).aligned_after (sort_notMem hopen)
  rw [sort_session hopen]
  rcases sort_outcome halign hopen with ⟨entries, -, -, hok⟩ | ⟨-, listing, hresult, hreport⟩
  · exact absurd ⟨_, hok⟩ hfail
  · exact ⟨listing, hresult, hreport⟩

/-- Two listeners that wait for each other are reported, the earlier registered first. -/
theorem sort_report_exact_of_two :
    ∃ (m n : Key) (s : Session Listener),
      (start .server [⟨"a", "a"⟩] (Naming.byValue "minecraft") .default).result = .ok s ∧
      (s.after [.register m ⟨"m", "m"⟩, .register n ⟨"n", "n"⟩, .declare n m,
        .declare m n]).sort.session.IsReport ⟨[[m, n]]⟩ := by
  let m : Key := ⟨"mod", "m", by decide, by decide, by decide⟩
  let n : Key := ⟨"mod", "n", by decide, by decide, by decide⟩
  let calls : List (Call Listener) :=
    [.register m ⟨"m", "m"⟩, .register n ⟨"n", "n"⟩, .declare n m, .declare m n]
  have hrun : (start .server [⟨"a", "a"⟩] (Naming.byValue "minecraft") .default).result.map
      (fun s => ((s.after calls).finished, (s.after calls).sort.result))
      = .ok (false, .error (.cyclic ⟨[[m, n]]⟩)) := by cbv
  obtain ⟨s, hstart, hafter⟩ := exists_of_map_eq_ok hrun
  obtain ⟨hopen, hresult⟩ := Prod.mk.inj hafter
  have hfail : ¬ ∃ schedule, (s.after calls).sort.result = .ok schedule := by
    rintro ⟨schedule, hok⟩
    rw [hresult] at hok
    cases hok
  obtain ⟨listing, hlisting, hreport⟩ := sort_report_exact hstart hopen hfail
  refine ⟨m, n, s, hstart, ?_⟩
  rw [hresult] at hlisting
  injection hlisting with hcyclic
  injection hcyclic with heq
  exact heq ▸ hreport

end Session

end LoadOrder
