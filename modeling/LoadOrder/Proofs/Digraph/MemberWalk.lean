import LoadOrder.Proofs.Digraph.ClosedWalk
import LoadOrder.Proofs.Digraph.Cycle
import Mathlib.Data.Fin.Tuple.Take
import Mathlib.Data.List.Dedup
import Mathlib.Data.List.Permutation

/-!
# Walks through members of any kind

The members that a walk is made through may be any list of numbers. `closedWalk_exact` says what
comes of it: a refusal exactly if there is a first member and it is no node; otherwise a walk among
the members that leaves out only those that cannot be reached from where its forward legs end, that
closes exactly if it can return from there, and that has at most `m (m + 1) / 2` nodes if there are
`m` members (`WalksBy.length_le`).

For the cycles of a graph `closedWalk_of_mem_cycles` says more. The walk passes through all members
and closes. If there is only one way to go on from each of them, it passes through each of them once
(`WalksBy.nodup_of_oneWay`): a walk that came back to one of its nodes could not leave what lies
between its two visits.
-/

namespace LoadOrder.Digraph

open Relation

variable {g : Digraph} {inside target : Nat → Bool} {v w x first last : Nat}
  {c members walk visited front back : List Nat} {legs : List (List Nat)}

/-! ### Walks that are refused -/

theorem closedWalk_of_size_le (hfirst : members.head? = some first) (hsize : g.size ≤ first) :
    g.closedWalk members = .error .notANode := by
  obtain ⟨tail, rfl⟩ := List.head?_eq_some_iff.mp hfirst
  rw [closedWalk, List.length_cons]
  unfold legs
  rw [shortestPath_of_size_le hsize]
  rfl

/-! ### The length of a walk -/

theorem IsDirectLeg.leads (hleg : g.IsDirectLeg inside target v front w) :
    TransGen (g.ArcInside inside) v w :=
  leads_of_isChain hleg.isChain

/-- The nodes on a way back are members other than its two ends. -/
theorem IsDirectLeg.length_back_le
    (hleg : g.IsDirectLeg (g.among members) (· == first) last back first)
    (hfirst : first ∈ members) (hlast : last ∈ members) :
    back.length + (if last = first then 1 else 2) ≤ members.dedup.length := by
  have hback : ∀ w ∈ back, w ∈ members := fun w hw =>
    (among_iff.mp (inside_of_isChain hleg.isChain w (List.mem_append_left [first] hw))).2
  have hnotMem : first ∉ back := fun hmem => hleg.not_target first hmem (beq_self_eq_true first)
  have hle : ∀ ends : List Nat, ends.Nodup → (∀ w ∈ ends, w ∈ members) →
      ends.length ≤ members.dedup.length := fun ends hnodup hmem =>
    (hnodup.subperm fun w hw => List.mem_dedup.mpr (hmem w hw)).length_le
  split
  · -- the way back starts where it ends
    refine hle (first :: back) (List.nodup_cons.mpr ⟨hnotMem, (List.nodup_cons.mp hleg.nodup).2⟩) ?_
    exact List.forall_mem_cons.mpr ⟨hfirst, hback⟩
  · next hne =>
    refine hle (first :: last :: back) (List.nodup_cons.mpr ⟨?_, hleg.nodup⟩) ?_
    · exact fun hmem => (List.mem_cons.mp hmem).elim (fun heq => hne heq.symm) hnotMem
    · exact List.forall_mem_cons.mpr ⟨hfirst, List.forall_mem_cons.mpr ⟨hlast, hback⟩⟩

namespace WalksBy

variable (hw : g.WalksBy members first legs last back)

include hw

theorem length_le (hfirst : first ∈ members) :
    (first :: legs.flatten ++ back).length ≤
      members.dedup.length * (members.dedup.length + 1) / 2 := by
  have hforward := hw.strides.length_flatten_le List.mem_cons_self
  have hlegs : legs.length + 1 ≤ members.dedup.length := by
    obtain ⟨reached, hnodup, hlength, hmem⟩ :=
      hw.strides.exists_visited (List.nodup_singleton first)
    rw [← List.length_singleton (a := first), ← hlength]
    refine (hnodup.subperm fun w hw => List.mem_dedup.mpr ?_).length_le
    rcases hmem w hw with hvisited | hinside
    · exact List.mem_singleton.mp hvisited ▸ hfirst
    · exact (among_iff.mp hinside).2
  -- a walk that has made a leg does not stand at its start
  have hback : legs.length = 0 ∧ back.length + 1 ≤ members.dedup.length ∨
      back = [] ∨ back.length + 2 ≤ members.dedup.length := by
    rcases hw.returns with hleg | ⟨rfl, -⟩
    · have hle := hleg.length_back_le hfirst (hw.last_mem hfirst)
      rcases hw.strides.eq_nil_or_notMem with rfl | hnew
      · refine Or.inl ⟨rfl, ?_⟩
        split at hle <;> omega
      · rw [if_neg (List.mem_singleton.not.mp hnew)] at hle
        exact Or.inr (Or.inr hle)
    · exact Or.inr (Or.inl rfl)
  obtain ⟨d, hd⟩ := Nat.exists_eq_add_of_le hlegs
  rw [Nat.le_div_iff_mul_le Nat.two_pos, hd]
  rw [hd] at hback
  rw [List.length_append, List.length_cons]
  simp only [List.length_singleton] at hforward
  rcases hback with ⟨hnil, hback⟩ | rfl | hback
  · rw [hnil] at hforward hback ⊢
    nlinarith
  · rw [List.length_nil]
    nlinarith
  · nlinarith

/-- What has been left out cannot be reached from where the legs end. -/
theorem not_reaches_of_notMem (hout : w ∉ first :: legs.flatten ++ back) :
    ¬ ReflTransGen (g.ArcInside (g.among members)) last w := by
  intro hpath
  refine hout (List.mem_append_left back ?_)
  rcases reflTransGen_iff_eq_or_transGen.mp hpath with rfl | hpath
  · exact List.mem_of_getLast? hw.strides.getLast?_eq
  · exact hw.mem_of_leads hpath

/-- There is an arc from the end of the walk to its start exactly if it can return from where its
legs end. -/
theorem closes_iff (hfirst : first ∈ members) :
    (∃ x, (first :: legs.flatten ++ back).getLast? = some x ∧ g.Arc x first) ↔
      TransGen (g.ArcInside (g.among members)) last first := by
  refine ⟨?_, ?_⟩
  · rintro ⟨x, hlast, harc⟩
    rcases hw.returns with hleg | ⟨rfl, -⟩
    · exact hleg.leads
    · -- the walk ends where its legs end
      rw [List.append_nil, hw.strides.getLast?_eq] at hlast
      obtain rfl : last = x := Option.some.inj hlast
      exact TransGen.single ⟨harc, among_iff.mpr ⟨target_lt harc, hfirst⟩⟩
  · intro hback
    obtain ⟨-, -, hjoin⟩ := List.isChain_append.mp (hw.isChain_closed hback)
    obtain ⟨x, hx⟩ : ∃ x, (first :: legs.flatten ++ back).getLast? = some x :=
      ⟨_, List.getLast?_eq_some_getLast (List.cons_ne_nil first _)⟩
    exact ⟨x, hx, (hjoin x hx first rfl).1⟩

end WalksBy

/-- What a walk through members is like that starts at `first` and whose forward legs end at
`last`. -/
structure PassesThrough (g : Digraph) (members : List Nat) (first last : Nat) (walk : List Nat) :
    Prop where
  /-- It starts at the first member. -/
  head?_eq : walk.head? = some first
  /-- It contains only members. -/
  subset : ∀ w ∈ walk, w ∈ members
  /-- It follows the arcs of the graph. -/
  isChain : walk.IsChain g.Arc
  /-- A member that is missing cannot be reached among the members from the end of the legs. -/
  missing : ∀ w ∈ members, w ∉ walk → ¬ ReflTransGen (g.ArcInside members.contains) last w
  /-- An arc closes it exactly if a path among the members leads from the end of the legs to its
  start. -/
  closes_iff : (∃ x, walk.getLast? = some x ∧ g.Arc x first) ↔
    TransGen (g.ArcInside members.contains) last first
  /-- Its length is bounded by the number of members. -/
  length_le : walk.length ≤ members.dedup.length * (members.dedup.length + 1) / 2

theorem WalksBy.passesThrough (hw : g.WalksBy members first legs last back)
    (hfirst : first ∈ members) :
    g.PassesThrough members first last (first :: legs.flatten ++ back) where
  head?_eq := rfl
  subset _ hmem := hw.mem_members hfirst hmem
  isChain := hw.isChain.imp fun _ _ => ArcInside.arc
  missing _ _ hout := arcInside_among g members ▸ hw.not_reaches_of_notMem hout
  closes_iff := arcInside_among g members ▸ hw.closes_iff hfirst
  length_le := hw.length_le hfirst

/-- A walk through any members is refused exactly if there is a first one and it is no node, and it
is empty if there is none. Otherwise its forward legs come to an end, which no bound on their number
from that of the members on has an influence on, and the walk that begins with them passes through
the members. -/
theorem closedWalk_exact (g : Digraph) (members : List Nat) :
    (g.closedWalk members = .error .notANode ↔
      ∃ first, members.head? = some first ∧ g.size ≤ first) ∧
    (members = [] → g.closedWalk members = .ok []) ∧
    ∀ first, members.head? = some first → first < g.size →
      ∃ forward last walk,
        (∀ k, members.length ≤ k →
          g.legs (g.among members) k ((NodeSet.empty g.size).insert first) first =
            .ok (forward, last)) ∧
        (first :: forward).getLast? = some last ∧
        g.closedWalk members = .ok walk ∧ (first :: forward) <+: walk ∧
        g.PassesThrough members first last walk := by
  refine ⟨⟨?_, ?_⟩, ?_, ?_⟩
  · intro herror
    cases hfirst : members.head? with
    | none =>
      rw [List.head?_eq_none_iff.mp hfirst, closedWalk] at herror
      cases herror
    | some first =>
      refine ⟨first, rfl, Nat.not_lt.mp fun hlt => ?_⟩
      -- a walk that can start is made
      obtain ⟨legs, last, back, hw⟩ := exists_walksBy hfirst hlt
      rw [hw.closedWalk_eq] at herror
      cases herror
  · rintro ⟨first, hfirst, hsize⟩
    exact closedWalk_of_size_le hfirst hsize
  · rintro rfl
    rfl
  · intro first hfirst hlt
    obtain ⟨legs, last, back, hw⟩ := exists_walksBy hfirst hlt
    exact ⟨legs.flatten, last, _, hw.legs_eq, hw.strides.getLast?_eq, hw.closedWalk_eq,
      List.prefix_append _ back, hw.passesThrough (List.mem_of_head? hfirst)⟩

/-- Members that are not in order, one of them twice, one no node, and one to be reached only by way
of a node that is no member. -/
theorem closedWalk_exact_of_strangers :
    ∃ g : Digraph, g.arcs = [(0, 1), (1, 0), (1, 2), (2, 3)] ∧ 1 < g.size ∧
      g.closedWalk [1, 7, 0, 1, 3] = .ok [1, 0] ∧
      ∃ last, g.PassesThrough [1, 7, 0, 1, 3] 1 last [1, 0] := by
  obtain ⟨g, harcs, hsize, hanswer⟩ : ∃ g : Digraph, g.arcs = [(0, 1), (1, 0), (1, 2), (2, 3)] ∧
      1 < g.size ∧ g.closedWalk [1, 7, 0, 1, 3] = .ok [1, 0] :=
    ⟨((((Nat.repeat addNode 4 empty).insertArc 0 1).insertArc 1 0).insertArc 1 2).insertArc 2 3,
      by cbv, by decide, by cbv⟩
  obtain ⟨-, last, walk, -, -, hwalk, -, hpasses⟩ :=
    (closedWalk_exact g [1, 7, 0, 1, 3]).2.2 1 rfl hsize
  obtain rfl : walk = [1, 0] := Except.ok.inj (hwalk.symm.trans hanswer)
  exact ⟨g, harcs, hsize, hanswer, last, hpasses⟩

/-! ### Walks around cycles -/

/-- From each node of `c` there is at most one way to go on in `c`. -/
def OneWay (g : Digraph) (c : List Nat) : Prop :=
  ∀ u ∈ c, ∀ v ∈ c, ∀ w ∈ c, g.Arc u v → g.Arc u w → v = w

/-- Where there is one way to go on, a walk from whose end an arc leads to one of its nodes is not
left by any path. -/
theorem OneWay.mem_of_reaches (hone : g.OneWay c) (hsub : ∀ x ∈ walk, x ∈ c)
    (hchain : walk.IsChain g.Arc) (hlast : walk.getLast? = some v) (hx : x ∈ walk)
    (harc : g.Arc v x) (hpath : TransGen (g.ArcInside (g.among c)) v w) : w ∈ walk := by
  have hclosed : ∀ y ∈ walk, ∀ z, g.ArcInside (g.among c) y z → z ∈ walk := by
    rintro y hy z ⟨hyz, hz⟩
    have hzc : z ∈ c := (among_iff.mp hz).2
    obtain ⟨front, back, rfl⟩ := List.append_of_mem hy
    cases back with
    | nil =>
      -- from the end of the walk the way on is the arc back into it
      rw [List.getLast?_concat] at hlast
      obtain rfl : y = v := Option.some.inj hlast
      exact hone y (hsub y hy) x (hsub x hx) z hzc harc hyz ▸ hx
    | cons next back =>
      -- and from any other node it is the next node
      have hnext : next ∈ front ++ y :: next :: back := by simp
      have hstep : g.Arc y next := (List.isChain_append.mp hchain).2.1.rel
      exact hone y (hsub y hy) next (hsub next hnext) z hzc hstep hyz ▸ hnext
  induction hpath with
  | single hstep => exact hclosed v (List.mem_of_getLast? hlast) _ hstep
  | tail _ hstep ih => exact hclosed _ ih _ hstep

/-- Where there is one way to go on, every leg is a single arc to a new node. -/
theorem Strides.nodup_of_oneWay (hs : g.Strides (g.among c) visited v legs last)
    (hone : g.OneWay c) (hsub : ∀ x ∈ walk, x ∈ c) (hchain : walk.IsChain g.Arc)
    (hlast : walk.getLast? = some v) (hnodup : walk.Nodup)
    (hvisited : ∀ x, x ∈ visited ↔ x ∈ walk) : (walk ++ legs.flatten).Nodup := by
  induction hs generalizing walk with
  | stop _ => simpa using hnodup
  | @leg visited front v w last legs hleg _ ih =>
    have hnew : w ∉ walk := fun hmem => hleg.notMem_visited ((hvisited w).mpr hmem)
    have hfront : front = [] := by
      cases front with
      | nil => rfl
      | cons x front =>
        -- a leg that set out to a visited node would not get to a new one
        have hx : x ∈ walk := (hvisited x).mp (hleg.front_subset List.mem_cons_self)
        have harc : g.Arc v x := hleg.isChain.rel.1
        exact absurd (hone.mem_of_reaches hsub hchain hlast hx harc hleg.leads) hnew
    subst hfront
    have hstep : (v :: [w]).IsChain g.Arc := hleg.isChain.imp fun _ _ => ArcInside.arc
    have hsub' : ∀ x ∈ walk ++ [w], x ∈ c := by
      intro x hx
      rcases List.mem_append.mp hx with hx | hx
      · exact hsub x hx
      · exact List.mem_singleton.mp hx ▸ (among_iff.mp hleg.mem_inside).2
    have hnodup' : (walk ++ [w]).Nodup := by
      rw [← List.concat_eq_append]
      exact hnodup.concat hnew
    have hvisited' : ∀ x, x ∈ w :: visited ↔ x ∈ walk ++ [w] := by
      intro x
      rw [List.mem_cons, List.mem_append, List.mem_singleton, hvisited, or_comm]
    have hrest := ih hsub' (isChain_append_of_getLast? hchain hlast hstep) List.getLast?_concat
      hnodup' hvisited'
    rwa [List.append_assoc] at hrest

/-- Where there is one way to go on, the walk around a component passes through each node once. -/
theorem WalksBy.nodup_of_oneWay (hw : g.WalksBy c first legs last back) (hc : g.IsComponent c)
    (hfirst : first ∈ c) (hone : g.OneWay c) : (first :: legs.flatten ++ back).Nodup := by
  have hforward : (first :: legs.flatten).Nodup :=
    hw.strides.nodup_of_oneWay hone (by simpa using hfirst) (List.isChain_singleton first) rfl
      (List.nodup_singleton first) (fun x => Iff.rfl)
  rcases hw.returns with hleg | ⟨rfl, -⟩
  · cases back with
    | nil => rwa [List.append_nil]
    | cons x back =>
      have harc : g.Arc last x := hleg.isChain.rel.1
      have hxc : x ∈ c :=
        (among_iff.mp (inside_of_isChain hleg.isChain x (by simp))).2
      have hne : x ≠ first := by simpa using hleg.not_target x List.mem_cons_self
      have hx : x ∈ legs.flatten :=
        (List.mem_cons.mp (hw.mem_forward hc hfirst hxc)).resolve_left hne
      -- the way back would lead into the walk behind its start, and not get to the start
      obtain ⟨front, rest, hsplit⟩ := List.append_of_mem hx
      have hsuffix : (x :: rest) <:+ first :: legs.flatten :=
        ⟨first :: front, by rw [hsplit, List.cons_append]⟩
      have hlast : (x :: rest).getLast? = some last := by
        rw [← hw.strides.getLast?_eq, hsplit, ← List.cons_append, List.getLast?_append_of_ne_nil]
        exact List.cons_ne_nil x rest
      have hmem : first ∈ x :: rest :=
        hone.mem_of_reaches
          (fun y hy => hw.mem_members hfirst (List.mem_append_left _ (hsuffix.subset hy)))
          ((hw.strides.isChain.suffix hsuffix).imp fun _ _ => ArcInside.arc) hlast
          List.mem_cons_self harc hleg.leads
      rw [hsplit] at hforward
      exact absurd (List.mem_append_right front hmem) (List.nodup_cons.mp hforward).1
  · rwa [List.append_nil]

/-- The walk through the nodes of a cycle starts at the lowest, contains these nodes and no others,
and follows the arcs of the graph, also from its end to its start. If each of the nodes has exactly
one successor among them, it passes through each once. -/
theorem closedWalk_of_mem_cycles (hc : c ∈ g.cycles) :
    ∃ low walk, (low ∈ c ∧ ∀ w ∈ c, low ≤ w) ∧ g.closedWalk c = .ok walk ∧
      walk.head? = some low ∧ (∀ w, w ∈ walk ↔ w ∈ c) ∧ (walk ++ [low]).IsChain g.Arc ∧
      ((∀ u ∈ c, ∃! v, v ∈ c ∧ g.Arc u v) → ∀ w ∈ c, walk.count w = 1) := by
  have hcomponent := isComponent_of_mem_cycles hc
  obtain ⟨low, tail, rfl⟩ := List.exists_cons_of_ne_nil hcomponent.ne_nil
  have hlow : low ∈ low :: tail := List.mem_cons_self
  have hfirst : (low :: tail).head? = some low := rfl
  have hle : ∀ w ∈ low :: tail, low ≤ w := by
    intro w hw
    rcases List.mem_cons.mp hw with rfl | hw
    · exact Nat.le_refl w
    · exact Nat.le_of_lt (List.rel_of_pairwise_cons (pairwise_of_mem_cycles hc) hw)
  obtain ⟨walk, hwalk, hhead, hmem, hclosed⟩ :=
    closedWalk_spec hcomponent hfirst (onCycle_of_mem_cycles hc hlow)
  refine ⟨low, walk, ⟨hlow, hle⟩, hwalk, hhead, hmem, hclosed, ?_⟩
  intro hone w hw
  have honeWay : g.OneWay (low :: tail) := fun u hu v hv w hw huv huw =>
    (hone u hu).unique ⟨hv, huv⟩ ⟨hw, huw⟩
  obtain ⟨legs, last, back, hby⟩ := exists_walksBy hfirst (hcomponent.lt_size low hlow)
  obtain rfl : walk = low :: legs.flatten ++ back :=
    Except.ok.inj (hwalk.symm.trans hby.closedWalk_eq)
  exact List.count_eq_one_of_mem (hby.nodup_of_oneWay hcomponent hlow honeWay) ((hmem w).mpr hw)

/-- A cycle whose arcs run against the order of its nodes is walked around once. -/
theorem closedWalk_of_mem_cycles_against_order :
    ∃ g : Digraph, g.arcs = [(0, 2), (1, 0), (2, 1), (2, 3)] ∧ [0, 1, 2] ∈ g.cycles ∧
      (∀ u ∈ [0, 1, 2], ∃! v, v ∈ [0, 1, 2] ∧ g.Arc u v) ∧
      ∃ walk, g.closedWalk [0, 1, 2] = .ok walk ∧ walk = [0, 2, 1] ∧
        ∀ w ∈ [0, 1, 2], walk.count w = 1 := by
  obtain ⟨g, harcs, hcycles, hanswer⟩ : ∃ g : Digraph, g.arcs = [(0, 2), (1, 0), (2, 1), (2, 3)] ∧
      g.cycles = [[0, 1, 2]] ∧ g.closedWalk [0, 1, 2] = .ok [0, 2, 1] :=
    ⟨((((Nat.repeat addNode 4 empty).insertArc 0 2).insertArc 1 0).insertArc 2 1).insertArc 2 3,
      by cbv, by cbv, by cbv⟩
  have hc : [0, 1, 2] ∈ g.cycles := hcycles ▸ List.mem_singleton_self _
  have harc : ∀ u v, g.Arc u v ↔ (u, v) ∈ [(0, 2), (1, 0), (2, 1), (2, 3)] := fun u v => by
    rw [← harcs, mem_arcs]
    rfl
  have hone : ∀ u ∈ [0, 1, 2], ∃! v, v ∈ [0, 1, 2] ∧ g.Arc u v := by
    intro u hu
    simp only [harc, List.mem_cons, List.not_mem_nil, or_false] at hu ⊢
    rcases hu with rfl | rfl | rfl
    · exact ⟨2, by simp, by simp⟩
    · exact ⟨0, by simp, by simp⟩
    · exact ⟨1, by simp, by simp⟩
  obtain ⟨low, walk, -, hwalk, -, -, -, honce⟩ := closedWalk_of_mem_cycles hc
  exact ⟨g, harcs, hc, hone, walk, hwalk, Except.ok.inj (hwalk.symm.trans hanswer), honce hone⟩

end LoadOrder.Digraph
