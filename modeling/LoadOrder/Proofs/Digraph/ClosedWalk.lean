import LoadOrder.Proofs.Digraph.Component
import LoadOrder.Proofs.Digraph.Legs

/-!
# The walk through some nodes

A walk through given members starts at the first of them, makes its forward legs among them and goes
straight back to the start, if it can; this is all that the program does with any members whose
first one is a node (`exists_walksBy`). What the walk looks like follows from what its legs come to
and from what the way back is (`Returns`).

Inside a component every node leads to every other. So all of it is visited, there is a way back,
and the whole is a closed walk through exactly the nodes of the component (`closedWalk_spec`).
-/

namespace LoadOrder.Digraph

open Relation

variable {g : Digraph} {inside : Nat → Bool} {u v w first last : Nat} {c members back : List Nat}
  {legs : List (List Nat)}

/-! ### The members as a set -/

/-- Whether a number is a node and one of the members. -/
def among (g : Digraph) (members : List Nat) : Nat → Bool :=
  ((NodeSet.empty g.size).insertAll members).contains

theorem among_iff : g.among members w ↔ w < g.size ∧ w ∈ members := by
  rw [among, NodeSet.contains_insertAll, NodeSet.contains_empty]
  simp

/-- An arc leads to a node, so the members that are none make no difference. -/
theorem arcInside_among (g : Digraph) (members : List Nat) :
    g.ArcInside (g.among members) = g.ArcInside members.contains := by
  funext x y
  refine propext (and_congr_right fun harc => ?_)
  rw [among_iff, List.contains_iff_mem]
  exact and_iff_right (target_lt harc)

/-! ### The legs and the way back -/

/-- The nodes `back` are between `last` and `first` on the way back, if there is one; otherwise they
are none. -/
def Returns (g : Digraph) (inside : Nat → Bool) (first last : Nat) (back : List Nat) : Prop :=
  g.IsDirectLeg inside (· == first) last back first ∨
    back = [] ∧ ¬ TransGen (g.ArcInside inside) last first

/-- The walk through the members starts at `first`, goes forward by `legs` to `last`, and returns by
`back`. -/
structure WalksBy (g : Digraph) (members : List Nat) (first : Nat) (legs : List (List Nat))
    (last : Nat) (back : List Nat) : Prop where
  /-- The forward legs are what the program makes, whatever bound it sets on their number. -/
  legs_eq : ∀ k, members.length ≤ k →
    g.legs (g.among members) k ((NodeSet.empty g.size).insert first) first =
      .ok (legs.flatten, last)
  /-- They are made until there are no more. -/
  strides : g.Strides (g.among members) [first] first legs last
  /-- The way back starts where they end. -/
  returns : g.Returns (g.among members) first last back
  /-- The walk is what the program answers. -/
  closedWalk_eq : g.closedWalk members = .ok (first :: legs.flatten ++ back)

/-- Where a walk stands after its legs is a node. -/
theorem Strides.lt_size {visited : List Nat} (hs : g.Strides inside visited v legs last)
    (hv : v < g.size) : last < g.size := by
  rcases List.mem_cons.mp (List.mem_of_getLast? hs.getLast?_eq) with rfl | hmem
  · exact hv
  · exact lt_size_of_isChain hs.isChain last hmem

/-- A walk that can start is made. -/
theorem exists_walksBy (hfirst : members.head? = some first) (hlt : first < g.size) :
    ∃ legs last back, g.WalksBy members first legs last back := by
  obtain ⟨tail, rfl⟩ := List.head?_eq_some_iff.mp hfirst
  have hvisited : ∀ w, ((NodeSet.empty g.size).insert first).contains w = [first].contains w :=
    fun w => Bool.eq_iff_iff.mpr (by simp [hlt])
  obtain ⟨legs, last, hlegs, hstrides⟩ :=
    exists_strides hlt hvisited fun w hw => (among_iff.mp hw).2
  have hbound : ∀ k, (first :: tail).length ≤ k →
      g.legs (g.among (first :: tail)) k ((NodeSet.empty g.size).insert first) first =
        .ok (legs.flatten, last) :=
    fun k hk => hlegs k (Nat.le_trans (List.length_filter_le _ _) hk)
  -- the walk once the way back is known
  have hwalk : ∀ found, g.shortestPath (g.among (first :: tail)) (· == first) last = .ok found →
      g.closedWalk (first :: tail) =
        .ok (first :: legs.flatten ++ (found.getD []).dropLast) := by
    intro found hfound
    have hforward := hbound _ (Nat.le_refl _)
    rw [among] at hforward hfound
    simp only [closedWalk, hforward]
    show (do
      let back ← g.shortestPath _ (· == first) last
      return first :: legs.flatten ++ (back.getD []).dropLast) = _
    rw [hfound]
    rfl
  rcases exists_directLeg_or_none (g.among (first :: tail)) (· == first) (hstrides.lt_size hlt) with
    ⟨front, w, hfound, hleg⟩ | ⟨hfound, hnone⟩
  · obtain rfl : w = first := by simpa using hleg.target_last
    refine ⟨legs, last, front, hbound, hstrides, Or.inl hleg, ?_⟩
    -- the way back is listed without the start, which it ends in
    rw [hwalk _ hfound, Option.getD_some, List.dropLast_concat]
  · refine ⟨legs, last, [], hbound, hstrides, Or.inr ⟨rfl, fun hpath => ?_⟩, hwalk _ hfound⟩
    exact hnone first hpath (beq_self_eq_true first)

namespace WalksBy

variable (hw : g.WalksBy members first legs last back)

include hw

/-- Each node of the walk but the first is a member, as is every step to it. -/
theorem isChain : (first :: legs.flatten ++ back).IsChain (g.ArcInside (g.among members)) := by
  rcases hw.returns with hleg | ⟨rfl, -⟩
  · have hfront : (last :: back).IsChain (g.ArcInside (g.among members)) := by
      have hleg := hleg.isChain
      rw [← List.cons_append] at hleg
      exact hleg.left_of_append
    exact isChain_append_of_getLast? hw.strides.isChain hw.strides.getLast?_eq hfront
  · rw [List.append_nil]
    exact hw.strides.isChain

/-- If the walk can return from where its legs end, it is closed by an arc to its start. -/
theorem isChain_closed (hback : TransGen (g.ArcInside (g.among members)) last first) :
    (first :: legs.flatten ++ back ++ [first]).IsChain (g.ArcInside (g.among members)) := by
  rcases hw.returns with hleg | ⟨-, hnone⟩
  · rw [List.append_assoc]
    exact isChain_append_of_getLast? hw.strides.isChain hw.strides.getLast?_eq hleg.isChain
  · exact absurd hback hnone

theorem mem_members (hfirst : first ∈ members) (hmem : w ∈ first :: legs.flatten ++ back) :
    w ∈ members := by
  rcases List.mem_cons.mp hmem with rfl | hmem
  · exact hfirst
  · exact (among_iff.mp (inside_of_isChain hw.isChain w hmem)).2

theorem last_mem (hfirst : first ∈ members) : last ∈ members :=
  hw.mem_members hfirst (List.mem_append_left back (List.mem_of_getLast? hw.strides.getLast?_eq))

theorem mem_of_leads (hpath : TransGen (g.ArcInside (g.among members)) last w) :
    w ∈ first :: legs.flatten := by
  rcases hw.strides.mem_of_leads hpath with hfirst | hlegs
  · exact List.mem_cons.mpr (Or.inl (List.mem_singleton.mp hfirst))
  · exact List.mem_cons_of_mem first hlegs

end WalksBy

/-! ### Walks around components -/

/-- A path between two nodes of a component runs inside it. -/
theorem IsComponent.transGen_inside (hc : g.IsComponent c) (hinside : ∀ x ∈ c, inside x)
    (hu : u ∈ c) (hv : v ∈ c) (huv : g.Leads u v) : TransGen (g.ArcInside inside) u v := by
  obtain ⟨x, harc, hxv⟩ := TransGen.head'_iff.mp huv
  have hvu : g.Reaches v u := ((hc.mem_iff v hv u).mp hu).1
  have hux : g.Linked u x := ⟨harc.reaches, hxv.trans hvu⟩
  have hx : x ∈ c := (hc.mem_iff u hu x).mpr hux
  have hrest : ReflTransGen (g.ArcInside inside) x v :=
    Linked.reflTransGen_inside ((hc.mem_iff x hx v).mp hv) fun y hy =>
      hinside y ((hc.mem_iff x hx y).mpr hy)
  exact TransGen.head' ⟨harc, hinside x hx⟩ hrest

theorem IsComponent.among_of_mem (hc : g.IsComponent c) : ∀ x ∈ c, g.among c x :=
  fun x hx => among_iff.mpr ⟨hc.lt_size x hx, hx⟩

namespace WalksBy

variable (hw : g.WalksBy c first legs last back) (hc : g.IsComponent c) (hfirst : first ∈ c)

include hw hc hfirst

/-- The legs of a walk in a component visit all of it. -/
theorem mem_forward (hmem : w ∈ c) : w ∈ first :: legs.flatten := by
  have hlast := hw.last_mem hfirst
  by_cases heq : last = w
  · exact heq ▸ List.mem_of_getLast? hw.strides.getLast?_eq
  · have hleads : g.Leads last w := ((hc.mem_iff last hlast w).mp hmem).1.leads_of_ne heq
    exact hw.mem_of_leads (hc.transGen_inside hc.among_of_mem hlast hmem hleads)

/-- If the first node is on a cycle, there is a way back to it. -/
theorem leads_back (hcycle : g.OnCycle first) :
    TransGen (g.ArcInside (g.among c)) last first := by
  have hlast := hw.last_mem hfirst
  refine hc.transGen_inside hc.among_of_mem hlast hfirst ?_
  exact ((hc.mem_iff last hlast first).mp hfirst).1.trans_leads hcycle

end WalksBy

/-- A cyclic component is walked around: the walk starts at the first node, passes through exactly
the nodes of the component, and closes. -/
theorem closedWalk_spec (hc : g.IsComponent c) (hfirst : c.head? = some first)
    (hcycle : g.OnCycle first) :
    ∃ walk, g.closedWalk c = .ok walk ∧ walk.head? = some first ∧ (∀ w, w ∈ walk ↔ w ∈ c) ∧
      (walk ++ [first]).IsChain g.Arc := by
  have hmem : first ∈ c := List.mem_of_head? hfirst
  obtain ⟨legs, last, back, hw⟩ := exists_walksBy hfirst (hc.lt_size first hmem)
  refine ⟨_, hw.closedWalk_eq, rfl, fun w => ⟨hw.mem_members hmem, ?_⟩, ?_⟩
  · intro hwc
    exact List.mem_append_left back (hw.mem_forward hc hmem hwc)
  · exact (hw.isChain_closed (hw.leads_back hc hmem hcycle)).imp fun _ _ => ArcInside.arc

end LoadOrder.Digraph
