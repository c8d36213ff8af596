import LoadOrder.Digraph.Basic
import Mathlib.Data.Set.Finite.Basic
import Mathlib.Logic.Relation
import Mathlib.Order.WellFoundedSet

/-!
# Paths in a graph

`g.Arc u v` says that there is an arc `u → v`. `g.Reaches` is its reflexive and transitive
closure, paths of any number of arcs; `g.Leads` its transitive closure, paths of at least one arc.
A node is on a cycle if it leads to itself (`OnCycle`), and two nodes are `Linked` if each reaches
the other.

Two facts about paths carry the rest of the theory:

* `exists_onCycle_of_closed` — where each node of a nonempty set has a predecessor in the set,
  there is a cycle;
* `Fans.leads_iff` — what new paths there are once a graph has been given arcs out of one node
  `a` to targets `T` (`Fans`): a new path runs along old arcs to `a`, and from some target along
  old arcs to its end. Whatever it does in between, it can be cut short to that.
-/

namespace LoadOrder.Digraph

open Relation

variable {g h : Digraph} {u v w : Nat}

/-- There is an arc `u → v`. -/
def Arc (g : Digraph) (u v : Nat) : Prop :=
  v ∈ g.succs u

/-- There is a path from `u` to `v`, of any number of arcs. -/
def Reaches (g : Digraph) : Nat → Nat → Prop :=
  ReflTransGen g.Arc

/-- There is a path of at least one arc from `u` to `v`. -/
def Leads (g : Digraph) : Nat → Nat → Prop :=
  TransGen g.Arc

/-- A closed walk of at least one arc runs through `v`. -/
def OnCycle (g : Digraph) (v : Nat) : Prop :=
  g.Leads v v

/-- No node is on a cycle. -/
def Acyclic (g : Digraph) : Prop :=
  ∀ v, ¬ g.OnCycle v

/-- Each of two nodes reaches the other. -/
def Linked (g : Digraph) (u v : Nat) : Prop :=
  g.Reaches u v ∧ g.Reaches v u

theorem arc_iff_mem_preds : g.Arc u v ↔ u ∈ g.preds v :=
  mem_succs_iff

theorem Reaches.refl (g : Digraph) (v : Nat) : g.Reaches v v :=
  ReflTransGen.refl

theorem Reaches.trans (huv : g.Reaches u v) (hvw : g.Reaches v w) : g.Reaches u w :=
  ReflTransGen.trans huv hvw

theorem Arc.reaches (huv : g.Arc u v) : g.Reaches u v :=
  ReflTransGen.single huv

theorem Arc.leads (huv : g.Arc u v) : g.Leads u v :=
  TransGen.single huv

theorem Leads.reaches (huv : g.Leads u v) : g.Reaches u v :=
  TransGen.to_reflTransGen huv

theorem Leads.trans_reaches (huv : g.Leads u v) (hvw : g.Reaches v w) : g.Leads u w :=
  TransGen.trans_left huv hvw

theorem Reaches.trans_leads (huv : g.Reaches u v) (hvw : g.Leads v w) : g.Leads u w :=
  TransGen.trans_right huv hvw

theorem Reaches.eq_or_leads (huv : g.Reaches u v) : v = u ∨ g.Leads u v :=
  reflTransGen_iff_eq_or_transGen.mp huv

theorem Reaches.leads_of_ne (huv : g.Reaches u v) (hne : u ≠ v) : g.Leads u v :=
  huv.eq_or_leads.resolve_left (Ne.symm hne)

theorem Linked.symm (huv : g.Linked u v) : g.Linked v u :=
  ⟨huv.2, huv.1⟩

theorem Linked.trans (huv : g.Linked u v) (hvw : g.Linked v w) : g.Linked u w :=
  ⟨huv.1.trans hvw.1, hvw.2.trans huv.2⟩

theorem Linked.onCycle_of_ne (huv : g.Linked u v) (hne : u ≠ v) : g.OnCycle u :=
  (huv.1.leads_of_ne hne).trans_reaches huv.2

theorem Linked.onCycle (huv : g.Linked u v) (hu : g.OnCycle u) : g.OnCycle v :=
  (huv.2.trans_leads hu).trans_reaches huv.1

/-! ### Paths stay among the nodes -/

theorem Leads.source_lt (huv : g.Leads u v) : u < g.size := by
  induction huv with
  | single harc => exact Digraph.source_lt harc
  | tail _ _ ih => exact ih

theorem Leads.target_lt (huv : g.Leads u v) : v < g.size := by
  cases huv with
  | single harc => exact Digraph.target_lt harc
  | tail _ harc => exact Digraph.target_lt harc

/-- A set that no arc leaves is not left by a path either. -/
theorem Reaches.mem_of_closed {S : Nat → Prop} (huv : g.Reaches u v)
    (hclosed : ∀ x y, S x → g.Arc x y → S y) (hu : S u) : S v := by
  induction huv with
  | refl => exact hu
  | tail _ harc ih => exact hclosed _ _ ih harc

/-- The nodes on a path between two linked nodes are linked to them, so the path can be followed
inside any set that holds all nodes linked to its start. -/
theorem Linked.reflTransGen_inside {S : Nat → Prop} (huv : g.Linked u v)
    (hS : ∀ x, g.Linked u x → S x) : ReflTransGen (fun x y => g.Arc x y ∧ S y) u v := by
  have hinside : ∀ x, g.Reaches u x → g.Reaches x v →
      ReflTransGen (fun x y => g.Arc x y ∧ S y) u x := by
    intro x hux
    induction hux with
    | refl => exact fun _ => ReflTransGen.refl
    | @tail x y hux harc ih =>
      -- the path goes on to the end, so the node reached is linked to the start
      intro hyv
      have huy : g.Linked u y := ⟨Reaches.trans hux harc.reaches, hyv.trans huv.2⟩
      exact (ih (Reaches.trans harc.reaches hyv)).tail ⟨harc, hS y huy⟩
  exact hinside v huv.1 (Reaches.refl g v)

/-! ### Where cycles come from -/

/-- In a nonempty set of nodes each of which has a predecessor in the set there is a cycle: the
relation "leads to" has no minimal element there, which on a finite set makes it reflexive
somewhere. -/
theorem exists_onCycle_of_closed {S : Set Nat} (hlt : ∀ v ∈ S, v < g.size) (hne : S.Nonempty)
    (hpred : ∀ v ∈ S, ∃ u ∈ S, g.Arc u v) : ∃ v ∈ S, g.OnCycle v := by
  by_contra hnone
  -- without a cycle, "leads to" orders the set strictly
  have hirrefl : ∀ v ∈ S, ¬ g.Leads v v := fun v hv hcyc => hnone ⟨v, hv, hcyc⟩
  let before : Nat → Nat → Prop := fun u v => u ∈ S ∧ v ∈ S ∧ g.Leads u v
  have horder : IsStrictOrder Nat before :=
    { irrefl := fun v hv => hirrefl v hv.1 hv.2.2
      trans := fun _ _ _ huv hvw => ⟨huv.1, hvw.2.1, huv.2.2.trans_reaches hvw.2.2.reaches⟩ }
  have hfinite : S.Finite := (Set.finite_lt_nat g.size).subset hlt
  obtain ⟨v, hv, hmin⟩ := (hfinite.wellFoundedOn (r := before)).has_min
    (Set.univ : Set S) ⟨⟨hne.some, hne.some_mem⟩, trivial⟩
  -- but a minimal node has a predecessor in the set as well
  obtain ⟨u, hu, harc⟩ := hpred v.1 v.2
  exact hmin ⟨u, hu⟩ trivial ⟨hu, v.2, harc.leads⟩

/-! ### Arcs added out of one node -/

/-- `h` is `g` with arcs from `a` to the targets `T` besides its own. -/
def Fans (g h : Digraph) (a : Nat) (T : Nat → Prop) : Prop :=
  ∀ u v, h.Arc u v ↔ g.Arc u v ∨ u = a ∧ T v

theorem fans_insertArc (hu : u < g.size) (hv : v < g.size) :
    Fans g (g.insertArc u v) u (· = v) := by
  intro x y
  by_cases hadmits : g.admits u v
  · -- the arc is new, and comes last among the successors of its source
    rw [Arc, succs_insertArc hadmits x, List.mem_append]
    by_cases hx : u = x
    · simp [Arc, hx]
    · simp [Arc, hx, Ne.symm hx]
  · rw [insertArc_of_not_admits hadmits]
    refine ⟨Or.inl, fun harc => harc.elim id ?_⟩
    -- what the graph does not admit between two nodes is there already
    rintro ⟨rfl, rfl⟩
    by_contra hnew
    exact hadmits (admits_iff.mpr ⟨hu, hv, hnew⟩)

/-- A chain adds the arcs from each node to the next. -/
theorem arc_chain_iff : g.chain.Arc u v ↔ g.Arc u v ∨ v = u + 1 ∧ v < g.size := by
  -- each insertion is one more arc out of the node it is made at
  have hfold : ∀ (us : List Nat) (h : Digraph), (∀ x ∈ us, x + 1 < h.size) →
      ((us.foldl (fun h x => h.insertArc x (x + 1)) h).Arc u v ↔
        h.Arc u v ∨ u ∈ us ∧ v = u + 1) := by
    intro us
    induction us with
    | nil => simp
    | cons x us ih =>
      intro h hlt
      have hx : x + 1 < h.size := hlt x List.mem_cons_self
      rw [List.foldl_cons, ih, fans_insertArc (Nat.lt_of_succ_lt hx) hx u v, List.mem_cons]
      · refine ⟨?_, ?_⟩
        · rintro ((hold | ⟨rfl, rfl⟩) | ⟨hu, rfl⟩)
          · exact Or.inl hold
          · exact Or.inr ⟨Or.inl rfl, rfl⟩
          · exact Or.inr ⟨Or.inr hu, rfl⟩
        · rintro (hold | ⟨rfl | hu, rfl⟩)
          · exact Or.inl (Or.inl hold)
          · exact Or.inl (Or.inr ⟨rfl, rfl⟩)
          · exact Or.inr ⟨hu, rfl⟩
      · exact fun y hy => size_insertArc h x (x + 1) ▸ hlt y (List.mem_cons_of_mem x hy)
  rw [chain, hfold]
  · rw [List.mem_range]
    refine or_congr_right ⟨fun ⟨hu, hv⟩ => ⟨hv, by omega⟩, fun ⟨hv, hlt⟩ => ⟨by omega, hv⟩⟩
  · intro x hx
    rw [List.mem_range] at hx
    omega

namespace Fans

variable {a : Nat} {T : Nat → Prop}

theorem arc (hfan : Fans g h a T) (huv : g.Arc u v) : h.Arc u v :=
  (hfan u v).mpr (Or.inl huv)

theorem arc_new (hfan : Fans g h a T) (hv : T v) : h.Arc a v :=
  (hfan a v).mpr (Or.inr ⟨rfl, hv⟩)

theorem reaches (hfan : Fans g h a T) (huv : g.Reaches u v) : h.Reaches u v :=
  ReflTransGen.mono (fun _ _ => hfan.arc) _ _ huv

theorem leads (hfan : Fans g h a T) (huv : g.Leads u v) : h.Leads u v :=
  TransGen.mono (fun _ _ => hfan.arc) _ _ huv

/-- A path uses a new arc or not; if it does, what lies before the first one and what lies behind
the last one are old paths. -/
theorem reaches_iff (hfan : Fans g h a T) :
    h.Reaches u v ↔ g.Reaches u v ∨ g.Reaches u a ∧ ∃ x, T x ∧ g.Reaches x v := by
  refine ⟨?_, ?_⟩
  · intro huv
    induction huv with
    | refl => exact Or.inl (Reaches.refl g u)
    | @tail b c _ harc ih =>
      rcases (hfan b c).mp harc with hold | ⟨rfl, hc⟩
      · rcases ih with hub | ⟨hua, x, hx, hxb⟩
        · exact Or.inl (hub.trans hold.reaches)
        · exact Or.inr ⟨hua, x, hx, hxb.trans hold.reaches⟩
      · -- the last arc is a new one, so what comes behind it is empty
        have hub : g.Reaches u b := ih.elim id And.left
        exact Or.inr ⟨hub, c, hc, Reaches.refl g c⟩
  · rintro (huv | ⟨hua, x, hx, hxv⟩)
    · exact hfan.reaches huv
    · exact (hfan.reaches hua).trans ((hfan.arc_new hx).reaches.trans (hfan.reaches hxv))

theorem leads_iff (hfan : Fans g h a T) :
    h.Leads u v ↔ g.Leads u v ∨ g.Reaches u a ∧ ∃ x, T x ∧ g.Reaches x v := by
  refine ⟨?_, ?_⟩
  · intro huv
    obtain ⟨w, hwarc, hwv⟩ := TransGen.head'_iff.mp huv
    -- the first arc is an old one or a new one, and so is the path behind it
    rcases (hfan u w).mp hwarc with hold | ⟨rfl, hw⟩
    · rcases hfan.reaches_iff.mp hwv with hwv | ⟨hwa, x, hx, hxv⟩
      · exact Or.inl (hold.leads.trans_reaches hwv)
      · exact Or.inr ⟨hold.reaches.trans hwa, x, hx, hxv⟩
    · rcases hfan.reaches_iff.mp hwv with hwv | ⟨_, x, hx, hxv⟩
      · exact Or.inr ⟨Reaches.refl g u, w, hw, hwv⟩
      · exact Or.inr ⟨Reaches.refl g u, x, hx, hxv⟩
  · rintro (huv | ⟨hua, x, hx, hxv⟩)
    · exact hfan.leads huv
    · exact (hfan.reaches hua).trans_leads ((hfan.arc_new hx).leads.trans_reaches
        (hfan.reaches hxv))

/-- Where no target reaches the source, the new arcs are on no way there and back. -/
theorem linked_iff (hfan : Fans g h a T) (hopen : ∀ x, T x → ¬ g.Reaches x a) :
    h.Linked u v ↔ g.Linked u v := by
  refine ⟨?_, fun huv => ⟨hfan.reaches huv.1, hfan.reaches huv.2⟩⟩
  rintro ⟨huv, hvu⟩
  -- a way back from behind a new arc ends before it, and the target would reach the source
  have hold : ∀ {y z}, h.Reaches y z → h.Reaches z y → g.Reaches y z := by
    intro y z hyz hzy
    rcases hfan.reaches_iff.mp hyz with hold | ⟨hya, x, hx, hxz⟩
    · exact hold
    · rcases hfan.reaches_iff.mp hzy with hback | ⟨hza, -⟩
      · exact absurd (hxz.trans (hback.trans hya)) (hopen x hx)
      · exact absurd (hxz.trans hza) (hopen x hx)
  exact ⟨hold huv hvu, hold hvu huv⟩

/-- The new arcs close a cycle exactly if one of their targets reaches their source. -/
theorem acyclic_iff (hfan : Fans g h a T) :
    h.Acyclic ↔ g.Acyclic ∧ ∀ x, T x → ¬ g.Reaches x a := by
  refine ⟨?_, ?_⟩
  · intro hacyclic
    refine ⟨fun v hv => hacyclic v (hfan.leads hv), ?_⟩
    intro x hx hxa
    exact hacyclic a (hfan.leads_iff.mpr (Or.inr ⟨Reaches.refl g a, x, hx, hxa⟩))
  · -- a new cycle runs through a new arc, and from its target back to its source
    rintro ⟨hacyclic, hopen⟩ v hv
    rcases hfan.leads_iff.mp hv with hold | ⟨hva, x, hx, hxv⟩
    · exact hacyclic v hold
    · exact hopen x hx (hxv.trans hva)

end Fans

end LoadOrder.Digraph
