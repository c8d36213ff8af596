import LoadOrder.Proofs.Digraph.Foremost

/-!
# Anchoring once and for all

Anchoring a second time at the same node does nothing, whatever this node is
(`Graph.anchorDangling_again`). A node that still dangles after a pass dangled at its turn as well,
for arcs that are added make no node dangle; so it has an arc out of the anchor already
(`arc_of_dangling_anchorAll`), and the graph admits no other.

What is anchored need not be tied to the base. If any node dangled, then none does after the pass
exactly if some base node reaches the anchor (`Anchored.isAnchored_iff`). A dangling anchor is out
of reach of the base, and then it dangles for good. But it does not take a dangling anchor: one that
reaches the base and is not reached from it does not dangle, and whatever is put behind it does
(`Graph.not_anchorsForGood_in_front`). There is no other exception (`Graph.anchorsForGood_iff`).
-/

namespace LoadOrder

namespace Digraph

variable {g h : Digraph} {base : Nat → Bool} {a v : Nat} {vs anchored : List Nat}

/-! ### A second pass -/

/-- What dangles after a pass that had it in its turn has got an arc out of the anchor, or had it
before. -/
theorem arc_of_dangling_anchorAll (ha : a < g.size) (hvs : ∀ v ∈ vs, v < g.size) (hv : v ∈ vs)
    (hdangling : (anchorAll base a g vs).1.Dangling base v) :
    (anchorAll base a g vs).1.Arc a v := by
  induction vs generalizing g with
  | nil => cases hv
  | cons x vs ih =>
    have hx : x < g.size := hvs x List.mem_cons_self
    have htail : ∀ y ∈ vs, y < g.size := fun y hy => hvs y (List.mem_cons_of_mem x hy)
    by_cases hcond : g.dangles base x && g.admits a x
    · have ha' : a < (g.insertArc a x).size := by rwa [size_insertArc]
      have htail' : ∀ y ∈ vs, y < (g.insertArc a x).size := by simpa using htail
      rw [anchorAll_cons_of_pos hcond] at hdangling ⊢
      rcases List.mem_cons.mp hv with rfl | hv
      · -- the rest of the pass leaves the arc where it is
        exact (anchored_anchorAll ha' htail').fans.arc ((fans_insertArc ha hx).arc_new rfl)
      · exact ih ha' htail' hv hdangling
    · rw [anchorAll_cons_of_neg hcond] at hdangling ⊢
      rcases List.mem_cons.mp hv with rfl | hv
      · -- it dangled at its turn, so it was passed over for the arc that it had
        have hfan : Fans g (anchorAll base a g vs).1 a (· ∈ (anchorAll base a g vs).2) :=
          (anchored_anchorAll ha htail).fans
        have hturn : g.dangles base v := (dangles_iff hx).mpr (hfan.dangling_of_dangling hdangling)
        refine hfan.arc ?_
        by_contra hnew
        exact hcond (Bool.and_eq_true_iff.mpr ⟨hturn, admits_iff.mpr ⟨ha, hx, hnew⟩⟩)
      · exact ih ha htail hv hdangling

/-- A pass in which no node has its turn and is admitted changes nothing. -/
theorem anchorAll_eq_self (hvs : ∀ v ∈ vs, ¬ (g.dangles base v && g.admits a v)) :
    anchorAll base a g vs = (g, []) := by
  induction vs with
  | nil => rfl
  | cons x vs ih =>
    rw [anchorAll_cons_of_neg (hvs x List.mem_cons_self)]
    exact ih fun v hv => hvs v (List.mem_cons_of_mem x hv)

/-- Anchoring again does nothing. -/
theorem anchorDangling_again (g : Digraph) (base : Nat → Bool) (a : Nat) :
    (g.anchorDangling base a).1.anchorDangling base a = ((g.anchorDangling base a).1, []) := by
  refine anchorAll_eq_self fun v hv hcond => ?_
  obtain ⟨hdangles, hadmits⟩ := Bool.and_eq_true_iff.mp hcond
  obtain ⟨ha, hlt, hnew⟩ := admits_iff.mp hadmits
  rw [size_anchorDangling] at ha
  have hv : v ∈ List.range g.size := by simpa using hv
  exact hnew (arc_of_dangling_anchorAll ha (fun x hx => List.mem_range.mp hx) hv
    ((dangles_iff hlt).mp hdangles))

/-! ### What dangles after a pass -/

/-- After a pass over all nodes none dangles exactly if none did before it, or some base node
reaches the anchor. -/
theorem Anchored.isAnchored_iff (hanch : Anchored g h base a (List.range g.size) anchored) :
    h.isAnchored base ↔
      ((∃ v, v < g.size ∧ g.Dangling base v) → ∃ b, base b ∧ g.Reaches b a) := by
  rw [Digraph.isAnchored_iff, hanch.size_eq]
  refine ⟨?_, ?_⟩
  · rintro hnone ⟨v, hv, hdangling⟩
    by_contra hfar
    push Not at hfar
    exact hnone v hv ((hanch.dangling_iff hv).mpr ⟨hdangling, hfar⟩)
  · intro hnear v hv hdangling
    obtain ⟨hold, hfar⟩ := (hanch.dangling_iff hv).mp hdangling
    obtain ⟨b, hb, hba⟩ := hnear ⟨v, hv, hold⟩
    exact hfar b hb hba

end Digraph

namespace Graph

variable {α : Type} {g : Graph α} {base : Nat → Bool} {a : Nat}

/-- Anchoring at `a` is done for good: another time nothing is left to do, and a node that does not
dangle itself saves all the others. -/
structure AnchorsForGood (g : Graph α) (base : Nat → Bool) (a : Nat) : Prop where
  /-- Anchoring again gives no node an arc and leaves the graph as it is. -/
  again : (g.anchorDangling base a).1.anchorDangling base a = ((g.anchorDangling base a).1, [])
  /-- No node dangles any more exactly if the anchor did not. -/
  isAnchored_iff : a < g.size →
    ((g.anchorDangling base a).1.links.isAnchored base ↔ ¬ g.links.Dangling base a)

theorem anchorDangling_again (g : Graph α) (base : Nat → Bool) (a : Nat) :
    (g.anchorDangling base a).1.anchorDangling base a = ((g.anchorDangling base a).1, []) := by
  have hlinks := g.links.anchorDangling_again base a
  simp only [anchorDangling, hlinks]

theorem isAnchored_anchorDangling_iff (ha : a < g.size) :
    (g.anchorDangling base a).1.links.isAnchored base ↔
      ((∃ v, v < g.size ∧ g.links.Dangling base v) → ∃ b, base b ∧ g.links.Reaches b a) := by
  rw [← g.size_links_eq] at ha ⊢
  exact (Digraph.anchored_anchorDangling base ha).isAnchored_iff

/-- Anchoring again does nothing, at whatever node. No node dangles after anchoring exactly if none
did before it, or some base node reaches the anchor; so this is told by whether the anchor dangled,
unless the anchor reaches the base and is not reached from it and some node dangled. -/
theorem anchorsForGood_iff (g : Graph α) (base : Nat → Bool) (a : Nat) :
    (g.anchorDangling base a).1.anchorDangling base a = ((g.anchorDangling base a).1, []) ∧
    (a < g.size → ((g.anchorDangling base a).1.links.isAnchored base ↔
      ((∃ v, v < g.size ∧ g.links.Dangling base v) → ∃ b, base b ∧ g.links.Reaches b a))) ∧
    (g.AnchorsForGood base a ↔
      (a < g.size → (∃ v, v < g.size ∧ g.links.Dangling base v) →
        g.links.Dangling base a ∨ ∃ b, base b ∧ g.links.Reaches b a)) := by
  refine ⟨g.anchorDangling_again base a, isAnchored_anchorDangling_iff, ?_, ?_⟩
  · intro hgood ha hsome
    by_cases hdangling : g.links.Dangling base a
    · exact Or.inl hdangling
    · have hanchored := (hgood.isAnchored_iff ha).mpr hdangling
      exact Or.inr ((isAnchored_anchorDangling_iff ha).mp hanchored hsome)
  · refine fun hnear => ⟨g.anchorDangling_again base a, fun ha => ?_⟩
    rw [isAnchored_anchorDangling_iff ha]
    refine ⟨?_, ?_⟩
    · -- a dangling anchor is one of the nodes that dangled, and out of reach
      intro htied hdangling
      obtain ⟨b, hb, hba⟩ := htied ⟨a, ha, hdangling⟩
      exact (hdangling.2 b hb).2 hba
    · exact fun hsafe hsome => (hnear ha hsome).resolve_left hsafe

/-- The anchor is no base node, but a base node reaches it, and with it what is put behind. -/
theorem anchorsForGood_behind_base :
    ∃ g : Graph Nat, (0 < g.size ∧ g.edges = [(1, 0)]) ∧
      (g.anchorDangling (· == 1) 0).2 = [2] ∧ g.AnchorsForGood (· == 1) 0 := by
  refine ⟨⟨#[0, 1, 2], (Nat.repeat Digraph.addNode 3 .empty).insertArc 1 0, by cbv, by decide⟩,
    ⟨?_, ?_⟩, ?_, ?_⟩
  · show 0 < 3
    decide
  · cbv
  · cbv
  · refine (anchorsForGood_iff _ _ _).2.2.mpr fun _ _ => Or.inr ⟨1, rfl, Digraph.Arc.reaches ?_⟩
    show 0 ∈ Digraph.succs _ 1
    rw [Digraph.succs_insertArc (by cbv)]
    simp

/-- The anchor is no base node and reaches one, without being reached from it. It does not dangle;
but the node that is put behind it dangles as before. -/
theorem not_anchorsForGood_in_front :
    ∃ g : Graph Nat, (0 < g.size ∧ g.edges = [(0, 1)]) ∧
      (g.anchorDangling (· == 1) 0).2 = [2] ∧ ¬ g.links.Dangling (· == 1) 0 ∧
      (g.anchorDangling (· == 1) 0).1.links.isAnchored (· == 1) = false ∧
      ¬ g.AnchorsForGood (· == 1) 0 := by
  let links : Digraph := (Nat.repeat Digraph.addNode 3 .empty).insertArc 0 1
  let g : Graph Nat := ⟨#[0, 1, 2], links, by cbv, by decide⟩
  have hsize : 0 < g.size := show 0 < 3 by decide
  have hsafe : ¬ g.links.Dangling (· == 1) 0 := by
    intro hdangling
    refine (hdangling.2 1 rfl).1 (Digraph.Arc.reaches ?_)
    show 1 ∈ Digraph.succs _ 0
    rw [Digraph.succs_insertArc (by cbv)]
    simp
  have hloose : (g.anchorDangling (· == 1) 0).1.links.isAnchored (· == 1) = false := by cbv
  refine ⟨g, ⟨hsize, by cbv⟩, by cbv, hsafe, hloose, ?_⟩
  intro hgood
  have hanchored := (hgood.isAnchored_iff hsize).mpr hsafe
  rw [hloose] at hanchored
  cases hanchored

end Graph

end LoadOrder
