import LoadOrder.Digraph.Anchor
import LoadOrder.Proofs.Digraph.TopologicalOrder
import LoadOrder.Proofs.Digraph.Traversal

/-!
# What anchoring does to a graph

A node is `Dangling` if it is no base node and no path joins it to one, either way; `dangles`
decides it (`dangles_iff`). Anchoring goes through the nodes and looks at a graph that it has
changed already. `Anchored` says what comes of it in terms of the graph it began with:

* the new arcs lead from the anchor to nodes that were dangling;
* the anchor leads to every node that was dangling, by an arc of its own or by way of another.

The second point holds since a dangling node that is passed over has come to hang on the base
through the new arcs alone, and these start at the anchor (`Fans.dangling_or_leads`).

It follows that the topological orders after anchoring are those before that have the anchor in
front of every dangling node (`Anchored.isTopological_iff`), and that anchoring closes a cycle
exactly if some dangling node reaches the anchor (`Anchored.acyclic_iff`).
-/

namespace LoadOrder.Digraph

variable {g h : Digraph} {base : Nat → Bool} {a v w : Nat}

/-- The node `v` is no base node, and no path joins it to one, in either direction. -/
def Dangling (g : Digraph) (base : Nat → Bool) (v : Nat) : Prop :=
  ¬ base v ∧ ∀ b, base b → ¬ g.Reaches v b ∧ ¬ g.Reaches b v

theorem dangling_iff : g.Dangling base v ↔ ∀ b, base b → ¬ g.Reaches v b ∧ ¬ g.Reaches b v := by
  refine ⟨And.right, fun hnone => ⟨?_, hnone⟩⟩
  -- a base node reaches itself
  intro hbase
  exact (hnone v hbase).1 (Reaches.refl g v)

theorem dangles_iff (hv : v < g.size) : g.dangles base v ↔ g.Dangling base v := by
  have hforward : g.finds .forward base v = false ↔ ∀ b, base b → ¬ g.Reaches v b := by
    rw [← Bool.not_eq_true, finds_forward_iff]
    exact ⟨fun hnone b hb hvb => hnone ⟨hv, b, hvb, hb⟩,
      fun hnone ⟨_, b, hvb, hb⟩ => hnone b hb hvb⟩
  have hbackward : g.finds .backward base v = false ↔ ∀ b, base b → ¬ g.Reaches b v := by
    rw [← Bool.not_eq_true, finds_backward_iff]
    exact ⟨fun hnone b hb hbv => hnone ⟨hv, b, hbv, hb⟩,
      fun hnone ⟨_, b, hbv, hb⟩ => hnone b hb hbv⟩
  rw [dangles, Bool.and_eq_true, Bool.and_eq_true, Bool.not_eq_true', Bool.not_eq_true',
    Bool.not_eq_true', hforward, hbackward, Dangling, Bool.not_eq_true]
  refine ⟨?_, ?_⟩
  · rintro ⟨⟨hbase, hto⟩, hfrom⟩
    exact ⟨hbase, fun b hb => ⟨hto b hb, hfrom b hb⟩⟩
  · rintro ⟨hbase, hnone⟩
    exact ⟨⟨hbase, fun b hb => (hnone b hb).1⟩, fun b hb => (hnone b hb).2⟩

/-- A node linked to one that dangles dangles too. -/
theorem Dangling.of_linked (hv : g.Dangling base v) (hvw : g.Linked v w) : g.Dangling base w :=
  dangling_iff.mpr fun b hb =>
    ⟨fun hwb => (hv.2 b hb).1 (hvw.1.trans hwb), fun hbw => (hv.2 b hb).2 (hbw.trans hvw.2)⟩

/-- The check passes exactly if no node dangles. -/
theorem isAnchored_iff : g.isAnchored base ↔ ∀ v, v < g.size → ¬ g.Dangling base v := by
  simp only [isAnchored, List.all_eq_true, List.mem_range, Bool.not_eq_true', ← Bool.not_eq_true]
  exact forall₂_congr fun v hv => not_congr (dangles_iff hv)

/-! ### Arcs to dangling nodes -/

namespace Fans

variable {T : Nat → Prop}

/-- More arcs make no node dangle. -/
theorem dangling_of_dangling (hfan : Fans g h a T) (hv : h.Dangling base v) :
    g.Dangling base v :=
  ⟨hv.1, fun b hb =>
    ⟨fun hvb => (hv.2 b hb).1 (hfan.reaches hvb), fun hbv => (hv.2 b hb).2 (hfan.reaches hbv)⟩⟩

/-- Arcs to dangling nodes open no way to the base. -/
theorem not_reaches_base (hfan : Fans g h a T) (hT : ∀ x, T x → g.Dangling base x)
    (hv : g.Dangling base v) {b : Nat} (hb : base b) : ¬ h.Reaches v b := by
  intro hvb
  rcases hfan.reaches_iff.mp hvb with hold | ⟨_, x, hx, hxb⟩
  · exact (hv.2 b hb).1 hold
  · exact ((hT x hx).2 b hb).1 hxb

/-- A node that dangles no more once `a` has been given arcs to dangling nodes is one that `a`
leads to. -/
theorem dangling_or_leads (hfan : Fans g h a T) (hT : ∀ x, T x → g.Dangling base x)
    (hv : g.Dangling base v) : h.Dangling base v ∨ h.Leads a v := by
  by_cases hleads : h.Leads a v
  · exact Or.inr hleads
  · refine Or.inl ⟨hv.1, fun b hb => ⟨hfan.not_reaches_base hT hv hb, ?_⟩⟩
    -- a new path from the base to `v` runs through `a`
    intro hbv
    rcases hfan.reaches_iff.mp hbv with hold | ⟨_, x, hx, hxv⟩
    · exact (hv.2 b hb).2 hold
    · exact hleads ((hfan.arc_new hx).leads.trans_reaches (hfan.reaches hxv))

/-- If `a` is a base node, what still dangles is what no target reaches. -/
theorem dangling_iff_of_base (hfan : Fans g h a T) (hT : ∀ x, T x → g.Dangling base x)
    (ha : base a) : h.Dangling base v ↔ g.Dangling base v ∧ ∀ x, T x → ¬ g.Reaches x v := by
  refine ⟨?_, ?_⟩
  · intro hv
    refine ⟨hfan.dangling_of_dangling hv, ?_⟩
    intro x hx hxv
    exact (hv.2 a ha).2 ((hfan.arc_new hx).reaches.trans (hfan.reaches hxv))
  · rintro ⟨hv, hnone⟩
    refine ⟨hv.1, fun b hb => ⟨hfan.not_reaches_base hT hv hb, ?_⟩⟩
    intro hbv
    rcases hfan.reaches_iff.mp hbv with hold | ⟨-, x, hx, hxv⟩
    · exact (hv.2 b hb).2 hold
    · exact hnone x hx hxv

/-- If `a` dangles itself, arcs from it to dangling nodes change nothing about any of them. -/
theorem dangling_of_source (hfan : Fans g h a T) (hT : ∀ x, T x → g.Dangling base x)
    (ha : g.Dangling base a) (hv : g.Dangling base v) : h.Dangling base v := by
  refine ⟨hv.1, fun b hb => ⟨hfan.not_reaches_base hT hv hb, ?_⟩⟩
  intro hbv
  rcases hfan.reaches_iff.mp hbv with hold | ⟨hba, _⟩
  · exact (hv.2 b hb).2 hold
  · exact (ha.2 b hb).2 hba

end Fans

/-! ### The pass over the nodes -/

/-- `h` is what comes of `g` if those of the nodes `vs` that dangle at their turn are put behind
`a`, and `anchored` are the nodes that got an arc. -/
structure Anchored (g h : Digraph) (base : Nat → Bool) (a : Nat) (vs anchored : List Nat) :
    Prop where
  /-- There are as many nodes as before. -/
  size_eq : h.size = g.size
  /-- The new arcs lead from `a` to the anchored nodes. -/
  fans : Fans g h a (· ∈ anchored)
  /-- The anchored nodes dangled before. -/
  dangling : ∀ x ∈ anchored, g.Dangling base x
  /-- Every listed node that dangled before is behind `a`. -/
  leads : ∀ v ∈ vs, g.Dangling base v → h.Leads a v
  /-- If `a` dangled itself, each of them is the target of an arc of its own. -/
  arc : g.Dangling base a → ∀ v ∈ vs, g.Dangling base v → h.Arc a v

theorem anchored_anchorAll {vs : List Nat} (ha : a < g.size) (hvs : ∀ v ∈ vs, v < g.size) :
    Anchored g (anchorAll base a g vs).1 base a vs (anchorAll base a g vs).2 := by
  induction vs generalizing g with
  | nil =>
    exact ⟨rfl, fun u v => by simp [anchorAll], by simp [anchorAll], by simp, by simp⟩
  | cons v vs ih =>
    have hv : v < g.size := hvs v List.mem_cons_self
    have htail : ∀ w ∈ vs, w < g.size := fun w hw => hvs w (List.mem_cons_of_mem v hw)
    unfold anchorAll
    split
    · next hcond =>
      have hdangles : g.dangles base v := (Bool.and_eq_true_iff.mp hcond).1
      have hdangling : g.Dangling base v := (dangles_iff hv).mp hdangles
      have hfan : Fans g (g.insertArc a v) a (· = v) := fans_insertArc ha hv
      have hT : ∀ x, x = v → g.Dangling base x := fun x hx => hx ▸ hdangling
      have hrest := ih (g := g.insertArc a v) (by rw [size_insertArc]; exact ha)
        (fun w hw => by rw [size_insertArc]; exact htail w hw)
      refine ⟨hrest.size_eq.trans (size_insertArc g a v), ?_, ?_, ?_, ?_⟩
      · -- the arcs of the rest of the pass are out of `a` as well
        intro x y
        rw [hrest.fans x y, hfan x y]
        simp only [List.mem_cons, or_assoc, and_or_left]
      · -- what dangles later dangled before
        intro x hx
        rcases List.mem_cons.mp hx with rfl | hx
        · exact hdangling
        · exact hfan.dangling_of_dangling (hrest.dangling x hx)
      · -- what dangles no more at its turn is behind `a` by way of `v`
        intro w hw hwd
        rcases List.mem_cons.mp hw with rfl | hw
        · exact hrest.fans.leads (hfan.arc_new rfl).leads
        · rcases hfan.dangling_or_leads hT hwd with hwd | hleads
          · exact hrest.leads w hw hwd
          · exact hrest.fans.leads hleads
      · -- if `a` dangles, everything that dangled still does at its turn
        intro had w hw hwd
        rcases List.mem_cons.mp hw with rfl | hw
        · exact hrest.fans.arc (hfan.arc_new rfl)
        · exact hrest.arc (hfan.dangling_of_source hT had had) w hw
            (hfan.dangling_of_source hT had hwd)
    · next hcond =>
      have hrest := ih ha htail
      -- a dangling node is passed over only if it has the arc already
      have hold : g.Dangling base v → g.Arc a v := by
        intro hdangling
        by_contra harc
        exact hcond (Bool.and_eq_true_iff.mpr
          ⟨(dangles_iff hv).mpr hdangling, admits_iff.mpr ⟨ha, hv, harc⟩⟩)
      refine ⟨hrest.size_eq, hrest.fans, hrest.dangling, ?_, ?_⟩
      · intro w hw hwd
        rcases List.mem_cons.mp hw with rfl | hw
        · exact hrest.fans.leads (hold hwd).leads
        · exact hrest.leads w hw hwd
      · intro had w hw hwd
        rcases List.mem_cons.mp hw with rfl | hw
        · exact hrest.fans.arc (hold hwd)
        · exact hrest.arc had w hw hwd

theorem anchored_anchorDangling (base : Nat → Bool) (ha : a < g.size) :
    Anchored g (g.anchorDangling base a).1 base a (List.range g.size)
      (g.anchorDangling base a).2 :=
  anchored_anchorAll ha fun _ hv => List.mem_range.mp hv

/-! ### Orders and cycles after anchoring -/

namespace Anchored

variable {anchored order : List Nat}

/-- The orders that remain are those with the anchor in front of every dangling node. -/
theorem isTopological_iff (hanch : Anchored g h base a (List.range g.size) anchored)
    (hperm : order.Perm (List.range g.size)) :
    h.IsTopological order ↔
      g.IsTopological order ∧ ∀ v, v < g.size → g.Dangling base v → Precedes order a v := by
  refine ⟨?_, ?_⟩
  · intro horder
    refine ⟨⟨hperm, fun u v harc => horder.precedes u v (hanch.fans.arc harc)⟩, ?_⟩
    -- an order of the new graph has the end of a path behind its start
    intro v hv hdangling
    exact horder.precedes_of_leads (hanch.leads v (List.mem_range.mpr hv) hdangling)
  · rintro ⟨horder, hbehind⟩
    refine ⟨by rw [hanch.size_eq]; exact hperm, ?_⟩
    intro u v harc
    rcases (hanch.fans u v).mp harc with hold | ⟨rfl, hv⟩
    · exact horder.precedes u v hold
    · have hlt : v < g.size := hanch.size_eq ▸ target_lt harc
      exact hbehind v hlt (hanch.dangling v hv)

/-- Two graphs with the same paths are put in the same order once their dangling nodes have been put
behind the same anchor. -/
theorem topoSort_congr {g' h' : Digraph} {anchored' : List Nat}
    (hanch : Anchored g h base a (List.range g.size) anchored)
    (hanch' : Anchored g' h' base a (List.range g'.size) anchored') (hsize : g.size = g'.size)
    (hleads : ∀ u v, g.Leads u v ↔ g'.Leads u v) : h.topoSort = h'.topoSort := by
  have hreaches : ∀ u v, g.Reaches u v ↔ g'.Reaches u v := fun u v => by
    rw [Reaches, Reaches, Relation.reflTransGen_iff_eq_or_transGen,
      Relation.reflTransGen_iff_eq_or_transGen]
    exact or_congr_right (hleads u v)
  refine Digraph.topoSort_congr fun order => ?_
  by_cases hperm : order.Perm (List.range g.size)
  · rw [hanch.isTopological_iff hperm, hanch'.isTopological_iff (hsize ▸ hperm),
      isTopological_iff_leads, isTopological_iff_leads, ← hsize]
    simp only [Dangling, hleads, hreaches]
  · -- neither graph has an order that does not hold the nodes
    refine iff_of_false (fun horder => hperm (hanch.size_eq ▸ horder.perm)) fun horder => hperm ?_
    rw [hsize, ← hanch'.size_eq]
    exact horder.perm

/-- Anchoring closes a cycle exactly if some dangling node reaches the anchor. -/
theorem acyclic_iff (hanch : Anchored g h base a (List.range g.size) anchored) :
    h.Acyclic ↔ g.Acyclic ∧ ∀ v, v < g.size → g.Dangling base v → ¬ g.Reaches v a := by
  refine ⟨?_, ?_⟩
  · intro hacyclic
    refine ⟨(hanch.fans.acyclic_iff.mp hacyclic).1, ?_⟩
    intro v hv hdangling hva
    have hleads := hanch.leads v (List.mem_range.mpr hv) hdangling
    exact hacyclic a (hleads.trans_reaches (hanch.fans.reaches hva))
  · rintro ⟨hacyclic, hopen⟩
    refine hanch.fans.acyclic_iff.mpr ⟨hacyclic, ?_⟩
    intro x hx
    have hlt : x < g.size := hanch.size_eq ▸ target_lt (hanch.fans.arc_new hx)
    exact hopen x hlt (hanch.dangling x hx)

/-- What dangled before still dangles unless the base reaches the anchor. -/
theorem dangling_iff (hanch : Anchored g h base a (List.range g.size) anchored)
    (hv : v < g.size) :
    h.Dangling base v ↔ g.Dangling base v ∧ ∀ b, base b → ¬ g.Reaches b a := by
  refine ⟨?_, ?_⟩
  · intro hdangling
    have hold : g.Dangling base v := hanch.fans.dangling_of_dangling hdangling
    refine ⟨hold, ?_⟩
    -- what reaches the anchor reaches all that is behind it
    intro b hb hba
    have hleads := hanch.leads v (List.mem_range.mpr hv) hold
    exact (hdangling.2 b hb).2 ((hanch.fans.reaches hba).trans hleads.reaches)
  · rintro ⟨hold, hnone⟩
    refine ⟨hold.1, fun b hb => ⟨hanch.fans.not_reaches_base hanch.dangling hold hb, ?_⟩⟩
    intro hbv
    rcases hanch.fans.reaches_iff.mp hbv with hbv | ⟨hba, -⟩
    · exact (hold.2 b hb).2 hbv
    · exact hnone b hb hba

/-- Unless some dangling node reaches the anchor, anchoring adds no arc to any cycle. -/
theorem arc_of_reaches (hanch : Anchored g h base a (List.range g.size) anchored)
    (hopen : ∀ v, v < g.size → g.Dangling base v → ¬ g.Reaches v a) (harc : h.Arc v w)
    (hwv : h.Reaches w v) : g.Arc v w := by
  rcases (hanch.fans v w).mp harc with hold | ⟨rfl, hw⟩
  · exact hold
  · -- the way back from a dangling node to the anchor would be an old one
    have hback : g.Reaches w v := by
      rcases hanch.fans.reaches_iff.mp hwv with hold | ⟨hwa, -⟩
      · exact hold
      · exact hwa
    have hlt : w < g.size := hanch.size_eq ▸ target_lt harc
    exact absurd hback (hopen w hlt (hanch.dangling w hw))

/-- Anchoring gives a node an arc to itself exactly if the anchor dangles. -/
theorem exists_loop_iff (hanch : Anchored g h base a (List.range g.size) anchored)
    (ha : a < g.size) (hloop : ∀ v, ¬ g.Arc v v) :
    (∃ v, h.Arc v v) ↔ g.Dangling base a := by
  refine ⟨?_, ?_⟩
  · rintro ⟨v, harc⟩
    rcases (hanch.fans v v).mp harc with hold | ⟨rfl, hv⟩
    · exact absurd hold (hloop v)
    · exact hanch.dangling v hv
  · intro hdangling
    exact ⟨a, hanch.arc hdangling a (List.mem_range.mpr ha) hdangling⟩

end Anchored

end LoadOrder.Digraph
