import LoadOrder.Proofs.Digraph.Anchoring
import Mathlib.Data.List.Sort
import Mathlib.Logic.Function.Basic
import Mathlib.Order.Monotone.Basic

/-!
# A graph inside another

`Embeds f h g` says that `h` is what is left of `g` when some of its nodes are taken out that no arc
leads out of. The map `f` gives the number in `g` of each node of `h`, and keeps their order. The
order of the arcs at a node may differ. With the identity for `f` no node is taken out, and two
graphs with the same arcs are left, added in different orders.

What is taken out lies on no path between nodes that stay. So paths, cycles and dangling nodes are
the same in both graphs (`Embeds.reaches_iff`, `Embeds.onCycle_iff`, `Embeds.dangling_iff`),
anchoring does the same to both (`Embeds.anchorDangling`), and the least topological order of `h` is
that of `g` without the nodes taken out (`Embeds.topoSort_eq_some`, `Embeds.topoSort_eq_none_iff`).
-/

namespace LoadOrder.Digraph

open Relation

variable {f : Nat → Nat} {g h : Digraph} {u v w a x : Nat} {base base' : Nat → Bool}
  {vs ws order : List Nat}

/-- The nodes of `h` are nodes of `g` by the numbers `f`, in the same order and with the same arcs
between them, and no arc leads out of any other node of `g`. -/
structure Embeds (f : Nat → Nat) (h g : Digraph) : Prop where
  /-- The order of the nodes is kept. -/
  strictMono : StrictMono f
  /-- The new number of a node is that of a node, and no other number becomes one. -/
  lt_size_iff : ∀ v, f v < g.size ↔ v < h.size
  /-- The arcs between the nodes are the same. -/
  arc_iff : ∀ u v, g.Arc (f u) (f v) ↔ h.Arc u v
  /-- Arcs lead only out of these nodes. -/
  exists_source : ∀ x y, g.Arc x y → ∃ w, f w = x

/-! ### The nodes that are left -/

/-- Those of the listed nodes that are left, by their numbers before `f`. -/
noncomputable def kept (f : Nat → Nat) (vs : List Nat) : List Nat :=
  vs.filterMap (Function.partialInv f)

theorem mem_kept_iff (hf : f.Injective) : w ∈ kept f vs ↔ f w ∈ vs := by
  rw [kept, List.mem_filterMap]
  refine ⟨?_, fun hw => ⟨f w, hw, Function.partialInv_left hf w⟩⟩
  rintro ⟨v, hv, hinv⟩
  exact (hf.isPartialInv w v).mp hinv ▸ hv

theorem kept_cons_of_eq (hf : f.Injective) (hw : f w = v) : kept f (v :: vs) = w :: kept f vs := by
  rw [kept, List.filterMap_cons_some (hw ▸ Function.partialInv_left hf w)]
  rfl

theorem kept_cons_of_ne (hf : f.Injective) (hv : ¬ ∃ w, f w = v) :
    kept f (v :: vs) = kept f vs := by
  have hnone : Function.partialInv f v = none := by
    rw [Option.eq_none_iff_forall_ne_some]
    intro w hw
    exact hv ⟨w, (hf.isPartialInv w v).mp hw⟩
  rw [kept, List.filterMap_cons_none hnone]
  rfl

/-- What is left of a split of the list is a split of what is left. -/
theorem exists_split_of_kept (hf : f.Injective) {front back : List Nat}
    (hsplit : kept f vs = front ++ w :: back) :
    ∃ done rest, vs = done ++ f w :: rest ∧ kept f done = front := by
  obtain ⟨l₁, l₂, rfl, hfront, hback⟩ := List.filterMap_eq_append_iff.mp hsplit
  obtain ⟨skipped, v, rest, rfl, hskipped, hinv, -⟩ := List.filterMap_eq_cons_iff.mp hback
  obtain rfl : f w = v := (hf.isPartialInv w v).mp hinv
  refine ⟨l₁ ++ skipped, rest, by simp, ?_⟩
  have hnil : skipped.filterMap (Function.partialInv f) = [] :=
    List.filterMap_eq_nil_iff.mpr hskipped
  rw [kept, List.filterMap_append, hfront, hnil, List.append_nil]

namespace Embeds

theorem injective (he : Embeds f h g) : f.Injective :=
  he.strictMono.injective

theorem kept_range (he : Embeds f h g) : kept f (List.range g.size) = List.range h.size := by
  have hascending : (kept f (List.range g.size)).Pairwise (· < ·) := by
    refine List.Pairwise.filterMap _ ?_ List.pairwise_lt_range
    intro x y hxy u hu v hv
    obtain rfl : f u = x := (he.injective.isPartialInv u x).mp hu
    obtain rfl : f v = y := (he.injective.isPartialInv v y).mp hv
    exact he.strictMono.lt_iff_lt.mp hxy
  refine hascending.eq_of_mem_iff List.pairwise_lt_range ?_
  intro w
  rw [mem_kept_iff he.injective, List.mem_range, List.mem_range, he.lt_size_iff]

/-! ### Paths -/

/-- A path to a node that is left runs among the nodes that are left. -/
theorem exists_reaches (he : Embeds f h g) (hpath : g.Reaches x (f v)) :
    ∃ w, f w = x ∧ h.Reaches w v := by
  induction hpath using ReflTransGen.head_induction_on with
  | refl => exact ⟨v, rfl, Reaches.refl h v⟩
  | head harc _ ih =>
    obtain ⟨w, rfl, hwv⟩ := ih
    obtain ⟨u, rfl⟩ := he.exists_source _ _ harc
    exact ⟨u, rfl, Reaches.trans (Arc.reaches ((he.arc_iff u w).mp harc)) hwv⟩

theorem reaches_iff (he : Embeds f h g) : g.Reaches (f u) (f v) ↔ h.Reaches u v := by
  refine ⟨?_, ?_⟩
  · intro hpath
    obtain ⟨w, hw, hwv⟩ := he.exists_reaches hpath
    exact he.injective hw ▸ hwv
  · exact ReflTransGen.lift f (fun u v harc => (he.arc_iff u v).mpr harc) u v

theorem leads_iff (he : Embeds f h g) : g.Leads (f u) (f v) ↔ h.Leads u v := by
  refine ⟨?_, ?_⟩
  · intro hpath
    obtain ⟨x, harc, hxv⟩ := TransGen.head'_iff.mp hpath
    obtain ⟨w, rfl, hwv⟩ := he.exists_reaches hxv
    exact TransGen.head' ((he.arc_iff u w).mp harc) hwv
  · exact TransGen.lift f (fun u v harc => (he.arc_iff u v).mpr harc) u v

theorem onCycle_iff (he : Embeds f h g) : g.OnCycle (f v) ↔ h.OnCycle v :=
  he.leads_iff

/-- A node on a cycle has an arc out of it, and so it is left. -/
theorem exists_of_onCycle (he : Embeds f h g) (hx : g.OnCycle x) : ∃ w, f w = x := by
  obtain ⟨y, harc, -⟩ := TransGen.head'_iff.mp hx
  exact he.exists_source x y harc

theorem linked_iff (he : Embeds f h g) : g.Linked (f u) (f v) ↔ h.Linked u v :=
  and_congr he.reaches_iff he.reaches_iff

/-! ### Anchoring -/

theorem dangling_iff (he : Embeds f h g) (hbase : ∀ v, base (f v) = base' v)
    (hleft : ∀ x, base x → ∃ w, f w = x) : g.Dangling base (f v) ↔ h.Dangling base' v := by
  rw [Dangling, Dangling, hbase]
  refine and_congr_right fun _ => ⟨?_, ?_⟩
  · intro hnone b hb
    have hfb := hnone (f b) (by rw [hbase]; exact hb)
    rwa [he.reaches_iff, he.reaches_iff] at hfb
  · -- a base node is one of those that are left
    intro hnone x hx
    obtain ⟨b, rfl⟩ := hleft x hx
    rw [he.reaches_iff, he.reaches_iff]
    exact hnone b (by rw [← hbase]; exact hx)

/-- An arc between nodes that are left is added to both graphs. -/
theorem insertArc (he : Embeds f h g) (ha : a < h.size) (hv : v < h.size) :
    Embeds f (h.insertArc a v) (g.insertArc (f a) (f v)) where
  strictMono := he.strictMono
  lt_size_iff w := by rw [size_insertArc, size_insertArc, he.lt_size_iff]
  arc_iff u w := by
    have hg := fans_insertArc ((he.lt_size_iff a).mpr ha) ((he.lt_size_iff v).mpr hv)
    rw [hg (f u) (f w), fans_insertArc ha hv u w, he.arc_iff, he.injective.eq_iff]
    exact or_congr_right (and_congr_right fun _ => he.injective.eq_iff)
  exists_source x y harc := by
    rcases (fans_insertArc ((he.lt_size_iff a).mpr ha) ((he.lt_size_iff v).mpr hv) x y).mp harc
      with hold | ⟨rfl, -⟩
    · exact he.exists_source x y hold
    · exact ⟨a, rfl⟩

/-- An arc to a node that is taken out changes nothing between those that are left. -/
theorem insertArc_out (he : Embeds f h g) (ha : a < h.size) (hx : x < g.size)
    (hout : ¬ ∃ w, f w = x) : Embeds f h (g.insertArc (f a) x) where
  strictMono := he.strictMono
  lt_size_iff w := by rw [size_insertArc, he.lt_size_iff]
  arc_iff u w := by
    rw [fans_insertArc ((he.lt_size_iff a).mpr ha) hx (f u) (f w), he.arc_iff]
    exact or_iff_left fun hnew => hout ⟨w, hnew.2⟩
  exists_source y z harc := by
    rcases (fans_insertArc ((he.lt_size_iff a).mpr ha) hx y z).mp harc with hold | ⟨rfl, -⟩
    · exact he.exists_source y z hold
    · exact ⟨a, rfl⟩

/-- At its turn a node that is left is put behind the anchor in both graphs or in neither. -/
theorem anchors_iff (he : Embeds f h g) (hbase : ∀ v, base (f v) = base' v)
    (hleft : ∀ x, base x → ∃ w, f w = x) (hv : v < h.size) :
    (g.dangles base (f v) && g.admits (f a) (f v)) = (h.dangles base' v && h.admits a v) := by
  refine congrArg₂ _ (Bool.eq_iff_iff.mpr ?_) (Bool.eq_iff_iff.mpr ?_)
  · rw [dangles_iff ((he.lt_size_iff v).mpr hv), dangles_iff hv, he.dangling_iff hbase hleft]
  · rw [admits_iff, admits_iff, he.lt_size_iff, he.lt_size_iff]
    exact and_congr_right fun _ => and_congr_right fun _ => not_congr (he.arc_iff a v)

theorem anchorAll (he : Embeds f h g) (hbase : ∀ v, base (f v) = base' v)
    (hleft : ∀ x, base x → ∃ w, f w = x) (ha : a < h.size) (hvs : ∀ v ∈ vs, v < g.size) :
    Embeds f (anchorAll base' a h (kept f vs)).1 (anchorAll base (f a) g vs).1 := by
  induction vs generalizing g h with
  | nil => exact he
  | cons x vs ih =>
    have hx : x < g.size := hvs x List.mem_cons_self
    have htail : ∀ y ∈ vs, y < g.size := fun y hy => hvs y (List.mem_cons_of_mem x hy)
    by_cases hexists : ∃ v, f v = x
    · obtain ⟨v, rfl⟩ := hexists
      have hv : v < h.size := (he.lt_size_iff v).mp hx
      rw [kept_cons_of_eq he.injective rfl]
      unfold Digraph.anchorAll
      rw [he.anchors_iff hbase hleft hv]
      split
      · refine ih (he.insertArc ha hv) ?_ ?_
        · rw [size_insertArc]
          exact ha
        · intro y hy
          rw [size_insertArc]
          exact htail y hy
      · exact ih he ha htail
    · -- a node that is taken out has its turn in the one graph only
      rw [kept_cons_of_ne he.injective hexists]
      rw [Digraph.anchorAll]
      split
      · refine ih (he.insertArc_out ha hx hexists) ha ?_
        intro y hy
        rw [size_insertArc]
        exact htail y hy
      · exact ih he ha htail

theorem anchorDangling (he : Embeds f h g) (hbase : ∀ v, base (f v) = base' v)
    (hleft : ∀ x, base x → ∃ w, f w = x) (ha : a < h.size) :
    Embeds f (h.anchorDangling base' a).1 (g.anchorDangling base (f a)).1 := by
  have hpass := he.anchorAll hbase hleft ha fun v hv => List.mem_range.mp hv
  rwa [he.kept_range] at hpass

/-! ### Topological order -/

/-- A node that is left can come next in `g` exactly if it can in `h`. -/
theorem isFreeAfter_iff (he : Embeds f h g) :
    g.IsFreeAfter vs (f v) ↔ h.IsFreeAfter (kept f vs) v := by
  rw [IsFreeAfter, IsFreeAfter, he.lt_size_iff, mem_kept_iff he.injective]
  refine and_congr_right fun _ => and_congr_right fun _ => ⟨?_, ?_⟩
  · intro hpreds u harc
    exact (mem_kept_iff he.injective).mpr (hpreds (f u) ((he.arc_iff u v).mpr harc))
  · -- its predecessors are nodes that are left
    intro hpreds x harc
    obtain ⟨u, rfl⟩ := he.exists_source x (f v) harc
    exact (mem_kept_iff he.injective).mp (hpreds u ((he.arc_iff u v).mp harc))

theorem isGreedy_kept (he : Embeds f h g) (horder : g.IsGreedy order) :
    h.IsGreedy (kept f order) := by
  intro front v back hsplit
  obtain ⟨done, rest, rfl, rfl⟩ := exists_split_of_kept he.injective hsplit
  obtain ⟨hfree, hleast⟩ := horder done (f v) rest rfl
  refine ⟨he.isFreeAfter_iff.mp hfree, ?_⟩
  -- what could come instead in `h` could come instead in `g`
  intro w hw
  exact he.strictMono.le_iff_le.mp (hleast (f w) (he.isFreeAfter_iff.mpr hw))

/-- The least order of `h` is that of `g` without the nodes that are taken out. -/
theorem topoSort_eq_some (he : Embeds f h g) (hsort : g.topoSort = some order) :
    h.topoSort = some (kept f order) := by
  obtain ⟨hperm, hgreedy⟩ := perm_and_isGreedy_of_topoSort hsort
  have hkept : (kept f order).Perm (List.range h.size) := by
    rw [← he.kept_range]
    exact hperm.filterMap _
  exact (he.isGreedy_kept hgreedy).topoSort_eq_some hkept

theorem topoSort_eq_none_iff (he : Embeds f h g) : g.topoSort = none ↔ h.topoSort = none := by
  rw [Digraph.topoSort_eq_none_iff, Digraph.topoSort_eq_none_iff]
  refine ⟨?_, ?_⟩
  · rintro ⟨x, hx⟩
    obtain ⟨v, rfl⟩ := he.exists_of_onCycle hx
    exact ⟨v, he.onCycle_iff.mp hx⟩
  · rintro ⟨v, hv⟩
    exact ⟨f v, he.onCycle_iff.mpr hv⟩

end Embeds

end LoadOrder.Digraph
