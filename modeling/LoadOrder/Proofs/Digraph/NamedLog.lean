import LoadOrder.Proofs.Digraph.ArcLog
import Mathlib.Data.List.Nodup

/-!
# Logs of named edges

The nodes of a graph are numbers, and edges are spoken of by names: a list of names gives the first
name to the node `0`, the second to the node `1`, and so on. `g.LogsBy names log` says that `log`,
read by these numbers, is the log of the arcs of `g`.

An edge joins such a log at its end if it is not there yet, be it a single one (`LogsBy.insertArc`)
or one to an anchored node (`LogsBy.anchorAll`), and names that are given later change nothing
(`LogsBy.extend`). What a graph answers in numbers is read off the log in names: whether there is an
arc (`LogsBy.mem_iff`), the list of all (`LogsBy.arcs_eq`) and the successors of a node
(`LogsBy.succs_idxOf`).
-/

namespace LoadOrder

/-! ### Lists without repeats -/

section Repeats

variable {β : Type} [BEq β] [LawfulBEq β] {xs ys : List β}

theorem eraseDups_of_nodup (hxs : xs.Nodup) : xs.eraseDups = xs := by
  induction xs with
  | nil => rfl
  | cons x xs ih =>
    obtain ⟨hx, hxs⟩ := List.nodup_cons.mp hxs
    rw [List.eraseDups_cons, List.filter_eq_self.mpr, ih hxs]
    intro y hy
    have hne : y ≠ x := fun heq => hx (heq ▸ hy)
    simpa using hne

/-- New things without repeats are kept as they are. -/
theorem eraseDups_append_of_nodup (hnew : (xs.eraseDups ++ ys).Nodup) :
    (xs ++ ys).eraseDups = xs.eraseDups ++ ys := by
  obtain ⟨-, hys, hdisjoint⟩ := List.nodup_append.mp hnew
  have hremove : ys.removeAll xs = ys := by
    refine List.filter_eq_self.mpr fun y hy => ?_
    have hy' : y ∉ xs := fun hx => hdisjoint y (List.mem_eraseDups.mpr hx) y hy rfl
    simpa using hy'
  rw [List.eraseDups_append, hremove, eraseDups_of_nodup hys]

/-- One more thing is the last, unless it is there already. -/
theorem eraseDups_concat (xs : List β) (x : β) :
    (xs ++ [x]).eraseDups =
      if x ∈ xs.eraseDups then xs.eraseDups else xs.eraseDups ++ [x] := by
  rw [List.eraseDups_append]
  by_cases hx : x ∈ xs
  · simp [List.removeAll, hx]
  · simp [List.removeAll, hx, eraseDups_of_nodup (List.nodup_singleton x)]

end Repeats

namespace Digraph

variable {α : Type} [DecidableEq α] {g h : Digraph} {names more : List α} {log : List (α × α)}
  {a b : α} {u v : Nat}

/-- The numbers of the ends of an edge. -/
def ends (names : List α) (e : α × α) : Nat × Nat :=
  (names.idxOf e.1, names.idxOf e.2)

/-- The arcs of `g` are the edges of `log`, which are spoken of by `names` and were added one after
the other. -/
structure LogsBy (g : Digraph) (names : List α) (log : List (α × α)) : Prop where
  /-- The ends of the edges have names. -/
  mem_names : ∀ e ∈ log, e.1 ∈ names ∧ e.2 ∈ names
  /-- Read by numbers the edges are the arcs, in the order in which these were added. -/
  hasLog : g.HasLog (log.map (ends names))

/-- Two numbers of nodes are those of two names. -/
theorem exists_ends_eq (hnames : names.Nodup) (hu : u < names.length) (hv : v < names.length) :
    ∃ e : α × α, (do return (← names[u]?, ← names[v]?)) = some e ∧
      (e.1 ∈ names ∧ e.2 ∈ names) ∧ ends names e = (u, v) := by
  refine ⟨(names[u], names[v]), ?_, ⟨List.getElem_mem hu, List.getElem_mem hv⟩, ?_⟩
  · rw [List.getElem?_eq_getElem hu, List.getElem?_eq_getElem hv]
    rfl
  · rw [ends, hnames.idxOf_getElem u hu, hnames.idxOf_getElem v hv]

namespace LogsBy

variable (hg : g.LogsBy names log)

include hg

theorem nodup : log.Nodup :=
  List.Nodup.of_map _ hg.hasLog.nodup

/-- The edges of the log are told from one another by the numbers of their ends. -/
theorem mem_iff (ha : a ∈ names) (hb : b ∈ names) :
    (a, b) ∈ log ↔ names.idxOf b ∈ g.succs (names.idxOf a) := by
  refine Iff.trans ?_ hg.hasLog.mem_iff
  rw [List.mem_map]
  refine ⟨fun hmem => ⟨(a, b), hmem, rfl⟩, ?_⟩
  intro ⟨⟨x, y⟩, hmem, heq⟩
  obtain ⟨hx, hy⟩ := Prod.mk.inj heq
  obtain ⟨hxname, hyname⟩ := hg.mem_names _ hmem
  obtain rfl : x = a := (List.idxOf_inj hxname).mp hx
  obtain rfl : y = b := (List.idxOf_inj hyname).mp hy
  exact hmem

/-! ### Growing -/

/-- Names that are given later do not change the numbers of the others. -/
theorem extend (hstarts : names <+: more) (hlog : h.HasLog (log.map (ends names))) :
    h.LogsBy more log := by
  refine ⟨fun e he => ?_, ?_⟩
  · obtain ⟨hfrom, hto⟩ := hg.mem_names e he
    exact ⟨hstarts.subset hfrom, hstarts.subset hto⟩
  · have hends : log.map (ends more) = log.map (ends names) := by
      obtain ⟨later, rfl⟩ := hstarts
      refine List.map_congr_left fun e he => ?_
      obtain ⟨hfrom, hto⟩ := hg.mem_names e he
      rw [ends, ends, List.idxOf_append_of_mem hfrom, List.idxOf_append_of_mem hto]
    rwa [hends]

/-- An edge that is inserted is the last, unless it is there already. -/
theorem insertArc (ha : a ∈ names) (hb : b ∈ names)
    (hlt : names.idxOf a < g.size ∧ names.idxOf b < g.size) :
    (g.insertArc (names.idxOf a) (names.idxOf b)).LogsBy names
      (if (a, b) ∈ log then log else log ++ [(a, b)]) := by
  have hmem := hg.mem_iff ha hb
  split
  · next hold =>
    have hthere : ¬ g.admits (names.idxOf a) (names.idxOf b) :=
      fun hadmits => (admits_iff.mp hadmits).2.2 (hmem.mp hold)
    rw [insertArc_of_not_admits hthere]
    exact hg
  · next hnew =>
    have hadmits : g.admits (names.idxOf a) (names.idxOf b) :=
      admits_iff.mpr ⟨hlt.1, hlt.2, mt hmem.mpr hnew⟩
    refine ⟨?_, ?_⟩
    · intro e he
      rcases List.mem_append.mp he with he | he
      · exact hg.mem_names e he
      · rw [List.mem_singleton.mp he]
        exact ⟨ha, hb⟩
    · rw [List.map_append]
      exact hg.hasLog.insertArc hadmits

/-- The edges to anchored nodes are the last, and none of them was there before. -/
theorem anchorAll (hnames : names.Nodup) (hsize : g.size = names.length) (base : Nat → Bool)
    (anchor : Nat) (vs : List Nat) :
    (anchorAll base anchor g vs).1.LogsBy names
      (log ++ (anchorAll base anchor g vs).2.filterMap fun v =>
        return (← names[anchor]?, ← names[v]?)) := by
  have hlog := hg.hasLog.anchorAll base anchor vs
  let nodes := (Digraph.anchorAll base anchor g vs).2
  -- an anchored node and the anchor are the ends of an arc, and so they have names
  have hedge : ∀ v ∈ nodes, ∃ e : α × α, (do return (← names[anchor]?, ← names[v]?)) = some e ∧
      (e.1 ∈ names ∧ e.2 ∈ names) ∧ ends names e = (anchor, v) := by
    intro v hv
    have harc := hlog.mem_iff.mp (List.mem_append_right _ (List.mem_map_of_mem hv))
    have hlt : anchor < g.size ∧ v < g.size := by
      simpa using And.intro (source_lt harc) (target_lt harc)
    exact exists_ends_eq hnames (hsize ▸ hlt.1) (hsize ▸ hlt.2)
  refine ⟨?_, ?_⟩
  · intro e he
    rcases List.mem_append.mp he with he | he
    · exact hg.mem_names e he
    · obtain ⟨v, hv, hve⟩ := List.mem_filterMap.mp he
      obtain ⟨e', he', hmem, -⟩ := hedge v hv
      obtain rfl : e' = e := Option.some.inj (he'.symm.trans hve)
      exact hmem
  · rw [List.map_append, List.map_filterMap]
    have hends : (nodes.filterMap fun v =>
        (do return (← names[anchor]?, ← names[v]?) : Option (α × α)).map (ends names)) =
          nodes.map fun v => (anchor, v) := by
      rw [List.filterMap_eq_map_iff_forall_eq_some]
      intro v hv
      obtain ⟨e, he, -, hends⟩ := hedge v hv
      rw [he, Option.map_some, hends]
    rw [hends]
    exact hlog

/-! ### Reading -/

/-- All arcs are the edges sorted by the numbers of their sources, read by numbers. -/
theorem arcs_eq : g.arcs =
    (log.mergeSort fun e f => names.idxOf e.1 ≤ names.idxOf f.1).map (ends names) := by
  rw [hg.hasLog.arcs_eq, List.map_mergeSort (s := fun e f => e.1 ≤ f.1)]
  intro e _ f _
  rfl

theorem succs_idxOf (a : α) : g.succs (names.idxOf a) =
    (log.filter fun e => e.1 = a).map fun e => names.idxOf e.2 := by
  rw [hg.hasLog.succs_eq, List.filter_map, List.map_map]
  refine congrArg _ (List.filter_congr fun e he => ?_)
  rw [Bool.eq_iff_iff, decide_eq_true_iff]
  exact beq_iff_eq.trans (List.idxOf_inj (hg.mem_names e he).1)

end LogsBy

end Digraph

end LoadOrder
