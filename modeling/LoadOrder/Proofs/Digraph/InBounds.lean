import LoadOrder.Digraph.Anchor
import LoadOrder.Proofs.Digraph.Countdown
import LoadOrder.Proofs.Digraph.Cycle
import LoadOrder.Proofs.Digraph.ScanLoop
import LoadOrder.Proofs.Digraph.Traversal
import LoadOrder.Proofs.Slots

/-!
# Searches stay inside their tables

A sort looks for dangling nodes, for a topological order and for cycles. All three searches keep a
table with a slot for each node and read the rows of the graph. Here they are once more, with reads
and writes that fail outside of a table: `offers?` and `anchorDangling?`, `topoSort?`, which fails
as well if there are nodes left to emit after as many emissions as there are nodes, and `cycles?`,
whose scan is `components?`.

None of them ever fails, and each comes to what the search of the same name does that cannot
(`offers?_eq`, `anchorDangling?_eq`, `topoSort?_eq`, `cycles?_eq`): a search from a node meets only
nodes, the counts belong to nodes, and a cycle has a first member.
-/

namespace LoadOrder.Digraph

variable {g : Digraph} {v : Nat} {accept : Nat → Bool}

/-! ### Traversals -/

/-- For each node the neighbours along a way. -/
def table (g : Digraph) : Way → Array (List Nat)
  | .forward => g.succTable
  | .backward => g.predTable

/-- Those of the nodes `vs` that have not been met. -/
def unmet? (met : Array Bool) (vs : List Nat) : Option (List Nat) :=
  filter? (fun w => return !(← met[w]?)) vs

/-- The nodes offered from a stack, with a table of the nodes that have been met. -/
def offersFrom? (rows : Array (List Nat)) (accept : Nat → Bool) (met : Array Bool) :
    List Nat → Option (List Nat)
  | [] => some []
  | v :: stack =>
    match _hv : met[v]? with
    | none => none
    | some true => offersFrom? rows accept met stack
    | some false =>
      match _hmet : writeAt? met v true with
      | none => none
      | some met =>
        if accept v then some [v]
        else do
          let row ← rows[v]?
          return v :: (← offersFrom? rows accept met ((← unmet? met row) ++ stack))
termination_by stack => (met.count false, stack.length)
decreasing_by
  -- an entry leaves the stack, or another node has been met
  · exact Prod.Lex.right _ (by simp)
  · exact Prod.Lex.left _ _ (count_writeAt?_lt _hmet _hv (by decide))

/-- The nodes offered by a traversal from `start`. -/
def offers? (g : Digraph) (way : Way) (accept : Nat → Bool) (start : Nat) : Option (List Nat) :=
  if start < g.size then offersFrom? (g.table way) accept (Array.replicate g.size false) [start]
  else some []

/-- Whether a traversal from `start` finds an accepted node. -/
def finds? (g : Digraph) (way : Way) (accept : Nat → Bool) (start : Nat) : Option Bool :=
  return (← g.offers? way accept start).any accept

theorem getElem?_table {way : Way} (hv : v < g.size) :
    (g.table way)[v]? = some (g.neighbours way v) := by
  cases way with
  | forward => exact getElem?_succTable hv
  | backward => exact getElem?_predTable hv

theorem getElem?_marks {n : Nat} {seen : NodeSet n} (hv : v < n) :
    seen.marks.toArray[v]? = some (seen.contains v) := by
  simp [NodeSet.contains, hv]

theorem writeAt?_marks {n : Nat} {seen : NodeSet n} (hv : v < n) :
    writeAt? seen.marks.toArray v true = some (seen.insert v).marks.toArray := by
  simp [writeAt?, NodeSet.insert, hv]

theorem unmet?_marks {n : Nat} {seen : NodeSet n} {vs : List Nat} (hvs : ∀ v ∈ vs, v < n) :
    unmet? seen.marks.toArray vs = some (vs.filter seen.isFree) := by
  refine filter?_eq_some fun v hv => ?_
  rw [getElem?_marks (hvs v hv), NodeSet.isFree_eq, decide_eq_true (hvs v hv), Bool.true_and]
  rfl

section OffersFrom

variable {rows : Array (List Nat)} {met met' : Array Bool} {stack : List Nat}

theorem offersFrom?_of_met (hv : met[v]? = some true) :
    offersFrom? rows accept met (v :: stack) = offersFrom? rows accept met stack := by
  rw [offersFrom?]
  split
  · next hnone => cases hv.symm.trans hnone
  · rfl
  · next hfree => cases hv.symm.trans hfree

theorem offersFrom?_of_free (hv : met[v]? = some false) (hmet : writeAt? met v true = some met') :
    offersFrom? rows accept met (v :: stack) =
      if accept v then some [v]
      else do
        let row ← rows[v]?
        return v :: (← offersFrom? rows accept met' ((← unmet? met' row) ++ stack)) := by
  rw [offersFrom?]
  split
  · next hnone => cases hv.symm.trans hnone
  · next hold => cases hv.symm.trans hold
  · split
    · next hnone => cases hmet.symm.trans hnone
    · next other hother =>
      obtain rfl : met' = other := Option.some.inj (hmet.symm.trans hother)
      rfl

end OffersFrom

/-- A traversal whose stack holds nodes meets nothing else. -/
theorem offersFrom?_eq {way : Way} (seen : NodeSet g.size) {stack : List Nat}
    (hstack : ∀ v ∈ stack, v < g.size) :
    offersFrom? (g.table way) accept seen.marks.toArray stack =
      some (offersFrom (g.neighbours way) accept seen stack) := by
  fun_induction offersFrom (g.neighbours way) accept seen stack with
  | case1 seen => rw [offersFrom?]
  | case2 seen v stack hfree ih =>
    have hv : v < g.size := hstack v List.mem_cons_self
    have hnew : seen.contains v = false := by simpa [hv] using hfree
    have hrow : ∀ w ∈ g.neighbours way v, w < g.size := fun w hw => lt_of_mem_neighbours hw
    -- what goes on the stack are neighbours, and these are nodes
    have hrest : ∀ w ∈ (g.neighbours way v).filter (seen.insert v).isFree ++ stack,
        w < g.size := by
      intro w hw
      rcases List.mem_append.mp hw with hw | hw
      · exact hrow w (List.mem_filter.mp hw).1
      · exact hstack w (List.mem_cons_of_mem v hw)
    rw [offersFrom?_of_free ((getElem?_marks hv).trans (congrArg some hnew)) (writeAt?_marks hv)]
    split
    · rfl
    · simp only [getElem?_table hv, unmet?_marks hrow, Option.bind_eq_bind, Option.bind_some,
        ih hrest]
      rfl
  | case3 seen v stack hfree ih =>
    have hv : v < g.size := hstack v List.mem_cons_self
    have hold : seen.contains v = true := by simpa [hv] using hfree
    rw [offersFrom?_of_met ((getElem?_marks hv).trans (congrArg some hold))]
    exact ih fun w hw => hstack w (List.mem_cons_of_mem v hw)

theorem offers?_eq (g : Digraph) (way : Way) (accept : Nat → Bool) (start : Nat) :
    g.offers? way accept start = some (g.offers way accept start) := by
  unfold offers? offers
  split
  · next hstart =>
    refine offersFrom?_eq (NodeSet.empty g.size) fun v hv => ?_
    rwa [List.mem_singleton.mp hv]
  · next hstart =>
    -- what is no node is passed over
    rw [offersFrom, dif_neg (by simpa using hstart), offersFrom]

theorem finds?_eq (g : Digraph) (way : Way) (accept : Nat → Bool) (start : Nat) :
    g.finds? way accept start = some (g.finds way accept start) := by
  unfold finds?
  rw [offers?_eq]
  rfl

/-! ### Anchoring -/

/-- Whether `v` dangles. -/
def dangles? (g : Digraph) (base : Nat → Bool) (v : Nat) : Option Bool := do
  if base v then return false
  if ← g.finds? .forward base v then return false
  return !(← g.finds? .backward base v)

/-- Anchors those of the listed nodes that dangle at their turn. -/
def anchorAll? (base : Nat → Bool) (anchor : Nat) :
    Digraph → List Nat → Option (Digraph × List Nat)
  | g, [] => some (g, [])
  | g, v :: vs => do
    if (← g.dangles? base v) && g.admits anchor v then
      let (h, anchored) ← anchorAll? base anchor (g.insertArc anchor v) vs
      return (h, v :: anchored)
    else anchorAll? base anchor g vs

/-- Puts every dangling node behind `anchor`. -/
def anchorDangling? (g : Digraph) (base : Nat → Bool) (anchor : Nat) :
    Option (Digraph × List Nat) :=
  anchorAll? base anchor g (List.range g.size)

/-- Whether no node dangles. -/
def isAnchored? (g : Digraph) (base : Nat → Bool) : Option Bool :=
  (List.range g.size).allM fun v => return !(← g.dangles? base v)

theorem dangles?_eq (g : Digraph) (base : Nat → Bool) (v : Nat) :
    g.dangles? base v = some (g.dangles base v) := by
  unfold dangles? dangles
  rw [finds?_eq, finds?_eq]
  cases base v with
  | true => rfl
  | false =>
    -- the way back is looked along only if the way forward finds nothing
    cases g.finds .forward base v with
    | true => rfl
    | false => rfl

theorem anchorAll?_eq (base : Nat → Bool) (anchor : Nat) (g : Digraph) (vs : List Nat) :
    anchorAll? base anchor g vs = some (anchorAll base anchor g vs) := by
  induction vs generalizing g with
  | nil => rfl
  | cons v vs ih =>
    rw [anchorAll?, anchorAll, dangles?_eq]
    simp only [Option.bind_eq_bind, Option.bind_some, ih]
    split
    · rfl
    · rfl

theorem anchorDangling?_eq (g : Digraph) (base : Nat → Bool) (anchor : Nat) :
    g.anchorDangling? base anchor = some (g.anchorDangling base anchor) :=
  anchorAll?_eq base anchor g (List.range g.size)

theorem isAnchored?_eq (g : Digraph) (base : Nat → Bool) :
    g.isAnchored? base = some (g.isAnchored base) := by
  refine allM_eq_some fun v _ => ?_
  rw [dangles?_eq]
  rfl

/-! ### Topological order -/

namespace Countdown

variable {c : Countdown}

/-- The run before the first emission. -/
def start? (g : Digraph) : Option Countdown := do
  let degrees ← (List.range g.size).mapM fun v => return (← g.predTable[v]?).length
  return {
    waiting := degrees.toArray
    ready := (List.range degrees.length).filter fun v => degrees[v]? == some 0
    emitted := [] }

/-- Takes one predecessor off the count of `v`. -/
def release? (c : Countdown) (v : Nat) : Option Countdown := do
  let left := (← c.waiting[v]?) - 1
  let waiting ← writeAt? c.waiting v left
  return { c with waiting, ready := if left = 0 then insertAscending v c.ready else c.ready }

/-- Emits nodes until none is ready, if there are no more than `k` emissions to make. -/
def run? (g : Digraph) : Nat → Countdown → Option Countdown
  | 0, c => if c.ready.isEmpty then some c else none
  | k + 1, c =>
    match c.ready with
    | [] => some c
    | v :: ready => do
      let row ← g.succTable[v]?
      run? g k (← row.foldlM release? { c with ready, emitted := v :: c.emitted })

theorem start?_eq (g : Digraph) : start? g = some (start g) := by
  have hdegrees : ((List.range g.size).mapM fun v => return (← g.predTable[v]?).length) =
      some ((List.range g.size).map fun v => (g.preds v).length) := by
    refine mapM_eq_some fun v hv => ?_
    rw [getElem?_predTable (List.mem_range.mp hv)]
    rfl
  have hready : ∀ v ∈ List.range g.size,
      (((List.range g.size).map fun v => (g.preds v).length)[v]? == some 0) =
        (g.preds v).isEmpty := by
    intro v hv
    have hlt : v < g.size := List.mem_range.mp hv
    cases hpreds : g.preds v with
    | nil => simp [hlt, hpreds]
    | cons u us => simp [hlt, hpreds]
  have hwaiting : ((List.range g.size).map fun v => (g.preds v).length).toArray =
      (Array.range g.size).map fun v => (g.preds v).length := by
    rw [← List.map_toArray, List.toArray_range]
  unfold start? start
  rw [hdegrees, Option.bind_eq_bind, Option.bind_some, List.length_map, List.length_range,
    List.filter_congr hready, hwaiting]
  rfl

theorem release?_eq (hv : v < c.waiting.size) : c.release? v = some (c.release v) := by
  unfold release? release waitingFor
  rw [Array.getElem?_eq_getElem hv]
  show (writeAt? c.waiting v (c.waiting[v] - 1)).bind _ = _
  rw [writeAt?_eq hv]
  rfl

theorem size_waiting_release : (c.release v).waiting.size = c.waiting.size :=
  Array.size_setIfInBounds

/-- The successors of a node are nodes, so there is a count for each of them. -/
theorem foldlM_release?_eq (hc : c.waiting.size = g.size) (v : Nat) :
    (g.succs v).foldlM release? c = some ((g.succs v).foldl release c) := by
  refine foldlM_eq_some (fun c => c.waiting.size = g.size) hc fun c hc w hw => ?_
  exact ⟨release?_eq (hc ▸ target_lt hw), size_waiting_release.trans hc⟩

/-- A run that leaves no node ready is the run until none is. -/
theorem run?_eq (hc : Passes g [] c) (k : Nat) (hend : (run g k c).ready = []) :
    run? g k c = some (run g k c) := by
  induction k generalizing c with
  | zero =>
    have hready : c.ready = [] := hend
    rw [run?, hready]
    rfl
  | succ k ih =>
    unfold run at hend ⊢
    cases hstep : c.step g with
    | none => simp only [run?, step_eq_none_iff.mp hstep]
    | some d =>
      rw [hstep] at hend
      -- what is emitted is a node, and a count is kept for each of its successors
      have hrest := ih (hc.step hstep) hend
      obtain ⟨v, ready, hready, rfl⟩ := step_eq_some hstep
      have hv : v < g.size := ((hc.tracks.mem_ready_iff v).mp (hready ▸ List.mem_cons_self)).1
      have hrelease := foldlM_release?_eq
        (c := { c with ready, emitted := v :: c.emitted }) hc.tracks.size_waiting v
      simp only [run?, hready, getElem?_succTable hv, Option.bind_eq_bind, Option.bind_some,
        hrelease]
      exact hrest

end Countdown

/-- The nodes in topological order, if there is one. -/
def topoSort? (g : Digraph) : Option (Option (List Nat)) := do
  let c ← Countdown.run? g g.size (← Countdown.start? g)
  return if c.emitted.length < g.size then none else some c.emitted.reverse

theorem topoSort?_eq (g : Digraph) : g.topoSort? = some g.topoSort := by
  have hrun : Countdown.run? g g.size (Countdown.start g) = some (Countdown.final g) :=
    Countdown.run?_eq Countdown.Passes.start g.size (Countdown.ready_final g)
  unfold topoSort?
  rw [Countdown.start?_eq, Option.bind_eq_bind, Option.bind_some, hrun]
  rfl

/-! ### Cycles -/

/-- Whether a component is cyclic. -/
def isCyclic? (g : Digraph) : List Nat → Option Bool
  | [] => some false
  | [v] => return (← g.succTable[v]?).contains v
  | _ => some true

/-- The lists in the order of their first entries, if each has one. -/
def byFirst? (lists : List (List Nat)) : Option (List (List Nat)) := do
  let keyed ← lists.mapM fun list => return (← list[0]?, list)
  return (keyed.mergeSort fun a b => a.1 ≤ b.1).map Prod.snd

/-- The cyclic components, each in ascending order, by their lowest nodes. -/
def cycles? (g : Digraph) : Option (List (List Nat)) := do
  let cyclic ← filter? g.isCyclic? (← g.components?)
  byFirst? (cyclic.map fun c => c.mergeSort fun a b => a ≤ b)

theorem isCyclic?_eq {c : List Nat} (hc : ∀ v ∈ c, v < g.size) :
    g.isCyclic? c = some (g.isCyclic c) := by
  match c with
  | [] => rfl
  | [v] =>
    rw [isCyclic?, getElem?_succTable (hc v List.mem_cons_self)]
    rfl
  | _ :: _ :: _ => rfl

theorem byFirst?_eq {lists : List (List Nat)} (hlists : ∀ list ∈ lists, list ≠ []) :
    byFirst? lists = some (lists.mergeSort fun a b => a.headD 0 ≤ b.headD 0) := by
  have hkeyed : (lists.mapM fun list => return (← list[0]?, list)) =
      some (lists.map fun list => (list.headD 0, list)) := by
    refine mapM_eq_some fun list hlist => ?_
    cases list with
    | nil => exact absurd rfl (hlists [] hlist)
    | cons v list => rfl
  unfold byFirst?
  rw [hkeyed]
  refine congrArg some ?_
  -- each list stands beside its own first entry
  have hfst : ∀ a ∈ lists.map fun list => (list.headD 0, list), a.1 = a.2.headD 0 := by
    intro a ha
    obtain ⟨list, -, rfl⟩ := List.mem_map.mp ha
    rfl
  rw [List.map_mergeSort (s := fun a b => decide (a.headD 0 ≤ b.headD 0)), List.map_map]
  · rw [show Prod.snd ∘ (fun list : List Nat => (list.headD 0, list)) = id from rfl, List.map_id]
  · intro a ha b hb
    rw [hfst a ha, hfst b hb]

theorem cycles?_eq (g : Digraph) : g.cycles? = some g.cycles := by
  have hcyclic : filter? g.isCyclic? g.components = some (g.components.filter g.isCyclic) :=
    filter?_eq_some fun c hc => isCyclic?_eq (isComponent_of_mem hc).lt_size
  unfold cycles? cycles
  rw [components?_eq, Option.bind_eq_bind, Option.bind_some, hcyclic]
  refine byFirst?_eq fun c hc => ?_
  -- sorting a component leaves it with its members
  obtain ⟨d, hd, rfl⟩ := List.mem_map.mp hc
  have hmem : d ∈ g.components := (List.mem_filter.mp hd).1
  exact ((isComponent_of_mem hmem).perm (List.mergeSort_perm d _)).ne_nil

end LoadOrder.Digraph
