import LoadOrder.Graph
import LoadOrder.Proofs.Digraph.Check
import LoadOrder.Proofs.Slots

/-!
# The checks on an order, for any list

The checks are made for an order that sorting has found, but they can be asked about any list of
numbers: one that is too long or too short, that repeats a node or holds what is none.
`checksDecide` says what they decide then, on every graph. `isComplete` alone decides whether the
list is an order of all nodes. `respectsArcs` alone lets some lists pass that are none, as a node
that is missing counts as last and one that is repeated counts only where it stands last; together
with `isComplete` it decides whether the list is a topological order.

The checks keep tables with a slot for each node. `respectsArcs?` and `isComplete?` are the same
checks with reads and writes that fail outside of a table. They never fail, and they come out as the
checks do (`respectsArcs?_eq`, `isComplete?_eq`): whatever the list, the numbers in it that are no
nodes are found out before a slot is looked for, and the ends of an arc are nodes.
-/

namespace LoadOrder.Graph

variable {α : Type} {g : Graph α} {order : List Nat}

/-! ### Checks that can fail -/

/-- The check whether an order respects the arcs, which fails if it looks for a row, or for a
place, that is not there. -/
def respectsArcs? (g : Graph α) (order : List Nat) : Option Bool :=
  if order.all (· < g.size) then do
    let places ← order.zipIdx.foldlM (fun places (v, i) => writeAt? places v (some i))
      (Array.replicate g.size none)
    (List.range g.size).allM fun u => do
      let row ← g.links.succTable[u]?
      row.allM fun v => return Digraph.isBefore (← places[u]?) (← places[v]?)
  else some false

/-- Whether the slots of all of `vs` are still unmarked when their turn comes, each being marked
then. -/
def markAll? (seen : Array Bool) : List Nat → Option Bool
  | [] => some true
  | v :: vs =>
    if seen[v]? = some false then do
      let seen ← writeAt? seen v true
      markAll? seen vs
    else some false

/-- The check whether an order is complete, which fails if it marks a slot that is not there. -/
def isComplete? (g : Graph α) (order : List Nat) : Option Bool :=
  if order.length = g.size then markAll? (Array.replicate g.size false) order else some false

/-- What the checks decide about a list of numbers. -/
structure ChecksDecide (g : Graph α) (order : List Nat) : Prop where
  /-- A list is complete if it is an order of all nodes. -/
  isComplete_iff : g.links.isComplete order ↔ order.Perm (List.range g.size)
  /-- It passes both checks if it is such an order and each arc points to the right in it. -/
  both_iff : g.links.respectsArcs order ∧ g.links.isComplete order ↔
    order.Perm (List.range g.size) ∧
      ∀ u v, (u, v) ∈ g.links.arcs → order.idxOf u < order.idxOf v
  /-- No list passes both if a node has an arc to itself or is otherwise on a cycle. -/
  not_both_of_onCycle : ∀ v, g.links.OnCycle v →
    ¬ (g.links.respectsArcs order ∧ g.links.isComplete order)
  /-- The one check never looks outside of a table. -/
  respectsArcs?_eq : g.respectsArcs? order = some (g.links.respectsArcs order)
  /-- Neither does the other. -/
  isComplete?_eq : g.isComplete? order = some (g.links.isComplete order)

/-! ### Respecting the arcs -/

/-- A place is kept for each node, whatever the list. -/
theorem size_places (g : Digraph) (order : List Nat) : (g.places order).size = g.size := by
  have hfold : ∀ (entries : List (Nat × Nat)) (places : Array (Option Nat)),
      (entries.foldl (fun places (v, i) => places.setIfInBounds v (some i)) places).size =
        places.size := by
    intro entries
    induction entries with
    | nil => exact fun _ => rfl
    | cons e entries ih =>
      intro places
      rw [List.foldl_cons, ih, Array.size_setIfInBounds]
  unfold Digraph.places
  rw [hfold, Array.size_replicate]

/-- The check on the arcs never looks for what is not there, and so it has an answer. -/
theorem respectsArcs?_eq (g : Graph α) (order : List Nat) :
    g.respectsArcs? order = some (g.links.respectsArcs order) := by
  unfold respectsArcs? Digraph.respectsArcs
  rw [size_links_eq]
  cases hnodes : order.all (· < g.size) with
  | false => rfl
  | true =>
    have hwrite : order.zipIdx.foldlM (fun places (v, i) => writeAt? places v (some i))
        (Array.replicate g.size none) = some (g.links.places order) := by
      unfold Digraph.places
      rw [size_links_eq]
      refine foldlM_eq_some (fun places => places.size = g.size) Array.size_replicate ?_
      intro places hsize e he
      have hmem : e.1 ∈ order := List.fst_mem_of_mem_zipIdx he
      have hlt : e.1 < places.size := by simpa [hsize] using List.all_eq_true.mp hnodes e.1 hmem
      exact ⟨writeAt?_eq hlt _, Array.size_setIfInBounds.trans hsize⟩
    have hplace : ∀ v, v < g.links.size →
        (g.links.places order)[v]? = some ((g.links.places order)[v]?.getD none) := by
      intro v hv
      rw [← size_places g.links order] at hv
      rw [Array.getElem?_eq_getElem hv, Option.getD_some]
    rw [if_pos rfl, hwrite, Bool.true_and, Digraph.arcs, List.all_flatMap]
    show (List.range g.size).allM _ = _
    rw [← size_links_eq]
    refine allM_eq_some fun u hu => ?_
    have hu : u < g.links.size := List.mem_range.mp hu
    rw [Digraph.getElem?_succTable hu, List.all_map]
    refine allM_eq_some fun v hv => ?_
    -- the ends of an arc are nodes, and each node has a place
    rw [hplace u hu, hplace v (Digraph.target_lt hv)]
    rfl

/-! ### Holding every node once -/

/-- All slots can be marked one after the other exactly if none is there twice and none is marked
before. -/
theorem markAll?_eq (seen : Array Bool) (vs : List Nat) :
    markAll? seen vs = some (decide (vs.Nodup ∧ ∀ v ∈ vs, seen[v]? = some false)) := by
  induction vs generalizing seen with
  | nil => rfl
  | cons v vs ih =>
    unfold markAll?
    split
    · next hfree =>
      obtain ⟨hv, -⟩ := Array.getElem?_eq_some_iff.mp hfree
      rw [writeAt?_eq hv]
      show markAll? (seen.setIfInBounds v true) vs = _
      rw [ih]
      refine congrArg some (decide_eq_decide.mpr ?_)
      -- what is unmarked but for `v` is what is unmarked and is not `v`
      have hmark : ∀ w, (seen.setIfInBounds v true)[w]? = some false ↔
          seen[w]? = some false ∧ w ≠ v := by
        intro w
        rw [Array.getElem?_setIfInBounds]
        by_cases hw : v = w
        · subst hw
          simp [hv]
        · simp [hw, Ne.symm hw]
      simp only [hmark, List.nodup_cons, List.forall_mem_cons]
      refine ⟨?_, ?_⟩
      · intro ⟨hnodup, hall⟩
        exact ⟨⟨fun hmem => (hall v hmem).2 rfl, hnodup⟩, hfree, fun w hw => (hall w hw).1⟩
      · intro ⟨⟨hmem, hnodup⟩, _, hall⟩
        exact ⟨hnodup, fun w hw => ⟨hall w hw, fun heq => hmem (heq ▸ hw)⟩⟩
    · next htaken =>
      rw [decide_eq_false]
      exact fun h => htaken (h.2 v List.mem_cons_self)

theorem isComplete_iff : g.links.isComplete order ↔ order.Perm (List.range g.size) := by
  rw [← size_links_eq]
  exact Digraph.isComplete_iff

/-- The check for completeness marks only what is there, and so it has an answer. -/
theorem isComplete?_eq (g : Graph α) (order : List Nat) :
    g.isComplete? order = some (g.links.isComplete order) := by
  unfold isComplete?
  split
  · next hlength =>
    rw [markAll?_eq]
    refine congrArg some ?_
    have hslot : ∀ v, (Array.replicate g.size false)[v]? = some false ↔ v < g.size := by
      intro v
      simp [Array.getElem?_replicate]
    rw [Bool.eq_iff_iff, decide_eq_true_eq, isComplete_iff, Digraph.perm_range_iff]
    simp only [hslot]
    exact (and_iff_right hlength).symm
  · next hlength =>
    have hincomplete : ¬ g.links.isComplete order := by
      rw [isComplete_iff]
      exact fun hperm => hlength (Digraph.perm_range_iff.mp hperm).1
    rw [Bool.eq_false_iff.mpr hincomplete]

/-! ### Both -/

/-- Whatever list the checks are asked about, together they say whether it is a topological order of
all nodes, and neither fails. -/
theorem checksDecide (g : Graph α) (order : List Nat) : g.ChecksDecide order where
  isComplete_iff := isComplete_iff
  both_iff := by
    rw [isComplete_iff]
    refine and_comm.trans (and_congr_right fun hperm => ?_)
    have hlinks : order.Perm (List.range g.links.size) := by rwa [size_links_eq]
    rw [Digraph.respectsArcs_iff hlinks]
    refine forall₂_congr fun u v => ?_
    rw [Digraph.mem_arcs]
    refine forall_congr' fun harc => ?_
    have hmem : v ∈ order := hlinks.mem_iff.mpr (List.mem_range.mpr (Digraph.target_lt harc))
    exact precedes_iff_idxOf_lt (hlinks.nodup_iff.mpr List.nodup_range) hmem
  not_both_of_onCycle v hv hboth :=
    (Digraph.isTopological_iff_checks.mpr hboth).acyclic v hv
  respectsArcs?_eq := respectsArcs?_eq g order
  isComplete?_eq := isComplete?_eq g order

end LoadOrder.Graph
