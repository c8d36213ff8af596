import LoadOrder.Proofs.Digraph.Discovery
import LoadOrder.Proofs.Digraph.Traversal

/-!
# Traversal is recursive search

A traversal keeps a stack of nodes still to be visited. Some are on it more than once, and some have
been met by the time they come to the top. Nevertheless it meets the nodes in the order in which
recursive depth-first search discovers them: having met `met`, it goes through its stack as the
search goes through a list of nodes to visit (`discovers_offersFrom`). Where the traversal puts the
neighbours of a node on top of the stack, the search first visits them and then what was below them
(`Discovers.split`). Neighbours that have been met by then are not put there, but the search would
have passed over them (`Discovers.of_filter`).

A traversal that accepts nothing offers all nodes of that order, and one that accepts some offers
them up to the first of these (`offersFrom_eq_upTo`). Along the backward way the search is made in
the graph with every arc turned round (`along`). `offers_exact` puts this together.
-/

namespace LoadOrder.Digraph

/-! ### Graphs along a way -/

/-- The graph with every arc turned round. -/
def transpose (g : Digraph) : Digraph where
  succTable := g.predTable
  predTable := g.succTable
  arcCount := g.arcCount
  size_predTable := g.size_predTable.symm
  mem_succTable_iff u v := (g.mem_succTable_iff v u).symm
  nodup_succTable := g.nodup_predTable
  nodup_predTable := g.nodup_succTable

/-- The graph whose arcs are followed by a traversal of `g` along a way. -/
def along (g : Digraph) : Way → Digraph
  | .forward => g
  | .backward => g.transpose

@[simp] theorem size_along (g : Digraph) (way : Way) : (g.along way).size = g.size := by
  cases way with
  | forward => rfl
  | backward => exact g.size_predTable

theorem succs_along (g : Digraph) (way : Way) : (g.along way).succs = g.neighbours way := by
  cases way <;> rfl

/-! ### Lists up to a first accepted node -/

/-- The nodes of a list up to the first that is accepted, and this one too. -/
def upTo (accept : Nat → Bool) : List Nat → List Nat
  | [] => []
  | v :: vs => v :: if accept v then [] else upTo accept vs

theorem upTo_isPrefix (accept : Nat → Bool) (vs : List Nat) : upTo accept vs <+: vs := by
  induction vs with
  | nil => exact List.prefix_rfl
  | cons v vs ih =>
    rw [upTo, List.prefix_cons_inj]
    split
    · exact List.nil_prefix
    · exact ih

section OffersFrom

variable {n : Nat} {next : Nat → List Nat} {accept : Nat → Bool}

/-- What is accepted ends a traversal and changes nothing before. -/
theorem offersFrom_eq_upTo (seen : NodeSet n) (stack : List Nat) :
    offersFrom next accept seen stack =
      upTo accept (offersFrom next (fun _ => false) seen stack) := by
  fun_induction offersFrom next accept seen stack with
  | case1 seen => rw [offersFrom, upTo]
  | case2 seen v stack hv ih =>
    rw [offersFrom, dif_pos hv, upTo]
    simp only [Bool.false_eq_true, if_false, ih]
  | case3 seen v stack hv ih =>
    rw [ih]
    conv_rhs => rw [offersFrom, dif_neg hv]

end OffersFrom

/-! ### The stack and the search -/

section Discovers

variable {g : Digraph} {met later stack vs ws : List Nat}

/-- A search through two lists is a search through the first and then one through the second. -/
theorem Discovers.split (hsearch : g.Discovers met (vs ++ ws) later) :
    ∃ order, g.Discovers met vs order ∧ g.Discovers order ws later := by
  generalize hlist : vs ++ ws = list at hsearch
  induction hsearch generalizing vs with
  | nil met =>
    obtain ⟨rfl, rfl⟩ := List.append_eq_nil_iff.mp hlist
    exact ⟨met, nil met, nil met⟩
  | @pass met later v list hv hrest ih =>
    cases vs with
    | nil =>
      obtain rfl : ws = v :: list := hlist
      exact ⟨met, nil met, pass hv hrest⟩
    | cons x vs =>
      obtain ⟨rfl, htail⟩ := List.cons.inj hlist
      obtain ⟨order, hvs, hws⟩ := ih htail
      exact ⟨order, pass hv hvs, hws⟩
  | @meet met between later v list hv hsuccs hrest _ ih =>
    cases vs with
    | nil =>
      obtain rfl : ws = v :: list := hlist
      exact ⟨met, nil met, meet hv hsuccs hrest⟩
    | cons x vs =>
      obtain ⟨rfl, htail⟩ := List.cons.inj hlist
      obtain ⟨order, hvs, hws⟩ := ih htail
      exact ⟨order, meet hv hsuccs hvs, hws⟩

/-- A search forgets nothing that it has met. -/
theorem Discovers.subset (hsearch : g.Discovers met vs later) : met ⊆ later := by
  induction hsearch with
  | nil => exact List.Subset.refl _
  | pass _ _ ih => exact ih
  | meet _ _ _ ihsuccs ihrest =>
    exact fun w hw => ihrest (ihsuccs (List.mem_append_left _ hw))

/-- A search passes over what has been met, wherever that stands. -/
theorem Discovers.of_filter {p : Nat → Bool} (hmet : ∀ v ∈ vs, ¬ p v → v ∈ met)
    (hsearch : g.Discovers met (vs.filter p ++ ws) later) : g.Discovers met (vs ++ ws) later := by
  induction vs generalizing met with
  | nil => exact hsearch
  | cons v vs ih =>
    obtain ⟨hv, hvs⟩ := List.forall_mem_cons.mp hmet
    by_cases hkept : p v
    · rw [List.filter_cons_of_pos hkept, List.cons_append] at hsearch
      cases hsearch with
      | pass hold hrest => exact pass hold (ih hvs hrest)
      | meet hnew hsuccs hrest =>
        -- what had been met before `v` is still met behind it
        refine meet hnew hsuccs (ih (fun w hw hskip => ?_) hrest)
        exact hsuccs.subset (List.mem_append_left [v] (hvs w hw hskip))
    · rw [List.filter_cons_of_neg hkept] at hsearch
      exact pass (hv hkept) (ih hvs hsearch)

/-- From any stack a traversal that accepts nothing goes on as the recursive search does that visits
the nodes of the stack from its top down. -/
theorem discovers_offersFrom {seen : NodeSet g.size}
    (hseen : ∀ v, v < g.size → (seen.contains v ↔ v ∈ met)) (hstack : ∀ v ∈ stack, v < g.size) :
    g.Discovers met stack (met ++ offersFrom g.succs (fun _ => false) seen stack) := by
  generalize hreject : (fun _ : Nat => false) = accept
  fun_induction offersFrom g.succs accept seen stack generalizing met with
  | case1 seen =>
    rw [List.append_nil]
    exact Discovers.nil met
  | case2 seen v stack hv ih =>
    subst hreject
    have hlt : v < g.size := hstack v List.mem_cons_self
    have hnew : v ∉ met := by
      rw [← hseen v hlt]
      simpa [hlt] using hv
    have hseen' : ∀ w, w < g.size → ((seen.insert v).contains w ↔ w ∈ met ++ [v]) := by
      intro w hw
      rw [NodeSet.contains_insert, Bool.or_eq_true, hseen w hw, List.mem_append,
        List.mem_singleton, or_comm]
      simp [hlt]
    have hstack' : ∀ w ∈ (g.succs v).filter (seen.insert v).isFree ++ stack, w < g.size := by
      intro w hw
      rcases List.mem_append.mp hw with hw | hw
      · exact target_lt (List.mem_filter.mp hw).1
      · exact hstack w (List.mem_cons_of_mem v hw)
    -- a neighbour that is not put on the stack has been met
    have hskip : ∀ w ∈ g.succs v, ¬ (seen.insert v).isFree w → w ∈ met ++ [v] := by
      intro w hw hmet
      rw [← hseen' w (target_lt hw)]
      rw [NodeSet.isFree_eq, decide_eq_true (target_lt hw), Bool.true_and] at hmet
      simpa only [Bool.not_eq_true', Bool.not_eq_false] using hmet
    -- the neighbours of `v` are searched first, then the rest of the stack
    obtain ⟨between, hsuccs, hrest⟩ := (Discovers.of_filter hskip (ih hseen' hstack')).split
    rw [if_neg Bool.false_ne_true, List.append_cons]
    exact Discovers.meet hnew hsuccs hrest
  | case3 seen v stack hv ih =>
    have hlt : v < g.size := hstack v List.mem_cons_self
    have hmet : v ∈ met := by
      rw [← hseen v hlt]
      simpa [hlt] using hv
    exact Discovers.pass hmet (ih hseen fun w hw => hstack w (List.mem_cons_of_mem v hw))

end Discovers

/-! ### Traversals from a start -/

/-- From a node, recursive search discovers the nodes that a traversal offers that accepts
nothing. -/
theorem discovers_offers {g : Digraph} {way : Way} {start : Nat} (hstart : start < g.size) :
    (g.along way).Discovers [] [start] (g.offers way (fun _ => false) start) := by
  have hempty : ∀ v, v < (g.along way).size →
      ((NodeSet.empty (g.along way).size).contains v ↔ v ∈ ([] : List Nat)) := by simp
  have hsearch : (g.along way).Discovers [] [start] ([] ++ _) :=
    discovers_offersFrom hempty (by simpa using hstart)
  rw [succs_along, size_along, List.nil_append] at hsearch
  exact hsearch

/-- A traversal offers the nodes in the order in which recursive depth-first search along its way
discovers them from the start, up to the first that is accepted; none if the start is no node. No
node is offered twice. A node is found exactly if the start reaches one that is accepted. -/
theorem offers_exact (g : Digraph) (way : Way) (accept : Nat → Bool) (start : Nat) :
    (start < g.size → ∃ order, (∀ other, (g.along way).Discovers [] [start] other ↔ other = order) ∧
      g.offers way accept start = upTo accept order) ∧
    (g.size ≤ start → g.offers way accept start = []) ∧
    (g.offers way accept start).Nodup ∧
    (g.finds way accept start ↔
      start < g.size ∧ ∃ v, (g.along way).Reaches start v ∧ accept v) := by
  have houtside : g.size ≤ start → g.offers way accept start = [] := by
    intro hstart
    have hfree : ¬ (NodeSet.empty g.size).isFree start := by simpa using hstart
    rw [offers, offersFrom, dif_neg hfree, offersFrom]
  have hcut : g.offers way accept start = upTo accept (g.offers way (fun _ => false) start) :=
    offersFrom_eq_upTo _ _
  refine ⟨fun hstart => ?_, houtside, ?_, ?_⟩
  · refine ⟨_, fun other => ⟨(discovers_offers hstart).unique, ?_⟩, hcut⟩
    exact fun heq => heq ▸ discovers_offers hstart
  · rcases Nat.lt_or_ge start g.size with hstart | hstart
    · -- the search meets no node twice
      rw [hcut]
      exact ((discovers_offers hstart).nodup List.nodup_nil).sublist (upTo_isPrefix _ _).sublist
    · rw [houtside hstart]
      exact List.nodup_nil
  · rw [finds_iff, ← succs_along]
    exact Iff.rfl

end LoadOrder.Digraph
