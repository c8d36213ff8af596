import LoadOrder.Proofs.Digraph.ScanLoop
import LoadOrder.Proofs.Precedence

/-!
# The order of discovery

A recursive depth-first search visits nodes one after the other. A node that has been met is passed
over; any other is met, and then its successors are visited in the order of its arcs before anything
else is. `g.Discovers met vs order` says that such a search, having met the nodes `met` in this
order and visiting `vs`, has met the nodes `order` in the end. It is a function of what it starts
from (`Discovers.unique`).

The scan for components makes the same search and keeps nothing of it but marks, numbers and a
stack. `Records g order s` ties its value `s` to the search: what is met is in `order`, and the
stack and every closed component hold their nodes in the opposite order. Meeting a node and closing
a component keep it (`Records.meet`, `Records.close`), so exploring a node is a visit of the search
(`exists_discovers_explore`).

`components_exact` says what follows for the components of a graph.
-/

namespace LoadOrder.Digraph

variable {g : Digraph} {u v w : Nat} {met order later : List Nat}

/-- A depth-first search that has met `met` and visits the listed nodes has then met `order`. -/
inductive Discovers (g : Digraph) : List Nat → List Nat → List Nat → Prop where
  /-- Nothing is left to visit. -/
  | nil (met : List Nat) : Discovers g met [] met
  /-- A node that has been met is passed over. -/
  | pass {met order : List Nat} {v : Nat} {vs : List Nat} (hv : v ∈ met)
      (hrest : Discovers g met vs order) : Discovers g met (v :: vs) order
  /-- Any other is met, and its successors are visited before the rest. -/
  | meet {met between order : List Nat} {v : Nat} {vs : List Nat} (hv : v ∉ met)
      (hsuccs : Discovers g (met ++ [v]) (g.succs v) between)
      (hrest : Discovers g between vs order) : Discovers g met (v :: vs) order

namespace Discovers

variable {vs ws : List Nat}

theorem append (hvs : g.Discovers met vs order) (hws : g.Discovers order ws later) :
    g.Discovers met (vs ++ ws) later := by
  induction hvs with
  | nil => exact hws
  | pass hv _ ih => exact pass hv (ih hws)
  | meet hv hsuccs _ _ ih => exact meet hv hsuccs (ih hws)

theorem nodup (hvs : g.Discovers met vs order) (hmet : met.Nodup) : order.Nodup := by
  induction hvs with
  | nil => exact hmet
  | pass _ _ ih => exact ih hmet
  | meet hv _ _ ihsuccs ihrest =>
    refine ihrest (ihsuccs (List.nodup_append.mpr ⟨hmet, List.nodup_singleton _, ?_⟩))
    -- the node that is met had not been met
    intro x hx y hy hxy
    exact hv (List.mem_singleton.mp hy ▸ hxy ▸ hx)

/-- Two searches that start alike end alike. -/
theorem unique (hvs : g.Discovers met vs order) (hvs' : g.Discovers met vs later) :
    later = order := by
  induction hvs generalizing later with
  | nil =>
    cases hvs'
    rfl
  | pass hv _ ih =>
    cases hvs' with
    | pass _ hrest => exact ih hrest
    | meet hnew => exact absurd hv hnew
  | meet hv _ _ ihsuccs ihrest =>
    cases hvs' with
    | pass hmet => exact absurd hmet hv
    | meet _ hsuccs hrest => exact ihrest (ihsuccs hsuccs ▸ hrest)

end Discovers

namespace Scan

variable {s t : Scan} {opened front rest : List Nat}

/-- The nodes that the scan has met at `s` are those of `order`, and both the stack and the closed
components hold theirs from the latest in this order to the first. -/
structure Records (g : Digraph) (order : List Nat) (s : Scan) : Prop where
  /-- The nodes of the order have been met, and no others. -/
  mem_iff : ∀ v, v ∈ order ↔ v < g.size ∧ s.mark v ≠ .unmet
  /-- From its bottom up the stack is in the order. -/
  stack_sublist : s.stack.reverse.Sublist order
  /-- From its end each closed component is in the order. -/
  component_sublist : ∀ c ∈ s.components, c.reverse.Sublist order
  /-- No arc leads from a closed component to one that was closed later. -/
  not_arc : s.components.Pairwise fun c d => ∀ u ∈ d, ∀ v ∈ c, ¬ g.Arc u v

theorem records_start (g : Digraph) : Records g [] (start g) := by
  refine ⟨?_, List.Sublist.refl [], by simp [start], List.Pairwise.nil⟩
  intro v
  refine iff_of_false List.not_mem_nil ?_
  rintro ⟨hv, hmet⟩
  exact hmet (by simp [start, mark, hv])

theorem Records.notMem (hrec : Records g order s) (hv : s.mark v = .unmet) : v ∉ order :=
  fun hmem => ((hrec.mem_iff v).mp hmem).2 hv

/-- The node that is met comes last in the order and first on the stack. -/
theorem Records.meet (hrec : Records g order s) (hs : Sound g opened s)
    (hv : s.mark v = .unmet) : Records g (order ++ [v]) (s.meet v) := by
  have hlt : v < s.marks.size := hs.lt_size_marks hv
  refine ⟨?_, ?_, ?_, hrec.not_arc⟩
  · intro w
    rw [List.mem_append, List.mem_singleton, hrec.mem_iff, mark_meet hlt]
    split
    · next hwv => simp [hwv, ← hs.size_marks, hlt]
    · next hwv => simp [hwv]
  · show (v :: s.stack).reverse.Sublist (order ++ [v])
    rw [List.reverse_cons]
    exact hrec.stack_sublist.append (List.Sublist.refl [v])
  · intro c hc
    exact (hrec.component_sublist c hc).trans (List.sublist_append_left order [v])

/-- Closing a component takes its nodes off the stack as they stand there. -/
theorem Records.close (hrec : Records g order t) (ht : Sound g opened t)
    (hstack : t.stack = front ++ v :: rest) : Records g order (t.close v) := by
  have hsplit : t.stack = (front ++ [v]) ++ rest := by
    rw [hstack, List.append_assoc]
    rfl
  have hnodup : (front ++ v :: rest).Nodup := hstack ▸ ht.nodup_stack
  have hvfront : v ∉ front := fun hmem =>
    (List.nodup_append.mp hnodup).2.2 v hmem v List.mem_cons_self rfl
  obtain ⟨hstack', hcomponents, hmark⟩ := close_eq hstack hvfront
  have htop : ∀ w ∈ front ++ [v], w ∈ t.stack := fun w hw => by
    rw [hsplit]
    exact List.mem_append_left rest hw
  refine ⟨?_, ?_, ?_, ?_⟩
  · -- what is closed had been met
    intro w
    rw [hrec.mem_iff, hmark]
    split
    · next hw => simp [ht.met (htop w hw)]
    · exact Iff.rfl
  · rw [hstack']
    refine List.Sublist.trans ?_ hrec.stack_sublist
    rw [hsplit]
    exact (List.sublist_append_right (front ++ [v]) rest).reverse
  · intro c hc
    rw [hcomponents] at hc
    rcases List.mem_cons.mp hc with rfl | hc
    · refine List.Sublist.trans ?_ hrec.stack_sublist
      rw [hsplit]
      exact (List.sublist_append_left (front ++ [v]) rest).reverse
    · exact hrec.component_sublist c hc
  · rw [hcomponents]
    refine List.pairwise_cons.mpr ⟨?_, hrec.not_arc⟩
    -- arcs of closed nodes lead to closed nodes, and the new component was still growing
    intro d hd u hu w hw harc
    have hult : u < g.size := (ht.isComponent d hd).lt_size u hu
    have hclosed : t.mark u = .closed := (ht.closed_iff u hult).mpr ⟨d, hd, hu⟩
    exact ht.not_closed (htop w hw) (ht.closed_of_arc u w hclosed harc)

/-! ### Exploring is searching -/

/-- Looking at some successors of `v` one after the other is visiting them, if exploring one of them
is. -/
theorem exists_discovers_foldl {explore : Nat → Scan → Nat × Scan}
    (hexplore : ∀ w t order, g.Arc v w → Sound g (v :: opened) t → t.mark w = .unmet →
      Records g order t → Sound g (v :: opened) (explore w t).2 ∧
        ∃ later, g.Discovers order [w] later ∧ Records g later (explore w t).2)
    {ws : List Nat} (hws : ∀ w ∈ ws, g.Arc v w) (found : Nat × Scan)
    (hfound : Sound g (v :: opened) found.2) (hrec : Records g order found.2) :
    ∃ later, g.Discovers order ws later ∧ Records g later (ws.foldl (look explore) found).2 := by
  induction ws generalizing found order with
  | nil => exact ⟨order, Discovers.nil order, hrec⟩
  | cons w ws ih =>
    have harc : g.Arc v w := hws w List.mem_cons_self
    have htail : ∀ x ∈ ws, g.Arc v x := fun x hx => hws x (List.mem_cons_of_mem w hx)
    rw [List.foldl_cons]
    cases hw : found.2.mark w with
    | unmet =>
      obtain ⟨hsound, between, hvisit, hbetween⟩ := hexplore w found.2 order harc hfound hw hrec
      have hlook : (look explore found w).2 = (explore w found.2).2 := by
        simp only [look, hw]
      obtain ⟨later, hrest, hlater⟩ := ih htail (look explore found w) (hlook ▸ hsound)
        (hlook ▸ hbetween)
      exact ⟨later, hvisit.append hrest, hlater⟩
    | growing number =>
      -- the scan stays as it is, and the search passes over a node that has been met
      have hlook : (look explore found w).2 = found.2 := by
        simp only [look, hw]
      have hmem : w ∈ order := (hrec.mem_iff w).mpr ⟨target_lt harc, by simp [hw]⟩
      obtain ⟨later, hrest, hlater⟩ := ih htail (look explore found w) (hlook ▸ hfound)
        (hlook ▸ hrec)
      exact ⟨later, Discovers.pass hmem hrest, hlater⟩
    | closed =>
      have hlook : (look explore found w).2 = found.2 := by
        simp only [look, hw]
      have hmem : w ∈ order := (hrec.mem_iff w).mpr ⟨target_lt harc, by simp [hw]⟩
      obtain ⟨later, hrest, hlater⟩ := ih htail (look explore found w) (hlook ▸ hfound)
        (hlook ▸ hrec)
      exact ⟨later, Discovers.pass hmem hrest, hlater⟩

/-- Exploring an unmet node is visiting it. The bound on the depth is never met, since the open
nodes are distinct. -/
theorem exists_discovers_explore (depth : Nat) (hs : Sound g opened s) (hv : s.mark v = .unmet)
    (hreach : ∀ x ∈ opened, g.Reaches x v) (hdepth : g.size ≤ depth + opened.length)
    (hrec : Records g order s) :
    ∃ later, g.Discovers order [v] later ∧ Records g later (explore g depth v s).2 := by
  induction depth generalizing opened v s order with
  | zero =>
    have hlt := hs.length_opened_lt hv hreach
    omega
  | succ depth ih =>
    have hmeet := hs.meet hv hreach
    have hopen : ∀ w, g.Arc v w → ∀ x ∈ v :: opened, g.Reaches x w := by
      intro w harc x hx
      rcases List.mem_cons.mp hx with rfl | hx
      · exact harc.reaches
      · exact (hreach x hx).trans harc.reaches
    have hless : g.size ≤ depth + (v :: opened).length := by
      rw [List.length_cons]
      omega
    have hsuccs : ∀ w ∈ g.succs v, g.Arc v w := fun w hw => hw
    have hexplore : ∀ w t, g.Arc v w → Sound g (v :: opened) t → t.mark w = .unmet →
        Explores g (v :: opened) w t (explore g depth w t).1 (explore g depth w t).2 :=
      fun w t harc ht hw => explores_explore depth ht hw (hopen w harc) hless
    obtain ⟨later, hvisit, hlater⟩ := exists_discovers_foldl
      (fun w t order harc ht hw hrec =>
        ⟨(hexplore w t harc ht hw).sound, ih ht hw (hopen w harc) hless hrec⟩)
      hsuccs (s.met, s.meet v) hmeet (hrec.meet hs hv)
    have hlooks := Looks.foldl hexplore hsuccs (s.met, s.meet v) (looks_meet hs hv hreach)
    refine ⟨later, Discovers.meet (hrec.notMem hv) hvisit (Discovers.nil later), ?_⟩
    unfold explore
    dsimp only
    split
    · -- the stack has grown on top of `v`, and this part of it is closed
      obtain ⟨front, hstack⟩ := hlooks.evolves.suffix
      exact hlater.close hlooks.sound hstack.symm
    · exact hlater

/-- The scan over some roots is the search that visits them. -/
theorem exists_discovers_roots (vs : List Nat) (hvs : ∀ v ∈ vs, v < g.size) (hs : Sound g [] s)
    (hrec : Records g order s) :
    ∃ later, g.Discovers order vs later ∧ Records g later (vs.foldl (Scan.root g) s) := by
  induction vs generalizing s order with
  | nil => exact ⟨order, Discovers.nil order, hrec⟩
  | cons v vs ih =>
    have htail : ∀ w ∈ vs, w < g.size := fun w hw => hvs w (List.mem_cons_of_mem v hw)
    have hroot : Sound g [] (root g s v) := (hs.root v).1
    rw [List.foldl_cons]
    by_cases hv : s.mark v = .unmet
    · have heq : root g s v = (explore g g.size v s).2 := by
        simp only [root, hv]
      obtain ⟨between, hvisit, hbetween⟩ := exists_discovers_explore g.size hs hv
        (fun x hx => by cases hx) (Nat.le_add_right _ _) hrec
      obtain ⟨later, hrest, hlater⟩ := ih htail hroot (heq ▸ hbetween)
      exact ⟨later, hvisit.append hrest, hlater⟩
    · have heq : root g s v = s := by
        unfold root
        split
        · next hunmet => exact absurd hunmet hv
        · rfl
      have hmem : v ∈ order := (hrec.mem_iff v).mpr ⟨hvs v List.mem_cons_self, hv⟩
      obtain ⟨later, hrest, hlater⟩ := ih htail hroot (heq.symm ▸ hrec)
      exact ⟨later, Discovers.pass hmem hrest, hlater⟩

end Scan

/-! ### The components in order -/

/-- No arc leads from a component to one that is listed after it. -/
theorem pairwise_components (g : Digraph) :
    g.components.Pairwise fun c d => ∀ u ∈ c, ∀ v ∈ d, ¬ g.Arc u v := by
  obtain ⟨order, -, hrec⟩ := Scan.exists_discovers_roots (List.range g.size)
    (fun v hv => List.mem_range.mp hv) (Scan.sound_start g) (Scan.records_start g)
  exact List.pairwise_reverse.mpr hrec.not_arc

theorem flatten_components_perm (g : Digraph) :
    g.components.flatten.Perm (List.range g.size) := by
  have hnodup : g.components.flatten.Nodup :=
    List.nodup_flatten.mpr ⟨fun c hc => (isComponent_of_mem hc).nodup, disjoint_components g⟩
  refine (List.perm_ext_iff_of_nodup hnodup List.nodup_range).mpr ?_
  intro v
  rw [List.mem_flatten, List.mem_range]
  refine ⟨?_, ?_⟩
  · rintro ⟨c, hc, hv⟩
    exact (isComponent_of_mem hc).lt_size v hv
  · exact exists_mem_components

/-- The search that visits all nodes in ascending order discovers each once, and every component
lists its nodes from the latest discovered to the first. -/
theorem exists_discovery (g : Digraph) :
    ∃ order, g.Discovers [] (List.range g.size) order ∧ order.Perm (List.range g.size) ∧
      ∀ c ∈ g.components, c.reverse.Sublist order := by
  obtain ⟨order, hsearch, hrec⟩ := Scan.exists_discovers_roots (List.range g.size)
    (fun v hv => List.mem_range.mp hv) (Scan.sound_start g) (Scan.records_start g)
  have hmet := ((Scan.sound_start g).foldl_root (List.range g.size)).2.1
  refine ⟨order, hsearch, ?_, fun c hc => hrec.component_sublist c (List.mem_reverse.mp hc)⟩
  refine (List.perm_ext_iff_of_nodup (hsearch.nodup List.nodup_nil) List.nodup_range).mpr ?_
  intro v
  rw [hrec.mem_iff, List.mem_range]
  -- at the end every node has been met
  exact and_iff_left_of_imp fun hv => hmet v (List.mem_range.mpr hv)

/-- The loop never looks outside of a table, and it lists the components. These are not empty and
hold every node once. Two nodes are in one of them exactly if each reaches the other. An arc between
two of them leads to the one that is listed first. Recursive depth-first search, with all nodes as
roots in ascending order and arcs in the order they were added, discovers the nodes in one order,
and the members of a component are listed against it. -/
theorem components_exact (g : Digraph) :
    g.components? = some g.components ∧
    (∀ c ∈ g.components, c ≠ []) ∧
    g.components.flatten.Perm (List.range g.size) ∧
    (∀ u v, u < g.size → ((∃ c ∈ g.components, u ∈ c ∧ v ∈ c) ↔ g.Linked u v)) ∧
    (∀ u v, g.Arc u v → ∀ c ∈ g.components, ∀ d ∈ g.components, u ∈ c → v ∈ d → c ≠ d →
      Precedes g.components d c) ∧
    ∃ order, (∀ other, g.Discovers [] (List.range g.size) other ↔ other = order) ∧
      order.Perm (List.range g.size) ∧
      ∀ c ∈ g.components, c.Pairwise fun v w => Precedes order w v := by
  refine ⟨components?_eq g, fun c hc => (isComponent_of_mem hc).ne_nil, flatten_components_perm g,
    ?_, ?_, ?_⟩
  · intro u v hu
    refine ⟨?_, ?_⟩
    · rintro ⟨c, hc, huc, hvc⟩
      exact ((isComponent_of_mem hc).mem_iff u huc v).mp hvc
    · intro huv
      obtain ⟨c, hc, huc⟩ := exists_mem_components hu
      exact ⟨c, hc, huc, ((isComponent_of_mem hc).mem_iff u huc v).mpr huv⟩
  · intro u v harc c hc d hd huc hvd hne
    refine (precedes_or_precedes hd hc (Ne.symm hne)).resolve_right ?_
    -- the other way round the arc would lead to a component that is listed later
    intro hcd
    exact List.pairwise_iff_forall_sublist.mp (pairwise_components g) hcd u huc v hvd harc
  · obtain ⟨order, hsearch, hperm, hsublist⟩ := exists_discovery g
    refine ⟨order, fun other => ⟨hsearch.unique, fun heq => heq ▸ hsearch⟩, hperm, ?_⟩
    intro c hc
    refine List.pairwise_iff_forall_sublist.mpr fun {v w} hvw => ?_
    exact hvw.reverse.trans (hsublist c hc)

end LoadOrder.Digraph
