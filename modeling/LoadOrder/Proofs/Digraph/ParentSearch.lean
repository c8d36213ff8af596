import LoadOrder.Proofs.Digraph.ShortestPath

/-!
# Searching with parents

`Digraph.shortestPath` keeps in its queue, with each node, the way to it. A `ParentSearch` keeps
there the nodes alone. When it finds a node it notes from which one it was found, its *parent*, and
once it has found a target it walks back from parent to parent until it comes to a node without one.
Parents that go in a circle would keep it walking for ever, so that a search ends, and with what,
is a relation (`WalksBack`, `Ends`).

Every search ends, and only with the answer of the other one (`ends_iff_eq_shortestPath`). The way
to a node in the queue is the way back from it (`Traced`), and stays so: a node gets a parent when
it is found for the first time, and so none of those that were found before it gets another one.
-/

namespace LoadOrder.Digraph

/-- Where a search stands that remembers parents. -/
structure ParentSearch where
  /-- The node from which each node was found. -/
  parent : Nat → Option Nat
  /-- Whether a node has been found; the start counts as found. -/
  seen : Nat → Bool
  /-- The nodes to go on from, the earliest found first. -/
  queue : List Nat

namespace ParentSearch

/-- The search before it has gone anywhere. -/
def start (v : Nat) : ParentSearch where
  parent _ := none
  seen w := w == v
  queue := [v]

/-- Finds `w` from `v`, if it has not been found. -/
def find (s : ParentSearch) (v w : Nat) : ParentSearch :=
  if s.seen w then s
  else
    { parent := fun x => if x = w then some v else s.parent x
      seen := fun x => x == w || s.seen x
      queue := s.queue ++ [w] }

/-- Walking back from `v` comes to an end, and `trail` are the nodes on the way that have a
parent. -/
inductive WalksBack (parent : Nat → Option Nat) : Nat → List Nat → Prop where
  /-- A node without parent is where the search started. -/
  | root {v : Nat} (hv : parent v = none) : WalksBack parent v []
  /-- From any other node the way goes on from its parent. -/
  | step {u v : Nat} {trail : List Nat} (hv : parent v = some u) (hu : WalksBack parent u trail) :
      WalksBack parent v (v :: trail)

/-- Goes from `v` to its successors one after the other, up to the first target. The answer is the
search after that, with the target if there is one. -/
def visit (target : Nat → Bool) (s : ParentSearch) (v : Nat) :
    List Nat → ParentSearch × Option Nat
  | [] => (s, none)
  | w :: ws => if target w then (s, some w) else visit target (s.find v w) v ws

/-- What one step of a search comes to. -/
inductive Step where
  /-- There is nowhere to go on from, or the search stands on a number that is no node. -/
  | stop (answer : Except GraphFault (Option (List Nat)))
  /-- The target `w` has been found from `v`. -/
  | found (parent : Nat → Option Nat) (v w : Nat)
  /-- No target has been found from the first node of the queue. -/
  | next (s : ParentSearch)

/-- Goes on from the first node of the queue. -/
def step (next : Nat → Except GraphFault (List Nat)) (target : Nat → Bool) (s : ParentSearch) :
    Step :=
  match s.queue with
  | [] => .stop (.ok none)
  | v :: queue =>
    match next v with
    | .error fault => .stop (.error fault)
    | .ok succs =>
      match visit target { s with queue } v succs with
      | (t, some w) => .found t.parent v w
      | (t, none) => .next t

/-- The search ends with an answer. -/
inductive Ends (next : Nat → Except GraphFault (List Nat)) (target : Nat → Bool) :
    ParentSearch → Except GraphFault (Option (List Nat)) → Prop where
  /-- The last step is an answer. -/
  | stop {s : ParentSearch} {answer : Except GraphFault (Option (List Nat))}
      (hstep : s.step next target = .stop answer) : Ends next target s answer
  /-- The last step finds a target, and the way back from it is turned round. -/
  | found {s : ParentSearch} {parent : Nat → Option Nat} {v w : Nat} {trail : List Nat}
      (hstep : s.step next target = .found parent v w) (hback : WalksBack parent v trail) :
      Ends next target s (.ok (some (w :: trail).reverse))
  /-- A step is not the last. -/
  | next {s t : ParentSearch} {answer : Except GraphFault (Option (List Nat))}
      (hstep : s.step next target = .next t) (hrest : Ends next target t answer) :
      Ends next target s answer

end ParentSearch

namespace ParentSearch

variable {n : Nat} {met : NodeSet n} {s t : ParentSearch} {target : Nat → Bool} {v w x : Nat}
  {next : Nat → Except GraphFault (List Nat)} {trail other succs : List Nat}
  {queue : List (Nat × List Nat)}

/-! ### Walking back -/

theorem WalksBack.unique {parent : Nat → Option Nat} (hv : WalksBack parent v trail)
    (hother : WalksBack parent v other) : trail = other := by
  induction hv generalizing other with
  | root hv =>
    cases hother with
    | root _ => rfl
    | step hv' _ => exact absurd (hv.symm.trans hv') (Option.some_ne_none _).symm
  | step hv _ ih =>
    cases hother with
    | root hv' => exact absurd (hv.symm.trans hv') (Option.some_ne_none _)
    | step hv' hu' =>
      obtain rfl := Option.some.inj (hv.symm.trans hv')
      rw [ih hu']

/-- The way back from `v` is `trail`, and leads only over nodes that have been found. -/
inductive Traced (parent : Nat → Option Nat) (seen : Nat → Bool) : Nat → List Nat → Prop where
  /-- The search started at a node that counts as found. -/
  | root {v : Nat} (hseen : seen v) (hparent : parent v = none) : Traced parent seen v []
  /-- Any other node has been found from its parent. -/
  | step {u v : Nat} {trail : List Nat} (hseen : seen v) (hparent : parent v = some u)
      (hu : Traced parent seen u trail) : Traced parent seen v (v :: trail)

theorem Traced.walksBack {parent : Nat → Option Nat} {seen : Nat → Bool}
    (hv : Traced parent seen v trail) : WalksBack parent v trail := by
  induction hv with
  | root _ hparent => exact .root hparent
  | step _ hparent _ ih => exact .step hparent ih

theorem find_of_seen (hw : s.seen w) : s.find v w = s := by
  rw [find, if_pos hw]

theorem parent_find (hw : ¬ s.seen w) :
    (s.find v w).parent x = if x = w then some v else s.parent x := by
  rw [find, if_neg hw]

theorem seen_find (hw : ¬ s.seen w) : (s.find v w).seen x = (x == w || s.seen x) := by
  rw [find, if_neg hw]

theorem queue_find (hw : ¬ s.seen w) : (s.find v w).queue = s.queue ++ [w] := by
  rw [find, if_neg hw]

/-- Finding another node changes no way back. -/
theorem Traced.find (hx : Traced s.parent s.seen x trail) (v w : Nat) :
    Traced (s.find v w).parent (s.find v w).seen x trail := by
  by_cases hw : s.seen w
  · rwa [find_of_seen hw]
  · -- what has been found is not the new node
    have hold : ∀ y, s.seen y → (s.find v w).seen y ∧ (s.find v w).parent y = s.parent y := by
      intro y hy
      have hyw : y ≠ w := fun heq => hw (heq ▸ hy)
      rw [seen_find hw, parent_find hw, if_neg hyw]
      simp [hy]
    induction hx with
    | root hseen hparent =>
      obtain ⟨hseen', hparent'⟩ := hold _ hseen
      exact .root hseen' (hparent'.trans hparent)
    | step hseen hparent _ ih =>
      obtain ⟨hseen', hparent'⟩ := hold _ hseen
      exact .step hseen' (hparent'.trans hparent) ih

/-! ### The two searches -/

/-- The search with parents stands where the other one stands with this set and this queue. -/
structure Follows (s : ParentSearch) (met : NodeSet n) (queue : List (Nat × List Nat)) : Prop where
  /-- The same nodes wait. -/
  queue_eq : s.queue = queue.map Prod.fst
  /-- The way to each of them is the way back. -/
  traced : ∀ entry ∈ queue, Traced s.parent s.seen entry.1 entry.2
  /-- The same nodes have been found. -/
  seen_eq : ∀ v, v < n → s.seen v = met.contains v

/-- Both find a node for the first time. -/
theorem Follows.find (hs : Follows s met queue) (hv : Traced s.parent s.seen v trail) (hw : w < n)
    (hfree : ¬ s.seen w) : Follows (s.find v w) (met.insert w) (queue ++ [(w, w :: trail)]) := by
  refine ⟨?_, ?_, ?_⟩
  · rw [queue_find hfree, hs.queue_eq, List.map_append]
    rfl
  · intro entry hentry
    rcases List.mem_append.mp hentry with hold | hnew
    · exact (hs.traced entry hold).find v w
    · obtain rfl := List.mem_singleton.mp hnew
      refine .step ?_ ?_ (hv.find v w)
      · simp [seen_find hfree]
      · simp [parent_find hfree]
  · intro x hx
    rw [seen_find hfree, NodeSet.contains_insert, hs.seen_eq x hx]
    simp [hw]

/-- If there is a target among the successors, the first one is what the search comes to, and the
way back to where it stands is still the same. -/
theorem exists_visit_of_find?_eq_some (hv : Traced s.parent s.seen v trail)
    (hfind : succs.find? target = some w) :
    ∃ t, visit target s v succs = (t, some w) ∧ Traced t.parent t.seen v trail := by
  induction succs generalizing s with
  | nil => cases hfind
  | cons x succs ih =>
    rw [List.find?_cons] at hfind
    cases hx : target x with
    | true =>
      rw [hx] at hfind
      obtain rfl : x = w := Option.some.inj hfind
      exact ⟨s, by rw [visit, if_pos hx], hv⟩
    | false =>
      rw [hx] at hfind
      -- what is found on the way to the target leaves the way back as it is
      rw [visit, if_neg (by simp [hx])]
      exact ih (hv.find v x) hfind

/-- If there is none, both searches find those that had not been found. -/
theorem exists_visit_of_find?_eq_none (hs : Follows s met queue)
    (hv : Traced s.parent s.seen v trail) (hlt : ∀ w ∈ succs, w < n)
    (hfind : succs.find? target = none) :
    ∃ t, visit target s v succs = (t, none) ∧
      Follows t (met.gather succs).2
        (queue ++ (met.gather succs).1.map fun w => (w, w :: trail)) := by
  induction succs generalizing s met queue with
  | nil => exact ⟨s, rfl, by simpa [NodeSet.gather] using hs⟩
  | cons x succs ih =>
    rw [List.find?_eq_none] at hfind
    have hx : x < n := hlt x List.mem_cons_self
    have hlt : ∀ w ∈ succs, w < n := fun w hw => hlt w (List.mem_cons_of_mem x hw)
    have hnone : succs.find? target = none :=
      List.find?_eq_none.mpr fun w hw => hfind w (List.mem_cons_of_mem x hw)
    have hfree : met.isFree x ↔ ¬ s.seen x := by
      simp [hx, hs.seen_eq x hx]
    rw [visit, if_neg (hfind x List.mem_cons_self)]
    unfold NodeSet.gather
    split
    · next hnew =>
      obtain ⟨t, hvisit, ht⟩ :=
        ih (hs.find hv hx (hfree.mp hnew)) (hv.find v x) hlt hnone
      refine ⟨t, hvisit, ?_⟩
      simpa only [List.map_cons, List.append_assoc, List.singleton_append] using ht
    · next hold =>
      rw [find_of_seen (not_not.mp (mt hfree.mpr hold))]
      exact ih hs hv hlt hnone

/-- The search with parents ends with what the other one answers. -/
theorem ends_pathFrom (hnext : ∀ v succs, next v = .ok succs → ∀ w ∈ succs, w < n)
    (hs : Follows s met queue) : Ends next target s (pathFrom next target met queue) := by
  fun_induction pathFrom next target met queue generalizing s
  case case1 met =>
    -- no target can be reached
    refine .stop ?_
    rw [step, hs.queue_eq]
    rfl
  case case2 met v trail queue fault hfault =>
    -- the search stands on a number that is no node
    refine .stop ?_
    simp only [step, hs.queue_eq, List.map_cons, hfault]
  case case3 met v trail queue succs hsuccs w hfind =>
    -- the way in the queue is the way back from where the target is found
    have hv : Traced s.parent s.seen v trail := hs.traced (v, trail) List.mem_cons_self
    obtain ⟨t, hvisit, ht⟩ := exists_visit_of_find?_eq_some
      (s := { s with queue := queue.map Prod.fst }) hv hfind
    refine .found ?_ ht.walksBack
    simp only [step, hs.queue_eq, List.map_cons, hsuccs, hvisit]
  case case4 met v trail queue succs hsuccs hfind found ih =>
    have hv : Traced s.parent s.seen v trail := hs.traced (v, trail) List.mem_cons_self
    -- the first entry has left the queue
    have hrest : Follows { s with queue := queue.map Prod.fst } met queue :=
      ⟨rfl, fun entry hentry => hs.traced entry (List.mem_cons_of_mem _ hentry), hs.seen_eq⟩
    obtain ⟨t, hvisit, ht⟩ :=
      exists_visit_of_find?_eq_none hrest hv (hnext v succs hsuccs) hfind
    refine .next ?_ (ih ht)
    simp only [step, hs.queue_eq, List.map_cons, hsuccs, hvisit]

theorem follows_start (n v : Nat) :
    Follows (start v) ((NodeSet.empty n).insert v) [(v, [])] := by
  refine ⟨rfl, ?_, ?_⟩
  · intro entry hentry
    obtain rfl := List.mem_singleton.mp hentry
    exact .root (by simp [start]) rfl
  · intro x hx
    rw [NodeSet.contains_insert, NodeSet.contains_empty, Bool.or_false]
    show (x == v) = _
    by_cases hxv : x = v
    · subst hxv
      simp [hx]
    · simp [hxv]

/-! ### A search ends in one way -/

variable {answer answer' : Except GraphFault (Option (List Nat))}

theorem Ends.unique (hs : Ends next target s answer) (hother : Ends next target s answer') :
    answer = answer' := by
  induction hs with
  | stop hstep =>
    cases hother with
    | stop hstep' => exact Step.stop.inj (hstep.symm.trans hstep')
    | found hstep' _ => cases hstep.symm.trans hstep'
    | next hstep' _ => cases hstep.symm.trans hstep'
  | found hstep hback =>
    cases hother with
    | stop hstep' => cases hstep.symm.trans hstep'
    | found hstep' hback' =>
      obtain ⟨rfl, rfl, rfl⟩ := Step.found.inj (hstep.symm.trans hstep')
      rw [hback.unique hback']
    | next hstep' _ => cases hstep.symm.trans hstep'
  | next hstep _ ih =>
    cases hother with
    | stop hstep' => cases hstep.symm.trans hstep'
    | found hstep' _ => cases hstep.symm.trans hstep'
    | next hstep' hrest' =>
      obtain rfl := Step.next.inj (hstep.symm.trans hstep')
      exact ih hrest'

end ParentSearch

/-- The search with parents ends, and only with the answer of the search that keeps the ways. -/
theorem ends_iff_eq_shortestPath (g : Digraph) (inside target : Nat → Bool) (start : Nat)
    (answer : Except GraphFault (Option (List Nat))) :
    ParentSearch.Ends (g.succsInside inside) target (ParentSearch.start start) answer ↔
      answer = g.shortestPath inside target start := by
  have hnext : ∀ v succs, g.succsInside inside v = .ok succs → ∀ w ∈ succs, w < g.size :=
    fun v succs hsuccs w hw => target_lt ((mem_succsInside hsuccs w).mp hw).1
  have hends : ParentSearch.Ends (g.succsInside inside) target (ParentSearch.start start)
      (g.shortestPath inside target start) :=
    ParentSearch.ends_pathFrom hnext (ParentSearch.follows_start g.size start)
  refine ⟨fun hanswer => hanswer.unique hends, ?_⟩
  rintro rfl
  exact hends

end LoadOrder.Digraph
