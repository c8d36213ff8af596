import LoadOrder.Digraph.Component
import LoadOrder.Proofs.Digraph.Reachability
import LoadOrder.Proofs.Slots
import Mathlib.Data.List.Nodup

/-!
# What the scan for components keeps true

While the scan explores nodes, some are *open*: their exploration has begun and not ended. They form
a path, the latest open node at its end. `Scan.Sound g opened s` is what holds of every value `s`
of the scan with the open nodes `opened`, latest first:

* the growing nodes are those on the stack, numbered from the bottom up;
* an open node reaches whatever was met after it, and a growing node reaches an open one that was
  met before it (or is itself that one), so growing nodes hang together along the open path;
* arcs out of closed nodes lead to closed nodes, and only open nodes have arcs to unmet ones;
* the closed components are components (`IsComponent`) and hold the closed nodes, each once.

Three things happen to an open node. It is met (`Sound.meet`). Once all its successors have been
met, either it leads to a node below it on the stack, and stays there (`Sound.retire`), or no arc
leads from it and what came on top of it into the rest of the stack, and that part is a component
(`Sound.close`).
-/

namespace LoadOrder.Digraph

variable {g : Digraph} {u v w x y : Nat}

/-- The list holds the nodes linked to any of its members, each once. -/
structure IsComponent (g : Digraph) (c : List Nat) : Prop where
  /-- There is a member. -/
  ne_nil : c ≠ []
  /-- No member is there twice. -/
  nodup : c.Nodup
  /-- The members are nodes. -/
  lt_size : ∀ v ∈ c, v < g.size
  /-- With a member all that is linked to it is there, and nothing else. -/
  mem_iff : ∀ v ∈ c, ∀ w, w ∈ c ↔ g.Linked v w

namespace Scan

variable {s t r : Scan} {opened front rest : List Nat} {k : Nat}

/-- The number that a growing node was met as. -/
def number (s : Scan) (v : Nat) : Nat :=
  match s.mark v with
  | .growing k => k
  | _ => 0

theorem number_of_mark (hv : s.mark v = .growing k) : s.number v = k := by
  rw [number, hv]

/-- Where a scan of `g` stands, the exploration of the nodes `opened` having begun and not
ended. -/
structure Sound (g : Digraph) (opened : List Nat) (s : Scan) : Prop where
  /-- There is a mark for each node. -/
  size_marks : s.marks.size = g.size
  /-- The stack holds the growing nodes. -/
  mem_stack_iff : ∀ v, v ∈ s.stack ↔ s.mark v = .growing (s.number v)
  /-- The numbers rise towards the top of the stack. -/
  sorted : s.stack.Pairwise fun v w => s.number w < s.number v
  /-- The next number has not been used. -/
  number_lt : ∀ v ∈ s.stack, s.number v < s.met
  /-- The open nodes are on the stack, the latest on top. -/
  opened_sublist : opened.Sublist s.stack
  /-- No arc leads out of the closed nodes. -/
  closed_of_arc : ∀ u v, s.mark u = .closed → g.Arc u v → s.mark v = .closed
  /-- A node that has been explored has no arc to an unmet one. -/
  met_of_arc : ∀ u ∈ s.stack, u ∉ opened → ∀ v, g.Arc u v → s.mark v ≠ .unmet
  /-- An open node reaches what was met after it. -/
  reaches_of_opened : ∀ x ∈ opened, ∀ y ∈ s.stack, s.number x ≤ s.number y → g.Reaches x y
  /-- A growing node reaches an open one that was not met after it. -/
  exists_opened : ∀ y ∈ s.stack, ∃ x ∈ opened, s.number x ≤ s.number y ∧ g.Reaches y x
  /-- The closed nodes are those of the closed components. -/
  closed_iff : ∀ v, v < g.size → (s.mark v = .closed ↔ ∃ c ∈ s.components, v ∈ c)
  /-- The closed components are components. -/
  isComponent : ∀ c ∈ s.components, g.IsComponent c
  /-- No node is in two of them. -/
  disjoint : s.components.Pairwise List.Disjoint

namespace Sound

theorem nodup_stack (hs : Sound g opened s) : s.stack.Nodup :=
  hs.sorted.imp fun hlt heq => by
    rw [heq] at hlt
    exact Nat.lt_irrefl _ hlt

theorem mem_stack_of_mark (hs : Sound g opened s) (hv : s.mark v = .growing k) : v ∈ s.stack := by
  rw [hs.mem_stack_iff, number_of_mark hv, hv]

theorem not_closed (hs : Sound g opened s) (hv : v ∈ s.stack) : s.mark v ≠ .closed := by
  rw [(hs.mem_stack_iff v).mp hv]
  exact Mark.noConfusion

theorem met (hs : Sound g opened s) (hv : v ∈ s.stack) : s.mark v ≠ .unmet := by
  rw [(hs.mem_stack_iff v).mp hv]
  exact Mark.noConfusion

theorem closed_or_mem_stack (hs : Sound g opened s) (hv : s.mark v ≠ .unmet) :
    s.mark v = .closed ∨ v ∈ s.stack := by
  cases hmark : s.mark v with
  | unmet => exact absurd hmark hv
  | growing k => exact Or.inr (hs.mem_stack_of_mark hmark)
  | closed => exact Or.inl rfl

theorem lt_size_of_mark (hs : Sound g opened s) (hv : s.mark v ≠ .closed) : v < g.size := by
  by_contra hge
  rw [← hs.size_marks] at hge
  exact hv (by rw [mark, Array.getElem?_eq_none (Nat.not_lt.mp hge), Option.getD_none])

theorem lt_size_marks (hs : Sound g opened s) (hv : s.mark v = .unmet) : v < s.marks.size := by
  rw [hs.size_marks]
  refine hs.lt_size_of_mark ?_
  rw [hv]
  exact Mark.noConfusion

theorem closed_of_reaches (hs : Sound g opened s) (huv : g.Reaches u v)
    (hu : s.mark u = .closed) : s.mark v = .closed :=
  huv.mem_of_closed (S := fun x => s.mark x = .closed) (fun x y hx => hs.closed_of_arc x y hx) hu

end Sound

/-! ### Meeting a node -/

theorem mark_meet (hv : v < s.marks.size) :
    (s.meet v).mark w = if w = v then .growing s.met else s.mark w := by
  rw [mark, meet, Array.getElem?_setIfInBounds]
  by_cases hwv : w = v
  · simp [hwv, hv]
  · simp [hwv, Ne.symm hwv, mark]

theorem number_meet (hv : v < s.marks.size) :
    (s.meet v).number w = if w = v then s.met else s.number w := by
  rw [number, mark_meet hv]
  by_cases hwv : w = v
  · rw [if_pos hwv, if_pos hwv]
  · rw [if_neg hwv, if_neg hwv]
    rfl

/-- Meeting a node that all open nodes reach puts it at the end of the open path. -/
theorem Sound.meet (hs : Sound g opened s) (hv : s.mark v = .unmet)
    (hreach : ∀ x ∈ opened, g.Reaches x v) : Sound g (v :: opened) (s.meet v) := by
  have hlt : v < s.marks.size := hs.lt_size_marks hv
  have hnew : ∀ w ∈ s.stack, w ≠ v := fun w hw heq => hs.met (heq ▸ hw) hv
  have hmark : ∀ w ∈ s.stack, (s.meet v).mark w = s.mark w := fun w hw => by
    rw [mark_meet hlt, if_neg (hnew w hw)]
  have hnumber : ∀ w ∈ s.stack, (s.meet v).number w = s.number w := fun w hw => by
    rw [number_meet hlt, if_neg (hnew w hw)]
  have hnumberv : (s.meet v).number v = s.met := by
    rw [number_meet hlt, if_pos rfl]
  have hopened : ∀ x ∈ opened, x ∈ s.stack := fun x hx => hs.opened_sublist.subset hx
  have hclosed : ∀ w, (s.meet v).mark w = .closed ↔ s.mark w = .closed := fun w => by
    rw [mark_meet hlt]
    split
    · next hwv => rw [hwv, hv]; simp
    · exact Iff.rfl
  refine ⟨?_, ?_, ?_, ?_, hs.opened_sublist.cons_cons v, ?_, ?_, ?_, ?_, ?_, hs.isComponent,
    hs.disjoint⟩
  · -- there are as many marks as before
    rw [← hs.size_marks]
    exact Array.size_setIfInBounds
  · -- the node met is growing and on the stack
    intro w
    show w ∈ v :: s.stack ↔ _
    rw [number_meet hlt, mark_meet hlt, List.mem_cons]
    split
    · next hwv => simp [hwv]
    · next hwv => rw [or_iff_right hwv, hs.mem_stack_iff]
  · -- it is numbered above all others
    refine List.pairwise_cons.mpr ⟨?_, hs.sorted.imp_of_mem ?_⟩
    · intro w hw
      rw [hnumberv, hnumber w hw]
      exact hs.number_lt w hw
    · intro x y hx hy hxy
      rw [hnumber x hx, hnumber y hy]
      exact hxy
  · -- and the next number above it
    intro w hw
    rcases List.mem_cons.mp hw with rfl | hw
    · rw [hnumberv]
      exact Nat.lt_succ_self s.met
    · rw [hnumber w hw]
      exact Nat.lt_succ_of_lt (hs.number_lt w hw)
  · -- the closed nodes are the same
    intro a b ha harc
    exact (hclosed b).mpr (hs.closed_of_arc a b ((hclosed a).mp ha) harc)
  · -- the explored nodes are the same, and there are fewer unmet ones
    intro a ha haopen b harc
    rw [List.mem_cons, not_or] at haopen
    have ha' : a ∈ s.stack := (List.mem_cons.mp ha).resolve_left haopen.1
    rw [mark_meet hlt]
    split
    · exact Mark.noConfusion
    · exact hs.met_of_arc a ha' haopen.2 b harc
  · -- the open path has been prolonged by one node
    intro x hx y hy hxy
    rcases List.mem_cons.mp hy with rfl | hystack
    · rcases List.mem_cons.mp hx with rfl | hx
      · exact Reaches.refl g x
      · exact hreach x hx
    · rcases List.mem_cons.mp hx with rfl | hx
      · -- nothing on the stack has a higher number than the node met last
        rw [hnumberv, hnumber y hystack] at hxy
        exact absurd (hs.number_lt y hystack) (Nat.not_lt.mpr hxy)
      · rw [hnumber x (hopened x hx), hnumber y hystack] at hxy
        exact hs.reaches_of_opened x hx y hystack hxy
  · -- the node met is open itself
    intro y hy
    rcases List.mem_cons.mp hy with rfl | hy
    · exact ⟨y, List.mem_cons_self, Nat.le_refl _, Reaches.refl g y⟩
    · obtain ⟨x, hx, hle, hyx⟩ := hs.exists_opened y hy
      refine ⟨x, List.mem_cons_of_mem v hx, ?_, hyx⟩
      rw [hnumber x (hopened x hx), hnumber y hy]
      exact hle
  · intro w hw
    rw [hclosed]
    exact hs.closed_iff w hw

/-! ### Leaving a node on the stack -/

/-- An explored node that leads to one below it on the stack is not open any more. -/
theorem Sound.retire (ht : Sound g (v :: opened) t) (hmet : ∀ w, g.Arc v w → t.mark w ≠ .unmet)
    (hy : y ∈ t.stack) (hlow : t.number y < t.number v) (hvy : g.Reaches v y) :
    Sound g opened t where
  size_marks := ht.size_marks
  mem_stack_iff := ht.mem_stack_iff
  sorted := ht.sorted
  number_lt := ht.number_lt
  opened_sublist := (List.sublist_cons_self v opened).trans ht.opened_sublist
  closed_of_arc := ht.closed_of_arc
  met_of_arc a ha haopen b harc := by
    by_cases hav : a = v
    · exact hmet b (hav ▸ harc)
    · exact ht.met_of_arc a ha (by simp [hav, haopen]) b harc
  reaches_of_opened x hx := ht.reaches_of_opened x (List.mem_cons_of_mem v hx)
  exists_opened z hz := by
    obtain ⟨x, hx, hle, hzx⟩ := ht.exists_opened z hz
    rcases List.mem_cons.mp hx with rfl | hx
    · -- `v` itself goes on to an open node further down
      obtain ⟨x', hx', hle', hyx⟩ := ht.exists_opened y hy
      rcases List.mem_cons.mp hx' with rfl | hx'
      · omega
      · exact ⟨x', hx', by omega, hzx.trans (hvy.trans hyx)⟩
    · exact ⟨x, hx, hle, hzx⟩
  closed_iff := ht.closed_iff
  isComponent := ht.isComponent
  disjoint := ht.disjoint

/-! ### Closing a component -/

section Close

theorem mark_foldl_closed (c : List Nat) (marks : Array Mark) (w : Nat) :
    (c.foldl (fun marks x => marks.setIfInBounds x .closed) marks)[w]?.getD .closed
      = if w ∈ c then .closed else marks[w]?.getD .closed := by
  rw [getElem?_foldl_set]
  by_cases hwc : w ∈ c
  · by_cases hlt : w < marks.size
    · simp [hwc, hlt]
    · -- a node outside of the array has the default mark, which is `closed` as well
      simp [hwc, hlt]
  · simp [hwc]

/-- What closing at `v` changes if the stack is `front`, `v` and `rest`. -/
theorem close_eq (hstack : t.stack = front ++ v :: rest) (hv : v ∉ front) :
    (t.close v).stack = rest ∧ (t.close v).components = (front ++ [v]) :: t.components ∧
      ∀ w, (t.close v).mark w = if w ∈ front ++ [v] then .closed else t.mark w := by
  have hne : ∀ w ∈ front, (w != v) = true := fun w hw => by
    simpa using fun heq : w = v => hv (heq ▸ hw)
  have htake : t.stack.takeWhile (· != v) = front := by
    rw [hstack, List.takeWhile_append_of_pos hne, List.takeWhile_cons_of_neg (by simp),
      List.append_nil]
  have hdrop : t.stack.dropWhile (· != v) = v :: rest := by
    rw [hstack, List.dropWhile_append_of_pos hne, List.dropWhile_cons_of_neg (by simp)]
  refine ⟨?_, ?_, ?_⟩
  · show (t.stack.dropWhile (· != v)).drop 1 = rest
    rw [hdrop]
    rfl
  · show (t.stack.takeWhile (· != v) ++ [v]) :: t.components = _
    rw [htake]
  · intro w
    show ((t.stack.takeWhile (· != v) ++ [v]).foldl
      (fun marks x => marks.setIfInBounds x .closed) t.marks)[w]?.getD .closed = _
    rw [htake, mark_foldl_closed]
    rfl

/-- No path leads out of the top of the stack down to `v`, except into closed nodes. -/
theorem Sound.mem_or_closed_of_reaches (ht : Sound g (v :: opened) t)
    (hstack : t.stack = front ++ v :: rest) (hopened : opened.Sublist rest)
    (hmet : ∀ w, g.Arc v w → t.mark w ≠ .unmet)
    (hleave : ∀ x ∈ front ++ [v], ∀ y ∈ rest, ¬ g.Arc x y) (hx : x ∈ front ++ [v])
    (hxy : g.Reaches x y) : y ∈ front ++ [v] ∨ t.mark y = .closed := by
  have hnodup : (front ++ v :: rest).Nodup := hstack ▸ ht.nodup_stack
  -- no arc leaves the top of the stack and the closed nodes taken together
  refine hxy.mem_of_closed (S := fun y => y ∈ front ++ [v] ∨ t.mark y = .closed) ?_ (Or.inl hx)
  rintro a b (ha | ha) harc
  · -- what has been explored has no arc to an unmet node
    have hb : t.mark b ≠ .unmet := by
      by_cases hav : a = v
      · exact hmet b (hav ▸ harc)
      · have hafront : a ∈ front := by simpa [hav] using ha
        have haopen : a ∉ opened := fun hmem => by
          rw [List.nodup_append] at hnodup
          exact hnodup.2.2 a hafront a (List.mem_cons_of_mem v (hopened.subset hmem)) rfl
        exact ht.met_of_arc a (by simp [hstack, hafront]) (by simp [hav, haopen]) b harc
    rcases ht.closed_or_mem_stack hb with hclosed | hmem
    · exact Or.inr hclosed
    · have hsplit : b ∈ front ++ [v] ∨ b ∈ rest := by
        rw [← List.mem_append, List.append_assoc]
        exact hstack ▸ hmem
      exact Or.inl (hsplit.resolve_right fun hrest => hleave a ha b hrest harc)
  · exact Or.inr (ht.closed_of_arc a b ha harc)

/-- If no arc leads from the top of the stack down to `v` into the rest, it is a component. -/
theorem Sound.isComponent_top (ht : Sound g (v :: opened) t)
    (hstack : t.stack = front ++ v :: rest) (hopened : opened.Sublist rest)
    (hmet : ∀ w, g.Arc v w → t.mark w ≠ .unmet)
    (hleave : ∀ x ∈ front ++ [v], ∀ y ∈ rest, ¬ g.Arc x y) : g.IsComponent (front ++ [v]) := by
  have hnodup : (front ++ v :: rest).Nodup := hstack ▸ ht.nodup_stack
  have htop : (front ++ [v]).Sublist t.stack := by
    rw [hstack]
    exact (List.Sublist.refl front).append ((List.nil_sublist rest).cons_cons v)
  have hreach : ∀ {x y}, x ∈ front ++ [v] → g.Reaches x y →
      y ∈ front ++ [v] ∨ t.mark y = .closed := fun hx hxy =>
    ht.mem_or_closed_of_reaches hstack hopened hmet hleave hx hxy
  have hlinked : ∀ x ∈ front ++ [v], g.Linked v x := by
    intro x hx
    -- nothing above `v` on the stack was met before it
    have hle : t.number v ≤ t.number x := by
      rcases List.mem_append.mp hx with hfront | hxv
      · have hsorted := hstack ▸ ht.sorted
        exact Nat.le_of_lt ((List.pairwise_append.mp hsorted).2.2 x hfront v List.mem_cons_self)
      · rw [List.mem_singleton.mp hxv]
    refine ⟨ht.reaches_of_opened v List.mem_cons_self x (htop.subset hx) hle, ?_⟩
    obtain ⟨z, hz, -, hxz⟩ := ht.exists_opened x (htop.subset hx)
    rcases List.mem_cons.mp hz with rfl | hz
    · exact hxz
    · -- an open node further down cannot be reached from here
      have hzrest : z ∈ rest := hopened.subset hz
      rcases hreach hx hxz with hmem | hclosed
      · have hnotMem : z ∉ front ++ [v] := by
          rw [show front ++ v :: rest = (front ++ [v]) ++ rest by simp, List.nodup_append] at hnodup
          exact fun hmem => hnodup.2.2 z hmem z hzrest rfl
        exact absurd hmem hnotMem
      · exact absurd hclosed (ht.not_closed (by simp [hstack, hzrest]))
  refine ⟨by simp, htop.nodup ht.nodup_stack, ?_, fun x hx w => ⟨?_, ?_⟩⟩
  · intro x hx
    exact ht.lt_size_of_mark (ht.not_closed (htop.subset hx))
  · -- any two of the top are linked by way of `v`
    intro hw
    exact (hlinked x hx).symm.trans (hlinked w hw)
  · -- what is linked to one of them is reached, and it cannot be closed as they are not
    intro hxw
    rcases hreach hx hxw.1 with hmem | hclosed
    · exact hmem
    · exact absurd (ht.closed_of_reaches hxw.2 hclosed) (ht.not_closed (htop.subset hx))

/-- Closing the component of an explored node leaves the stack as it was before the node. -/
theorem Sound.close (ht : Sound g (v :: opened) t) (hstack : t.stack = front ++ v :: rest)
    (hopened : opened.Sublist rest) (hmet : ∀ w, g.Arc v w → t.mark w ≠ .unmet)
    (hleave : ∀ x ∈ front ++ [v], ∀ y ∈ rest, ¬ g.Arc x y) : Sound g opened (t.close v) := by
  have hnodup : ((front ++ [v]) ++ rest).Nodup := by
    simpa using hstack ▸ ht.nodup_stack
  have hvfront : v ∉ front := by
    have hfront := (List.nodup_append.mp (List.nodup_append.mp hnodup).1).2.2
    exact fun hmem => hfront v hmem v List.mem_cons_self rfl
  obtain ⟨hstack', hcomponents, hmark⟩ := close_eq hstack hvfront
  have hmem : ∀ {w}, w ∈ t.stack ↔ w ∈ front ++ [v] ∨ w ∈ rest := fun {w} => by
    rw [hstack, ← List.mem_append, List.append_assoc]
    rfl
  have hnew : ∀ w ∈ rest, w ∉ front ++ [v] := fun w hw hmem =>
    (List.nodup_append.mp hnodup).2.2 w hmem w hw rfl
  have hkept : ∀ w ∈ rest, (t.close v).mark w = t.mark w := fun w hw => by
    rw [hmark, if_neg (hnew w hw)]
  have hnumber : ∀ w ∈ rest, (t.close v).number w = t.number w := fun w hw => by
    rw [number, hkept w hw, ← number]
  have hrest : rest.Sublist t.stack := by
    rw [hstack]
    exact (List.sublist_cons_self v rest).trans (List.sublist_append_right front _)
  have hclosed : ∀ w, (t.close v).mark w = .closed ↔ w ∈ front ++ [v] ∨ t.mark w = .closed := by
    intro w
    rw [hmark]
    split
    · next hw => simp [hw]
    · next hw => exact (or_iff_right hw).symm
  have htop := ht.isComponent_top hstack hopened hmet hleave
  refine ⟨?_, ?_, ?_, ?_, hstack' ▸ hopened, ?_, ?_, ?_, ?_, ?_, ?_, ?_⟩
  · -- there are as many marks as before
    rw [← ht.size_marks]
    exact size_foldl_set _ _ _
  · -- the growing nodes are those of the rest
    intro w
    rw [hstack']
    refine ⟨?_, ?_⟩
    · intro hw
      rw [hnumber w hw, hkept w hw]
      exact (ht.mem_stack_iff w).mp (hrest.subset hw)
    · intro hw
      by_cases htop : w ∈ front ++ [v]
      · rw [hmark, if_pos htop] at hw
        cases hw
      · rw [hmark, if_neg htop] at hw
        exact (hmem.mp (ht.mem_stack_of_mark hw)).resolve_left htop
  · -- their numbers are what they were
    rw [hstack']
    refine (ht.sorted.sublist hrest).imp_of_mem ?_
    intro x y ha hb hlt
    rw [hnumber x ha, hnumber y hb]
    exact hlt
  · intro w hw
    rw [hstack'] at hw
    rw [hnumber w hw]
    exact ht.number_lt w (hrest.subset hw)
  · -- no arc leads out of the closed nodes, nor out of the top of the stack except into them
    intro a b ha harc
    rw [hclosed] at ha ⊢
    rcases ha with ha | ha
    · exact ht.mem_or_closed_of_reaches hstack hopened hmet hleave ha harc.reaches
    · exact Or.inr (ht.closed_of_arc a b ha harc)
  · -- an explored node below `v` had been explored before
    intro a ha haopen b harc
    rw [hstack'] at ha
    have hav : a ≠ v := fun heq => hnew a ha (by simp [heq])
    have hb := ht.met_of_arc a (hrest.subset ha) (by simp [hav, haopen]) b harc
    rw [hmark]
    split
    · exact Mark.noConfusion
    · exact hb
  · -- the open path is shorter by its last node
    intro x hx y hy hxy
    rw [hstack'] at hy
    rw [hnumber x (hopened.subset hx), hnumber y hy] at hxy
    exact ht.reaches_of_opened x (List.mem_cons_of_mem v hx) y (hrest.subset hy) hxy
  · intro y hy
    rw [hstack'] at hy
    obtain ⟨x, hx, hle, hyx⟩ := ht.exists_opened y (hrest.subset hy)
    rcases List.mem_cons.mp hx with rfl | hx
    · -- what is left of the stack was met before `v`
      have hsorted := hstack ▸ ht.sorted
      have hlt := List.rel_of_pairwise_cons (List.pairwise_append.mp hsorted).2.1 hy
      omega
    · exact ⟨x, hx, by rw [hnumber x (hopened.subset hx), hnumber y hy]; exact hle, hyx⟩
  · -- the newly closed nodes are those of the new component
    intro w hw
    rw [hclosed, hcomponents, ht.closed_iff w hw]
    simp only [List.mem_cons, exists_eq_or_imp]
  · intro c hc
    rw [hcomponents] at hc
    rcases List.mem_cons.mp hc with rfl | hc
    · exact htop
    · exact ht.isComponent c hc
  · rw [hcomponents]
    refine List.pairwise_cons.mpr ⟨?_, ht.disjoint⟩
    -- a node of the new component was on the stack, and so in no closed one
    intro c hc w hw hwc
    have hwstack : w ∈ t.stack := hmem.mpr (Or.inl hw)
    exact ht.not_closed hwstack ((ht.closed_iff w (htop.lt_size w hw)).mpr ⟨c, hc, hwc⟩)

end Close

end Scan

end LoadOrder.Digraph
