import LoadOrder.Proofs.Digraph.Scan

/-!
# The components of a graph

Exploring a node brings the scan from one sound value to another (`Explores`) and answers a number
below which no arc out of the newly stacked nodes leads. While the successors of a node are looked
at one after the other, the number is that of a node it leads to (`Looks`); if it is the node's
own in the end, the node is the lowest of its component.

The scan ends with nothing on the stack, so its components hold every node once, and each holds
all nodes linked to its members (`isComponent_of_mem`, `exists_mem_components`,
`disjoint_components`).
-/

namespace LoadOrder.Digraph

variable {g : Digraph} {u v w x y : Nat}

namespace Scan

variable {s t r : Scan} {opened : List Nat} {low : Nat}

/-- What the scan knew at `s` it still knows at `t`; what has been met since has come on top of
the stack. -/
structure Evolves (s t : Scan) : Prop where
  /-- The stack has grown at its top. -/
  suffix : s.stack <:+ t.stack
  /-- What was on it has kept its number. -/
  number_eq : ∀ v ∈ s.stack, t.number v = s.number v
  /-- What came on it has a new number. -/
  number_ge : ∀ v ∈ t.stack, v ∉ s.stack → s.met ≤ t.number v
  /-- Met nodes have stayed met. -/
  met : ∀ v, s.mark v ≠ .unmet → t.mark v ≠ .unmet
  /-- Numbers have been used up. -/
  met_le : s.met ≤ t.met

theorem Evolves.refl (s : Scan) : Evolves s s :=
  ⟨List.suffix_refl _, fun _ _ => rfl, fun _ hv hnew => absurd hv hnew, fun _ => id, Nat.le_refl _⟩

theorem Evolves.trans (hst : Evolves s t) (htr : Evolves t r) : Evolves s r where
  suffix := hst.suffix.trans htr.suffix
  number_eq v hv := (htr.number_eq v (hst.suffix.subset hv)).trans (hst.number_eq v hv)
  number_ge v hv hnew := by
    by_cases ht : v ∈ t.stack
    · rw [htr.number_eq v ht]
      exact hst.number_ge v ht hnew
    · exact Nat.le_trans hst.met_le (htr.number_ge v hv ht)
  met v hv := htr.met v (hst.met v hv)
  met_le := Nat.le_trans hst.met_le htr.met_le

theorem evolves_meet (hs : Sound g opened s) (hv : s.mark v = .unmet) : Evolves s (s.meet v) := by
  have hlt : v < s.marks.size := hs.lt_size_marks hv
  refine ⟨List.suffix_cons v s.stack, ?_, ?_, ?_, Nat.le_succ s.met⟩
  · -- what is on the stack has been met, so it is not `v`
    intro w hw
    rw [number_meet hlt, if_neg]
    exact fun heq => hs.met (heq ▸ hw) hv
  · -- only `v` has come on it
    intro w hw hnew
    have hwv : w = v := (List.mem_cons.mp hw).resolve_right hnew
    rw [number_meet hlt, if_pos hwv]
  · intro w hw
    rw [mark_meet hlt]
    split
    · exact Mark.noConfusion
    · exact hw

/-! ### Looking at successors -/

/-- What the exploration of `v` comes to that began at `s` and ended at `t` with the answer
`low`. -/
structure Explores (g : Digraph) (opened : List Nat) (v : Nat) (s : Scan) (low : Nat) (t : Scan) :
    Prop where
  /-- The scan is sound, and `v` is not open. -/
  sound : Sound g opened t
  /-- Nothing has been forgotten. -/
  evolves : Evolves s t
  /-- The node has been met. -/
  met : t.mark v ≠ .unmet
  /-- No arc leads from what has come on the stack to what has a number below the answer. -/
  low_le_of_arc : ∀ x ∈ t.stack, x ∉ s.stack → ∀ y ∈ t.stack, g.Arc x y → low ≤ t.number y
  /-- An answer below the number of `v` is the number of a node that `v` reaches. -/
  reaches : low < s.met → ∃ y ∈ s.stack, s.number y = low ∧ g.Reaches v y

/-- Where the exploration of `v` that began at `s` stands when it has looked at the successors
`done` and run into the number `low`. -/
structure Looks (g : Digraph) (opened : List Nat) (v : Nat) (s : Scan) (done : List Nat)
    (low : Nat) (t : Scan) : Prop where
  /-- The scan is sound, and `v` is the latest open node. -/
  sound : Sound g (v :: opened) t
  /-- Nothing has been forgotten since `v` was met. -/
  evolves : Evolves (s.meet v) t
  /-- The successors have been met. -/
  met : ∀ w ∈ done, t.mark w ≠ .unmet
  /-- The number is at most that of `v`. -/
  low_le : low ≤ s.met
  /-- No arc leads from what has come on the stack to what has a number below it, except arcs of
  `v` that have not been looked at. -/
  low_le_of_arc : ∀ x ∈ t.stack, x ∉ s.stack → ∀ y ∈ t.stack, g.Arc x y →
    (x = v → y ∈ done) → low ≤ t.number y
  /-- It is the number of a node that `v` reaches. -/
  reaches : ∃ y ∈ t.stack, t.number y = low ∧ g.Reaches v y

theorem met_concat {done : List Nat} (hdone : ∀ x ∈ done, t.mark x ≠ .unmet)
    (hw : t.mark w ≠ .unmet) : ∀ x ∈ done ++ [w], t.mark x ≠ .unmet := by
  intro x hx
  rcases List.mem_append.mp hx with hx | hx
  · exact hdone x hx
  · exact List.mem_singleton.mp hx ▸ hw

theorem mem_of_mem_concat {done : List Nat} (hy : y ∈ done ++ [w]) (hne : y ≠ w) : y ∈ done := by
  rcases List.mem_append.mp hy with hy | hy
  · exact hy
  · exact absurd (List.mem_singleton.mp hy) hne

theorem looks_meet (hs : Sound g opened s) (hv : s.mark v = .unmet)
    (hreach : ∀ x ∈ opened, g.Reaches x v) : Looks g opened v s [] s.met (s.meet v) := by
  have hlt : v < s.marks.size := hs.lt_size_marks hv
  refine ⟨hs.meet hv hreach, Evolves.refl _, by simp, Nat.le_refl _, ?_,
    v, List.mem_cons_self, by rw [number_meet hlt, if_pos rfl], Reaches.refl g v⟩
  -- only `v` has come on the stack, and none of its arcs has been looked at
  intro x hx hnew y _ _ hdone
  have hxv : x = v := (List.mem_cons.mp hx).resolve_right hnew
  exact absurd (hdone hxv) (List.not_mem_nil)

/-- A closed successor changes nothing. -/
theorem Looks.closed {done : List Nat} (ht : Looks g opened v s done low t)
    (hw : t.mark w = .closed) : Looks g opened v s (done ++ [w]) low t := by
  have hwmet : t.mark w ≠ .unmet := by
    rw [hw]
    exact Mark.noConfusion
  refine ⟨ht.sound, ht.evolves, met_concat ht.met hwmet, ht.low_le, ?_, ht.reaches⟩
  intro x hx hnew y hy hxy hdone
  -- what is on the stack is not the closed node
  have hyw : y ≠ w := fun heq => ht.sound.not_closed hy (heq ▸ hw)
  apply ht.low_le_of_arc x hx hnew y hy hxy
  intro hxv
  exact mem_of_mem_concat (hdone hxv) hyw

/-- A successor on the stack is run into. -/
theorem Looks.growing {done : List Nat} {k : Nat} (ht : Looks g opened v s done low t)
    (harc : g.Arc v w) (hw : t.mark w = .growing k) :
    Looks g opened v s (done ++ [w]) (min low k) t := by
  have hwstack : w ∈ t.stack := ht.sound.mem_stack_of_mark hw
  have hwk : t.number w = k := number_of_mark hw
  refine ⟨ht.sound, ht.evolves, met_concat ht.met (ht.sound.met hwstack),
    le_trans (min_le_left low k) ht.low_le, ?_, ?_⟩
  · -- an arc leads to `w` itself, or it is one that had been accounted for
    intro x hx hnew y hy hxy hdone
    by_cases hyw : y = w
    · rw [hyw, hwk]
      exact min_le_right low k
    · refine le_trans (min_le_left low k) (ht.low_le_of_arc x hx hnew y hy hxy ?_)
      intro hxv
      exact mem_of_mem_concat (hdone hxv) hyw
  · -- the lower of the two numbers is that of a node `v` leads to, whichever it is
    rcases min_choice low k with hmin | hmin
    · rw [hmin]
      exact ht.reaches
    · rw [hmin]
      exact ⟨w, hwstack, hwk, harc.reaches⟩

/-- An unmet successor is explored; what its exploration runs into, `v` runs into. -/
theorem Looks.explores {done : List Nat} {low' : Nat} (ht : Looks g opened v s done low t)
    (harc : g.Arc v w) (hw : t.mark w = .unmet)
    (hexp : Explores g (v :: opened) w t low' r) :
    Looks g opened v s (done ++ [w]) (min low low') r := by
  have hnum : s.met ≤ t.met := Nat.le_trans (Nat.le_succ s.met) ht.evolves.met_le
  have hdone' : ∀ x ∈ done, r.mark x ≠ .unmet := fun x hx => hexp.evolves.met x (ht.met x hx)
  refine ⟨hexp.sound, ht.evolves.trans hexp.evolves, met_concat hdone' hexp.met,
    le_trans (min_le_left _ _) ht.low_le, ?_, ?_⟩
  · intro x hx hnew y hy hxy hdone
    by_cases hyt : y ∈ t.stack
    · by_cases hxt : x ∈ t.stack
      · -- both ends were there before `w` was explored
        have hyw : y ≠ w := fun heq => ht.sound.met hyt (heq ▸ hw)
        rw [hexp.evolves.number_eq y hyt]
        refine le_trans (min_le_left _ _) (ht.low_le_of_arc x hxt hnew y hyt hxy ?_)
        intro hxv
        exact mem_of_mem_concat (hdone hxv) hyw
      · exact le_trans (min_le_right _ _) (hexp.low_le_of_arc x hx hxt y hy hxy)
    · -- what has come on the stack since has a higher number than `v`
      have hge : t.met ≤ r.number y := hexp.evolves.number_ge y hy hyt
      calc min low low' ≤ low := min_le_left low low'
        _ ≤ s.met := ht.low_le
        _ ≤ t.met := hnum
        _ ≤ r.number y := hge
  · rcases lt_or_ge low' low with hlt | hge
    · -- an answer below the number of `v` is the number of a node that `w` reaches
      obtain ⟨y, hy, hnumber, hwy⟩ :=
        hexp.reaches (lt_of_lt_of_le hlt (le_trans ht.low_le hnum))
      refine ⟨y, hexp.evolves.suffix.subset hy, ?_, harc.reaches.trans hwy⟩
      rw [hexp.evolves.number_eq y hy, hnumber, min_eq_right (le_of_lt hlt)]
    · obtain ⟨y, hy, hnumber, hvy⟩ := ht.reaches
      refine ⟨y, hexp.evolves.suffix.subset hy, ?_, hvy⟩
      rw [hexp.evolves.number_eq y hy, hnumber, min_eq_left hge]

section Explore

variable {explore : Nat → Scan → Nat × Scan}

/-- Looking at a successor, whatever is known about it. -/
theorem Looks.look {done : List Nat} {found : Nat × Scan}
    (hexplore : ∀ w t, g.Arc v w → Sound g (v :: opened) t → t.mark w = .unmet →
      Explores g (v :: opened) w t (explore w t).1 (explore w t).2)
    (hfound : Looks g opened v s done found.1 found.2) (harc : g.Arc v w) :
    Looks g opened v s (done ++ [w]) (Scan.look explore found w).1
      (Scan.look explore found w).2 := by
  cases hw : found.2.mark w with
  | unmet =>
    simp only [Scan.look, hw]
    exact hfound.explores harc hw (hexplore w found.2 harc hfound.sound hw)
  | growing k =>
    simp only [Scan.look, hw]
    exact hfound.growing harc hw
  | closed =>
    simp only [Scan.look, hw]
    exact hfound.closed hw

theorem Looks.foldl {ws done : List Nat}
    (hexplore : ∀ w t, g.Arc v w → Sound g (v :: opened) t → t.mark w = .unmet →
      Explores g (v :: opened) w t (explore w t).1 (explore w t).2)
    (hws : ∀ w ∈ ws, g.Arc v w) (found : Nat × Scan)
    (hfound : Looks g opened v s done found.1 found.2) :
    Looks g opened v s (done ++ ws) (ws.foldl (Scan.look explore) found).1
      (ws.foldl (Scan.look explore) found).2 := by
  -- the successors are taken off `ws` and put behind `done`
  induction ws generalizing done found with
  | nil => simpa using hfound
  | cons w ws ih =>
    have hstep := hfound.look hexplore (hws w List.mem_cons_self)
    have hrest := ih (fun x hx => hws x (List.mem_cons_of_mem w hx)) (Scan.look explore found w)
      hstep
    rw [List.append_assoc] at hrest
    exact hrest

end Explore

/-! ### Exploring a node -/

/-- The node being explored has the number that was next when it was met. -/
theorem Looks.mark_eq {done : List Nat} (hs : Sound g opened s) (hv : s.mark v = .unmet)
    (ht : Looks g opened v s done low t) : t.mark v = .growing s.met := by
  have hnumber : t.number v = s.met := by
    rw [ht.evolves.number_eq v List.mem_cons_self, number_meet (hs.lt_size_marks hv), if_pos rfl]
  rw [← hnumber]
  exact (ht.sound.mem_stack_iff v).mp (ht.evolves.suffix.subset List.mem_cons_self)

/-- The end of an exploration in which all successors have been looked at. -/
theorem Looks.finish (hs : Sound g opened s) (hv : s.mark v = .unmet)
    (ht : Looks g opened v s (g.succs v) low t) :
    Explores g opened v s low (if low = s.met then t.close v else t) := by
  have hmet : ∀ w, g.Arc v w → t.mark w ≠ .unmet := fun w hw => ht.met w hw
  have hevolves : Evolves s t := (evolves_meet hs hv).trans ht.evolves
  have hvnumber : t.number v = s.met := number_of_mark (ht.mark_eq hs hv)
  have hvmet : t.mark v ≠ .unmet := by
    rw [ht.mark_eq hs hv]
    exact Mark.noConfusion
  split
  · next hlow =>
    -- nothing below `v` has been run into, so `v` is the lowest of its component
    obtain ⟨front, hstack⟩ := ht.evolves.suffix
    have hstack : t.stack = front ++ v :: s.stack := hstack.symm
    have hsplit : front ++ v :: s.stack = (front ++ [v]) ++ s.stack := by simp
    have hnodup : ((front ++ [v]) ++ s.stack).Nodup :=
      hsplit ▸ hstack ▸ ht.sound.nodup_stack
    have hvfront : v ∉ front := fun hmem =>
      (List.nodup_append.mp (List.nodup_append.mp hnodup).1).2.2 v hmem v List.mem_cons_self rfl
    have hnew : ∀ x ∈ front ++ [v], x ∉ s.stack := fun x hx hmem =>
      (List.nodup_append.mp hnodup).2.2 x hx x hmem rfl
    have hleave : ∀ x ∈ front ++ [v], ∀ y ∈ s.stack, ¬ g.Arc x y := by
      intro x hx y hy harc
      -- `y` has a number below that of `v`, and nothing below that has been run into
      have hxt : x ∈ t.stack := by
        rw [hstack, hsplit]
        exact List.mem_append_left s.stack hx
      have hle := ht.low_le_of_arc x hxt (hnew x hx) y (hevolves.suffix.subset hy) harc
        fun hxv => hxv ▸ harc
      rw [hevolves.number_eq y hy] at hle
      have := hs.number_lt y hy
      omega
    obtain ⟨hstack', -, hmark⟩ := close_eq hstack hvfront
    have hclosed : ∀ w, t.mark w ≠ .unmet → (t.close v).mark w ≠ .unmet := fun w hw => by
      rw [hmark]
      split
      · exact Mark.noConfusion
      · exact hw
    refine ⟨ht.sound.close hstack hs.opened_sublist hmet hleave, ⟨hstack' ▸ List.suffix_refl _,
      ?_, ?_, fun w hw => hclosed w (hevolves.met w hw), hevolves.met_le⟩, hclosed v hvmet, ?_,
      fun hlow' => absurd hlow (Nat.ne_of_lt hlow')⟩
    · -- what was on the stack is not in the component
      intro w hw
      have hwtop : w ∉ front ++ [v] := fun hmem => hnew w hmem hw
      rw [← hevolves.number_eq w hw, number, hmark, if_neg hwtop, ← number]
    -- nothing that has come on the stack is left there
    · intro w hw hfresh
      exact absurd (hstack' ▸ hw) hfresh
    · intro x hx hfresh
      exact absurd (hstack' ▸ hx) hfresh
  · next hne =>
    have hlow : low < s.met := Nat.lt_of_le_of_ne ht.low_le hne
    obtain ⟨y, hy, hnumber, hvy⟩ := ht.reaches
    refine ⟨ht.sound.retire hmet hy (by omega) hvy, hevolves, hvmet,
      fun x hx hnew y hy harc => ht.low_le_of_arc x hx hnew y hy harc fun hxv => hxv ▸ harc,
      fun _ => ?_⟩
    -- the node run into was there before `v` was met
    have hold : y ∈ s.stack := by
      by_contra hnew
      have := hevolves.number_ge y hy hnew
      omega
    exact ⟨y, hold, by rw [← hevolves.number_eq y hold, hnumber], hvy⟩

/-- The open nodes are distinct, and an unmet node is none of them. -/
theorem Sound.length_opened_lt (hs : Sound g opened s) (hv : s.mark v = .unmet)
    (hreach : ∀ x ∈ opened, g.Reaches x v) : opened.length < g.size := by
  have hmeet := hs.meet hv hreach
  have hnodup : (v :: opened).Nodup := hmeet.opened_sublist.nodup hmeet.nodup_stack
  have hsubset : v :: opened ⊆ List.range g.size := fun x hx =>
    List.mem_range.mpr (hmeet.lt_size_of_mark
      (hmeet.not_closed (hmeet.opened_sublist.subset hx)))
  have hlength := (hnodup.subperm hsubset).length_le
  rw [List.length_range, List.length_cons] at hlength
  omega

/-- Exploring an unmet node that all open nodes reach; the open nodes are distinct, so with more
of them the depth that is left may be less. -/
theorem explores_explore (depth : Nat) (hs : Sound g opened s) (hv : s.mark v = .unmet)
    (hreach : ∀ x ∈ opened, g.Reaches x v) (hdepth : g.size ≤ depth + opened.length) :
    Explores g opened v s (explore g depth v s).1 (explore g depth v s).2 := by
  induction depth generalizing opened v s with
  | zero =>
    -- there would be as many open nodes as nodes
    have hlength := hs.length_opened_lt hv hreach
    omega
  | succ depth ih =>
    have hexplore : ∀ w t, g.Arc v w → Sound g (v :: opened) t → t.mark w = .unmet →
        Explores g (v :: opened) w t (explore g depth w t).1 (explore g depth w t).2 := by
      intro w t harc ht hw
      refine ih ht hw ?_ (by rw [List.length_cons]; omega)
      -- the open nodes reach `w` by way of `v`
      intro x hx
      rcases List.mem_cons.mp hx with rfl | hx
      · exact harc.reaches
      · exact (hreach x hx).trans harc.reaches
    have hsuccs : ∀ w ∈ g.succs v, g.Arc v w := fun w hw => hw
    have hfold := Looks.foldl hexplore hsuccs (s.met, s.meet v) (looks_meet hs hv hreach)
    unfold explore
    exact Looks.finish hs hv hfold

/-! ### The whole scan -/

theorem sound_start (g : Digraph) : Sound g [] (start g) := by
  have hmark : ∀ v, v < g.size → (start g).mark v = .unmet := fun v hv => by
    simp [start, mark, hv]
  have hout : ∀ v, ¬ v < g.size → (start g).mark v = .closed := fun v hv => by
    simp [start, mark, hv]
  refine ⟨by simp [start], ?_, List.Pairwise.nil, by simp [start], List.Sublist.refl _, ?_,
    by simp [start], by simp, by simp [start], ?_, by simp [start], List.Pairwise.nil⟩
  · -- no node is growing
    intro v
    by_cases hv : v < g.size
    · rw [hmark v hv]
      exact iff_of_false List.not_mem_nil Mark.noConfusion
    · rw [hout v hv]
      exact iff_of_false List.not_mem_nil Mark.noConfusion
  · -- nor closed
    intro u v hu harc
    rw [hmark u (source_lt harc)] at hu
    cases hu
  · intro v hv
    rw [hmark v hv]
    refine iff_of_false Mark.noConfusion ?_
    rintro ⟨c, hc, -⟩
    cases hc

/-- Without open nodes there are no growing ones. -/
theorem Sound.stack_eq_nil (hs : Sound g [] s) : s.stack = [] := by
  refine List.eq_nil_iff_forall_not_mem.mpr ?_
  intro y hy
  obtain ⟨x, hx, -⟩ := hs.exists_opened y hy
  cases hx

theorem Sound.root (hs : Sound g [] s) (v : Nat) :
    Sound g [] (root g s v) ∧ (root g s v).mark v ≠ .unmet ∧
      ∀ w, s.mark w ≠ .unmet → (root g s v).mark w ≠ .unmet := by
  unfold Scan.root
  split
  · next hv =>
    have hexp := explores_explore g.size hs hv (fun x hx => by cases hx) (Nat.le_add_right _ _)
    exact ⟨hexp.sound, hexp.met, hexp.evolves.met⟩
  · next hv => exact ⟨hs, hv, fun _ => id⟩

theorem Sound.foldl_root (vs : List Nat) (hs : Sound g [] s) :
    Sound g [] (vs.foldl (Scan.root g) s) ∧
      (∀ v ∈ vs, (vs.foldl (Scan.root g) s).mark v ≠ .unmet) ∧
      ∀ w, s.mark w ≠ .unmet → (vs.foldl (Scan.root g) s).mark w ≠ .unmet := by
  induction vs generalizing s with
  | nil => exact ⟨hs, by simp, fun _ => id⟩
  | cons v vs ih =>
    obtain ⟨hroot, hv, hmet⟩ := hs.root v
    obtain ⟨hsound, hvs, hmet'⟩ := ih hroot
    refine ⟨hsound, ?_, fun w hw => hmet' w (hmet w hw)⟩
    -- a root has been met at its turn, and stays met
    intro w hw
    rcases List.mem_cons.mp hw with rfl | hw
    · exact hmet' w hv
    · exact hvs w hw

end Scan

/-! ### The components -/

variable {c d : List Nat}

theorem isComponent_of_mem (hc : c ∈ g.components) : g.IsComponent c :=
  ((Scan.sound_start g).foldl_root (List.range g.size)).1.isComponent c (List.mem_reverse.mp hc)

theorem disjoint_components (g : Digraph) : g.components.Pairwise List.Disjoint := by
  have hdisjoint := ((Scan.sound_start g).foldl_root (List.range g.size)).1.disjoint
  exact List.pairwise_reverse.mpr (hdisjoint.imp List.Disjoint.symm)

theorem exists_mem_components (hv : v < g.size) : ∃ c ∈ g.components, v ∈ c := by
  obtain ⟨hsound, hmet, -⟩ := (Scan.sound_start g).foldl_root (List.range g.size)
  rcases hsound.closed_or_mem_stack (hmet v (List.mem_range.mpr hv)) with hclosed | hmem
  · obtain ⟨c, hc, hvc⟩ := (hsound.closed_iff v hv).mp hclosed
    exact ⟨c, List.mem_reverse.mpr hc, hvc⟩
  -- nothing is growing any more at the end
  · rw [hsound.stack_eq_nil] at hmem
    cases hmem

end LoadOrder.Digraph
