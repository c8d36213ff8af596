import LoadOrder.Digraph.NodeSet

/-!
# What a search has met

Which nodes a set contains, and which are still free, once nodes have been put in: one
(`isFree_insert_iff`), those of a list (`contains_insertAll`, `length_filter_insertAll_lt`), or the
free ones of a list (`contains_gather`), which are then exactly the new members
(`contains_or_mem_gather`). The list was all free and without repeats exactly if all of it is
gathered (`length_gather_eq_iff`).
-/

namespace LoadOrder.NodeSet

variable {n : Nat} {s : NodeSet n} {v w : Nat}

/-- What is left free once the free node `v` has been met. -/
theorem isFree_insert_iff (hv : s.isFree v) : (s.insert v).isFree w ↔ s.isFree w ∧ w ≠ v := by
  simp only [isFree_eq, contains_insert, Bool.and_eq_true, decide_eq_true_eq,
    Bool.not_eq_true'] at hv ⊢
  simp only [hv.1, decide_true, Bool.true_and, Bool.or_eq_false_iff, beq_eq_false_iff_ne]
  exact ⟨fun h => ⟨⟨h.1, h.2.2⟩, h.2.1⟩, fun h => ⟨h.1.1, h.2, h.1.2⟩⟩

theorem contains_insertAll (vs : List Nat) :
    (s.insertAll vs).contains w ↔ s.contains w ∨ w < n ∧ w ∈ vs := by
  induction vs generalizing s with
  | nil => simp [insertAll]
  | cons v vs ih =>
    change ((s.insert v).insertAll vs).contains w ↔ _
    rw [ih, contains_insert, Bool.or_eq_true, Bool.and_eq_true, decide_eq_true_eq,
      beq_iff_eq, List.mem_cons]
    refine ⟨?_, ?_⟩
    · rintro ((⟨hv, rfl⟩ | hs) | ⟨hw, hmem⟩)
      · exact Or.inr ⟨hv, Or.inl rfl⟩
      · exact Or.inl hs
      · exact Or.inr ⟨hw, Or.inr hmem⟩
    · rintro (hs | ⟨hw, rfl | hmem⟩)
      · exact Or.inl (Or.inr hs)
      · exact Or.inl (Or.inl ⟨hw, rfl⟩)
      · exact Or.inr ⟨hw, hmem⟩

/-- A list that holds an unmet node of `vs` leaves fewer of them unmet. -/
theorem length_filter_insertAll_lt {vs ws : List Nat} (hw : w < n) (hvs : w ∈ vs)
    (hnew : ¬ s.contains w) (hws : w ∈ ws) :
    (vs.filter fun x => !(s.insertAll ws).contains x).length <
      (vs.filter fun x => !s.contains x).length := by
  have hfilter : (vs.filter fun x => !(s.insertAll ws).contains x) =
      (vs.filter fun x => !s.contains x).filter fun x => !(s.insertAll ws).contains x := by
    rw [List.filter_filter]
    refine List.filter_congr ?_
    intro x _
    -- what has been met stays met
    cases hx : s.contains x with
    | false => simp
    | true => simp [(contains_insertAll (s := s) (w := x) ws).mpr (Or.inl hx)]
  rw [hfilter, List.length_filter_lt_length_iff_exists]
  refine ⟨w, List.mem_filter.mpr ⟨hvs, by simpa using hnew⟩, ?_⟩
  simp [(contains_insertAll (s := s) (w := w) ws).mpr (Or.inr ⟨hw, hws⟩)]

theorem contains_gather (vs : List Nat) :
    (s.gather vs).2.contains w ↔ s.contains w ∨ w < n ∧ w ∈ vs := by
  induction vs generalizing s with
  | nil => simp [gather]
  | cons v vs ih =>
    unfold gather
    split
    · -- `v` is gathered
      next hfree =>
      have hv : v < n := by
        rw [isFree_eq, Bool.and_eq_true, decide_eq_true_eq] at hfree
        exact hfree.1
      rw [ih, contains_insert]
      simp only [hv, decide_true, Bool.true_and, Bool.or_eq_true, beq_iff_eq, List.mem_cons]
      refine ⟨?_, ?_⟩
      · rintro ((rfl | hs) | ⟨hw, hmem⟩)
        · exact Or.inr ⟨hv, Or.inl rfl⟩
        · exact Or.inl hs
        · exact Or.inr ⟨hw, Or.inr hmem⟩
      · rintro (hs | ⟨hw, rfl | hmem⟩)
        · exact Or.inl (Or.inr hs)
        · exact Or.inl (Or.inl rfl)
        · exact Or.inr ⟨hw, hmem⟩
    · -- `v` is passed over: it has been met, or it is no node
      next hfree =>
      have hmet : v < n → s.contains v := by
        rw [isFree_eq, Bool.and_eq_true, decide_eq_true_eq, not_and, Bool.not_eq_true,
          Bool.not_eq_false'] at hfree
        exact hfree
      rw [ih, List.mem_cons]
      refine ⟨?_, ?_⟩
      · rintro (hs | ⟨hw, hmem⟩)
        · exact Or.inl hs
        · exact Or.inr ⟨hw, Or.inr hmem⟩
      · rintro (hs | ⟨hw, rfl | hmem⟩)
        · exact Or.inl hs
        · exact Or.inl (hmet hw)
        · exact Or.inr ⟨hw, hmem⟩

/-- What is gathered keeps the order of the list. -/
theorem gather_sublist (s : NodeSet n) (vs : List Nat) : (s.gather vs).1.Sublist vs := by
  induction vs generalizing s with
  | nil => exact List.Sublist.refl _
  | cons v vs ih =>
    unfold gather
    split
    · exact (ih _).cons_cons v
    · exact (ih s).cons v

theorem mem_gather {vs : List Nat} (hw : w ∈ (s.gather vs).1) : w ∈ vs :=
  (gather_sublist s vs).subset hw

theorem isFree_of_mem_gather {vs : List Nat} (hw : w ∈ (s.gather vs).1) : s.isFree w := by
  induction vs generalizing s with
  | nil => cases hw
  | cons v vs ih =>
    rw [gather] at hw
    split at hw
    · next hfree =>
      rcases List.mem_cons.mp hw with rfl | hw
      · exact hfree
      · -- what is gathered later was free even with `v` in the set
        exact ((isFree_insert_iff hfree).mp (ih hw)).1
    · exact ih hw

/-- All of a list is gathered exactly if no node is there twice and all are free. -/
theorem length_gather_eq_iff {vs : List Nat} :
    (s.gather vs).1.length = vs.length ↔ vs.Nodup ∧ ∀ v ∈ vs, s.isFree v := by
  induction vs generalizing s with
  | nil => simp [gather]
  | cons v vs ih =>
    unfold gather
    rw [List.nodup_cons, List.forall_mem_cons]
    split
    · next hfree =>
      rw [List.length_cons, List.length_cons, Nat.succ_inj, ih]
      simp only [isFree_insert_iff hfree]
      -- what is free but for `v` is what is free and is not `v`
      refine ⟨?_, ?_⟩
      · rintro ⟨hnodup, hall⟩
        exact ⟨⟨fun hv => (hall v hv).2 rfl, hnodup⟩, hfree, fun w hw => (hall w hw).1⟩
      · rintro ⟨⟨hv, hnodup⟩, -, hall⟩
        exact ⟨hnodup, fun w hw => ⟨hall w hw, fun heq => hv (heq ▸ hw)⟩⟩
    · next hfree =>
      refine iff_of_false (fun heq => ?_) fun hall => hfree hall.2.1
      have hle := (gather_sublist s vs).length_le
      rw [heq, List.length_cons] at hle
      omega

theorem contains_or_mem_gather {vs : List Nat} (hw : (s.gather vs).2.contains w) :
    s.contains w ∨ w ∈ (s.gather vs).1 := by
  induction vs generalizing s with
  | nil => exact Or.inl hw
  | cons v vs ih =>
    rw [gather] at hw ⊢
    split at hw
    · -- what is in the set then is `v`, was there before, or is added by the rest of the list
      next hfree =>
      rw [if_pos hfree]
      rcases ih hw with hins | hmem
      · rw [contains_insert, Bool.or_eq_true, Bool.and_eq_true, beq_iff_eq] at hins
        rcases hins with ⟨-, rfl⟩ | hs
        · exact Or.inr List.mem_cons_self
        · exact Or.inl hs
      · exact Or.inr (List.mem_cons_of_mem v hmem)
    · next hfree =>
      rw [if_neg hfree]
      exact ih hw

end LoadOrder.NodeSet
