import Mathlib.Data.List.Chain
import Mathlib.Data.List.Nodup

/-!
# Places in an order

An order of things is a list that holds each of them once. `Precedes order a b` says that `a`
stands somewhere before `b`, and `Abuts order a b` that it stands right before it. On a list
without repeats the first is a strict order (`Precedes.trans`, `Precedes.ne`), it can be read off
any split of the list at `b` (`precedes_split_iff`), and some things stand in a given order `xs`
exactly if each of them precedes the next (`sublist_iff_precedes`).

What stands in which order does not change if all things are renamed, as long as no two of them
get one name (`map_sublist_map_iff`, `precedes_map_iff`).
-/

namespace LoadOrder

variable {α β : Type} {order : List α} {a b c : α}

/-- `a` stands somewhere before `b`. -/
def Precedes (order : List α) (a b : α) : Prop :=
  [a, b].Sublist order

/-- `a` stands right before `b`. -/
def Abuts (order : List α) (a b : α) : Prop :=
  [a, b] <:+: order

theorem Precedes.mem_right (hab : Precedes order a b) : b ∈ order :=
  hab.subset (List.mem_cons_of_mem a List.mem_cons_self)

theorem Precedes.ne (hnodup : order.Nodup) (hab : Precedes order a b) : a ≠ b := by
  rintro rfl
  -- a list without repeats has no sublist with repeats
  have hpair : [a, a].Nodup := hab.nodup hnodup
  simp at hpair

/-- Of two things of an order one stands before the other. -/
theorem precedes_or_precedes (ha : a ∈ order) (hb : b ∈ order) (hne : a ≠ b) :
    Precedes order a b ∨ Precedes order b a := by
  obtain ⟨front, back, rfl⟩ := List.append_of_mem hb
  rcases List.mem_append.mp ha with hfront | hback
  · exact Or.inl ((List.singleton_sublist.mpr hfront).append
      (List.singleton_sublist.mpr List.mem_cons_self))
  · have ha : a ∈ back := (List.mem_cons.mp hback).resolve_left hne
    exact Or.inr (((List.singleton_sublist.mpr ha).cons_cons b).trans
      (List.sublist_append_right front (b :: back)))

/-- Before `b` stands exactly what a split of the list at `b` has on its left. -/
theorem precedes_split_iff {front back : List α} (hnodup : (front ++ b :: back).Nodup) :
    Precedes (front ++ b :: back) a b ↔ a ∈ front := by
  have hb : b ∉ front ∧ b ∉ back := by
    rw [List.nodup_middle, List.nodup_cons, List.mem_append, not_or] at hnodup
    exact hnodup.1
  refine ⟨?_, ?_⟩
  · intro hab
    obtain ⟨xs, ys, hsplit, hxs, hys⟩ := List.sublist_append_iff.mp hab
    -- `b` is in the pair's second part, and it cannot be the whole of it with `a` left over there
    rcases xs with _ | ⟨x, xs⟩
    · have hpair : [a, b].Sublist (b :: back) := by
        rw [List.nil_append] at hsplit
        exact hsplit ▸ hys
      rcases List.cons_sublist_cons'.mp hpair with hback | ⟨-, hback⟩
      · exact absurd (hback.subset (List.mem_cons_of_mem a List.mem_cons_self)) hb.2
      · exact absurd (hback.subset List.mem_cons_self) hb.2
    -- so the pair's first part starts with `a`
    · have hx : a = x := (List.cons.inj hsplit).1
      exact hxs.subset (hx ▸ List.mem_cons_self)
  · intro ha
    -- one thing from each side of the split
    exact (List.singleton_sublist.mpr ha).append (List.singleton_sublist.mpr List.mem_cons_self)

/-- Behind `a` stands exactly what a split of the list at `a` has on its right. -/
theorem precedes_split_right_iff {front back : List α} (hnodup : (front ++ a :: back).Nodup) :
    Precedes (front ++ a :: back) a b ↔ b ∈ back := by
  refine ⟨?_, ?_⟩
  · intro hab
    have hne : a ≠ b := hab.ne hnodup
    have hb : b ∈ front ++ a :: back := hab.mem_right
    rw [List.mem_append, List.mem_cons] at hb
    rcases hb with hfront | rfl | hback
    · -- `b` would stand on both sides of `a`
      have hba : Precedes (front ++ a :: back) b a := (precedes_split_iff hnodup).mpr hfront
      obtain ⟨l₁, l₂, hsplit⟩ := List.append_of_mem hfront
      rw [hsplit, List.append_assoc, List.cons_append] at hab hnodup
      have ha : a ∈ l₁ := (precedes_split_iff hnodup).mp hab
      have hnotMem : a ∉ l₁ := by
        rw [List.nodup_append] at hnodup
        exact fun hmem => hnodup.2.2 a hmem a (by simp) rfl
      exact absurd ha hnotMem
    · exact absurd rfl hne
    · exact hback
  · intro hb
    have hpair : [a, b].Sublist (a :: back) :=
      List.Sublist.cons_cons a (List.singleton_sublist.mpr hb)
    exact hpair.trans (List.sublist_append_right front (a :: back))

/-- Of the things of an order the one with the lower index comes first. -/
theorem precedes_iff_idxOf_lt [BEq α] [LawfulBEq α] (hnodup : order.Nodup) (hb : b ∈ order) :
    Precedes order a b ↔ order.idxOf a < order.idxOf b := by
  obtain ⟨front, back, rfl⟩ := List.append_of_mem hb
  have hfront : b ∉ front := by
    rw [List.nodup_append] at hnodup
    exact fun hmem => hnodup.2.2 b hmem b List.mem_cons_self rfl
  rw [precedes_split_iff hnodup, List.idxOf_append_of_notMem hfront, List.idxOf_cons_self,
    Nat.add_zero]
  by_cases ha : a ∈ front
  · rw [List.idxOf_append_of_mem ha]
    exact iff_of_true ha (List.idxOf_lt_length_of_mem ha)
  · rw [List.idxOf_append_of_notMem ha]
    exact iff_of_false ha (Nat.not_lt.mpr (Nat.le_add_right _ _))

theorem Precedes.trans (hnodup : order.Nodup) (hab : Precedes order a b)
    (hbc : Precedes order b c) : Precedes order a c := by
  -- split at `b`: what comes before it is on the left, what comes behind it on the right
  obtain ⟨front, back, rfl⟩ := List.append_of_mem hab.mem_right
  have ha : a ∈ front := (precedes_split_iff hnodup).mp hab
  have hc : c ∈ back := (precedes_split_right_iff hnodup).mp hbc
  exact (List.singleton_sublist.mpr ha).append
    (List.singleton_sublist.mpr (List.mem_cons_of_mem b hc))

/-- Things of a list stand there in the order `xs` exactly if each precedes the next. -/
theorem sublist_iff_isChain (hnodup : order.Nodup) {xs : List α} (hmem : xs ⊆ order) :
    xs.Sublist order ↔ xs.IsChain (Precedes order) := by
  induction xs with
  | nil => simp
  | cons x xs ih =>
    cases xs with
    | nil => simpa using hmem
    | cons y xs =>
      have htail : (y :: xs) ⊆ order := fun z hz => hmem (List.mem_cons_of_mem x hz)
      rw [List.isChain_cons_cons, ← ih htail]
      refine ⟨?_, ?_⟩
      · intro hsub
        -- the first two are such a pair, and the rest is such a list
        exact ⟨((List.nil_sublist xs).cons_cons y |>.cons_cons x).trans hsub,
          (List.sublist_cons_self x (y :: xs)).trans hsub⟩
      · rintro ⟨hxy, hys⟩
        obtain ⟨front, back, rfl⟩ := List.append_of_mem hxy.mem_right
        have hx : x ∈ front := (precedes_split_iff hnodup).mp hxy
        -- what follows `y` in `xs` lies behind `y` in the list
        have hback : xs.Sublist back := by
          obtain ⟨us, vs, hsplit, hus, hvs⟩ := List.sublist_append_iff.mp hys
          have hy : y ∉ front := by
            rw [List.nodup_append] at hnodup
            exact fun hmem => hnodup.2.2 y hmem y (by simp) rfl
          -- the split falls before `y`, as otherwise `y` would be on the left as well
          rcases us with _ | ⟨u, us⟩
          · rw [List.nil_append] at hsplit
            rw [← hsplit] at hvs
            exact List.cons_sublist_cons.mp hvs
          · have hu : y = u := (List.cons.inj hsplit).1
            exact absurd (hus.subset (hu ▸ List.mem_cons_self)) hy
        exact (List.singleton_sublist.mpr hx).append (hback.cons_cons y)

/-- A chain is a list in which everything is related to what stands right behind it. -/
theorem isChain_iff_abuts {R : α → α → Prop} {xs : List α} :
    xs.IsChain R ↔ ∀ a b, Abuts xs a b → R a b := by
  rw [List.isChain_iff_forall_rel_of_append_cons_cons]
  refine ⟨?_, ?_⟩
  · rintro hchain a b ⟨front, back, rfl⟩
    exact @hchain a b front back (by simp)
  · rintro hnext a b front back rfl
    exact hnext a b ⟨front, back, by simp⟩

theorem sublist_iff_precedes (hnodup : order.Nodup) {xs : List α} (hmem : xs ⊆ order) :
    xs.Sublist order ↔ ∀ a b, Abuts xs a b → Precedes order a b := by
  rw [sublist_iff_isChain hnodup hmem, isChain_iff_abuts]

theorem abuts_iff_getElem? {xs : List α} :
    Abuts xs a b ↔ ∃ i, xs[i]? = some a ∧ xs[i + 1]? = some b := by
  refine ⟨?_, ?_⟩
  · rintro ⟨front, back, rfl⟩
    exact ⟨front.length, by simp, by simp⟩
  · rintro ⟨i, ha, hb⟩
    obtain ⟨hlt, rfl⟩ := List.getElem?_eq_some_iff.mp hb
    obtain ⟨_, rfl⟩ := List.getElem?_eq_some_iff.mp ha
    refine ⟨xs.take i, xs.drop (i + 2), ?_⟩
    rw [List.append_assoc]
    simp

/-- From step to step everything in a list reaches the last. -/
theorem reflTransGen_abuts_getLast {xs : List α} (hlast : xs.getLast? = some b) (ha : a ∈ xs) :
    Relation.ReflTransGen (Abuts xs) a b := by
  obtain ⟨front, back, hsplit⟩ := List.append_of_mem ha
  have hchain : (a :: back).IsChain (Abuts xs) :=
    (isChain_iff_abuts.mpr fun _ _ hab => hab).suffix ⟨front, hsplit.symm⟩
  refine List.relationReflTransGen_of_exists_isChain_cons back hchain (Option.some.inj ?_)
  rw [← hlast, hsplit, List.getLast?_append_of_ne_nil _ (List.cons_ne_nil a back),
    List.getLast?_eq_some_getLast]

/-! ### Renaming -/

section Renaming

variable {f : α → β}

theorem map_sublist_map_iff (hf : ∀ x ∈ order, ∀ y ∈ order, f x = f y → x = y) {xs : List α}
    (hmem : xs ⊆ order) : (xs.map f).Sublist (order.map f) ↔ xs.Sublist order := by
  refine ⟨fun hsub => ?_, List.Sublist.map f⟩
  obtain ⟨ys, hys, hmap⟩ := List.sublist_map_iff.mp hsub
  -- the things of `order` that have these names are the given ones
  have heq : xs = ys := by
    clear hsub
    induction xs generalizing ys with
    | nil => exact (List.map_eq_nil_iff.mp hmap.symm).symm
    | cons x xs ih =>
      cases ys with
      | nil => cases hmap
      | cons y ys =>
        rw [List.map_cons, List.map_cons, List.cons.injEq] at hmap
        have hx : x ∈ order := hmem List.mem_cons_self
        have hy : y ∈ order := hys.subset List.mem_cons_self
        rw [hf x hx y hy hmap.1, ih (fun z hz => hmem (List.mem_cons_of_mem x hz)) ys
          ((List.sublist_cons_self y ys).trans hys) hmap.2]
  exact heq ▸ hys

theorem precedes_map_iff (hf : ∀ x ∈ order, ∀ y ∈ order, f x = f y → x = y) (ha : a ∈ order)
    (hb : b ∈ order) : Precedes (order.map f) (f a) (f b) ↔ Precedes order a b := by
  have hmem : [a, b] ⊆ order := by simp [ha, hb]
  exact map_sublist_map_iff hf hmem

end Renaming

end LoadOrder
