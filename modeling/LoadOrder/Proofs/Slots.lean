import Mathlib.Data.List.Basic

/-!
# Tables and their slots

A table has a slot for each number below its size. Reading a slot that is not there fails, and so
does writing one (`writeAt?`), while a table written with `Array.setIfInBounds` stays as it is then.
The two agree wherever there is a slot (`writeAt?_eq`), and a run of steps that never fail comes to
the same as the run of steps that cannot (`foldlM_eq_some`, `allM_eq_some`). `getElem?_foldl_set`
reads a table in which many slots have been set to one value.
-/

namespace LoadOrder

variable {σ β : Type}

/-- The table with `x` in slot `i`, if it has such a slot. -/
def writeAt? (table : Array β) (i : Nat) (x : β) : Option (Array β) :=
  if h : i < table.size then some (table.set i x) else none

theorem writeAt?_eq {table : Array β} {i : Nat} (hi : i < table.size) (x : β) :
    writeAt? table i x = some (table.setIfInBounds i x) := by
  unfold writeAt? Array.setIfInBounds
  rw [dif_pos hi, dif_pos hi]

theorem writeAt?_eq_some_iff {table table' : Array β} {i : Nat} {x : β} :
    writeAt? table i x = some table' ↔ ∃ hi : i < table.size, table.set i x = table' := by
  unfold writeAt?
  split
  · next hi => simp [hi]
  · next hi => simp [hi]

/-- Writing over an `x` leaves one less of them. -/
theorem count_writeAt?_lt [BEq β] [LawfulBEq β] {table table' : Array β} {i : Nat} {x y : β}
    (hwrite : writeAt? table i y = some table') (hx : table[i]? = some x) (hne : y ≠ x) :
    table'.count x < table.count x := by
  obtain ⟨hi, hset⟩ := writeAt?_eq_some_iff.mp hwrite
  obtain ⟨_, hold⟩ := Array.getElem?_eq_some_iff.mp hx
  have hpos : 0 < table.count x := Array.count_pos_iff.mpr (hold ▸ Array.getElem_mem hi)
  rw [← hset, Array.count_set, if_pos (beq_iff_eq.mpr hold), if_neg (mt beq_iff_eq.mp hne)]
  omega

/-! ### Setting many slots -/

theorem size_foldl_set (slots : List Nat) (table : Array β) (x : β) :
    (slots.foldl (fun table i => table.setIfInBounds i x) table).size = table.size := by
  induction slots generalizing table with
  | nil => rfl
  | cons i slots ih => rw [List.foldl_cons, ih, Array.size_setIfInBounds]

theorem getElem?_foldl_set (slots : List Nat) (table : Array β) (x : β) (j : Nat) :
    (slots.foldl (fun table i => table.setIfInBounds i x) table)[j]? =
      if j ∈ slots ∧ j < table.size then some x else table[j]? := by
  induction slots generalizing table with
  | nil => simp
  | cons i slots ih =>
    rw [List.foldl_cons, ih, Array.size_setIfInBounds, Array.getElem?_setIfInBounds]
    by_cases hij : i = j
    · subst hij
      by_cases hlt : i < table.size
      · simp [hlt]
      · simp [hlt]
    · simp [hij, Ne.symm hij]

/-! ### Steps that can fail -/

/-- The entries that pass a test, if it fails for none. -/
def filter? (test? : β → Option Bool) : List β → Option (List β)
  | [] => some []
  | x :: xs => do
    let keep ← test? x
    let rest ← filter? test? xs
    return if keep then x :: rest else rest

theorem filter?_eq_some {xs : List β} {test? : β → Option Bool} {test : β → Bool}
    (htest : ∀ x ∈ xs, test? x = some (test x)) : filter? test? xs = some (xs.filter test) := by
  induction xs with
  | nil => rfl
  | cons x xs ih =>
    rw [filter?, htest x List.mem_cons_self, ih fun y hy => htest y (List.mem_cons_of_mem x hy)]
    rw [List.filter_cons]
    rfl

theorem mapM_eq_some {γ : Type} {xs : List β} {f? : β → Option γ} {f : β → γ}
    (hf : ∀ x ∈ xs, f? x = some (f x)) : xs.mapM f? = some (xs.map f) := by
  induction xs with
  | nil => rfl
  | cons x xs ih =>
    rw [List.mapM_cons, hf x List.mem_cons_self, ih fun y hy => hf y (List.mem_cons_of_mem x hy)]
    rfl

/-- Steps that never fail from where an invariant holds, and that keep it, run as the steps that
cannot fail. -/
theorem foldlM_eq_some {step? : σ → β → Option σ} {step : σ → β → σ} {xs : List β} {s : σ}
    (Inv : σ → Prop) (hs : Inv s)
    (hstep : ∀ s, Inv s → ∀ x ∈ xs, step? s x = some (step s x) ∧ Inv (step s x)) :
    xs.foldlM step? s = some (xs.foldl step s) := by
  induction xs generalizing s with
  | nil => rfl
  | cons x xs ih =>
    obtain ⟨hx, hinv⟩ := hstep s hs x List.mem_cons_self
    rw [List.foldlM_cons, List.foldl_cons, hx]
    exact ih hinv fun s hs y hy => hstep s hs y (List.mem_cons_of_mem x hy)

/-- A test that never fails on a list comes out as the test that cannot fail. -/
theorem allM_eq_some {xs : List β} {test? : β → Option Bool} {test : β → Bool}
    (htest : ∀ x ∈ xs, test? x = some (test x)) : xs.allM test? = some (xs.all test) := by
  induction xs with
  | nil => rfl
  | cons x xs ih =>
    have htail := ih fun y hy => htest y (List.mem_cons_of_mem x hy)
    unfold List.allM
    rw [htest x List.mem_cons_self, List.all_cons]
    cases test x with
    | false => rfl
    | true => exact htail

end LoadOrder
