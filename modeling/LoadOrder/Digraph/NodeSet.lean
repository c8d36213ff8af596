/-!
# Sets of nodes

A search marks the nodes it has met. `NodeSet n` is such a set of nodes below `n`, with the test
and the insertion in constant time. A number from `n` on is never a member and never *free*: only
a node of the graph can still be met.

The number `freeCount` of free nodes bounds what a search has left to do. Meeting a free node
lowers it (`freeCount_insert_lt`), and gathering the free ones of a list lowers it by as many nodes
as are gathered (`freeCount_gather`).
-/

namespace LoadOrder

/-- A set of numbers below `n`. -/
structure NodeSet (n : Nat) where
  /-- For each number below `n`, whether it is a member. -/
  marks : Vector Bool n

namespace NodeSet

variable {n : Nat}

/-- The set without members. -/
def empty (n : Nat) : NodeSet n :=
  ⟨Vector.replicate n false⟩

/-- Whether `v` is a member. -/
def contains (s : NodeSet n) (v : Nat) : Bool :=
  if h : v < n then s.marks[v] else false

/-- Whether `v` is a number below `n` and not a member. -/
def isFree (s : NodeSet n) (v : Nat) : Bool :=
  if h : v < n then !s.marks[v] else false

/-- The set with `v`; a number from `n` on is left out. -/
def insert (s : NodeSet n) (v : Nat) : NodeSet n :=
  if h : v < n then ⟨s.marks.set v true⟩ else s

/-- The set with every number of `vs` that is below `n`. -/
def insertAll (s : NodeSet n) (vs : List Nat) : NodeSet n :=
  vs.foldl insert s

/-- The free numbers of `vs`, each at its first place in `vs`, and the set with all of them. -/
def gather (s : NodeSet n) : List Nat → List Nat × NodeSet n
  | [] => ([], s)
  | v :: vs =>
    if s.isFree v then
      let (gathered, t) := (s.insert v).gather vs
      (v :: gathered, t)
    else s.gather vs

/-- How many numbers below `n` are not members. -/
def freeCount (s : NodeSet n) : Nat :=
  s.marks.count false

/-! ### Membership -/

@[simp] theorem contains_empty (v : Nat) : (empty n).contains v = false := by
  simp [contains, empty]

@[simp] theorem isFree_eq {s : NodeSet n} {v : Nat} :
    s.isFree v = (decide (v < n) && !s.contains v) := by
  unfold isFree contains
  split <;> simp_all

@[simp] theorem contains_insert {s : NodeSet n} {v w : Nat} :
    (s.insert v).contains w = (decide (v < n) && w == v || s.contains w) := by
  unfold insert
  split <;> grind [contains]

/-! ### The free nodes run out -/

theorem freeCount_insert {s : NodeSet n} {v : Nat} (h : s.isFree v) :
    (s.insert v).freeCount + 1 = s.freeCount := by
  unfold isFree at h
  split at h
  · next hv =>
    -- `v` was one of the free numbers, and its mark is the only one that changes
    have hmark : s.marks[v] = false := by simpa using h
    have hpos : 0 < s.marks.count false :=
      Vector.count_pos_iff.mpr (hmark ▸ Vector.getElem_mem hv)
    simp only [insert, freeCount, dif_pos hv, Vector.count_set]
    simp [hmark]
    omega
  · simp at h

theorem freeCount_insert_lt {s : NodeSet n} {v : Nat} (h : s.isFree v) :
    (s.insert v).freeCount < s.freeCount := by
  have := freeCount_insert h
  omega

theorem freeCount_gather (s : NodeSet n) (vs : List Nat) :
    (s.gather vs).2.freeCount + (s.gather vs).1.length = s.freeCount := by
  induction vs generalizing s with
  | nil => simp [gather]
  | cons v vs ih =>
    unfold gather
    split
    · next h =>
      have := ih (s.insert v)
      have := freeCount_insert h
      simp only [List.length_cons]
      omega
    · exact ih s

end NodeSet

end LoadOrder
