import LoadOrder.Proofs.Digraph.Component
import LoadOrder.Proofs.Slots

/-!
# The scan as a loop

`Scan.explore` calls itself for every unmet successor. A `ScanLoop` needs no call stack: it keeps
the open nodes in frames, each with the position of the successor that it looks at next. Where the
scan keeps marks and hands numbers on as answers, the loop keeps three tables: the number of each
node, the lowest number it has run into, and whether it is on the stack. Every read and write of a
table can fail, and then `components?` has no answer. The loop ends in any case, since each of its
steps meets a node or moves a frame on (`step?_lt`).

No read or write fails, and the loop lists the components (`components?_eq`). While the nodes
`opened` are open it agrees with the scan (`Agrees`): the frames are those of the open nodes, and
for each of them there is the lowest number its exploration has run into so far. Exploring a node
takes the loop from its new frame to where this frame has been taken off again and its number handed
to the frame below (`exists_run?_explore`).
-/

namespace LoadOrder.Digraph

/-- Where a scan by a loop stands. -/
structure ScanLoop where
  /-- The number that each node was met as, if it was. -/
  index : Array (Option Nat)
  /-- For each node that has been met, the lowest number that its exploration has run into. -/
  lowlink : Array Nat
  /-- For each node, whether it is on the stack. -/
  onStack : Array Bool
  /-- The nodes whose component is still growing, the latest met first. -/
  stack : List Nat
  /-- The next number. -/
  nextIndex : Nat
  /-- The closed components, the latest closed first. -/
  components : List (List Nat)
  /-- The open nodes, the latest first, each with the position of the successor to look at next. -/
  frames : List (Nat × Nat)

namespace ScanLoop

/-! ### The loop -/

/-- The loop before any node is met. -/
def start (g : Digraph) : ScanLoop where
  index := Array.replicate g.size none
  lowlink := Array.replicate g.size 0
  onStack := Array.replicate g.size false
  stack := []
  nextIndex := 0
  components := []
  frames := []

/-- Meets `v`: it gets the next number, goes on the stack and is open. -/
def meet? (l : ScanLoop) (v : Nat) : Option ScanLoop := do
  let index ← writeAt? l.index v (some l.nextIndex)
  let lowlink ← writeAt? l.lowlink v l.nextIndex
  let onStack ← writeAt? l.onStack v true
  return { l with
    index, lowlink, onStack
    nextIndex := l.nextIndex + 1
    stack := v :: l.stack
    frames := (v, 0) :: l.frames }

/-- Notes that the exploration of `v` has run into a number. -/
def lower? (l : ScanLoop) (v number : Nat) : Option ScanLoop := do
  let lowlink ← writeAt? l.lowlink v (min (← l.lowlink[v]?) number)
  return { l with lowlink }

/-- Looks at the successor `w` of the open node `v`. -/
def look? (l : ScanLoop) (v w : Nat) : Option ScanLoop := do
  match ← l.index[w]? with
  | none => l.meet? w
  | some number => if ← l.onStack[w]? then l.lower? v number else return l

/-- The nodes from the top of the stack down to `v`, what is left of the stack, and the table with
these nodes marked as off the stack. -/
def popTo? (v : Nat) : List Nat → Array Bool → Option (List Nat × List Nat × Array Bool)
  | [], onStack => some ([], [], onStack)
  | w :: stack, onStack => do
    let onStack ← writeAt? onStack w false
    if w = v then return ([w], stack, onStack)
    let (component, stack, onStack) ← popTo? v stack onStack
    return (w :: component, stack, onStack)

/-- Closes the component of `v`. -/
def close? (l : ScanLoop) (v : Nat) : Option ScanLoop := do
  let (component, stack, onStack) ← popTo? v l.stack l.onStack
  return { l with onStack, stack, components := component :: l.components }

/-- Notes that the latest open node has run into what the exploration of `v` has run into. -/
def handUp? (l : ScanLoop) (v : Nat) : Option ScanLoop :=
  match l.frames with
  | [] => some l
  | (u, _) :: _ => do l.lower? u (← l.lowlink[v]?)

/-- Ends the exploration of `v`, whose frame has been taken off. If it has run into nothing lower
than its own number, its component is closed. -/
def leave? (l : ScanLoop) (v : Nat) : Option ScanLoop := do
  let l ← l.handUp? v
  if some (← l.lowlink[v]?) = (← l.index[v]?) then l.close? v else return l

/-- Goes on with the open node `v`, whose frame stands at the position `i` and on top of the frames
`below`: either there is a successor to look at, or `v` is left. -/
def step? (g : Digraph) (l : ScanLoop) (v i : Nat) (below : List (Nat × Nat)) :
    Option ScanLoop := do
  let row ← g.succTable[v]?
  match row[i]? with
  | some w => look? { l with frames := (v, i + 1) :: below } v w
  | none => leave? { l with frames := below } v

/-! ### The loop ends -/

variable {g : Digraph} {u v w i k : Nat} {l l' : ScanLoop} {below : List (Nat × Nat)}

/-- How many nodes have not been met. -/
def unmet (l : ScanLoop) : Nat :=
  l.index.count none

/-- How many steps can be made at most before another node is met. -/
def pending (g : Digraph) : List (Nat × Nat) → Nat
  | [] => 0
  | (v, i) :: below => (g.succs v).length - i + 1 + pending g below

theorem unmet_meet?_lt (hmeet : l.meet? v = some l') (hv : l.index[v]? = some none) :
    l'.unmet < l.unmet := by
  obtain ⟨index, hindex, hmeet⟩ := Option.bind_eq_some_iff.mp hmeet
  obtain ⟨lowlink, -, hmeet⟩ := Option.bind_eq_some_iff.mp hmeet
  obtain ⟨onStack, -, hmeet⟩ := Option.bind_eq_some_iff.mp hmeet
  obtain rfl := Option.some.inj hmeet
  exact count_writeAt?_lt hindex hv (Option.some_ne_none _)

theorem lower?_frame (hlower : l.lower? v k = some l') :
    l'.index = l.index ∧ l'.frames = l.frames := by
  obtain ⟨low, -, hlower⟩ := Option.bind_eq_some_iff.mp hlower
  obtain ⟨lowlink, -, hlower⟩ := Option.bind_eq_some_iff.mp hlower
  obtain rfl := Option.some.inj hlower
  exact ⟨rfl, rfl⟩

theorem handUp?_frame (hhand : l.handUp? v = some l') :
    l'.index = l.index ∧ l'.frames = l.frames := by
  unfold handUp? at hhand
  split at hhand
  · obtain rfl := Option.some.inj hhand
    exact ⟨rfl, rfl⟩
  · obtain ⟨low, -, hlower⟩ := Option.bind_eq_some_iff.mp hhand
    exact lower?_frame hlower

theorem close?_frame (hclose : l.close? v = some l') :
    l'.index = l.index ∧ l'.frames = l.frames := by
  obtain ⟨popped, -, hclose⟩ := Option.bind_eq_some_iff.mp hclose
  obtain rfl := Option.some.inj hclose
  exact ⟨rfl, rfl⟩

/-- Leaving a node meets no other and does not touch the frames below. -/
theorem leave?_frame (hleave : l.leave? v = some l') :
    l'.index = l.index ∧ l'.frames = l.frames := by
  obtain ⟨l₁, hhand, hleave⟩ := Option.bind_eq_some_iff.mp hleave
  obtain ⟨low, -, hleave⟩ := Option.bind_eq_some_iff.mp hleave
  obtain ⟨number, -, hleave⟩ := Option.bind_eq_some_iff.mp hleave
  obtain ⟨hindex, hframes⟩ := handUp?_frame hhand
  split at hleave
  · obtain ⟨hindex', hframes'⟩ := close?_frame hleave
    exact ⟨hindex'.trans hindex, hframes'.trans hframes⟩
  · obtain rfl := Option.some.inj hleave
    exact ⟨hindex, hframes⟩

/-- Looking at a successor that has been met does not touch the frames. -/
theorem look?_frame (hlook : l.look? v w = some l') :
    l'.unmet < l.unmet ∨ l'.index = l.index ∧ l'.frames = l.frames := by
  obtain ⟨number, hindex, hlook⟩ := Option.bind_eq_some_iff.mp hlook
  cases number with
  | none => exact Or.inl (unmet_meet?_lt hlook hindex)
  | some number =>
    obtain ⟨on, -, hlook⟩ := Option.bind_eq_some_iff.mp hlook
    refine Or.inr ?_
    cases on with
    | true => exact lower?_frame hlook
    | false =>
      obtain rfl := Option.some.inj hlook
      exact ⟨rfl, rfl⟩

/-- A step meets a node, or it takes one of the steps that were left before the next is met. -/
theorem step?_lt (hframes : l.frames = (v, i) :: below) (hstep : l.step? g v i below = some l') :
    l'.unmet < l.unmet ∨ l'.unmet = l.unmet ∧ pending g l'.frames < pending g l.frames := by
  obtain ⟨row, hrow, hstep⟩ := Option.bind_eq_some_iff.mp hstep
  have hsuccs : g.succs v = row := by rw [succs, hrow, Option.getD_some]
  rw [hframes, pending, hsuccs]
  cases hnext : row[i]? with
  | some w =>
    rw [hnext] at hstep
    obtain ⟨hi, -⟩ := List.getElem?_eq_some_iff.mp hnext
    rcases look?_frame hstep with hlt | ⟨hindex, hframes'⟩
    · exact Or.inl hlt
    · -- the frame has one position less to go
      refine Or.inr ⟨congrArg (Array.count none) hindex, ?_⟩
      rw [hframes', pending, hsuccs]
      omega
  | none =>
    rw [hnext] at hstep
    obtain ⟨hindex, hframes'⟩ := leave?_frame hstep
    -- the frame is gone, which counts even if it had no position left
    refine Or.inr ⟨congrArg (Array.count none) hindex, ?_⟩
    rw [hframes']
    show pending g below < _
    omega

/-- Goes on until no node is open. -/
def run? (g : Digraph) (l : ScanLoop) : Option ScanLoop :=
  match _hframes : l.frames with
  | [] => some l
  | (v, i) :: below =>
    match _hstep : l.step? g v i below with
    | none => none
    | some l' => run? g l'
termination_by (l.unmet, pending g l.frames)
decreasing_by
  rcases step?_lt _hframes _hstep with hlt | ⟨heq, hlt⟩
  · exact Prod.Lex.left _ _ hlt
  · rw [heq]
    exact Prod.Lex.right _ hlt

/-- Explores `v` if it has not been met. -/
def root? (g : Digraph) (l : ScanLoop) (v : Nat) : Option ScanLoop := do
  match ← l.index[v]? with
  | none => run? g (← l.meet? v)
  | some _ => return l

end ScanLoop

/-- The strongly connected components, as the loop lists them. -/
def components? (g : Digraph) : Option (List (List Nat)) := do
  let l ← (List.range g.size).foldlM (ScanLoop.root? g) (ScanLoop.start g)
  return l.components.reverse

namespace ScanLoop

open Scan

variable {g : Digraph} {u v w i k low : Nat} {s t : Scan} {l : ScanLoop}
  {opened opened' lows done ws front rest : List Nat} {below : List (Nat × Nat)}

theorem run?_of_frames_eq_nil (hframes : l.frames = []) : run? g l = some l := by
  rw [run?]
  split
  · rfl
  · next hcons => exact absurd (hframes.symm.trans hcons) (List.cons_ne_nil _ _).symm

theorem run?_of_frames_eq_cons (hframes : l.frames = (v, i) :: below) :
    run? g l = (l.step? g v i below).bind (run? g) := by
  rw [run?]
  split
  · next hnil => exact absurd (hframes.symm.trans hnil) (List.cons_ne_nil _ _)
  · next hcons =>
    obtain ⟨hframe, rfl⟩ := List.cons.inj (hframes.symm.trans hcons)
    obtain ⟨rfl, rfl⟩ := Prod.mk.inj hframe
    split
    · next hfail => rw [hfail, Option.bind_none]
    · next hstep => rw [hstep, Option.bind_some]

theorem step?_of_successor (hv : v < g.size) (hw : (g.succs v)[i]? = some w) :
    l.step? g v i below = look? { l with frames := (v, i + 1) :: below } v w := by
  unfold step?
  simp only [getElem?_succTable hv, Option.bind_eq_bind, Option.bind_some, hw]

theorem step?_of_no_successor (hv : v < g.size) (hi : (g.succs v)[i]? = none) :
    l.step? g v i below = leave? { l with frames := below } v := by
  unfold step?
  simp only [getElem?_succTable hv, Option.bind_eq_bind, Option.bind_some, hi]

/-! ### Agreeing with the scan -/

/-- What the tables know about a node. -/
def mark (l : ScanLoop) (v : Nat) : Mark :=
  match l.index[v]?, l.onStack[v]? with
  | some none, _ => .unmet
  | some (some number), some true => .growing number
  | _, _ => .closed

/-- The loop stands where the scan `s` of `g` stands, the nodes `opened` being open and having run
into the numbers `lows` so far. -/
structure Agrees (g : Digraph) (opened lows : List Nat) (s : Scan) (l : ScanLoop) : Prop where
  /-- Each node has a slot for its number. -/
  size_index : l.index.size = g.size
  /-- Each has one for the lowest number it runs into. -/
  size_lowlink : l.lowlink.size = g.size
  /-- Each has one for whether it is on the stack. -/
  size_onStack : l.onStack.size = g.size
  /-- The tables know what the marks know. -/
  mark_eq : ∀ v, l.mark v = s.mark v
  /-- The stacks are equal. -/
  stack_eq : l.stack = s.stack
  /-- As many nodes have been met. -/
  nextIndex_eq : l.nextIndex = s.met
  /-- The same components have been closed. -/
  components_eq : l.components = s.components
  /-- There is a frame for each open node. -/
  opened_eq : l.frames.map Prod.fst = opened
  /-- The lowest number that an open node has run into is in its slot. -/
  lows_eq : opened.map (fun v => l.lowlink[v]?) = lows.map some

namespace Agrees

theorem index_of_unmet (hl : Agrees g opened lows s l) (hv : s.mark v = .unmet) :
    l.index[v]? = some none := by
  rw [← hl.mark_eq, mark] at hv
  split at hv
  · next hindex => exact hindex
  · cases hv
  · cases hv

theorem index_of_growing (hl : Agrees g opened lows s l) (hv : s.mark v = .growing k) :
    l.index[v]? = some (some k) ∧ l.onStack[v]? = some true := by
  rw [← hl.mark_eq, mark] at hv
  split at hv
  · cases hv
  · next hindex honStack =>
    obtain rfl := Mark.growing.inj hv
    exact ⟨hindex, honStack⟩
  · cases hv

theorem index_of_closed (hl : Agrees g opened lows s l) (hlt : v < g.size)
    (hv : s.mark v = .closed) : ∃ k, l.index[v]? = some (some k) ∧ l.onStack[v]? = some false := by
  have hindex : v < l.index.size := hl.size_index ▸ hlt
  have honStack : v < l.onStack.size := hl.size_onStack ▸ hlt
  rw [← hl.mark_eq, mark, Array.getElem?_eq_getElem hindex,
    Array.getElem?_eq_getElem honStack] at hv
  rw [Array.getElem?_eq_getElem hindex, Array.getElem?_eq_getElem honStack]
  cases hnumber : l.index[v] with
  | none => simp [hnumber] at hv
  | some k =>
    refine ⟨k, rfl, ?_⟩
    cases hon : l.onStack[v] with
    | false => rfl
    | true => simp [hnumber, hon] at hv

end Agrees

theorem agrees_start (g : Digraph) : Agrees g [] [] (Scan.start g) (start g) := by
  refine ⟨Array.size_replicate, Array.size_replicate, Array.size_replicate, ?_, rfl, rfl, rfl, rfl,
    rfl⟩
  intro v
  by_cases hv : v < g.size
  · simp [mark, start, Scan.mark, Scan.start, hv]
  · simp [mark, start, Scan.mark, Scan.start, hv]

/-- A frame may go on to another successor. -/
theorem Agrees.of_frames (hl : Agrees g opened lows s l) {frames : List (Nat × Nat)}
    (hframes : frames.map Prod.fst = l.frames.map Prod.fst) :
    Agrees g opened lows s { l with frames } :=
  { hl with opened_eq := hframes.trans hl.opened_eq }

theorem lows_set {lowlink : Array Nat} (hv : v ∉ opened) (number : Nat) :
    (opened.map fun x => (lowlink.setIfInBounds v number)[x]?) =
      opened.map fun x => lowlink[x]? := by
  refine List.map_congr_left fun x hx => ?_
  have hne : v ≠ x := fun heq => hv (heq ▸ hx)
  rw [Array.getElem?_setIfInBounds, if_neg hne]

/-- The loop meets a node as the scan does. -/
theorem Agrees.meet (hs : Sound g opened s) (hl : Agrees g opened lows s l)
    (hv : s.mark v = .unmet) :
    ∃ l', l.meet? v = some l' ∧ l'.frames = (v, 0) :: l.frames ∧
      Agrees g (v :: opened) (s.met :: lows) (s.meet v) l' := by
  have hmarks : v < s.marks.size := hs.lt_size_marks hv
  have hlt : v < g.size := hs.size_marks ▸ hmarks
  have hopened : v ∉ opened := fun hmem => hs.met (hs.opened_sublist.subset hmem) hv
  have hindex : v < l.index.size := hl.size_index ▸ hlt
  have hlowlink : v < l.lowlink.size := hl.size_lowlink ▸ hlt
  have honStack : v < l.onStack.size := hl.size_onStack ▸ hlt
  unfold meet?
  rw [writeAt?_eq hindex, writeAt?_eq hlowlink, writeAt?_eq honStack]
  refine ⟨_, rfl, rfl, ?_⟩
  refine ⟨Array.size_setIfInBounds.trans hl.size_index,
    Array.size_setIfInBounds.trans hl.size_lowlink,
    Array.size_setIfInBounds.trans hl.size_onStack, ?_, congrArg _ hl.stack_eq,
    congrArg _ hl.nextIndex_eq, hl.components_eq, congrArg _ hl.opened_eq, ?_⟩
  · -- a node other than `v` keeps its slots
    intro w
    rw [mark_meet hmarks, ← hl.nextIndex_eq, ← hl.mark_eq w]
    by_cases hw : w = v
    · subst hw
      simp [mark, hindex, honStack]
    · simp [mark, hw, Ne.symm hw]
  · rw [List.map_cons, List.map_cons, lows_set hopened, hl.lows_eq, ← hl.nextIndex_eq]
    simp [hlowlink]

/-- The latest open node has run into another number. -/
theorem Agrees.lower (hl : Agrees g (v :: opened) (low :: lows) s l) (hv : v ∉ opened)
    (number : Nat) :
    ∃ l', l.lower? v number = some l' ∧ l'.frames = l.frames ∧
      (∀ x, x ≠ v → l'.lowlink[x]? = l.lowlink[x]?) ∧
      Agrees g (v :: opened) (min low number :: lows) s l' := by
  have hlow : l.lowlink[v]? = some low := (List.cons.inj hl.lows_eq).1
  have hlows := (List.cons.inj hl.lows_eq).2
  obtain ⟨hlowlink, -⟩ := Array.getElem?_eq_some_iff.mp hlow
  unfold lower?
  rw [hlow]
  show ∃ l', ((writeAt? l.lowlink v (min low number)).bind _) = some l' ∧ _
  rw [writeAt?_eq hlowlink]
  refine ⟨_, rfl, rfl, ?_, ?_⟩
  · intro x hx
    exact (Array.getElem?_setIfInBounds).trans (if_neg (Ne.symm hx))
  · refine { hl with
      size_lowlink := Array.size_setIfInBounds.trans hl.size_lowlink
      lows_eq := ?_ }
    rw [List.map_cons, List.map_cons, lows_set hv, hlows]
    simp [hlowlink]

/-- The numbers that the open nodes have run into once the latest has run into another one. -/
def handUp (number : Nat) : List Nat → List Nat
  | [] => []
  | low :: lows => min low number :: lows

/-- What an explored node has run into is handed up. -/
theorem Agrees.handUp (hl : Agrees g opened lows s l) (hnodup : (v :: opened).Nodup)
    (hlow : l.lowlink[v]? = some low) :
    ∃ l', l.handUp? v = some l' ∧ l'.frames = l.frames ∧ l'.lowlink[v]? = some low ∧
      Agrees g opened (handUp low lows) s l' := by
  obtain ⟨hv, hopened⟩ := List.nodup_cons.mp hnodup
  unfold handUp?
  cases hframes : l.frames with
  | nil =>
    -- a root has no frame below it
    have hnil : opened = [] := by rw [← hl.opened_eq, hframes, List.map_nil]
    subst hnil
    cases lows with
    | nil => exact ⟨l, rfl, hframes, hlow, hl⟩
    | cons _ _ => exact absurd hl.lows_eq (by simp)
  | cons frame below =>
    obtain ⟨u, j⟩ := frame
    have hcons : opened = u :: below.map Prod.fst := by rw [← hl.opened_eq, hframes, List.map_cons]
    subst hcons
    cases lows with
    | nil => exact absurd hl.lows_eq (by simp)
    | cons low' lows =>
      -- only the slot of `u` is written to, so that of `v` can still be compared with its number
      obtain ⟨l', hlower, hframes', hkept, hl'⟩ := hl.lower (List.nodup_cons.mp hopened).1 low
      have hvu : v ≠ u := fun heq => hv (heq ▸ List.mem_cons_self)
      refine ⟨l', ?_, hframes'.trans hframes, (hkept v hvu).trans hlow, hl'⟩
      rw [hlow]
      exact hlower

/-! ### Closing a component -/

theorem popTo?_eq {onStack : Array Bool} (hv : v ∉ front)
    (hlt : ∀ w ∈ front ++ [v], w < onStack.size) :
    popTo? v (front ++ v :: rest) onStack = some (front ++ [v], rest,
      (front ++ [v]).foldl (fun onStack w => onStack.setIfInBounds w false) onStack) := by
  induction front generalizing onStack with
  | nil =>
    rw [List.nil_append, popTo?, writeAt?_eq (hlt v (by simp))]
    simp
  | cons w front ih =>
    rw [List.mem_cons, not_or] at hv
    have hlt' : ∀ x ∈ front ++ [v], x < (onStack.setIfInBounds w false).size := fun x hx => by
      rw [Array.size_setIfInBounds]
      exact hlt x (List.mem_cons_of_mem w hx)
    have hrest := ih hv.2 hlt'
    rw [List.cons_append, popTo?, writeAt?_eq (hlt w (by simp))]
    simp only [Option.bind_eq_bind, Option.bind_some, if_neg (Ne.symm hv.1), hrest]
    rfl

/-- The loop closes a component as the scan does. -/
theorem Agrees.close (hs : Sound g (v :: opened) s) (hl : Agrees g opened' lows s l) :
    ∃ l', l.close? v = some l' ∧ l'.frames = l.frames ∧ Agrees g opened' lows (s.close v) l' := by
  have hvstack : v ∈ s.stack := hs.opened_sublist.subset List.mem_cons_self
  obtain ⟨front, rest, hstack, hfront⟩ := List.eq_append_cons_of_mem hvstack
  have htop : ∀ w ∈ front ++ [v], w ∈ s.stack := fun w hw => by
    rw [hstack, List.append_cons]
    exact List.mem_append_left rest hw
  have hlt : ∀ w ∈ front ++ [v], w < l.onStack.size := fun w hw => by
    rw [hl.size_onStack]
    exact hs.lt_size_of_mark (hs.not_closed (htop w hw))
  obtain ⟨hstack', hcomponents, hmark⟩ := close_eq hstack hfront
  unfold close?
  rw [hl.stack_eq, hstack, popTo?_eq hfront hlt]
  refine ⟨_, rfl, rfl, ?_⟩
  refine { hl with
    size_onStack := (size_foldl_set _ _ _).trans hl.size_onStack
    mark_eq := ?_
    stack_eq := hstack'.symm
    nextIndex_eq := hl.nextIndex_eq
    components_eq := ?_ }
  · intro w
    rw [hmark, mark, getElem?_foldl_set]
    by_cases hw : w ∈ front ++ [v]
    · -- what is on the stack has a number
      obtain ⟨hindex, -⟩ := hl.index_of_growing ((hs.mem_stack_iff w).mp (htop w hw))
      simp only [hindex, hw, hlt w hw, and_self, if_true]
    · simp only [hw, false_and, if_false, ← hl.mark_eq w, mark]
  · rw [hcomponents, ← hl.components_eq]

/-- The loop leaves a node as the scan does. -/
theorem Agrees.leave (hs : Sound g (v :: opened) s)
    (hl : Agrees g (v :: opened) (low :: lows) s l) (hframes : l.frames = (v, i) :: below)
    (hv : s.mark v = .growing k) :
    ∃ l', { l with frames := below }.leave? v = some l' ∧ l'.frames = below ∧
      Agrees g opened (ScanLoop.handUp low lows) (if low = k then s.close v else s) l' := by
  have hnodup : (v :: opened).Nodup := hs.opened_sublist.nodup hs.nodup_stack
  have hlow : l.lowlink[v]? = some low := (List.cons.inj hl.lows_eq).1
  have hopened : below.map Prod.fst = opened := by
    have hopened := hl.opened_eq
    rw [hframes] at hopened
    exact (List.cons.inj hopened).2
  -- `v` is open to the scan until it has returned, to the loop only as long as it has a frame
  have hbelow : Agrees g opened lows s { l with frames := below } :=
    { hl with opened_eq := hopened, lows_eq := (List.cons.inj hl.lows_eq).2 }
  obtain ⟨l', hhand, hframes', hlow', hl'⟩ := hbelow.handUp hnodup hlow
  unfold leave?
  rw [hhand]
  show ∃ r, (do
    if some (← l'.lowlink[v]?) = (← l'.index[v]?) then l'.close? v else return l') = some r ∧ _
  rw [hlow', (hl'.index_of_growing hv).1]
  simp only [Option.bind_eq_bind, Option.bind_some, Option.some.injEq]
  split
  · obtain ⟨r, hclose, hframesr, hr⟩ := hl'.close hs
    exact ⟨r, hclose, hframesr.trans hframes', hr⟩
  · exact ⟨l', rfl, hframes', hl'⟩

/-! ### Exploring a node -/

section Explore

variable {explore : Nat → Scan → Nat × Scan}

/-- The loop looks at a successor as the scan does, if it explores an unmet one as the scan does. -/
theorem exists_run?_look
    (hrun : ∀ w t lows l, g.Arc v w → Sound g (v :: opened) t → t.mark w = .unmet →
      Agrees g (v :: opened) lows t l →
      ∃ l', (l.meet? w).bind (run? g) = run? g l' ∧ l'.frames = l.frames ∧
        Agrees g (v :: opened) (handUp (explore w t).1 lows) (explore w t).2 l')
    (harc : g.Arc v w) {found : Nat × Scan} (hs : Sound g (v :: opened) found.2)
    (hl : Agrees g (v :: opened) (found.1 :: lows) found.2 l) :
    ∃ l', (l.look? v w).bind (run? g) = run? g l' ∧ l'.frames = l.frames ∧
      Agrees g (v :: opened) ((look explore found w).1 :: lows) (look explore found w).2 l' := by
  cases hw : found.2.mark w with
  | unmet =>
    obtain ⟨l', hmeet, hframes, hl'⟩ := hrun w found.2 (found.1 :: lows) l harc hs hw hl
    simp only [look, hw]
    refine ⟨l', ?_, hframes, hl'⟩
    unfold look?
    rw [hl.index_of_unmet hw]
    exact hmeet
  | growing k =>
    have hv : v ∉ opened := (List.nodup_cons.mp (hs.opened_sublist.nodup hs.nodup_stack)).1
    obtain ⟨hindex, honStack⟩ := hl.index_of_growing hw
    obtain ⟨l', hlower, hframes, -, hl'⟩ := hl.lower hv k
    simp only [look, hw]
    refine ⟨l', ?_, hframes, hl'⟩
    unfold look?
    rw [hindex, honStack]
    show (l.lower? v k).bind (run? g) = _
    rw [hlower, Option.bind_some]
  | closed =>
    obtain ⟨k, hindex, honStack⟩ := hl.index_of_closed (target_lt harc) hw
    simp only [look, hw]
    refine ⟨l, ?_, rfl, hl⟩
    unfold look?
    rw [hindex, honStack]
    rfl

/-- The loop looks at the successors of an open node as the scan does, one after the other. -/
theorem exists_run?_foldl
    (hexplore : ∀ w t, g.Arc v w → Sound g (v :: opened) t → t.mark w = .unmet →
      Explores g (v :: opened) w t (explore w t).1 (explore w t).2)
    (hrun : ∀ w t lows l, g.Arc v w → Sound g (v :: opened) t → t.mark w = .unmet →
      Agrees g (v :: opened) lows t l →
      ∃ l', (l.meet? w).bind (run? g) = run? g l' ∧ l'.frames = l.frames ∧
        Agrees g (v :: opened) (handUp (explore w t).1 lows) (explore w t).2 l')
    (hws : (g.succs v).drop i = ws) (hv : v < g.size) (found : Nat × Scan)
    (hfound : Looks g opened v s done found.1 found.2)
    (hl : Agrees g (v :: opened) (found.1 :: lows) found.2 l)
    (hframes : l.frames = (v, i) :: below) :
    ∃ l' j, run? g l = run? g l' ∧ l'.frames = (v, j) :: below ∧ (g.succs v)[j]? = none ∧
      Agrees g (v :: opened) ((ws.foldl (look explore) found).1 :: lows)
        (ws.foldl (look explore) found).2 l' := by
  induction ws generalizing i done found l with
  | nil =>
    refine ⟨l, i, rfl, hframes, ?_, hl⟩
    rw [← List.head?_drop, hws, List.head?_nil]
  | cons w ws ih =>
    have hw : (g.succs v)[i]? = some w := by rw [← List.head?_drop, hws, List.head?_cons]
    have hdrop : (g.succs v).drop (i + 1) = ws := by rw [← List.tail_drop, hws, List.tail_cons]
    have harc : g.Arc v w := List.mem_of_getElem? hw
    -- the frame goes on to the next successor, and then this one is looked at
    have hnext : Agrees g (v :: opened) (found.1 :: lows) found.2
        { l with frames := (v, i + 1) :: below } :=
      hl.of_frames (by rw [hframes]; rfl)
    obtain ⟨l', hlook, hframes', hl'⟩ := exists_run?_look hrun harc hfound.sound hnext
    obtain ⟨r, j, hrest, hr⟩ := ih hdrop (look explore found w) (hfound.look hexplore harc) hl'
      hframes'
    refine ⟨r, j, ?_, hr⟩
    rw [run?_of_frames_eq_cons hframes, step?_of_successor hv hw, hlook, hrest]

end Explore

/-- The loop explores an unmet node as the scan does, and hands up what it has run into. -/
theorem exists_run?_explore (depth : Nat) (hs : Sound g opened s) (hv : s.mark v = .unmet)
    (hreach : ∀ x ∈ opened, g.Reaches x v) (hdepth : g.size ≤ depth + opened.length)
    (hl : Agrees g opened lows s l) :
    ∃ l', (l.meet? v).bind (run? g) = run? g l' ∧ l'.frames = l.frames ∧
      Agrees g opened (handUp (explore g depth v s).1 lows) (explore g depth v s).2 l' := by
  induction depth generalizing opened lows v s l with
  | zero =>
    -- there would be as many open nodes as nodes
    have hlength := hs.length_opened_lt hv hreach
    omega
  | succ depth ih =>
    have hlt : v < g.size := hs.size_marks ▸ hs.lt_size_marks hv
    -- the open nodes reach a successor by way of `v`
    have hopened : ∀ w, g.Arc v w → ∀ x ∈ v :: opened, g.Reaches x w := by
      intro w harc x hx
      rcases List.mem_cons.mp hx with rfl | hx
      · exact harc.reaches
      · exact (hreach x hx).trans harc.reaches
    have hdeeper : g.size ≤ depth + (v :: opened).length := by
      rw [List.length_cons]
      omega
    have hexplore : ∀ w t, g.Arc v w → Sound g (v :: opened) t → t.mark w = .unmet →
        Explores g (v :: opened) w t (explore g depth w t).1 (explore g depth w t).2 :=
      fun w t harc ht hw => explores_explore depth ht hw (hopened w harc) hdeeper
    have hmet : Looks g opened v s [] s.met (s.meet v) := looks_meet hs hv hreach
    have hsuccs : ∀ w ∈ g.succs v, g.Arc v w := fun w hw => hw
    have hlooks := Looks.foldl hexplore hsuccs (s.met, s.meet v) hmet
    have hmark := hlooks.mark_eq hs hv
    -- the loop makes a frame for `v`, goes through its successors and takes the frame off again
    obtain ⟨l₁, hmeet, hframes₁, hl₁⟩ := hl.meet hs hv
    obtain ⟨l₂, j, hrun, hframes₂, hj, hl₂⟩ := exists_run?_foldl (i := 0) hexplore
      (fun w t lows l harc ht hw hl => ih ht hw (hopened w harc) hdeeper hl) rfl hlt
      (s.met, s.meet v) hmet hl₁ hframes₁
    obtain ⟨l₃, hleave, hframes₃, hl₃⟩ := hl₂.leave hlooks.sound hframes₂ hmark
    refine ⟨l₃, ?_, hframes₃, hl₃⟩
    calc (l.meet? v).bind (run? g) = run? g l₁ := by rw [hmeet, Option.bind_some]
      _ = run? g l₂ := hrun
      _ = (l₂.step? g v j l.frames).bind (run? g) := run?_of_frames_eq_cons hframes₂
      _ = run? g l₃ := by rw [step?_of_no_successor hlt hj, hleave, Option.bind_some]

/-! ### The whole scan -/

/-- The loop tries a root as the scan does. -/
theorem exists_root? (hs : Sound g [] s) (hv : v < g.size) (hl : Agrees g [] [] s l) :
    ∃ l', root? g l v = some l' ∧ Agrees g [] [] (Scan.root g s v) l' := by
  unfold root? Scan.root
  cases hmark : s.mark v with
  | unmet =>
    obtain ⟨l', hrun, hframes, hl'⟩ := exists_run?_explore g.size hs hmark
      (fun x hx => absurd hx List.not_mem_nil) (Nat.le_add_right g.size 0) hl
    have hnil : l'.frames = [] := by
      rw [hframes, ← List.map_eq_nil_iff]
      exact hl.opened_eq
    refine ⟨l', ?_, hl'⟩
    rw [hl.index_of_unmet hmark]
    show (l.meet? v).bind (run? g) = some l'
    rw [hrun, run?_of_frames_eq_nil hnil]
  | growing k =>
    refine ⟨l, ?_, hl⟩
    rw [(hl.index_of_growing hmark).1]
    rfl
  | closed =>
    obtain ⟨k, hindex, -⟩ := hl.index_of_closed hv hmark
    refine ⟨l, ?_, hl⟩
    rw [hindex]
    rfl

theorem exists_foldlM_root? (vs : List Nat) (hvs : ∀ v ∈ vs, v < g.size) (hs : Sound g [] s)
    (hl : Agrees g [] [] s l) :
    ∃ l', vs.foldlM (root? g) l = some l' ∧ Agrees g [] [] (vs.foldl (Scan.root g) s) l' := by
  induction vs generalizing s l with
  | nil => exact ⟨l, rfl, hl⟩
  | cons v vs ih =>
    obtain ⟨l₁, hroot, hl₁⟩ := exists_root? hs (hvs v List.mem_cons_self) hl
    obtain ⟨l₂, hrest, hl₂⟩ := ih (fun w hw => hvs w (List.mem_cons_of_mem v hw)) (hs.root v).1 hl₁
    refine ⟨l₂, ?_, hl₂⟩
    rw [List.foldlM_cons, hroot]
    exact hrest

end ScanLoop

/-- The loop never looks outside of a table, and it lists the components. -/
theorem components?_eq (g : Digraph) : g.components? = some g.components := by
  obtain ⟨l, hfold, hl⟩ := ScanLoop.exists_foldlM_root? (List.range g.size)
    (fun v hv => List.mem_range.mp hv) (Scan.sound_start g) (ScanLoop.agrees_start g)
  unfold components? components
  rw [hfold, ← hl.components_eq]
  rfl

end LoadOrder.Digraph
