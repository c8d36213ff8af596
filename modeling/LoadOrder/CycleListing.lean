import LoadOrder.Key

/-!
# Listings of cycles

A sort that fails lists the cycles it found, each as a walk along its edges with the return to the
first listener left out. A walk is shown as the keys along it joined by arrows, closed by the
first key again.
-/

namespace LoadOrder

/-- The cycles of a failed sort. -/
structure CycleListing where
  /-- The cycles as walks, each without its return to the first key. -/
  walks : List (List Key)
deriving DecidableEq

namespace CycleListing

/-- The number of cycles. -/
def size (c : CycleListing) : Nat :=
  c.walks.length

/-- Whether there is no cycle. -/
def isEmpty (c : CycleListing) : Bool :=
  c.walks.isEmpty

/-- A walk with its return to the first key; empty for the empty walk. -/
def closed (walk : List Key) : List Key :=
  walk ++ walk.head?.toList

/-- A walk in arrows, such as `a:x->a:y->a:x`. -/
def arrows (walk : List Key) : String :=
  "->".intercalate ((closed walk).map Key.text)

/-- The line for the walk number `i`. -/
def line (i : Nat) (walk : List Key) : String :=
  toString i ++ ": " ++ arrows walk ++ "\n"

/-- The listing as text: a headline, then a line for each walk, numbered from 0. -/
def text (c : CycleListing) : String :=
  "Cycles were detected during reload listener sorting:\n"
    ++ String.join (c.walks.zipIdx.map fun (walk, i) => line i walk)

end CycleListing

end LoadOrder
