import LoadOrder.Key
import LoadOrder.Side

/-!
# Snapshots

A snapshot shows the graph of a session by keys, for whoever looks at it from outside.
-/

namespace LoadOrder

/-- A session's graph by keys. -/
structure Snapshot where
  /-- The side of the session. -/
  side : Side
  /-- The keys in the order they were registered. -/
  nodes : List Key
  /-- The dependencies: the first of a pair runs before the second. -/
  edges : List (Key × Key)
deriving DecidableEq

/-- The keys that directly depend on `key`, in the order of the dependencies. -/
def Snapshot.dependents (s : Snapshot) (key : Key) : List Key :=
  (s.edges.filter (·.1 == key)).map Prod.snd

end LoadOrder
