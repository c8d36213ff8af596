import LoadOrder.Event
import LoadOrder.Naming
import LoadOrder.Policy
import LoadOrder.Registry
import LoadOrder.Schedule
import LoadOrder.Snapshot

/-!
# Sessions

A session collects the reload listeners of one side and puts them in order once. It starts from
the baseline listeners, which keep the order they are given in; the last of them is the anchor.
Others then register listeners under keys and declare which of two runs first. After the sort,
whatever its outcome, the session can only be looked at.

A session keeps its listeners twice, in the registry and as nodes of the graph, by the same
indices in both.
-/

namespace LoadOrder

/-- The state of a session. -/
structure Session (L : Type) where
  /-- The side that listeners are ordered for. -/
  side : Side
  /-- The settings of the session. -/
  policy : Policy
  /-- The listeners with their keys. -/
  registry : Registry L
  /-- The listeners with the dependencies between them; an edge leads to the one that waits. -/
  graph : Graph L
  /-- How many of the listeners are the baseline. -/
  baselineSize : Nat
  /-- The key of the last baseline listener. -/
  anchor : Key
  /-- Whether the session has been sorted. -/
  finished : Bool

/-- What a call on a session answers, with the session after it and the events it logged. -/
structure Reply (L α : Type) where
  /-- The answer, or why the call was refused. -/
  result : Except Refusal α
  /-- The session after the call. -/
  session : Session L
  /-- The events of the call in order. -/
  log : List Event

namespace Session

variable {L : Type}

/-- A call that is refused changes nothing and logs nothing. -/
def refuse {α : Type} (s : Session L) (reason : Refusal) : Reply L α :=
  ⟨.error reason, s, []⟩

/-! ### Looking -/

/-- Whether `key` is the key of a baseline listener, by its namespace. -/
def inBaseline (s : Session L) (key : Key) : Bool :=
  key.inSpace s.policy.baselineSpace

/-- The key of the listener with index `i`. -/
def keyAt? (s : Session L) (i : Nat) : Option Key :=
  (s.registry.entry? i).map Prod.fst

/-- Whether the listener with index `i` has the key of a baseline listener. -/
def inBaselineAt (s : Session L) (i : Nat) : Bool :=
  (s.keyAt? i).any s.inBaseline

/-- The listener under a key. -/
def get (s : Session L) (key : Key) : Except Refusal L :=
  s.registry.get key

/-- The graph by keys. -/
def snapshot (s : Session L) : Snapshot where
  side := s.side
  nodes := s.registry.keys
  edges := s.graph.links.arcs.filterMap fun (u, v) => return (← s.keyAt? u, ← s.keyAt? v)

/-- The keys of the listeners next to the one under `key`, in the order of the edges. -/
def neighbours [DecidableEq L] (s : Session L) (way : Way) (key : Key) :
    Except Refusal (List Key) := do
  let listener ← s.get key
  return (s.graph.neighbours way listener).filterMap s.registry.keyFor?

/-- Whether there is an edge between the listeners under two keys; the first is looked up
first. -/
def hasEdge [DecidableEq L] (s : Session L) (first second : Key) : Except Refusal Bool := do
  let a ← s.get first
  let b ← s.get second
  return s.graph.hasEdge a b

end Session

end LoadOrder
