import LoadOrder.Key

/-!
# Schedules

A schedule is what a sort ends in: every listener of the session with its key, in the order in
which they are to run.
-/

namespace LoadOrder

/-- Listeners with their keys in the order in which they run. -/
structure Schedule (L : Type) where
  /-- The listeners in order. -/
  entries : List (Key × L)

namespace Schedule

variable {L : Type}

/-- The keys in order. -/
def keys (s : Schedule L) : List Key :=
  s.entries.map Prod.fst

/-- The listeners in order. -/
def listeners (s : Schedule L) : List L :=
  s.entries.map Prod.snd

/-- The number of listeners. -/
def size (s : Schedule L) : Nat :=
  s.entries.length

/-- Whether there is no listener. -/
def isEmpty (s : Schedule L) : Bool :=
  s.entries.isEmpty

/-- A key with its halves quoted. -/
def describeKey (k : Key) : String :=
  "ListenerKey \x7b namespace: " ++ Text.quoted k.space ++ ", path: " ++ Text.quoted k.path
    ++ " \x7d"

/-- The schedule on one line for a reader of logs: its keys in order. -/
def describe (s : Schedule L) : String :=
  "SortedListeners \x7b keys: [" ++ ", ".intercalate (s.keys.map describeKey) ++ "] \x7d"

end Schedule

end LoadOrder
