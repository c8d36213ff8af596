/-!
# Policies

A policy says which listeners are baseline listeners, how many listeners a session takes, and
whether a session checks the order it found.
-/

namespace LoadOrder

/-- The settings of a session. -/
structure Policy where
  /-- Keys in this namespace are those of baseline listeners. -/
  baselineSpace : String := "minecraft"
  /-- The most listeners that a session takes, baseline listeners included. -/
  maxListeners : UInt64 := 4096
  /-- Whether an order is checked against the graph once it is found. -/
  checkOrder : Bool := true
deriving DecidableEq, Repr

namespace Policy

/-- The policy of a session that is given none. -/
def default : Policy := {}

/-- The policy with another baseline namespace. -/
def withSpace (p : Policy) (space : String) : Policy :=
  { p with baselineSpace := space }

end Policy

end LoadOrder
