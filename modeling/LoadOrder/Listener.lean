/-!
# Listeners and their identity

A session never looks at what a listener does, only at which one it is: two listeners are the same
if they are the same instance, whatever their values. `Listener` is the plainest such type, a value
together with a mark that tells instances of equal value apart. The functions on lists below need
no more than decidable identity.
-/

namespace LoadOrder

/-- A listener instance. -/
structure Listener where
  /-- What the listener is, which several instances may share. -/
  value : String
  /-- Which of the instances with this value it is. -/
  mark : String
deriving DecidableEq, Repr

namespace Listener

variable {L : Type} [DecidableEq L]

/-- For each entry of `ls`, the position of the first entry that is the same instance. -/
def firstPositions (ls : List L) : List Nat :=
  ls.map fun l => ls.idxOf l

/-- How many different instances occur in `ls`. -/
def distinctCount (ls : List L) : Nat :=
  ls.eraseDups.length

end Listener

end LoadOrder
