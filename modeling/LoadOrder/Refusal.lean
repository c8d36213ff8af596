import LoadOrder.CycleListing
import LoadOrder.Graph

/-!
# Refusals

What a call on a registry or a session can be refused for, and how a refusal is worded.
-/

namespace LoadOrder

/-- The reason why a call is refused. -/
inductive Refusal where
  /-- The key is taken. -/
  | keyTaken (key : Key)
  /-- The very listener is registered already, under the key `existing`. -/
  | listenerTaken (key existing : Key)
  /-- No listener is registered under the key. -/
  | unknownKey (key : Key)
  /-- The listener would have to run before itself. -/
  | dependsOnItself (key : Key)
  /-- The baseline listener at this position has no name. -/
  | unnamed (index : Nat)
  /-- There is no baseline listener, so nothing to anchor others to. -/
  | noBaseline
  /-- With the listener there would be `count` of them, more than `max`. -/
  | full (count max : Nat)
  /-- The session has been sorted. -/
  | alreadySorted
  /-- The listeners wait for one another. -/
  | cyclic (listing : CycleListing)
  /-- The graph refused. -/
  | graph (fault : GraphFault)
deriving DecidableEq

/-- The wording of a refusal. -/
def Refusal.message : Refusal → String
  | .keyTaken key =>
    "Attempted to register two reload listeners for the same key: " ++ key.text
  | .listenerTaken key existing =>
    "Reload listener for " ++ key.text ++ " is already registered as " ++ existing.text
  | .unknownKey key => "Unknown reload listener: " ++ key.text
  | .dependsOnItself key => "Reload listener " ++ key.text ++ " cannot depend on itself"
  | .unnamed index =>
    "A key for the baseline reload listener at position " ++ toString index ++ " was not provided"
  | .noBaseline => "At least one baseline reload listener is required"
  | .full count max =>
    "Too many reload listeners: " ++ toString count ++ " > " ++ toString max
  | .alreadySorted => "Reload listener session has already been sorted"
  | .cyclic listing => listing.text
  | .graph fault => fault.message

end LoadOrder
