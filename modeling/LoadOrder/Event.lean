import LoadOrder.CycleListing
import LoadOrder.Data
import LoadOrder.Side

/-!
# Log events

What a session and a name book report of their work. An event has a level, a message and named
fields; keys and sides are shown in fields as text, numbers and truth values as they are.
-/

namespace LoadOrder

/-- How much an event matters. -/
inductive Level where
  /-- Of use to whoever looks for an error. -/
  | debug
  /-- A step of the ordinary course. -/
  | info
  /-- A sign of trouble. -/
  | warn
deriving DecidableEq, Repr

/-- The name of a level. -/
def Level.name : Level → String
  | .debug => "DEBUG"
  | .info => "INFO"
  | .warn => "WARN"

/-- Something worth a line in the log. -/
inductive Event where
  /-- A listener that had a name was given another. -/
  | renamed (previous key : Key)
  /-- A baseline listener's key is not in the baseline namespace. -/
  | outsideBaseline (side : Side) (key : Key) (space : String)
  /-- A session was started with so many baseline listeners. -/
  | started (side : Side) (baseline : Nat) (anchor : Key)
  /-- A listener was registered at this position. -/
  | registered (side : Side) (key : Key) (index : Nat)
  /-- A dependency was declared; `inserted` tells whether it was new. -/
  | declared (side : Side) (first second : Key) (inserted : Bool)
  /-- So many dangling listeners were put behind the anchor. -/
  | anchored (side : Side) (anchor : Key) (linked : Nat)
  /-- A sort begins on so many listeners and dependencies. -/
  | sorting (side : Side) (listeners dependencies : Nat)
  /-- A sort failed on these cycles. -/
  | cyclic (side : Side) (listing : CycleListing)
  /-- A sort found an order that the graph does not allow. -/
  | disordered (side : Side)
  /-- A sort put so many listeners in order. -/
  | sorted (side : Side) (listeners : Nat)
deriving DecidableEq

namespace Event

/-- The level of an event. -/
def level : Event → Level
  | .renamed .. | .registered .. | .declared .. | .anchored .. => .debug
  | .started .. | .sorting .. | .sorted .. => .info
  | .outsideBaseline .. | .cyclic .. | .disordered .. => .warn

/-- The message of an event. -/
def message : Event → String
  | .renamed .. => "Renamed built-in reload listener"
  | .outsideBaseline .. => "Baseline reload listener is outside the baseline namespace"
  | .started .. => "Reload listener session created"
  | .registered .. => "Registered reload listener"
  | .declared .. => "Declared reload listener dependency"
  | .anchored .. => "Linked dangling reload listeners to anchor"
  | .sorting .. => "Sorting reload listeners"
  | .cyclic _ listing => listing.text
  | .disordered .. => "Sorted reload listener order violates the dependency graph"
  | .sorted .. => "Reload listener sorting complete"

/-- The named fields of an event. -/
def fields : Event → List (String × Data)
  | .renamed previous key => [("previous", .text previous.text), ("key", .text key.text)]
  | .outsideBaseline side key space =>
    [("side", .text side.name), ("key", .text key.text), ("baseline_namespace", .text space)]
  | .started side baseline anchor =>
    [("side", .text side.name), ("baseline", .count baseline), ("anchor", .text anchor.text)]
  | .registered side key index =>
    [("side", .text side.name), ("key", .text key.text), ("index", .count index)]
  | .declared side first second inserted =>
    [("side", .text side.name), ("first", .text first.text), ("second", .text second.text),
      ("inserted", .bool inserted)]
  | .anchored side anchor linked =>
    [("side", .text side.name), ("anchor", .text anchor.text), ("linked", .count linked)]
  | .sorting side listeners dependencies =>
    [("side", .text side.name), ("listeners", .count listeners),
      ("dependencies", .count dependencies)]
  | .cyclic side listing => [("side", .text side.name), ("cycles", .count listing.size)]
  | .disordered side => [("side", .text side.name)]
  | .sorted side listeners => [("side", .text side.name), ("listeners", .count listeners)]

end Event

end LoadOrder
