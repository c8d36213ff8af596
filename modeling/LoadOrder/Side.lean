/-!
# Sides

Reload listeners are ordered for one side of the game at a time.
-/

namespace LoadOrder

/-- The side that a session orders listeners for. -/
inductive Side where
  /-- The side that a player runs. -/
  | client
  /-- The side that runs the world. -/
  | server
deriving DecidableEq, Repr

namespace Side

/-- The name of a side. -/
def name : Side → String
  | .client => "client"
  | .server => "server"

/-- The side with this name. -/
def named? : String → Option Side
  | "client" => some .client
  | "server" => some .server
  | _ => none

@[simp] theorem named?_name (s : Side) : named? s.name = some s := by
  cases s <;> rfl

end Side

end LoadOrder
