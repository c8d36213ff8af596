import LoadOrder.Session.Register
import LoadOrder.Session.Sort

/-!
# Histories of a session

The calls that can change a session are registering, declaring and sorting. A history is a list of
them, performed in order; a call that is refused takes its place in the history and changes
nothing. Whatever a session can become, it becomes by a history from its start.
-/

namespace LoadOrder

/-- A call on a session. -/
inductive Call (L : Type) where
  /-- Registers a listener under a key. -/
  | register (key : Key) (listener : L)
  /-- Declares that the listener under `first` runs before the one under `second`. -/
  | declare (first second : Key)
  /-- Puts the listeners in order. -/
  | sort

namespace Session

variable {L : Type} [DecidableEq L]

/-- Performs a call. Only a sort has a schedule to answer. -/
def perform (s : Session L) : Call L → Reply L (Option (Schedule L))
  | .register key listener =>
    let reply := s.register key listener
    { reply with result := reply.result.map fun _ => none }
  | .declare first second =>
    let reply := s.declare first second
    { reply with result := reply.result.map fun _ => none }
  | .sort =>
    let reply := s.sort
    { reply with result := reply.result.map some }

/-- The session after a history. -/
def after (s : Session L) (calls : List (Call L)) : Session L :=
  calls.foldl (fun s call => (s.perform call).session) s

/-- The replies to the calls of a history, in order. -/
def replies (s : Session L) : List (Call L) → List (Reply L (Option (Schedule L)))
  | [] => []
  | call :: calls =>
    let reply := s.perform call
    reply :: reply.session.replies calls

@[simp] theorem after_nil (s : Session L) : s.after [] = s := rfl

@[simp] theorem after_cons (s : Session L) (call : Call L) (calls : List (Call L)) :
    s.after (call :: calls) = (s.perform call).session.after calls := rfl

@[simp] theorem after_append (s : Session L) (calls later : List (Call L)) :
    s.after (calls ++ later) = (s.after calls).after later :=
  List.foldl_append

theorem replies_append (s : Session L) (calls later : List (Call L)) :
    s.replies (calls ++ later) = s.replies calls ++ (s.after calls).replies later := by
  induction calls generalizing s with
  | nil => rfl
  | cons call calls ih => exact congrArg _ (ih (s.perform call).session)

end Session

end LoadOrder
