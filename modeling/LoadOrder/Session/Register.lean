import LoadOrder.Session.Basic

/-!
# Starting a session and registering with it

Listeners enter the registry and the graph together (`Session.enroll`), be they baseline listeners
at the start or others later. A dependency is an edge of the graph; declaring it again changes
nothing.
-/

namespace LoadOrder

/-- What starting a session comes to, with the events it logged. -/
structure Opening (L : Type) where
  /-- The new session, or why there is none. -/
  result : Except Refusal (Session L)
  /-- The events of the start in order. -/
  log : List Event

namespace Session

variable {L : Type}

/-- Adds a listener to the registry and to the graph. A key or listener that is taken is reported
before a session that is full. The answer is the new session with the listener's index. -/
def enroll [DecidableEq L] (s : Session L) (key : Key) (listener : L) :
    Except Refusal (Session L × Nat) :=
  match s.registry.conflict? key listener with
  | some reason => .error reason
  | none =>
    if s.policy.maxListeners.toNat ≤ s.registry.size then
      .error (.full (s.registry.size + 1) s.policy.maxListeners.toNat)
    else
      -- the registry checks the pair once more
      match s.registry.insert key listener with
      | .error reason => .error reason
      | .ok (registry, index) =>
        .ok ({ s with registry, graph := (s.graph.addNode listener).1 }, index)

/-! ### Starting -/

/-- Enrols the baseline listeners in order, with a warning before each whose key is outside the
baseline namespace. -/
def enrollBaseline [DecidableEq L] (s : Session L) : List (Key × L) → Opening L
  | [] => ⟨.ok s, []⟩
  | (key, listener) :: rest =>
    let warning :=
      if s.inBaseline key then [] else [.outsideBaseline s.side key s.policy.baselineSpace]
    match s.enroll key listener with
    | .error reason => ⟨.error reason, warning⟩
    | .ok (s, _) =>
      let opening := enrollBaseline s rest
      ⟨opening.result, warning ++ opening.log⟩

/-- A session without listeners. -/
def blank (side : Side) (policy : Policy) (anchor : Key) : Session L where
  side := side
  policy := policy
  registry := .empty
  graph := .empty
  baselineSize := 0
  anchor := anchor
  finished := false

/-- Makes all listeners so far the baseline, each waiting for the one before it. -/
def fixBaseline (s : Session L) : Session L :=
  { s with graph := s.graph.chain, baselineSize := s.registry.size }

/-- Starts a session from the baseline listeners in their order. All of them are named before
anything else is looked at, and there has to be one. -/
def start [DecidableEq L] (side : Side) (baseline : List L) (naming : Naming L)
    (policy : Policy) : Opening L :=
  -- a missing name is reported before an empty baseline or a taken key
  match naming.nameAll 0 baseline with
  | .error reason => ⟨.error reason, []⟩
  | .ok named =>
    match named.getLast? with
    | none => ⟨.error .noBaseline, []⟩
    | some (anchor, _) =>
      let opening := enrollBaseline (blank side policy anchor) named
      match opening.result with
      | .error reason => ⟨.error reason, opening.log⟩
      | .ok s =>
        let s := s.fixBaseline
        ⟨.ok s, opening.log ++ [.started side s.baselineSize anchor]⟩

/-! ### Registering and declaring -/

/-- Registers a listener under a key, after all others. -/
def register [DecidableEq L] (s : Session L) (key : Key) (listener : L) : Reply L Unit :=
  if s.finished then s.refuse .alreadySorted
  else
    match s.enroll key listener with
    | .error reason => s.refuse reason
    | .ok (t, index) => ⟨.ok (), t, [.registered s.side key index]⟩

/-- Declares that the listener under `first` runs before the one under `second`. -/
def declare (s : Session L) (first second : Key) : Reply L Unit :=
  if s.finished then s.refuse .alreadySorted
  else
    match s.registry.position? first, s.registry.position? second with
    | none, _ => s.refuse (.unknownKey first)
    | some _, none => s.refuse (.unknownKey second)
    | some u, some v =>
      if u = v then s.refuse (.dependsOnItself first)
      else
        match s.graph.link u v with
        | .error reason => s.refuse (.graph reason)
        | .ok (graph, inserted) =>
          ⟨.ok (), { s with graph }, [.declared s.side first second inserted]⟩

end Session

end LoadOrder
