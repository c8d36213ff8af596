import LoadOrder.Event
import LoadOrder.Listener
import LoadOrder.Refusal

/-!
# Names of baseline listeners

The baseline listeners come without keys; a *naming* tells the key of each. It may be computed
from a listener's value, or kept in a `NameBook`, where a listener is found by identity and has
the name that it was given last.
-/

namespace LoadOrder

/-- The keys of listeners, as far as they have one. -/
abbrev Naming (L : Type) : Type := L → Option Key

/-- Names each listener by its value inside the namespace `space`, where that makes a key. -/
def Naming.byValue (space : String) : Naming Listener :=
  fun listener => (Key.make space listener.value).toOption

/-- Pairs each listener with its name. The first one without a name is reported by its position,
counted from `index`. -/
def Naming.nameAll {L : Type} (naming : Naming L) (index : Nat) :
    List L → Except Refusal (List (Key × L))
  | [] => .ok []
  | listener :: rest =>
    match naming listener with
    | none => .error (.unnamed index)
    | some key => (naming.nameAll (index + 1) rest).map ((key, listener) :: ·)

/-- Listeners with their names, each listener once. -/
structure NameBook (L : Type) where
  /-- The named listeners, the one named last in front. -/
  names : List (L × Key)

namespace NameBook

variable {L : Type}

/-- The book without names. -/
def empty : NameBook L :=
  ⟨[]⟩

/-- The number of named listeners. -/
def size (b : NameBook L) : Nat :=
  b.names.length

/-- Whether no listener is named. -/
def isEmpty (b : NameBook L) : Bool :=
  b.names.isEmpty

variable [DecidableEq L]

/-- The name of a listener. -/
def find? (b : NameBook L) : Naming L :=
  fun listener => (b.names.find? (·.1 == listener)).map Prod.snd

/-- The book in which `listener` is named `key`, whatever it was named before. -/
def insert (b : NameBook L) (key : Key) (listener : L) : NameBook L :=
  ⟨(listener, key) :: b.names.filter (·.1 != listener)⟩

/-- What is logged when `listener` is named `key`: the old name, if it had one. -/
def insertLog (b : NameBook L) (key : Key) (listener : L) : List Event :=
  match b.find? listener with
  | some previous => [.renamed previous key]
  | none => []

theorem find?_eq_none_iff_forall_ne {b : NameBook L} {listener : L} :
    b.find? listener = none ↔ ∀ entry ∈ b.names, entry.1 ≠ listener := by
  simp [find?]

/-- Naming a listener that has no name takes none out. -/
theorem insert_of_find?_eq_none {b : NameBook L} {listener : L} (hnone : b.find? listener = none)
    (key : Key) : b.insert key listener = ⟨(listener, key) :: b.names⟩ := by
  have hkeep : b.names.filter (·.1 != listener) = b.names := by
    refine List.filter_eq_self.mpr fun entry hentry => ?_
    exact bne_iff_ne.mpr (find?_eq_none_iff_forall_ne.mp hnone entry hentry)
  rw [insert, hkeep]

/-- A listener has the name it was given last, and all others keep theirs. -/
theorem find?_insert (b : NameBook L) (key : Key) (listener other : L) :
    (b.insert key listener).find? other
      = if other = listener then some key else b.find? other := by
  by_cases h : other = listener
  · simp [find?, insert, h]
  · -- the entry that goes is not the one looked for
    have hkept : (b.names.filter (·.1 != listener)).find? (·.1 == other) =
        b.names.find? (·.1 == other) := by
      rw [List.find?_filter]
      refine congrArg (b.names.find? ·) (funext fun entry => ?_)
      by_cases hentry : entry.1 = other
      · simp [hentry, h]
      · simp [hentry]
    have hne : (listener == other) = false := by simpa using Ne.symm h
    rw [if_neg h, find?, insert, List.find?_cons, hne, hkept]
    rfl

end NameBook

end LoadOrder
