/-!
# Structured data

The form in which policies and snapshots are stored and log fields are shown: null, truth values,
numbers, texts, lists and records of named members. A number that is written with digits alone is
a count; one with a sign, a point or an exponent is none, and only its text is kept.
-/

namespace LoadOrder

/-- A value of structured data. -/
inductive Data where
  /-- No value. -/
  | null
  /-- A truth value. -/
  | bool (b : Bool)
  /-- A number written with digits alone. -/
  | count (n : Nat)
  /-- Any other number, as it is written. -/
  | number (written : String)
  /-- A text. -/
  | text (s : String)
  /-- Values in order. -/
  | list (items : List Data)
  /-- Values by name. -/
  | record (members : List (String × Data))

namespace Data

/-- The member of a record with this name. -/
def member? (name : String) (members : List (String × Data)) : Option Data :=
  members.lookup name

/-- Whether no member of a record repeats one of these names. -/
def hasOnce (names : List String) (members : List (String × Data)) : Bool :=
  names.all fun name => (members.filter (·.1 == name)).length ≤ 1

/-- The truth value that a value is. -/
def bool? : Data → Option Bool
  | .bool b => some b
  | _ => none

/-- The text that a value is. -/
def text? : Data → Option String
  | .text s => some s
  | _ => none

/-- The items of a list. -/
def list? : Data → Option (List Data)
  | .list items => some items
  | _ => none

/-- The count that a value is, if it fits a word of 64 bits. -/
def word? : Data → Option UInt64
  | .count n => if n < UInt64.size then some (.ofNat n) else none
  | _ => none

end Data

end LoadOrder
