import LoadOrder.Text.Quoted

/-!
# Listener keys

A reload listener is registered under a key, written `namespace:path`. Neither half is empty and
the namespace holds no colon, so the first colon of a written key is the one between its halves
and a key is determined by its text. The two ways to obtain a key are `Key.make`, from the halves,
and `Key.parse`, from the text; each names the first rule that its input breaks.

Keys are ordered by namespace, then by path, both by code point.
-/

namespace LoadOrder

/-- The character between the halves of a key. -/
def separator : Char := ':'

/-- The rule that a would-be key breaks. -/
inductive KeyFault where
  /-- The text has no separator. -/
  | noSeparator (text : String)
  /-- The namespace of the written key is empty. -/
  | emptyNamespace (text : String)
  /-- The path of the written key is empty. -/
  | emptyPath (text : String)
  /-- The namespace itself holds a separator. -/
  | separatorInNamespace (space : String)
deriving DecidableEq, Repr

/-- The wording of a broken rule, with the offending text in quotes. -/
def KeyFault.message : KeyFault → String
  | .noSeparator text => "Listener key " ++ Text.quoted text ++ " has no ':' separator"
  | .emptyNamespace text => "Listener key " ++ Text.quoted text ++ " has an empty namespace"
  | .emptyPath text => "Listener key " ++ Text.quoted text ++ " has an empty path"
  | .separatorInNamespace space => "Namespace " ++ Text.quoted space ++ " must not contain ':'"

/-- The name of a reload listener: a namespace and a path inside it. -/
@[ext] structure Key where
  /-- The namespace, usually of whoever contributes the listener. -/
  space : String
  /-- The name inside the namespace; it may hold further separators. -/
  path : String
  /-- A namespace has at least one character. -/
  space_ne_empty : space ≠ ""
  /-- A path has at least one character. -/
  path_ne_empty : path ≠ ""
  /-- A namespace ends at the first separator of the written key. -/
  separator_notMem_space : separator ∉ space.toList
deriving DecidableEq

namespace Key

/-- The two halves as one text, whether or not they make a key. -/
def join (space path : String) : String :=
  space ++ separator.toString ++ path

/-- The written form of a key. -/
def text (k : Key) : String :=
  join k.space k.path

/-- The key with these halves. An empty namespace is reported before an empty path, and both
before a separator in the namespace. -/
def make (space path : String) : Except KeyFault Key :=
  if hs : space = "" then .error (.emptyNamespace (join space path))
  else if hp : path = "" then .error (.emptyPath (join space path))
  else if hc : separator ∈ space.toList then .error (.separatorInNamespace space)
  else .ok ⟨space, path, hs, hp, hc⟩

/-- The characters before the first separator. -/
def spaceOf (text : String) : String :=
  String.ofList (text.toList.takeWhile (· != separator))

/-- The characters after the first separator. -/
def pathOf (text : String) : String :=
  String.ofList ((text.toList.dropWhile (· != separator)).drop 1)

/-- The key that `text` writes, cut at its first separator. -/
def parse (text : String) : Except KeyFault Key :=
  if separator ∈ text.toList then make (spaceOf text) (pathOf text)
  else .error (.noSeparator text)

/-- Whether the key lives in the namespace `space`. -/
def inSpace (k : Key) (space : String) : Bool :=
  k.space == space

/-- Keys compare by namespace first and by path within one namespace. -/
instance : Ord Key where
  compare a b := (compare a.space b.space).then (compare a.path b.path)

/-- The keys in ascending order, repeats kept. -/
def sorted (keys : List Key) : List Key :=
  keys.mergeSort fun a b => (compare a b).isLE

end Key

end LoadOrder
