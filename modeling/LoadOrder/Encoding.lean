import LoadOrder.Data
import LoadOrder.Policy
import LoadOrder.Snapshot

/-!
# Stored forms

The forms of sides, keys, policies and snapshots as structured data. A side and a key are stored
as text, a policy and a snapshot as a record of their parts. Reading accepts some more: a side may
be the only member of a record and have no value, and the parts of a policy or a snapshot may
stand in a list, in the order they are written. A record that repeats a part is refused; members
that it does not need are passed over. A policy may leave out parts, in a list the last ones, which
then are as by default; a snapshot must have them all.
-/

namespace LoadOrder

/-! ### Sides -/

/-- The stored form of a side. -/
def Side.toData (s : Side) : Data :=
  .text s.name

/-- The side that is stored so. -/
def Side.ofData? : Data → Option Side
  | .text name => Side.named? name
  | .record [(name, .null)] => Side.named? name
  | _ => none

/-! ### Keys -/

/-- Why a value is no stored key. -/
inductive KeyDataFault where
  /-- The value is no text. -/
  | notText
  /-- The text writes no key. -/
  | malformed (error : KeyFault)
deriving DecidableEq, Repr

/-- The wording of the error, which only a text has. -/
def KeyDataFault.message? : KeyDataFault → Option String
  | .notText => none
  | .malformed error => some error.message

/-- The stored form of a key. -/
def Key.toData (k : Key) : Data :=
  .text k.text

/-- The key that is stored so. -/
def Key.ofData : Data → Except KeyDataFault Key
  | .text s => (Key.parse s).mapError .malformed
  | _ => .error .notText

/-- The key that is stored so, if any is. -/
def Key.ofData? (d : Data) : Option Key :=
  (Key.ofData d).toOption

/-! ### Policies -/

/-- A part that may be left out: as by default without a value, else what the value decodes to. -/
def Data.orDefault {α : Type} (decode : Data → Option α) (default : α) : Option Data → Option α
  | none => some default
  | some d => decode d

namespace Policy

/-- The stored form of a policy. -/
def toData (p : Policy) : Data :=
  .record [("baseline_namespace", .text p.baselineSpace),
    ("max_listeners", .count p.maxListeners.toNat), ("verify_order", .bool p.checkOrder)]

/-- The policy with these parts, where a part that is left out is as by default. -/
def ofParts? (space max check : Option Data) : Option Policy := do
  let baselineSpace ← Data.orDefault Data.text? default.baselineSpace space
  let maxListeners ← Data.orDefault Data.word? default.maxListeners max
  let checkOrder ← Data.orDefault Data.bool? default.checkOrder check
  return { baselineSpace, maxListeners, checkOrder }

/-- The names of the parts. -/
def partNames : List String :=
  ["baseline_namespace", "max_listeners", "verify_order"]

/-- The policy that is stored so. -/
def ofData? : Data → Option Policy
  | .record members =>
    if Data.hasOnce partNames members then
      ofParts? (Data.member? "baseline_namespace" members) (Data.member? "max_listeners" members)
        (Data.member? "verify_order" members)
    else none
  | .list items => if items.length ≤ 3 then ofParts? items[0]? items[1]? items[2]? else none
  | _ => none

end Policy

/-! ### Snapshots -/

namespace Snapshot

/-- The stored form of a pair of keys. -/
def edgeToData (edge : Key × Key) : Data :=
  .list [edge.1.toData, edge.2.toData]

/-- The pair of keys that is stored so. -/
def edgeOfData? : Data → Option (Key × Key)
  | .list [first, second] => return (← Key.ofData? first, ← Key.ofData? second)
  | _ => none

/-- The stored form of a snapshot. -/
def toData (s : Snapshot) : Data :=
  .record [("side", s.side.toData), ("nodes", .list (s.nodes.map Key.toData)),
    ("edges", .list (s.edges.map edgeToData))]

/-- The snapshot with these parts. -/
def ofParts? (side nodes edges : Data) : Option Snapshot := do
  let side ← Side.ofData? side
  let nodes ← (← nodes.list?).mapM Key.ofData?
  let edges ← (← edges.list?).mapM edgeOfData?
  return { side, nodes, edges }

/-- The names of the parts. -/
def partNames : List String :=
  ["side", "nodes", "edges"]

/-- The snapshot that is stored so. -/
def ofData? : Data → Option Snapshot
  | .record members =>
    if Data.hasOnce partNames members then do
      ofParts? (← Data.member? "side" members) (← Data.member? "nodes" members)
        (← Data.member? "edges" members)
    else none
  | .list [side, nodes, edges] => ofParts? side nodes edges
  | _ => none

end Snapshot

end LoadOrder
