import LoadOrder.Encoding
import LoadOrder.Proofs.Key
import Mathlib.Data.List.Nodup
import Mathlib.Data.Set.List

/-!
# Reading what has been stored

Snapshots and policies are read back from their stored forms (`stored_exact`), and it is told what
else is read as one.

A snapshot has three parts, and it may hold them as the members of a record, each once, or as the
items of a list (`Snapshot.HasParts`). There is just one form in which keys can be stored, and lists
of them, and lists of pairs of them, whatever separators their texts contain. So a value is read as
a snapshot exactly if it has the parts, the side is one, and the others are made of texts in the
right shape all of which write keys (`Snapshot.ReadsExactly`): one bad text is enough to refuse all
of it.

The parts of a policy may be missing, and then it is read like the value that has them all, those
that are missing as by default (`Policy.ReadsExactly`).
-/

namespace LoadOrder

/-- A decoder that reads nothing but what is written reads lists of it, item by item. -/
theorem mapM_eq_some_iff {α β : Type} {decode : α → Option β} {encode : β → α}
    (hdecode : ∀ d x, decode d = some x ↔ d = encode x) {ds : List α} {xs : List β} :
    ds.mapM decode = some xs ↔ ds = xs.map encode := by
  induction ds generalizing xs with
  | nil => cases xs <;> simp
  | cons d ds ih =>
    rw [List.mapM_cons]
    refine ⟨?_, ?_⟩
    · intro hread
      obtain ⟨x, hx, hrest⟩ := Option.bind_eq_some_iff.mp hread
      obtain ⟨ys, hys, hxs⟩ := Option.bind_eq_some_iff.mp hrest
      obtain rfl : x :: ys = xs := Option.some.inj hxs
      rw [List.map_cons, (hdecode d x).mp hx, ih.mp hys]
    · intro heq
      cases xs with
      | nil => cases heq
      | cons x xs =>
        obtain ⟨hd, hds⟩ := List.cons.inj heq
        rw [(hdecode d x).mpr hd, ih.mpr hds]
        rfl

/-- A list is made of values of `f` exactly if each of its items is one. -/
theorem exists_map_eq_iff {α β : Type} {f : α → β} {ys : List β} :
    (∃ xs : List α, xs.map f = ys) ↔ ∀ y ∈ ys, ∃ x, f x = y :=
  Set.ext_iff.mp (Set.range_list_map f) ys

/-- A record without repeated names repeats none of these. -/
theorem Data.hasOnce_of_nodup {members : List (String × Data)}
    (hnodup : (members.map Prod.fst).Nodup) (names : List String) : hasOnce names members := by
  refine List.all_eq_true.mpr fun name _ => decide_eq_true ?_
  have hcount : (members.filter (·.1 == name)).length = (members.map Prod.fst).count name := by
    rw [List.count, List.countP_map, List.countP_eq_length_filter]
    rfl
  rw [hcount]
  exact List.nodup_iff_count_le_one.mp hnodup name

/-! ### Sides -/

theorem Side.named?_eq_some_iff {name : String} {side : Side} :
    named? name = some side ↔ name = side.name := by
  refine ⟨?_, ?_⟩
  · intro hnamed
    unfold named? at hnamed
    split at hnamed
    · rw [← Option.some.inj hnamed]
      rfl
    · rw [← Option.some.inj hnamed]
      rfl
    · cases hnamed
  · rintro rfl
    exact named?_name side

/-- A side is stored under its name, which may have a record of its own. -/
theorem Side.ofData?_eq_some_iff {d : Data} {side : Side} :
    ofData? d = some side ↔ d = side.toData ∨ d = .record [(side.name, .null)] := by
  unfold ofData? toData
  split
  · next name =>
    simp [named?_eq_some_iff]
  · next name =>
    simp [named?_eq_some_iff]
  · next htext hrecord =>
    refine iff_of_false nofun ?_
    rintro (rfl | rfl)
    · exact htext _ rfl
    · exact hrecord _ rfl

/-! ### Keys -/

theorem Key.ofData?_eq_some_iff (d : Data) (key : Key) : ofData? d = some key ↔ d = key.toData := by
  unfold ofData? ofData toData
  split
  · next text =>
    rw [Data.text.injEq, eq_comm (a := text), ← parse_eq_ok_iff]
    cases parse text with
    | error fault => exact iff_of_false nofun nofun
    | ok found =>
      show some found = some key ↔ _
      rw [Option.some.injEq, Except.ok.injEq]
  · next htext =>
    refine iff_of_false nofun ?_
    rintro rfl
    exact htext _ rfl

/-! ### Snapshots -/

namespace Snapshot

variable {d e side nodes edges : Data} {s : Snapshot}

/-- The parts that a stored snapshot would have: three members of a record, or the three items of a
list. -/
inductive HasParts : Data → Data → Data → Data → Prop
  /-- The parts are found by their names, each once, whatever else is in the record. -/
  | record {members : List (String × Data)} {side nodes edges : Data}
      (honce : Data.hasOnce partNames members)
      (hside : Data.member? "side" members = some side)
      (hnodes : Data.member? "nodes" members = some nodes)
      (hedges : Data.member? "edges" members = some edges) :
      HasParts (.record members) side nodes edges
  /-- The parts are all there is, in this order. -/
  | list (side nodes edges : Data) : HasParts (.list [side, nodes, edges]) side nodes edges

/-- A list of texts. -/
def ofTexts (texts : List String) : Data :=
  .list (texts.map .text)

/-- A list of pairs of texts. -/
def ofTextPairs (pairs : List (String × String)) : Data :=
  .list (pairs.map fun pair => .list [.text pair.1, .text pair.2])

/-- A value is read as a snapshot exactly if it has the form of one, and as the one that is
written there. -/
structure ReadsExactly (d : Data) : Prop where
  /-- It is read if it has the three parts, the side is one, and the others are texts and pairs of
  texts that write keys without exception. -/
  exists_iff : (∃ s, ofData? d = some s) ↔ ∃ side nodes edges,
    HasParts d side (ofTexts nodes) (ofTextPairs edges) ∧
      (∃ s, Side.ofData? side = some s) ∧
      (∀ text ∈ nodes, ∃ key, Key.parse text = .ok key) ∧
      ∀ pair ∈ edges, (∃ key, Key.parse pair.1 = .ok key) ∧ ∃ key, Key.parse pair.2 = .ok key
  /-- What is read has the side that is named, and its keys and pairs are written with these very
  texts. -/
  parts : ∀ s, ofData? d = some s → ∃ side,
    HasParts d side (ofTexts (s.nodes.map Key.text))
      (ofTextPairs (s.edges.map (Prod.map Key.text Key.text))) ∧
      (side = .text s.side.name ∨ side = .record [(s.side.name, .null)])
  /-- Whatever has the same parts is read as the same, be it a record or a list. -/
  congr : ∀ e side nodes edges, HasParts d side nodes edges → HasParts e side nodes edges →
    ofData? e = ofData? d
  /-- A record of different names has the three parts if it has members with their names. -/
  hasParts_record : ∀ members side nodes edges, d = .record members →
    (members.map Prod.fst).Nodup → Data.member? "side" members = some side →
    Data.member? "nodes" members = some nodes → Data.member? "edges" members = some edges →
      HasParts d side nodes edges

theorem edgeOfData?_eq_some_iff (d : Data) (edge : Key × Key) :
    edgeOfData? d = some edge ↔ d = edgeToData edge := by
  unfold edgeOfData? edgeToData
  split
  · next first second =>
    simp only [Option.bind_eq_bind, Option.bind_eq_some_iff, Option.pure_def, Option.some.injEq,
      Key.ofData?_eq_some_iff, Data.list.injEq, List.cons.injEq, and_true]
    refine ⟨?_, ?_⟩
    · rintro ⟨a, rfl, b, rfl, rfl⟩
      exact ⟨rfl, rfl⟩
    · rintro ⟨rfl, rfl⟩
      exact ⟨_, rfl, _, rfl, rfl⟩
  · next hpair =>
    refine iff_of_false nofun ?_
    rintro rfl
    exact hpair _ _ rfl

theorem list?_eq_some_iff {items : List Data} : d.list? = some items ↔ d = .list items := by
  cases d <;> simp [Data.list?]

/-- Three parts make a snapshot exactly if they are the stored forms of its parts, with some choice
for the side. -/
theorem ofParts?_eq_some_iff : ofParts? side nodes edges = some s ↔
    Side.ofData? side = some s.side ∧ nodes = .list (s.nodes.map Key.toData) ∧
      edges = .list (s.edges.map edgeToData) := by
  unfold ofParts?
  simp only [Option.bind_eq_bind, Option.bind_eq_some_iff, Option.pure_def, Option.some.injEq,
    list?_eq_some_iff, mapM_eq_some_iff Key.ofData?_eq_some_iff,
    mapM_eq_some_iff edgeOfData?_eq_some_iff]
  refine ⟨?_, ?_⟩
  · rintro ⟨sd, hside, _, rfl, keys, rfl, _, rfl, pairs, rfl, rfl⟩
    exact ⟨hside, rfl, rfl⟩
  · rintro ⟨hside, rfl, rfl⟩
    exact ⟨_, hside, _, rfl, _, rfl, _, rfl, _, rfl, rfl⟩

theorem HasParts.ofData?_eq (hd : HasParts d side nodes edges) :
    ofData? d = ofParts? side nodes edges := by
  cases hd with
  | record honce hside hnodes hedges =>
    rw [ofData?, if_pos honce, hside, hnodes, hedges]
    rfl
  | list => rfl

/-- What has not all parts is not read. -/
theorem exists_hasParts (hread : ofData? d = some s) :
    ∃ side nodes edges, HasParts d side nodes edges := by
  unfold ofData? at hread
  split at hread
  · next members =>
    split at hread
    · next honce =>
      obtain ⟨side, hside, hread⟩ := Option.bind_eq_some_iff.mp hread
      obtain ⟨nodes, hnodes, hread⟩ := Option.bind_eq_some_iff.mp hread
      obtain ⟨edges, hedges, -⟩ := Option.bind_eq_some_iff.mp hread
      exact ⟨side, nodes, edges, .record honce hside hnodes hedges⟩
    · cases hread
  · exact ⟨_, _, _, .list _ _ _⟩
  · cases hread

/-- A value is read as a snapshot exactly if it has the stored forms of its parts. -/
theorem ofData?_eq_some_iff : ofData? d = some s ↔ ∃ side,
    HasParts d side (.list (s.nodes.map Key.toData)) (.list (s.edges.map edgeToData)) ∧
      Side.ofData? side = some s.side := by
  refine ⟨?_, ?_⟩
  · intro hread
    obtain ⟨side, nodes, edges, hparts⟩ := exists_hasParts hread
    rw [hparts.ofData?_eq] at hread
    obtain ⟨hside, rfl, rfl⟩ := ofParts?_eq_some_iff.mp hread
    exact ⟨side, hparts, hside⟩
  · rintro ⟨side, hparts, hside⟩
    rw [hparts.ofData?_eq]
    exact ofParts?_eq_some_iff.mpr ⟨hside, rfl, rfl⟩

theorem hasParts_toData (s : Snapshot) :
    HasParts s.toData s.side.toData (.list (s.nodes.map Key.toData))
      (.list (s.edges.map edgeToData)) :=
  .record rfl rfl rfl rfl

/-- What is stored is read back. -/
theorem ofData?_toData (s : Snapshot) : ofData? s.toData = some s :=
  ofData?_eq_some_iff.mpr
    ⟨_, hasParts_toData s, Side.ofData?_eq_some_iff.mpr (Or.inl rfl)⟩

theorem ofTexts_map_text (keys : List Key) :
    ofTexts (keys.map Key.text) = .list (keys.map Key.toData) := by
  rw [ofTexts, List.map_map]
  rfl

theorem ofTextPairs_map_text (pairs : List (Key × Key)) :
    ofTextPairs (pairs.map (Prod.map Key.text Key.text)) = .list (pairs.map edgeToData) := by
  rw [ofTextPairs, List.map_map]
  rfl

theorem readsExactly (d : Data) : ReadsExactly d where
  exists_iff := by
    simp only [Key.parse_eq_ok_iff]
    refine ⟨?_, ?_⟩
    · rintro ⟨s, hread⟩
      obtain ⟨side, hparts, hside⟩ := ofData?_eq_some_iff.mp hread
      rw [← ofTexts_map_text, ← ofTextPairs_map_text] at hparts
      refine ⟨side, _, _, hparts, ⟨_, hside⟩, ?_, ?_⟩
      · exact exists_map_eq_iff.mp ⟨_, rfl⟩
      · intro pair hpair
        obtain ⟨edge, -, rfl⟩ := List.mem_map.mp hpair
        exact ⟨⟨_, rfl⟩, ⟨_, rfl⟩⟩
    · rintro ⟨side, nodes, edges, hparts, ⟨sd, hside⟩, hnodes, hedges⟩
      have hpairs : ∀ pair ∈ edges, ∃ edge, Prod.map Key.text Key.text edge = pair := by
        intro pair hpair
        obtain ⟨⟨first, hfirst⟩, ⟨second, hsecond⟩⟩ := hedges pair hpair
        exact ⟨(first, second), Prod.ext hfirst hsecond⟩
      obtain ⟨keys, rfl⟩ := exists_map_eq_iff.mpr hnodes
      obtain ⟨pairs, rfl⟩ := exists_map_eq_iff.mpr hpairs
      rw [ofTexts_map_text, ofTextPairs_map_text] at hparts
      exact ⟨⟨sd, keys, pairs⟩, ofData?_eq_some_iff.mpr ⟨side, hparts, hside⟩⟩
  parts s hread := by
    obtain ⟨side, hparts, hside⟩ := ofData?_eq_some_iff.mp hread
    rw [← ofTexts_map_text, ← ofTextPairs_map_text] at hparts
    exact ⟨side, hparts, Side.ofData?_eq_some_iff.mp hside⟩
  congr e side nodes edges hd he := by rw [hd.ofData?_eq, he.ofData?_eq]
  hasParts_record members side nodes edges hd hnodup hside hnodes hedges := by
    rw [hd]
    exact .record (Data.hasOnce_of_nodup hnodup partNames) hside hnodes hedges

end Snapshot

/-! ### Policies -/

namespace Policy

variable {d e : Data} {space max check : Option Data}

/-- The parts that a stored policy would have, as far as they are there: the members of a record
with their names, none of them repeated, or up to three items of a list. -/
inductive HasParts : Data → Option Data → Option Data → Option Data → Prop
  /-- The parts are found by their names, whatever else is in the record. -/
  | record (members : List (String × Data)) (honce : Data.hasOnce partNames members) :
      HasParts (.record members) (Data.member? "baseline_namespace" members)
        (Data.member? "max_listeners" members) (Data.member? "verify_order" members)
  /-- The parts are all there is, in this order, and the last ones may be missing. -/
  | list (items : List Data) (hlength : items.length ≤ 3) :
      HasParts (.list items) items[0]? items[1]? items[2]?

/-- The baseline namespace that is assumed, as it is stored. -/
def defaultSpace : Data :=
  .text default.baselineSpace

/-- The number of listeners that is assumed, as it is stored. -/
def defaultMax : Data :=
  .count default.maxListeners.toNat

/-- Whether an order is assumed to be checked, as it is stored. -/
def defaultCheck : Data :=
  .bool default.checkOrder

/-- A value is read as a policy by its parts, of which some may be missing. -/
structure ReadsExactly (d : Data) : Prop where
  /-- It is not read unless it may hold the parts. -/
  exists_parts : ∀ p, ofData? d = some p → ∃ space max check, HasParts d space max check
  /-- It is read like the record with all parts where those that are missing are as by default. -/
  eq_record : ∀ space max check, HasParts d space max check →
    ofData? d = ofData? (.record [("baseline_namespace", space.getD defaultSpace),
      ("max_listeners", max.getD defaultMax), ("verify_order", check.getD defaultCheck)])
  /-- It is read like the list with all parts where those that are missing are as by default. -/
  eq_list : ∀ space max check, HasParts d space max check →
    ofData? d = ofData? (.list
      [space.getD defaultSpace, max.getD defaultMax, check.getD defaultCheck])
  /-- Whatever has the same parts is read as the same, be it a record or a list. -/
  congr : ∀ e space max check, HasParts d space max check → HasParts e space max check →
    ofData? e = ofData? d
  /-- A record of different names has whatever parts it has members for. -/
  hasParts_record : ∀ members, d = .record members → (members.map Prod.fst).Nodup →
    HasParts d (Data.member? "baseline_namespace" members) (Data.member? "max_listeners" members)
      (Data.member? "verify_order" members)

theorem HasParts.ofData?_eq (hd : HasParts d space max check) :
    ofData? d = ofParts? space max check := by
  cases hd with
  | record members honce => exact if_pos honce
  | list items hlength => exact if_pos hlength

theorem exists_hasParts {p : Policy} (hread : ofData? d = some p) :
    ∃ space max check, HasParts d space max check := by
  unfold ofData? at hread
  split at hread
  · split at hread
    · next honce => exact ⟨_, _, _, .record _ honce⟩
    · cases hread
  · split at hread
    · next hlength => exact ⟨_, _, _, .list _ hlength⟩
    · cases hread
  · cases hread

/-- A part that is missing counts as the default. -/
theorem orDefault_getD {α : Type} {decode : Data → Option α} {assumed : α} {written : Data}
    (hwritten : decode written = some assumed) (part : Option Data) :
    Data.orDefault decode assumed (some (part.getD written)) =
      Data.orDefault decode assumed part := by
  cases part with
  | none => exact hwritten
  | some d => rfl

theorem word?_count (n : UInt64) : Data.word? (.count n.toNat) = some n := by
  rw [Data.word?, if_pos n.toNat_lt_size, UInt64.ofNat_toNat]

theorem ofParts?_getD (space max check : Option Data) :
    ofParts? (some (space.getD defaultSpace)) (some (max.getD defaultMax))
      (some (check.getD defaultCheck)) = ofParts? space max check := by
  have hspace : Data.text? defaultSpace = some default.baselineSpace := rfl
  have hmax : Data.word? defaultMax = some default.maxListeners := word?_count _
  have hcheck : Data.bool? defaultCheck = some default.checkOrder := rfl
  rw [ofParts?, orDefault_getD hspace, orDefault_getD hmax, orDefault_getD hcheck]
  rfl

/-- What is stored is read back. -/
theorem ofData?_toData (p : Policy) : ofData? p.toData = some p := by
  show ofParts? (some (.text p.baselineSpace)) (some (.count p.maxListeners.toNat))
    (some (.bool p.checkOrder)) = some p
  simp only [ofParts?, Data.orDefault, word?_count]
  rfl

theorem readsExactly (d : Data) : ReadsExactly d where
  exists_parts _ := exists_hasParts
  eq_record space max check hd := by
    rw [hd.ofData?_eq, ← ofParts?_getD space max check]
    rfl
  eq_list space max check hd := by
    rw [hd.ofData?_eq, ← ofParts?_getD space max check]
    rfl
  congr e space max check hd he := by rw [hd.ofData?_eq, he.ofData?_eq]
  hasParts_record members hd hnodup := by
    rw [hd]
    exact .record members (Data.hasOnce_of_nodup hnodup partNames)

end Policy

/-- Every snapshot and every policy is read back from its stored form. A value is read as a snapshot
exactly if it has the parts of one and all of them are as they have to be, and as a policy by the
parts that it has, those that are missing being as by default; a record and a list with the same
parts are read alike. A side is stored under its name. -/
theorem stored_exact :
    (∀ s : Snapshot, Snapshot.ofData? s.toData = some s) ∧
    (∀ p : Policy, Policy.ofData? p.toData = some p) ∧
    (∀ d, Snapshot.ReadsExactly d) ∧
    (∀ d, Policy.ReadsExactly d) ∧
    ∀ d (side : Side), Side.ofData? d = some side ↔
      d = .text side.name ∨ d = .record [(side.name, .null)] :=
  ⟨Snapshot.ofData?_toData, Policy.ofData?_toData, Snapshot.readsExactly, Policy.readsExactly,
    fun _ _ => Side.ofData?_eq_some_iff⟩

/-- One text that writes no key refuses the snapshot, a list of one item is a policy, and a record
that repeats a part is none. -/
example :
    (Snapshot.ofData? (.list [.text "client", .list [.text "mod:a"], .list []])).map
        (fun s => s.nodes.map Key.text) = some ["mod:a"] ∧
      Snapshot.ofData? (.list [.text "client", .list [.text "mod:a", .text "mod:"], .list []]) =
        none ∧
      Policy.ofData? (.list [.text "mod"]) = some { baselineSpace := "mod" } ∧
      Policy.ofData? (.record [("verify_order", .bool true), ("verify_order", .bool true)]) =
        none :=
  ⟨by cbv, by cbv, by cbv, rfl⟩

end LoadOrder
