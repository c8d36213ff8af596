import LoadOrder.Registry
import Mathlib.Data.List.Basic
import Mathlib.Data.List.Nodup
import Mathlib.Data.List.Perm.Basic

/-!
# Ranks, and two maps in step

The rank of a registered key is its position in the order of registration. Ranks and keys
determine each other (`rank_inj`, `getElem?_rank`), so a list of the registered pairs in any order
can be written down as the list of their ranks, and `Registry.entry?` reads it back
(`mapM_entry?_ranks`, `exists_ranks_eq`).

The look-ups by key find a key at its rank (`position?_eq_some_iff`) and under it the listener it
was registered with (`get_eq_ok_iff`). The look-up by listener goes to the other map, and what it
finds there is right only as long as the two maps are `InStep`: inverse to each other and of one
size. An insertion keeps them so (`InStep.insert`), as it writes a pair only if neither map has
anything of it; then the pair comes behind all others (`insert_eq_ok_iff`, `toList_write`).
-/

namespace LoadOrder.Registry

variable {L : Type} {r : Registry L} {key other : Key} {listener : L} {i : Nat}

/-- The position of a key in the order of registration. -/
def rank (r : Registry L) (key : Key) : Nat :=
  r.keys.idxOf key

/-- The ranks of the keys of some pairs, in their order. -/
def ranks (r : Registry L) (entries : List (Key × L)) : List Nat :=
  (entries.map Prod.fst).map r.rank

theorem keys_nodup (r : Registry L) : r.keys.Nodup :=
  r.nodup_keys

@[simp] theorem length_toList (r : Registry L) : r.toList.length = r.size :=
  rfl

@[simp] theorem length_keys (r : Registry L) : r.keys.length = r.size := by
  rw [keys, List.length_map, length_toList]

@[simp] theorem length_listeners (r : Registry L) : r.listeners.length = r.size := by
  rw [listeners, List.length_map, length_toList]

theorem mem_keys_of_mem (hmem : (key, listener) ∈ r.toList) : key ∈ r.keys :=
  List.mem_map_of_mem hmem

theorem exists_mem_of_mem_keys (hkey : key ∈ r.keys) : ∃ listener, (key, listener) ∈ r.toList := by
  obtain ⟨⟨_, listener⟩, hmem, rfl⟩ := List.mem_map.mp hkey
  exact ⟨listener, hmem⟩

theorem entry?_eq_getElem? (r : Registry L) (i : Nat) : r.entry? i = r.toList[i]? := by
  rw [ entry?, toList, Array.getElem?_toList]

theorem map_fst_entry? (r : Registry L) (i : Nat) : (r.entry? i).map Prod.fst = r.keys[i]? := by
  rw [entry?_eq_getElem?, keys, List.getElem?_map]

/-- By position, registries that hold the same list answer the same. -/
theorem entry?_congr {t : Registry L} (hlist : r.toList = t.toList) : r.entry? = t.entry? := by
  funext i
  rw [entry?_eq_getElem?, entry?_eq_getElem?, hlist]

/-! ### Ranks and keys -/

theorem rank_congr {t : Registry L} (hlist : r.toList = t.toList) : r.rank = t.rank := by
  funext key
  rw [rank, rank, keys, keys, hlist]

theorem rank_lt_size_iff : r.rank key < r.size ↔ key ∈ r.keys := by
  rw [rank, ← length_keys, List.idxOf_lt_length_iff]

theorem getElem?_rank (hkey : key ∈ r.keys) : r.keys[r.rank key]? = some key :=
  List.getElem?_idxOf hkey

theorem rank_eq_of_getElem? (hi : r.keys[i]? = some key) : r.rank key = i := by
  obtain ⟨hlt, rfl⟩ := List.getElem?_eq_some_iff.mp hi
  exact r.keys_nodup.idxOf_getElem i hlt

theorem rank_inj (hkey : key ∈ r.keys) : r.rank key = r.rank other ↔ key = other :=
  List.idxOf_inj hkey

theorem exists_rank_eq (hi : i < r.size) : ∃ key ∈ r.keys, r.rank key = i := by
  have hlt : i < r.keys.length := r.length_keys.symm ▸ hi
  exact ⟨r.keys[i], List.getElem_mem hlt, r.keys_nodup.idxOf_getElem i hlt⟩

/-- Registering more pairs leaves the ranks as they are. -/
theorem rank_of_isPrefix {t : Registry L} (hstarts : r.keys <+: t.keys) (hkey : key ∈ r.keys) :
    t.rank key = r.rank key := by
  obtain ⟨later, hkeys⟩ := hstarts
  rw [rank, rank, ← hkeys, List.idxOf_append_of_mem hkey]

theorem mem_keys_of_rank_lt {t : Registry L} (hstarts : r.keys <+: t.keys)
    (hrank : t.rank key < r.size) : key ∈ r.keys := by
  obtain ⟨later, hkeys⟩ := hstarts
  by_contra hkey
  -- a later key comes behind all earlier ones
  rw [rank, ← hkeys, List.idxOf_append_of_notMem hkey, length_keys] at hrank
  omega

/-- What is registered later ranks behind. -/
theorem rank_lt_rank_of_isPrefix {t : Registry L} (hstarts : r.keys <+: t.keys)
    (hkey : key ∈ r.keys) (hother : other ∉ r.keys) : t.rank key < t.rank other := by
  rw [rank_of_isPrefix hstarts hkey]
  by_contra hle
  have hlt := rank_lt_size_iff.mpr hkey
  exact hother (mem_keys_of_rank_lt hstarts (by omega))

/-! ### Looking up -/

theorem position?_eq_some_iff : r.position? key = some i ↔ key ∈ r.keys ∧ r.rank key = i := by
  have hrank : r.rank key = r.toList.findIdx (·.1 == key) := by
    rw [rank, keys, List.idxOf, List.findIdx_map]
    rfl
  have hposition : r.position? key = r.toList.findIdx? (·.1 == key) := by
    rw [position?, toList, ← List.findIdx?_toArray, Array.toArray_toList]
  rw [hposition, List.findIdx?_eq_some_iff_findIdx_eq, ← hrank, length_toList]
  refine ⟨?_, ?_⟩
  · rintro ⟨hlt, rfl⟩
    exact ⟨rank_lt_size_iff.mp hlt, rfl⟩
  · rintro ⟨hkey, rfl⟩
    exact ⟨rank_lt_size_iff.mpr hkey, rfl⟩

theorem get_eq_ok_iff : r.get key = .ok listener ↔ (key, listener) ∈ r.toList := by
  have hfind : r.entries.find? (·.1 == key) = r.toList.find? (·.1 == key) := by
    rw [toList, Array.find?_toList]
  unfold get
  rw [hfind]
  refine ⟨?_, ?_⟩
  · -- what is found has the key looked for
    intro hget
    split at hget
    · next k l hsome =>
      have hmem := List.mem_of_find?_eq_some hsome
      have hk : k = key := by simpa using List.find?_some hsome
      obtain rfl : l = listener := by simpa using hget
      exact hk ▸ hmem
    · cases hget
  · -- something is found, and no other pair has that key
    intro hmem
    obtain ⟨⟨k, l⟩, hsome⟩ : ∃ entry, r.toList.find? (·.1 == key) = some entry := by
      rw [← Option.isSome_iff_exists, List.find?_isSome]
      exact ⟨(key, listener), hmem, by simp⟩
    have hk : k = key := by simpa using List.find?_some hsome
    have hpair := List.inj_on_of_nodup_map r.nodup_keys (List.mem_of_find?_eq_some hsome) hmem hk
    rw [hsome]
    exact congrArg (fun entry => Except.ok entry.2) hpair

theorem get_of_notMem (hkey : key ∉ r.keys) : r.get key = .error (.unknownKey key) := by
  cases hget : r.get key with
  | ok listener => exact absurd (mem_keys_of_mem (get_eq_ok_iff.mp hget)) hkey
  | error reason =>
    unfold get at hget
    split at hget
    · cases hget
    · exact congrArg Except.error (Except.error.inj hget).symm

theorem position?_eq_none_iff : r.position? key = none ↔ key ∉ r.keys := by
  simp only [Option.eq_none_iff_forall_ne_some, Ne, position?_eq_some_iff, not_and]
  exact ⟨fun hnone hkey => hnone _ hkey rfl, fun hkey _ hmem => absurd hmem hkey⟩

/-! ### Writing and inserting -/

section Identity

variable [DecidableEq L] {t : Registry L}

/-- A pair with a new key comes behind all others. -/
theorem toList_write (hkey : key ∉ r.keys) (listener : L) :
    (r.write key listener).toList = r.toList ++ [(key, listener)] := by
  have hnew : ¬ r.entries.any (·.1 == key) := mt hasKey_iff.mp hkey
  show (place r.entries key listener).toList = r.entries.toList ++ [(key, listener)]
  rw [place, if_neg hnew, Array.toList_push]

/-- A listener leads to the key it was written with last. -/
theorem keyFor?_write (r : Registry L) (key : Key) (listener other : L) :
    (r.write key listener).keyFor? other = if other = listener then some key else r.keyFor? other :=
  r.names.find?_insert key listener other

theorem conflict?_eq_none_iff :
    r.conflict? key listener = none ↔ key ∉ r.keys ∧ r.keyFor? listener = none := by
  unfold conflict?
  split
  · next htaken => simp [hasKey_iff.mp htaken]
  · next hnew =>
    rw [hasKey_iff] at hnew
    rw [Option.map_eq_none_iff, and_iff_right hnew]

theorem insert_of_conflict?_eq_none (hvacant : r.conflict? key listener = none) :
    r.insert key listener = .ok (r.write key listener, r.size) := by
  rw [insert, hvacant]

/-- A pair is refused exactly if something stands in its way. -/
theorem insert_eq_ok_iff :
    r.insert key listener = .ok (t, i) ↔
      r.conflict? key listener = none ∧ r.write key listener = t ∧ r.size = i := by
  unfold insert
  cases r.conflict? key listener with
  | none => simp
  | some reason => simp

/-- The two maps of a registry are inverse to each other and of one size. -/
structure InStep (r : Registry L) : Prop where
  /-- A listener leads to a key exactly if the two are registered as a pair. -/
  keyFor?_eq_some_iff : ∀ {key listener},
    r.keyFor? listener = some key ↔ (key, listener) ∈ r.toList
  /-- There are as many names as pairs. -/
  size_names : r.names.size = r.size

theorem inStep_empty : (empty : Registry L).InStep :=
  ⟨fun {_ _} => iff_of_false nofun nofun, rfl⟩

/-- A pair of which neither map has anything may be written into both. -/
theorem InStep.write (hr : r.InStep) (hvacant : r.conflict? key listener = none) :
    (r.write key listener).InStep := by
  obtain ⟨hkey, hlistener⟩ := conflict?_eq_none_iff.mp hvacant
  have hlist := toList_write hkey listener
  refine ⟨fun {other owner} => ?_, ?_⟩
  · rw [keyFor?_write, hlist, List.mem_append, List.mem_singleton, Prod.mk.injEq,
      ← hr.keyFor?_eq_some_iff]
    split
    · next heq =>
      -- the listener had no key
      rw [heq, hlistener, Option.some.injEq]
      simp [eq_comm]
    · next hne => simp [hne]
  · have hnames : (r.write key listener).names.size = r.names.size + 1 := by
      rw [Registry.write, NameBook.insert_of_find?_eq_none hlistener]
      rfl
    rw [hnames, hr.size_names, ← length_toList, ← length_toList, hlist, List.length_append]
    rfl

/-- So an insertion that is accepted leaves the maps in step. -/
theorem InStep.insert (hr : r.InStep) (hok : r.insert key listener = .ok (t, i)) : t.InStep := by
  obtain ⟨hvacant, rfl, -⟩ := insert_eq_ok_iff.mp hok
  exact hr.write hvacant

theorem InStep.keyFor?_eq_none_iff (hr : r.InStep) :
    r.keyFor? listener = none ↔ listener ∉ r.listeners := by
  simp only [Option.eq_none_iff_forall_ne_some, Ne, hr.keyFor?_eq_some_iff, listeners,
    List.mem_map, Prod.exists, exists_eq_right, not_exists]

/-- No listener is registered twice, as it leads to one key only. -/
theorem InStep.listeners_nodup (hr : r.InStep) : r.listeners.Nodup := by
  refine List.Nodup.map_on ?_ (List.Nodup.of_map Prod.fst r.nodup_keys)
  rintro ⟨a, listener⟩ ha ⟨b, _⟩ hb rfl
  have hkeys : some a = some b :=
    (hr.keyFor?_eq_some_iff.mpr ha).symm.trans (hr.keyFor?_eq_some_iff.mpr hb)
  rw [Option.some.inj hkeys]

/-- Every listener leads back to its key. -/
theorem InStep.isBijective_eq_true (hr : r.InStep) : r.isBijective = true := by
  rw [isBijective, List.all_eq_true]
  intro entry hmem
  exact beq_iff_eq.mpr (hr.keyFor?_eq_some_iff.mpr hmem)

theorem InStep.conflict?_eq_none_iff (hr : r.InStep) :
    r.conflict? key listener = none ↔ key ∉ r.keys ∧ listener ∉ r.listeners := by
  rw [Registry.conflict?_eq_none_iff, hr.keyFor?_eq_none_iff]

/-- What stands in the way of a pair is its key, or else the key that its listener has. -/
theorem InStep.conflict?_eq_some_iff (hr : r.InStep) {reason : Refusal} :
    r.conflict? key listener = some reason ↔
      key ∈ r.keys ∧ .keyTaken key = reason ∨
        key ∉ r.keys ∧
          ∃ existing, (existing, listener) ∈ r.toList ∧ .listenerTaken key existing = reason := by
  unfold conflict?
  split
  · next htaken => simp [hasKey_iff.mp htaken]
  · next hnew =>
    rw [hasKey_iff] at hnew
    simp only [Option.map_eq_some_iff, hr.keyFor?_eq_some_iff, hnew, false_and, false_or,
      not_false_eq_true, true_and]

end Identity

/-! ### Pairs in another order -/

theorem entry?_rank {entry : Key × L} (hmem : entry ∈ r.toList) :
    r.entry? (r.rank entry.1) = some entry := by
  obtain ⟨i, hi, rfl⟩ := List.mem_iff_getElem.mp hmem
  have hrank : r.rank r.toList[i].1 = i := by
    refine rank_eq_of_getElem? ?_
    rw [keys, List.getElem?_map, List.getElem?_eq_getElem hi, Option.map_some]
  rw [hrank, entry?_eq_getElem?, List.getElem?_eq_getElem hi]

/-- Registered pairs, in whatever order, are read back from their ranks. -/
theorem mapM_entry?_ranks {entries : List (Key × L)} (hmem : entries ⊆ r.toList) :
    (r.ranks entries).mapM r.entry? = some entries := by
  induction entries with
  | nil => rfl
  | cons entry entries ih =>
    have htail := ih fun e he => hmem (List.mem_cons_of_mem entry he)
    rw [ranks] at htail
    rw [ranks, List.map_cons, List.map_cons, List.mapM_cons, entry?_rank (hmem List.mem_cons_self)]
    exact congrArg (fun rest => rest.bind fun rest => some (entry :: rest)) htail

theorem ranks_toList (r : Registry L) : r.ranks r.toList = List.range r.size := by
  change r.keys.map r.rank = _
  refine List.ext_getElem (by simp) ?_
  intro i hi _
  rw [List.getElem_map, List.getElem_range]
  exact r.keys_nodup.idxOf_getElem i _

/-- The orders of the pairs are, by their ranks, the orders of the positions. -/
theorem ranks_perm {entries : List (Key × L)} (hperm : entries.Perm r.toList) :
    (r.ranks entries).Perm (List.range r.size) := by
  rw [← ranks_toList]
  exact (hperm.map Prod.fst).map r.rank

/-- Read position by position, pairs have the ranks that they were read at. -/
theorem ranks_filterMap_entry? {order : List Nat} (hlt : ∀ i ∈ order, i < r.size) :
    r.ranks (order.filterMap r.entry?) = order := by
  induction order with
  | nil => rfl
  | cons i order ih =>
    obtain ⟨key, hkey, rfl⟩ := exists_rank_eq (hlt i List.mem_cons_self)
    obtain ⟨listener, hmem⟩ := exists_mem_of_mem_keys hkey
    have htail := ih fun j hj => hlt j (List.mem_cons_of_mem _ hj)
    rw [List.filterMap_cons_some (entry?_rank hmem), ranks, List.map_cons, List.map_cons]
    exact congrArg (r.rank key :: ·) htail

theorem filterMap_entry?_range (r : Registry L) :
    (List.range r.size).filterMap r.entry? = r.toList := by
  rw [← ranks_toList, ranks, List.map_map, List.filterMap_map]
  have hentry : ∀ entry ∈ r.toList, (r.entry? ∘ r.rank ∘ Prod.fst) entry = some entry :=
    fun entry hmem => entry?_rank hmem
  rw [List.filterMap_congr hentry, List.filterMap_some]

/-- Every order of the positions is the order of some list of the pairs. -/
theorem exists_ranks_eq {order : List Nat} (hperm : order.Perm (List.range r.size)) :
    ∃ entries : List (Key × L), entries.Perm r.toList ∧ r.ranks entries = order := by
  refine ⟨order.filterMap r.entry?, ?_, ?_⟩
  · have hread := hperm.filterMap r.entry?
    rwa [filterMap_entry?_range] at hread
  · exact ranks_filterMap_entry? fun i hi => List.mem_range.mp (hperm.subset hi)

end LoadOrder.Registry
