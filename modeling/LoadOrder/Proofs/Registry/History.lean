import LoadOrder.Listener
import LoadOrder.Proofs.Registry

/-!
# Registries and what was registered

A registry is made by insertions, some of which are refused. `accepted` lists the pairs that
were not. Everything a registry answers can be read off this list: `r.Lists pairs` says how, and
`lists_after` that it holds of the accepted pairs after every sequence of insertions into the empty
registry.

It comes down to three facts. The two maps of a registry stay in step, as each insertion keeps them
so (`InStep.putAll`); a registry whose maps are in step is read off the list that it holds
(`InStep.lists_toList`); and the list grows at its end by the pairs that are accepted and is
otherwise left alone (`toList_putAll`). The first is not a matter of course: written to without
looking into both maps first, a registry may tell a listener the wrong key, and `isBijective` finds
that out only if it is told by a listener of some pair.
-/

namespace LoadOrder.Registry

variable {L : Type} [DecidableEq L] {r : Registry L} {entry : Key × L}

/-! ### Sequences of insertions -/

/-- The registry after an insertion; one that is refused leaves it as it is. -/
def put (r : Registry L) (entry : Key × L) : Registry L :=
  match r.insert entry.1 entry.2 with
  | .ok (t, _) => t
  | .error _ => r

/-- The registry after a sequence of insertions. -/
def putAll (r : Registry L) (entries : List (Key × L)) : Registry L :=
  entries.foldl put r

/-- Those pairs of a sequence of insertions that are accepted, in order. -/
def accepted (r : Registry L) : List (Key × L) → List (Key × L)
  | [] => []
  | entry :: entries =>
    match r.insert entry.1 entry.2 with
    | .ok (t, _) => entry :: t.accepted entries
    | .error _ => r.accepted entries

/-- What the registry `r` answers, when `pairs` are the pairs that it accepted, in order. -/
structure Lists (r : Registry L) (pairs : List (Key × L)) : Prop where
  /-- No key is listed twice. -/
  nodup_keys : (pairs.map Prod.fst).Nodup
  /-- No listener is listed twice. -/
  nodup_listeners : (pairs.map Prod.snd).Nodup
  /-- A pair is refused exactly if its key is listed, or else if its listener is, and then the key
  that the listener is listed with is told. -/
  refused_iff : ∀ key listener reason, r.insert key listener = .error reason ↔
    key ∈ pairs.map Prod.fst ∧ .keyTaken key = reason ∨
      key ∉ pairs.map Prod.fst ∧
        ∃ existing, (existing, listener) ∈ pairs ∧ .listenerTaken key existing = reason
  /-- A pair that is refused changes nothing. -/
  put_of_refused : ∀ key listener reason, r.insert key listener = .error reason →
    r.put (key, listener) = r
  /-- Any other pair is accepted at the position behind all that are listed. -/
  insert_eq : ∀ key listener, key ∉ pairs.map Prod.fst → listener ∉ pairs.map Prod.snd →
    r.insert key listener = .ok (r.put (key, listener), pairs.length) ∧
      (r.put (key, listener)).toList = pairs ++ [(key, listener)]
  /-- The pairs are counted. -/
  size_eq : r.size = pairs.length
  /-- The pairs are enumerated in order. -/
  toList_eq : r.toList = pairs
  /-- So are their keys. -/
  keys_eq : r.keys = pairs.map Prod.fst
  /-- Each position leads to the pair that stands there. -/
  entry?_eq : ∀ i, r.entry? i = pairs[i]?
  /-- A key that is listed is found at its position, with the listener it is listed with. -/
  found : ∀ i key listener, pairs[i]? = some (key, listener) →
    r.position? key = some i ∧ r.get key = .ok listener ∧ r.hasKey key = true
  /-- No other key is found. -/
  unknown : ∀ key, key ∉ pairs.map Prod.fst →
    r.position? key = none ∧ r.get key = .error (.unknownKey key) ∧ r.hasKey key = false
  /-- A listener that is listed leads to the key it is listed with. -/
  keyFor?_of_mem : ∀ key listener, (key, listener) ∈ pairs → r.keyFor? listener = some key
  /-- No other instance leads to a key, whatever value it may share with one that is listed. -/
  keyFor?_of_notMem : ∀ listener, listener ∉ pairs.map Prod.snd → r.keyFor? listener = none
  /-- The two maps are inverse to each other. -/
  inverse : ∀ key listener, r.keyFor? listener = some key ↔ r.get key = .ok listener
  /-- And there are as many names as pairs. -/
  size_names : r.names.size = pairs.length
  /-- Keys and listeners agree. -/
  isBijective_eq : r.isBijective = true

/-! ### One insertion -/

theorem put_of_insert_ok {t : Registry L} {i : Nat} (entry : Key × L)
    (hok : r.insert entry.1 entry.2 = .ok (t, i)) : r.put entry = t := by
  rw [put, hok]

theorem put_of_insert_error {reason : Refusal} (entry : Key × L)
    (herror : r.insert entry.1 entry.2 = .error reason) : r.put entry = r := by
  rw [put, herror]

theorem toList_of_insert_ok {t : Registry L} {i : Nat}
    (hok : r.insert entry.1 entry.2 = .ok (t, i)) : t.toList = r.toList ++ [entry] := by
  obtain ⟨hvacant, rfl, -⟩ := insert_eq_ok_iff.mp hok
  exact toList_write (conflict?_eq_none_iff.mp hvacant).1 entry.2

theorem accepted_cons_of_ok {t : Registry L} {i : Nat} (entries : List (Key × L))
    (hok : r.insert entry.1 entry.2 = .ok (t, i)) :
    r.accepted (entry :: entries) = entry :: t.accepted entries := by
  rw [accepted, hok]

theorem accepted_cons_of_error {reason : Refusal} (entries : List (Key × L))
    (herror : r.insert entry.1 entry.2 = .error reason) :
    r.accepted (entry :: entries) = r.accepted entries := by
  rw [accepted, herror]

theorem insert_eq_error_iff {key : Key} {listener : L} {reason : Refusal} :
    r.insert key listener = .error reason ↔ r.conflict? key listener = some reason := by
  unfold insert
  cases r.conflict? key listener with
  | none => simp
  | some found => simp

/-- What a registry answers whose maps are in step is told by the list that it holds. -/
theorem InStep.lists_toList (hr : r.InStep) : r.Lists r.toList where
  nodup_keys := r.keys_nodup
  nodup_listeners := hr.listeners_nodup
  refused_iff _ _ _ := insert_eq_error_iff.trans hr.conflict?_eq_some_iff
  put_of_refused key listener _ := put_of_insert_error (key, listener)
  insert_eq key listener hkey hlistener := by
    have hok : r.insert key listener = .ok (r.write key listener, r.size) :=
      insert_of_conflict?_eq_none (hr.conflict?_eq_none_iff.mpr ⟨hkey, hlistener⟩)
    rw [put_of_insert_ok (key, listener) hok]
    exact ⟨hok, toList_write hkey listener⟩
  size_eq := rfl
  toList_eq := rfl
  keys_eq := rfl
  entry?_eq := r.entry?_eq_getElem?
  found i key listener hi := by
    have hmem : (key, listener) ∈ r.toList := List.mem_of_getElem? hi
    have hkey : r.keys[i]? = some key := by
      rw [keys, List.getElem?_map, hi]
      rfl
    refine ⟨position?_eq_some_iff.mpr ⟨?_, rank_eq_of_getElem? hkey⟩, get_eq_ok_iff.mpr hmem, ?_⟩
    · exact mem_keys_of_mem hmem
    · exact hasKey_iff.mpr (mem_keys_of_mem hmem)
  unknown key hkey := by
    refine ⟨position?_eq_none_iff.mpr hkey, get_of_notMem hkey, ?_⟩
    exact Bool.eq_false_iff.mpr (mt hasKey_iff.mp hkey)
  keyFor?_of_mem _ _ := hr.keyFor?_eq_some_iff.mpr
  keyFor?_of_notMem _ := hr.keyFor?_eq_none_iff.mpr
  inverse _ _ := hr.keyFor?_eq_some_iff.trans get_eq_ok_iff.symm
  size_names := hr.size_names
  isBijective_eq := hr.isBijective_eq_true

/-- Written into both maps without looking, a listener under a second key is told that one only,
which shows in the check; a name without a pair does not. -/
example :
    let a : Key := ⟨"mod", "a", by decide, by decide, by decide⟩
    let b : Key := ⟨"mod", "b", by decide, by decide, by decide⟩
    let one : Listener := ⟨"v", "1"⟩
    let r := (empty.write a one).write b one
    r.keyFor? one = some b ∧ r.get a = .ok one ∧ r.isBijective = false ∧
      ({ empty with names := NameBook.empty.insert a one } : Registry Listener).isBijective
        = true := by
  cbv

/-! ### All insertions -/

theorem InStep.put (hr : r.InStep) (entry : Key × L) : (r.put entry).InStep := by
  cases hresult : r.insert entry.1 entry.2 with
  | error reason =>
    rw [put_of_insert_error entry hresult]
    exact hr
  | ok answer =>
    rw [put_of_insert_ok entry hresult]
    exact hr.insert hresult

/-- Insertions keep the two maps in step, accepted or refused. -/
theorem InStep.putAll (hr : r.InStep) (entries : List (Key × L)) : (r.putAll entries).InStep := by
  induction entries generalizing r with
  | nil => exact hr
  | cons entry entries ih => exact ih (hr.put entry)

/-- The pairs that are accepted come behind those that are there. -/
theorem toList_putAll (r : Registry L) (entries : List (Key × L)) :
    (r.putAll entries).toList = r.toList ++ r.accepted entries := by
  induction entries generalizing r with
  | nil => exact (List.append_nil _).symm
  | cons entry entries ih =>
    show ((r.put entry).putAll entries).toList = _
    rw [ih (r.put entry)]
    cases hresult : r.insert entry.1 entry.2 with
    | error reason => rw [put_of_insert_error entry hresult, accepted_cons_of_error entries hresult]
    | ok answer =>
      rw [put_of_insert_ok entry hresult, accepted_cons_of_ok entries hresult,
        toList_of_insert_ok hresult, List.append_assoc]
      rfl

/-- After any sequence of insertions into the empty registry, whatever the registry answers is told
by the pairs that were accepted. -/
theorem lists_after (entries : List (Key × L)) :
    (empty.putAll entries).Lists (empty.accepted entries) := by
  have hlist : (empty.putAll entries).toList = empty.accepted entries := toList_putAll empty entries
  rw [← hlist]
  exact (inStep_empty.putAll entries).lists_toList

example :
    let a : Key := ⟨"mod", "a", by decide, by decide, by decide⟩
    let b : Key := ⟨"mod", "b", by decide, by decide, by decide⟩
    let one : Listener := ⟨"v", "1"⟩
    let two : Listener := ⟨"v", "2"⟩
    let r := empty.putAll [(a, one), (a, two), (b, one)]
    r.toList = [(a, one)] ∧ r.keyFor? one = some a ∧ r.keyFor? two = none := by
  cbv

end LoadOrder.Registry
