import LoadOrder.Naming

/-!
# Registries

A registry pairs keys with listeners, one to one, in the order of registration. A pair is found by
its position, by its key, or by its listener; listeners are told apart by identity.

For this a registry keeps two maps. One has the pairs in their order and is searched by position
and by key; the other, a name book, leads from a listener to its key. Each knows nothing of the
other, and the type of a registry does not tie them together: `Registry.push` writes to both, one
after the other, and where it is used for a key or a listener that is taken they come apart. It is
`insert` that keeps them in step, by looking into both before it writes to either.
-/

namespace LoadOrder

/-- Listeners by key, and keys by listener. -/
structure Registry (L : Type) where
  /-- The pairs in the order they were registered. -/
  entries : Array (Key × L)
  /-- The key of each listener, by identity. -/
  names : NameBook L
  /-- No key is registered twice. -/
  nodup_keys : (entries.toList.map Prod.fst).Nodup

namespace Registry

variable {L : Type}

/-- The registry without listeners. -/
def empty : Registry L :=
  ⟨#[], .empty, List.nodup_nil⟩

/-- The number of registered listeners. -/
def size (r : Registry L) : Nat :=
  r.entries.size

/-- Whether nothing is registered. -/
def isEmpty (r : Registry L) : Bool :=
  r.entries.isEmpty

/-- The pairs in the order they were registered. -/
def toList (r : Registry L) : List (Key × L) :=
  r.entries.toList

/-- The keys in the order they were registered. -/
def keys (r : Registry L) : List Key :=
  r.toList.map Prod.fst

/-- The listeners in the order they were registered. -/
def listeners (r : Registry L) : List L :=
  r.toList.map Prod.snd

/-! ### Finding a pair -/

/-- The pair at position `i`. -/
def entry? (r : Registry L) (i : Nat) : Option (Key × L) :=
  r.entries[i]?

/-- The position of a key. -/
def position? (r : Registry L) (key : Key) : Option Nat :=
  r.entries.findIdx? (·.1 == key)

/-- Whether a key is registered. -/
def hasKey (r : Registry L) (key : Key) : Bool :=
  r.entries.any (·.1 == key)

/-- The listener under a key. -/
def get (r : Registry L) (key : Key) : Except Refusal L :=
  match r.entries.find? (·.1 == key) with
  | some (_, listener) => .ok listener
  | none => .error (.unknownKey key)

/-- The key that a listener is registered under. -/
def keyFor? [DecidableEq L] (r : Registry L) (listener : L) : Option Key :=
  r.names.find? listener

/-- Whether each listener leads back to the key it is registered under. -/
def isBijective [DecidableEq L] (r : Registry L) : Bool :=
  r.toList.all fun (key, listener) => r.keyFor? listener == some key

@[simp] theorem hasKey_iff {r : Registry L} {key : Key} : r.hasKey key ↔ key ∈ r.keys := by
  simp only [hasKey, ← Array.any_toList, keys, toList, List.any_eq_true, List.mem_map,
    beq_iff_eq]

/-! ### Registering -/

/-- What stands in the way of registering a pair. A taken key is reported before a listener that
is registered under another key. -/
def conflict? [DecidableEq L] (r : Registry L) (key : Key) (listener : L) : Option Refusal :=
  if r.hasKey key then some (.keyTaken key)
  else (r.keyFor? listener).map (.listenerTaken key)

/-- The pairs with the listener under the key: in the place of the one that has the key, or else at
the end. -/
def place (entries : Array (Key × L)) (key : Key) (listener : L) : Array (Key × L) :=
  if entries.any (·.1 == key) then
    entries.map fun entry => if entry.1 = key then (key, listener) else entry
  else entries.push (key, listener)

theorem nodup_place {entries : Array (Key × L)} (hnodup : (entries.toList.map Prod.fst).Nodup)
    (key : Key) (listener : L) : ((place entries key listener).toList.map Prod.fst).Nodup := by
  unfold place
  split
  · -- the pair that is replaced keeps its key
    have hkeep : (Prod.fst ∘ fun entry : Key × L =>
        if entry.1 = key then (key, listener) else entry) = Prod.fst := by
      funext entry
      by_cases hkey : entry.1 = key
      · simp [hkey]
      · simp [hkey]
    rwa [Array.toList_map, List.map_map, hkeep]
  · next hnew =>
    have hne : ∀ k l, (k, l) ∈ entries → k ≠ key := fun k l hentry heq =>
      hnew (Array.any_eq_true'.mpr ⟨(k, l), hentry, beq_iff_eq.mpr heq⟩)
    simpa [List.nodup_append, hnodup] using hne

/-- Writes a pair into both maps, whatever they hold. -/
def write [DecidableEq L] (r : Registry L) (key : Key) (listener : L) : Registry L where
  entries := place r.entries key listener
  names := r.names.insert key listener
  nodup_keys := nodup_place r.nodup_keys key listener

/-- Registers a pair at the end, unless something stands in the way. The answer is the new registry
with the position of the pair. -/
def insert [DecidableEq L] (r : Registry L) (key : Key) (listener : L) :
    Except Refusal (Registry L × Nat) :=
  match r.conflict? key listener with
  | some reason => .error reason
  | none => .ok (r.write key listener, r.size)

end Registry

end LoadOrder
