import LoadOrder.Proofs.Digraph.NamedLog
import LoadOrder.Proofs.Session.Consistency

/-!
# What a session was made from

The keys of a session and its edges are told by what has been done with it. `s.registered calls` are
the pairs that were registered along a history, and `s.edgesOf calls` are the edges, by keys: those
of the chain of the baseline, then those that were declared and accepted, then those to the dangling
listeners that a sort found, each where it came to be first.

`s.Logs log` says that `log` is the log of the arcs, read by keys. It holds of the chain when the
session has been started (`logs_of_start`); every call adds its edges at the end, unless they are
there already (`Logs.perform`); and so `edgesOf` is the log after every history (`logs_after`).
-/

namespace LoadOrder.Session

variable {L : Type} {s t : Session L} {key a b : Key} {listener : L} {i : Nat}
  {log made : List (Key × Key)}

/-- The edges from each key to the next. -/
def chainEdges (s : Session L) : List (Key × Key) :=
  s.registry.keys.zip (s.registry.keys.drop 1)

/-- The edges of the session are those of `log`, which came to be one after the other. -/
def Logs (s : Session L) (log : List (Key × Key)) : Prop :=
  s.graph.links.LogsBy s.registry.keys log

section Identity

variable [DecidableEq L]

/-! ### Histories -/

/-- The pair that a call registers, if it is a registration and is accepted. -/
def registered? (s : Session L) : Call L → Option (Key × L)
  | .register key listener =>
    match (s.register key listener).result with
    | .ok _ => some (key, listener)
    | .error _ => none
  | _ => none

/-- The pairs that are registered along a history, in order. -/
def registered (s : Session L) : List (Call L) → List (Key × L)
  | [] => []
  | call :: calls => (s.registered? call).toList ++ (s.perform call).session.registered calls

/-- The edges that a call makes, by keys, whether or not they are there already. -/
def tied (s : Session L) : Call L → List (Key × Key)
  | .sort =>
    if s.finished then []
    else ({ s with finished := true } : Session L).anchorDangling.2.filterMap fun v =>
      return (s.anchor, ← s.keyAt? v)
  | call => (s.declared? call).toList

/-- The edges that are made along a history, call by call. -/
def ties (s : Session L) : List (Call L) → List (Key × Key)
  | [] => []
  | call :: calls => s.tied call ++ (s.perform call).session.ties calls

/-- The edges of a session that has been started and has this history: first those from each
baseline listener to the next, then those that were made along the history, each once and where it
was made first. -/
def edgesOf (s : Session L) (calls : List (Call L)) : List (Key × Key) :=
  (s.chainEdges ++ s.ties calls).eraseDups

/-! ### Registering -/

/-- A call leaves the registered pairs as they are, or adds one at the end. -/
theorem toList_perform (s : Session L) (call : Call L) :
    (s.perform call).session.registry.toList =
      s.registry.toList ++ (s.registered? call).toList := by
  cases call with
  | register key listener =>
    rcases register_cases s key listener with ⟨reason, hrefused⟩ | ⟨-, t, i, henroll, hregistered⟩
    · rw [perform, registered?, hrefused]
      exact (List.append_nil _).symm
    · rw [perform, registered?, hregistered]
      exact toList_of_enroll henroll
  | declare first second =>
    rw [registry_perform_declare]
    exact (List.append_nil _).symm
  | sort =>
    show s.sort.session.registry.toList = s.registry.toList ++ []
    rw [registry_sort, List.append_nil]

theorem toList_after (s : Session L) (calls : List (Call L)) :
    (s.after calls).registry.toList = s.registry.toList ++ s.registered calls := by
  induction calls generalizing s with
  | nil => exact (List.append_nil _).symm
  | cons call calls ih =>
    rw [after_cons, ih, toList_perform, registered, List.append_assoc]

theorem keys_after (s : Session L) (calls : List (Call L)) :
    (s.after calls).registry.keys = s.registry.keys ++ (s.registered calls).map Prod.fst := by
  rw [Registry.keys, toList_after, List.map_append]
  rfl

/-! ### The log of the edges -/

namespace Logs

/-- A new node has no arcs, and the keys before it keep their positions. -/
theorem enroll (hs : s.Logs log) (halign : s.Aligned)
    (henroll : s.enroll key listener = .ok (t, i)) : t.Logs log := by
  refine hs.extend (grows_of_enroll halign henroll).prefix_keys ?_
  rw [(graph_of_enroll halign henroll).2]
  exact hs.hasLog.addNode

theorem register (hs : s.Logs log) (halign : s.Aligned) :
    (s.register key listener).session.Logs log := by
  rcases register_cases s key listener with ⟨reason, hrefused⟩ | ⟨-, t, i, henroll, hregistered⟩
  · rw [hrefused]
    exact hs
  · rw [hregistered]
    exact hs.enroll halign henroll

theorem declare (hs : s.Logs made.eraseDups) (halign : s.Aligned) :
    (s.declare a b).session.Logs (made ++ (s.declared? (.declare a b)).toList).eraseDups := by
  rw [declared?]
  rcases declare_cases s a b with
    ⟨reason, hrefused⟩ | ⟨-, ha, hb, -, graph, hnodes, hlinks, haccepted⟩
  · rw [hrefused]
    show s.Logs (made ++ []).eraseDups
    rwa [List.append_nil]
  · rw [haccepted]
    show graph.links.LogsBy s.registry.keys (made ++ [(a, b)]).eraseDups
    rw [hlinks, eraseDups_concat]
    exact hs.insertArc ha hb ⟨halign.rank_lt ha, halign.rank_lt hb⟩

theorem anchored (hs : s.Logs made.eraseDups) (hcon : s.Consistent) (hopen : s.finished = false) :
    s.anchored.Logs (made ++ s.tied .sort).eraseDups := by
  have hkeyAt : ∀ v, s.keyAt? v = s.registry.keys[v]? := s.registry.map_fst_entry?
  have hanchor : s.registry.keys[s.baselineSize - 1]? = some s.anchor := by
    rw [← hkeyAt, hcon.keyAt?_anchor]
  have htied : s.tied .sort = s.anchorDangling.2.filterMap fun v =>
      return (← s.registry.keys[s.baselineSize - 1]?, ← s.registry.keys[v]?) := by
    unfold tied
    rw [if_neg (by simp [hopen])]
    refine List.filterMap_congr fun v _ => ?_
    rw [hanchor, ← hkeyAt v]
    rfl
  have hsize : s.graph.links.size = s.registry.keys.length := by
    rw [hcon.aligned.size_eq, Registry.length_keys]
  have hlater : s.anchored.Logs (made.eraseDups ++ s.tied .sort) := by
    rw [htied]
    exact Digraph.LogsBy.anchorAll hs s.registry.keys_nodup hsize s.inBaselineAt
      (s.baselineSize - 1) (List.range s.graph.links.size)
  rw [eraseDups_append_of_nodup hlater.nodup]
  exact hlater

/-- Every call adds its edges at the end, and only those that are not there yet. -/
theorem perform (hs : s.Logs made.eraseDups) (hcon : s.Consistent) (call : Call L) :
    (s.perform call).session.Logs (made ++ s.tied call).eraseDups := by
  cases call with
  | register key listener =>
    show (s.register key listener).session.Logs (made ++ []).eraseDups
    rw [List.append_nil]
    exact hs.register hcon.aligned
  | declare first second => exact hs.declare hcon.aligned
  | sort =>
    show s.sort.session.Logs (made ++ s.tied .sort).eraseDups
    cases hfinished : s.finished with
    | true =>
      unfold Session.sort tied
      rw [if_pos hfinished, if_pos hfinished, List.append_nil]
      exact hs
    | false =>
      rw [sort_session hfinished]
      exact hs.anchored hcon hfinished

theorem after (hs : s.Logs made.eraseDups) (hcon : s.Consistent) (calls : List (Call L)) :
    (s.after calls).Logs (made ++ s.ties calls).eraseDups := by
  induction calls generalizing s made with
  | nil =>
    show s.Logs (made ++ []).eraseDups
    rwa [List.append_nil]
  | cons call calls ih =>
    have hrest := ih (hs.perform hcon call) (hcon.perform call)
    rwa [List.append_assoc] at hrest

end Logs

/-! ### The start -/

omit [DecidableEq L] in
/-- Read by indices, the chain of all registered keys leads from each index to the next. -/
theorem map_ends_chainEdges (s : Session L) :
    s.chainEdges.map (Digraph.ends s.registry.keys) =
      (List.range (s.registry.size - 1)).map fun u => (u, u + 1) := by
  unfold chainEdges
  apply List.ext_getElem
  · simp
  · intro i hi _
    simp only [List.getElem_map, List.getElem_zip, List.getElem_drop, List.getElem_range,
      Digraph.ends, s.registry.keys_nodup.idxOf_getElem, Nat.add_comm 1 i]

/-- The log of a session that has been started is the chain of its baseline. -/
theorem logs_of_start {side : Side} {baseline : List L} {naming : Naming L} {policy : Policy}
    (hstart : (start side baseline naming policy).result = .ok s) : s.Logs s.chainEdges := by
  obtain ⟨named, anchor, r, -, -, hopening, rfl⟩ := exists_of_start hstart
  have hblank : (blank (L := L) side policy anchor).Logs [] := ⟨nofun, Digraph.hasLog_empty⟩
  -- there are no edges before the baseline is fixed
  obtain ⟨halign, hlogs⟩ : r.Aligned ∧ r.Logs [] :=
    enrollBaseline_induction (P := fun s => s.Aligned ∧ s.Logs [])
      (fun hs henroll => ⟨aligned_of_enroll hs.1 henroll, hs.2.enroll hs.1 henroll⟩)
      ⟨aligned_blank side policy anchor, hblank⟩ hopening
  refine ⟨fun e he => ?_, ?_⟩
  · obtain ⟨hfrom, hto⟩ := List.of_mem_zip he
    exact ⟨hfrom, List.mem_of_mem_drop hto⟩
  · rw [map_ends_chainEdges]
    have hchain := hlogs.hasLog.chain
    rwa [halign.size_eq] at hchain

/-- What `edgesOf` lists is the log, whatever the history. -/
theorem logs_after {side : Side} {baseline : List L} {naming : Naming L} {policy : Policy}
    (hstart : (start side baseline naming policy).result = .ok s) (calls : List (Call L)) :
    (s.after calls).Logs (s.edgesOf calls) := by
  have hlogs := logs_of_start hstart
  rw [← eraseDups_of_nodup hlogs.nodup] at hlogs
  exact hlogs.after (Consistent.of_start hstart) calls

end Identity

end LoadOrder.Session
