import LoadOrder.Key
import Mathlib.Data.List.Basic
import Mathlib.Data.List.TakeWhile

/-!
# The grammar of written keys

A text is cut at its first separator, and it writes a key exactly if something stands on both sides
of the cut. What stands before is then the namespace and what stands after is the path, further
separators included, so that the key is written as this very text (`parse_eq_ok_iff`). Any other
text breaks one rule that `Breaks` names, and is refused for it (`parse_eq_error_iff`).

Writing is the inverse of parsing: a key is read back from its text, and two keys have different
texts. Making a key from its halves and parsing them as one text are two ways to the same key, or to
the same refusal, for as long as the namespace has no separator (`parse_join`).
-/

namespace LoadOrder.Key

variable {text space path : String} {key : Key} {fault : KeyFault}

/-- How many characters stand before the first separator; all of them if there is none. -/
def firstSeparator (text : String) : Nat :=
  text.toList.idxOf separator

/-- The rule that a text breaks, so that it writes no key. -/
inductive Breaks (text : String) : KeyFault → Prop
  /-- It has no separator. -/
  | noSeparator (hnone : separator ∉ text.toList) : Breaks text (.noSeparator text)
  /-- It starts with a separator. -/
  | emptyNamespace (hfirst : text.toList.head? = some separator) :
      Breaks text (.emptyNamespace text)
  /-- Its first separator is not its first character, but its last. -/
  | emptyPath (hpos : 0 < firstSeparator text) (hlast : firstSeparator text + 1 = text.length) :
      Breaks text (.emptyPath text)

/-- A text is read as a key exactly as the grammar has it. -/
structure ReadsExactly (text : String) : Prop where
  /-- It writes a key if it has a separator with something before the first one and something
  after it. -/
  exists_iff : (∃ key, parse text = .ok key) ↔
    separator ∈ text.toList ∧ 0 < firstSeparator text ∧ firstSeparator text + 1 < text.length
  /-- The namespace is what stands before the first separator, which has none itself, the path is
  all the rest, and together they are written as they were read. -/
  halves : ∀ key, parse text = .ok key →
    key.space.toList = text.toList.take (firstSeparator text) ∧ separator ∉ key.space.toList ∧
      key.path.toList = text.toList.drop (firstSeparator text + 1) ∧ key.text = text
  /-- It is refused for the rule that it breaks. -/
  refused_iff : ∀ fault, parse text = .error fault ↔ Breaks text fault
  /-- A separator in the namespace is never what it is refused for. -/
  ne_separatorInNamespace : ∀ space, parse text ≠ .error (.separatorInNamespace space)

/-! ### The first separator -/

@[simp] theorem toList_join (space path : String) :
    (join space path).toList = space.toList ++ separator :: path.toList := by
  simp [join]

theorem firstSeparator_lt_iff : firstSeparator text < text.length ↔ separator ∈ text.toList := by
  rw [firstSeparator, ← String.length_toList]
  exact List.idxOf_lt_length_iff

/-- Two texts are joined at the first separator of what they give if the first has none. -/
theorem firstSeparator_join (hspace : separator ∉ space.toList) :
    firstSeparator (join space path) = space.toList.length := by
  rw [firstSeparator, toList_join, List.idxOf_append_of_notMem hspace, List.idxOf_cons_self,
    Nat.add_zero]

theorem toList_spaceOf (text : String) :
    (spaceOf text).toList = text.toList.take (firstSeparator text) := by
  unfold spaceOf
  rw [String.toList_ofList, List.takeWhile_eq_take_findIdx_not]
  simp only [bne, Bool.not_not]
  rfl

theorem toList_pathOf (text : String) :
    (pathOf text).toList = text.toList.drop (firstSeparator text + 1) := by
  unfold pathOf
  rw [String.toList_ofList, List.dropWhile_eq_drop_findIdx_not, List.drop_drop]
  simp only [bne, Bool.not_not]
  rfl

theorem separator_notMem_spaceOf (text : String) : separator ∉ (spaceOf text).toList := by
  unfold spaceOf
  rw [String.toList_ofList]
  intro hmem
  simpa using List.mem_takeWhile_imp hmem

/-- Cutting a text and joining the halves gives the text. -/
theorem join_halves (hmem : separator ∈ text.toList) :
    join (spaceOf text) (pathOf text) = text := by
  apply String.toList_inj.mp
  have hlt : firstSeparator text < text.toList.length := List.idxOf_lt_length_iff.mpr hmem
  have hat : text.toList[firstSeparator text] = separator := List.getElem_idxOf hlt
  calc (join (spaceOf text) (pathOf text)).toList
    _ = text.toList.take (firstSeparator text) ++
          separator :: text.toList.drop (firstSeparator text + 1) := by
      rw [toList_join, toList_spaceOf, toList_pathOf]
    _ = text.toList.take (firstSeparator text) ++ text.toList.drop (firstSeparator text) := by
      rw [List.drop_eq_getElem_cons hlt, hat]
    _ = text.toList := List.take_append_drop _ _

/-- Joining two texts of which the first has no separator and cutting what they give gives them
back. -/
theorem spaceOf_join (hspace : separator ∉ space.toList) : spaceOf (join space path) = space := by
  apply String.toList_inj.mp
  rw [toList_spaceOf, firstSeparator_join hspace, toList_join, List.take_left]

theorem pathOf_join (hspace : separator ∉ space.toList) : pathOf (join space path) = path := by
  apply String.toList_inj.mp
  rw [toList_pathOf, firstSeparator_join hspace, toList_join]
  simp

/-- The first separator is the first character exactly if the text starts with a separator. -/
theorem firstSeparator_eq_zero_iff (hmem : separator ∈ text.toList) :
    firstSeparator text = 0 ↔ text.toList.head? = some separator :=
  (List.idxOf_eq_zero_iff_eq_nil_or_head_eq separator).trans
    (or_iff_right (List.ne_nil_of_mem hmem))

theorem spaceOf_eq_empty_iff (hmem : separator ∈ text.toList) :
    spaceOf text = "" ↔ firstSeparator text = 0 := by
  rw [← String.toList_eq_nil_iff, toList_spaceOf, List.take_eq_nil_iff]
  exact or_iff_left (List.ne_nil_of_mem hmem)

theorem pathOf_eq_empty_iff (hmem : separator ∈ text.toList) :
    pathOf text = "" ↔ firstSeparator text + 1 = text.length := by
  have hlt := firstSeparator_lt_iff.mpr hmem
  rw [← String.toList_eq_nil_iff, toList_pathOf, List.drop_eq_nil_iff, String.length_toList]
  omega

/-! ### Making and parsing -/

/-- The key with two halves has these halves, and only keys have halves that make one. -/
theorem make_eq_ok_iff : make space path = .ok key ↔ key.space = space ∧ key.path = path := by
  unfold make
  refine ⟨?_, ?_⟩
  · intro hmade
    split_ifs at hmade
    obtain rfl := Except.ok.inj hmade
    exact ⟨rfl, rfl⟩
  · intro ⟨hspace, hpath⟩
    subst hspace hpath
    rw [dif_neg key.space_ne_empty, dif_neg key.path_ne_empty, dif_neg key.separator_notMem_space]

/-- Halves of which the first has no separator make a key exactly if their text writes it. -/
theorem parse_join (hspace : separator ∉ space.toList) :
    parse (join space path) = make space path := by
  unfold parse
  rw [if_pos (by simp), spaceOf_join hspace, pathOf_join hspace]

/-- A text is parsed to the key that is written so, if there is one. -/
theorem parse_eq_ok_iff : parse text = .ok key ↔ key.text = text := by
  refine ⟨?_, ?_⟩
  · intro hparsed
    unfold parse at hparsed
    split at hparsed
    · next hmem =>
      obtain ⟨hspace, hpath⟩ := make_eq_ok_iff.mp hparsed
      rw [Key.text, hspace, hpath, join_halves hmem]
    · cases hparsed
  · rintro rfl
    rw [Key.text, parse_join key.separator_notMem_space]
    exact make_eq_ok_iff.mpr ⟨rfl, rfl⟩

theorem text_injective : Function.Injective Key.text := by
  intro a b heq
  have ha : parse a.text = .ok a := parse_eq_ok_iff.mpr rfl
  have hb : parse a.text = .ok b := parse_eq_ok_iff.mpr heq.symm
  exact Except.ok.inj (ha.symm.trans hb)

/-- The halves of a text fail to make a key only for want of characters. -/
theorem make_halves_eq_error_iff (hmem : separator ∈ text.toList) :
    make (spaceOf text) (pathOf text) = .error fault ↔
      firstSeparator text = 0 ∧ .emptyNamespace text = fault ∨
        0 < firstSeparator text ∧ firstSeparator text + 1 = text.length ∧
          .emptyPath text = fault := by
  have hspace := spaceOf_eq_empty_iff hmem
  have hpath := pathOf_eq_empty_iff hmem
  unfold make
  rw [join_halves hmem]
  split
  · next hempty => simp [hspace.mp hempty]
  · next hfull =>
    have hpos : 0 < firstSeparator text := Nat.pos_of_ne_zero (mt hspace.mpr hfull)
    split
    · next hempty => simp [hpos, hpos.ne', hpath.mp hempty]
    · next hrest =>
      -- the namespace ends where the first separator is
      rw [dif_neg (separator_notMem_spaceOf text)]
      simp [hpos.ne', mt hpath.mpr hrest]

/-- A text is refused exactly for the rule that it breaks. -/
theorem parse_eq_error_iff : parse text = .error fault ↔ Breaks text fault := by
  unfold parse
  split
  · next hmem =>
    rw [make_halves_eq_error_iff hmem]
    refine ⟨?_, ?_⟩
    · rintro (⟨hzero, rfl⟩ | ⟨hpos, hlast, rfl⟩)
      · exact .emptyNamespace ((firstSeparator_eq_zero_iff hmem).mp hzero)
      · exact .emptyPath hpos hlast
    · intro hbreaks
      cases hbreaks with
      | noSeparator hnone => exact absurd hmem hnone
      | emptyNamespace hfirst => exact Or.inl ⟨(firstSeparator_eq_zero_iff hmem).mpr hfirst, rfl⟩
      | emptyPath hpos hlast => exact Or.inr ⟨hpos, hlast, rfl⟩
  · next hnone =>
    rw [Except.error.injEq]
    refine ⟨fun heq => heq ▸ .noSeparator hnone, ?_⟩
    intro hbreaks
    cases hbreaks with
    | noSeparator _ => rfl
    | emptyNamespace hfirst => exact absurd (List.mem_of_head? hfirst) hnone
    | emptyPath _ hlast => exact absurd (firstSeparator_lt_iff.mp (by omega)) hnone

/-- The text of a key has something before its first separator and something after it. -/
theorem firstSeparator_text (key : Key) :
    0 < firstSeparator key.text ∧ firstSeparator key.text + 1 < key.text.length := by
  have hspace : 0 < key.space.toList.length :=
    List.length_pos_iff.mpr (mt String.toList_eq_nil_iff.mp key.space_ne_empty)
  have hpath : 0 < key.path.toList.length :=
    List.length_pos_iff.mpr (mt String.toList_eq_nil_iff.mp key.path_ne_empty)
  have hlength : key.text.length = key.space.toList.length + (key.path.toList.length + 1) := by
    rw [← String.length_toList, Key.text, toList_join, List.length_append, List.length_cons]
  rw [hlength, Key.text, firstSeparator_join key.separator_notMem_space]
  omega

/-- Whatever has something on both sides of its first separator breaks no rule. -/
theorem not_breaks (hpos : 0 < firstSeparator text) (hlt : firstSeparator text + 1 < text.length) :
    ¬ Breaks text fault := by
  intro hbreaks
  cases hbreaks with
  | noSeparator hnone => exact hnone (firstSeparator_lt_iff.mp (by omega))
  | emptyNamespace hfirst =>
    have hzero := (firstSeparator_eq_zero_iff (List.mem_of_head? hfirst)).mpr hfirst
    omega
  | emptyPath _ hlast => omega

theorem readsExactly (text : String) : ReadsExactly text where
  exists_iff := by
    refine ⟨?_, ?_⟩
    · rintro ⟨key, hparsed⟩
      obtain rfl := parse_eq_ok_iff.mp hparsed
      exact ⟨by simp [Key.text], firstSeparator_text key⟩
    · rintro ⟨-, hpos, hlt⟩
      cases hparsed : parse text with
      | ok key => exact ⟨key, rfl⟩
      | error fault => exact absurd (parse_eq_error_iff.mp hparsed) (not_breaks hpos hlt)
  halves key hparsed := by
    obtain rfl := parse_eq_ok_iff.mp hparsed
    refine ⟨?_, key.separator_notMem_space, ?_, rfl⟩
    · rw [Key.text, ← toList_spaceOf, spaceOf_join key.separator_notMem_space]
    · rw [Key.text, ← toList_pathOf, pathOf_join key.separator_notMem_space]
  refused_iff _ := parse_eq_error_iff
  ne_separatorInNamespace space hrefused := nomatch parse_eq_error_iff.mp hrefused

/-- A text is read as a key exactly as the grammar has it, every key is read back from its text and
no other key has this text, and the halves of a key are read from one text as they are taken
apart. -/
theorem parse_exact :
    (∀ text, ReadsExactly text) ∧
    (∀ space path key, make space path = .ok key →
      key.space = space ∧ key.path = path ∧ parse key.text = .ok key) ∧
    Function.Injective Key.text ∧
    ∀ space path, separator ∉ space.toList → make space path = parse (join space path) := by
  refine ⟨readsExactly, ?_, text_injective, fun space path hspace => (parse_join hspace).symm⟩
  intro space path key hmade
  obtain ⟨hspace, hpath⟩ := make_eq_ok_iff.mp hmade
  exact ⟨hspace, hpath, parse_eq_ok_iff.mpr rfl⟩

example :
    (parse "mod:a::b:").map Key.path = .ok "a::b:" ∧
      parse "::" = .error (.emptyNamespace "::") ∧ parse "mod:" = .error (.emptyPath "mod:") ∧
      make "a:b" "c" = .error (.separatorInNamespace "a:b") ∧
      (parse (join "a:b" "c")).map Key.path = .ok "b:c" := by
  cbv

end LoadOrder.Key
