import AnnotatedHeader.Resolution

/-! What stands around a qualified path.

`IsParent` says which text is the parent of a path and `Encloses` which paths stand around
it, both without cutting any text. The paths that the look-up goes through are those and no
others, from the longest to the shortest (`mem_enclosing_iff`, `pairwise_enclosing`). What is
left behind the last separator is the name that was joined to the path, if the name has no
separator of its own (`lastSegment_join_iff`). -/
namespace AnnotatedHeader.QualifiedPath

/-- The path has a separator. -/
def IsQualified (path : String) : Prop := ∃ before after, path = before ++ "::" ++ after

/-- What stands before the last separator of a path. -/
def IsParent (parent path : String) : Prop :=
  (∃ rest, path = parent ++ "::" ++ rest) ∧
    ∀ before after, path = before ++ "::" ++ after → before.length ≤ parent.length

/-- The scope is the path itself or what is left of it once its last segments are taken off,
one after another. No scope is empty. -/
inductive Encloses (scope : String) : String → Prop where
  | self (h : scope ≠ "") : Encloses scope scope
  | parent {parent path : String} (above : IsParent parent path) (h : Encloses scope parent) :
      Encloses scope path

/-! ### Separators -/

/-- The first separator is the first, and there is one if there is any. -/
theorem exists_firstSeparator? {cs before after : List Char}
    (h : cs = before ++ ':' :: ':' :: after) :
    ∃ before' after', firstSeparator? cs = some (before', after') ∧
      before'.length ≤ before.length := by
  fun_induction firstSeparator? cs generalizing before with
  | case1 => simp at h
  | case2 cs => exact ⟨[], cs, rfl, Nat.zero_le _⟩
  | case3 c cs hne ih =>
    cases before with
    | nil =>
      obtain ⟨rfl, rfl⟩ := List.cons.inj h
      exact absurd rfl (hne _ rfl)
    | cons b before =>
      obtain ⟨-, htail⟩ := List.cons.inj h
      obtain ⟨before', after', hfirst, hle⟩ := ih htail
      exact ⟨c :: before', after', by rw [hfirst]; rfl, Nat.succ_le_succ hle⟩

theorem exists_lastSeparator? {cs before after : List Char}
    (h : cs = before ++ ':' :: ':' :: after) :
    ∃ before' after', lastSeparator? cs = some (before', after') ∧
      before.length ≤ before'.length := by
  have hreverse : cs.reverse = after.reverse ++ ':' :: ':' :: before.reverse := by
    rw [h]
    simp
  obtain ⟨after', before', hfirst, hle⟩ := exists_firstSeparator? hreverse
  refine ⟨before'.reverse, after'.reverse, by rw [lastSeparator?, hfirst]; rfl, ?_⟩
  have hlength := congrArg List.length (hreverse.symm.trans (firstSeparator?_eq hfirst))
  simp only [List.length_append, List.length_cons, List.length_reverse] at hlength hle ⊢
  omega

theorem toList_separated (before after : String) :
    (before ++ "::" ++ after).toList = before.toList ++ ':' :: ':' :: after.toList := by
  simp

theorem isQualified_iff {path : String} : isQualified path = true ↔ IsQualified path := by
  constructor
  · intro h
    obtain ⟨⟨before, after⟩, hfirst⟩ := Option.isSome_iff_exists.1 h
    refine ⟨.ofList before, .ofList after, String.toList_injective ?_⟩
    rw [toList_separated, firstSeparator?_eq hfirst, String.toList_ofList, String.toList_ofList]
  · rintro ⟨before, after, rfl⟩
    obtain ⟨before', after', hfirst, -⟩ := exists_firstSeparator? (toList_separated before after)
    rw [isQualified, hfirst]
    rfl

theorem separated_of_lastSeparator? {path : String} {before after : List Char}
    (h : lastSeparator? path.toList = some (before, after)) :
    path = .ofList before ++ "::" ++ .ofList after := by
  refine String.toList_injective ?_
  rw [toList_separated, lastSeparator?_eq h, String.toList_ofList, String.toList_ofList]

theorem parent?_eq_some_iff {path parent : String} :
    parent? path = some parent ↔ IsParent parent path := by
  constructor
  · intro h
    obtain ⟨⟨before, after⟩, hlast, rfl⟩ := Option.map_eq_some_iff.1 h
    refine ⟨⟨.ofList after, separated_of_lastSeparator? hlast⟩, ?_⟩
    rintro before' after' rfl
    obtain ⟨_, _, hlast', hle⟩ := exists_lastSeparator? (toList_separated before' after')
    obtain ⟨rfl, -⟩ := Prod.mk.inj (Option.some.inj (hlast.symm.trans hlast'))
    rwa [String.length_ofList]
  · rintro ⟨⟨rest, rfl⟩, hlongest⟩
    obtain ⟨before, after, hlast, hle⟩ := exists_lastSeparator? (toList_separated parent rest)
    have hge := hlongest _ _ (separated_of_lastSeparator? hlast)
    rw [String.length_ofList] at hge
    have heq := (toList_separated parent rest).symm.trans (lastSeparator?_eq hlast)
    obtain ⟨hparent, -⟩ := List.append_inj heq (Nat.le_antisymm hle hge)
    rw [parent?, hlast, ← hparent]
    exact congrArg some (String.ofList_toList ..)

/-! ### Last segments -/

theorem not_isQualified_lastSegment (path : String) : ¬IsQualified (lastSegment path) := by
  unfold lastSegment
  split
  · rename_i before after hlast
    rintro ⟨front, back, hafter⟩
    have hpath : path.toList =
        (before ++ ':' :: ':' :: front.toList) ++ ':' :: ':' :: back.toList := by
      rw [lastSeparator?_eq hlast, ← String.toList_ofList (l := after), hafter, toList_separated]
      simp
    obtain ⟨before', after', hlast', hle⟩ := exists_lastSeparator? hpath
    obtain ⟨rfl, -⟩ := Prod.mk.inj (Option.some.inj (hlast.symm.trans hlast'))
    simp only [List.length_append, List.length_cons] at hle
    omega
  · rename_i hnone
    rintro ⟨before, after, rfl⟩
    obtain ⟨_, _, hsome, -⟩ := exists_lastSeparator? (toList_separated before after)
    cases hnone.symm.trans hsome

theorem lastSegment_of_not_isQualified {path : String} (h : ¬IsQualified path) :
    lastSegment path = path := by
  unfold lastSegment
  split
  · rename_i hlast
    exact absurd ⟨_, _, separated_of_lastSeparator? hlast⟩ h
  · rfl

theorem lastSegment_separated {parent name : String} (hcolon : ':' ∉ name.toList.head?)
    (h : ¬IsQualified name) : lastSegment (parent ++ "::" ++ name) = name := by
  obtain ⟨before, after, hlast, hle⟩ := exists_lastSeparator? (toList_separated parent name)
  have hpath := (toList_separated parent name).symm.trans (lastSeparator?_eq hlast)
  obtain ⟨more, rfl⟩ : parent.toList <+: before :=
    List.prefix_of_prefix_length_le ⟨_, hpath⟩ (List.prefix_append ..) hle
  rw [List.append_assoc, List.append_cancel_left_eq] at hpath
  rw [lastSegment, hlast]
  -- Unless the last separator is the one that joins, the name has one or starts with a colon.
  match more with
  | [] =>
    cases hpath
    exact String.ofList_toList ..
  | [_] =>
    obtain ⟨-, hname⟩ := List.cons.inj (List.cons.inj hpath).2
    rw [hname] at hcolon
    exact absurd rfl hcolon
  | _ :: _ :: more =>
    obtain ⟨-, hname⟩ := List.cons.inj (List.cons.inj hpath).2
    refine absurd ⟨.ofList more, .ofList after, String.toList_injective ?_⟩ h
    rw [toList_separated, String.toList_ofList, String.toList_ofList]
    exact hname

/-- A name ends its path just if it has no separator of its own. -/
theorem lastSegment_join_iff {parent name : String} (hcolon : ':' ∉ name.toList.head?) :
    lastSegment (join parent name) = name ↔ ¬IsQualified name := by
  constructor
  · intro h
    rw [← h]
    exact not_isQualified_lastSegment _
  · intro h
    unfold join
    split
    · exact lastSegment_of_not_isQualified h
    · exact lastSegment_separated hcolon h

/-! ### Scopes -/

theorem IsParent.length_lt {parent path : String} (h : IsParent parent path) :
    parent.length < path.length := by
  obtain ⟨⟨rest, rfl⟩, -⟩ := h
  simp only [String.length_append]
  have hseparator : "::".length = 2 := rfl
  omega

theorem Encloses.ne_empty {scope path : String} (h : Encloses scope path) : scope ≠ "" := by
  induction h with
  | self h => exact h
  | parent _ _ ih => exact ih

theorem Encloses.length_le {scope path : String} (h : Encloses scope path) :
    scope.length ≤ path.length := by
  induction h with
  | self => exact Nat.le_refl _
  | parent above _ ih => exact Nat.le_trans ih (Nat.le_of_lt above.length_lt)

theorem mem_enclosing_iff {scope path : String} : scope ∈ enclosing path ↔ Encloses scope path := by
  fun_induction enclosing path with
  | case1 path hempty =>
    have hpath : path = "" := by simpa using hempty
    subst hpath
    refine iff_of_false List.not_mem_nil fun h => ?_
    cases h with
    | self hne => exact hne rfl
    | parent above _ => exact Nat.not_lt_zero _ above.length_lt
  | case2 path hne parent hparent ih =>
    rw [List.mem_cons, ih]
    constructor
    · rintro (rfl | h)
      · exact .self (by simpa using hne)
      · exact .parent (parent?_eq_some_iff.1 hparent) h
    · intro h
      cases h with
      | self => exact .inl rfl
      | parent above h =>
        obtain rfl := Option.some.inj (hparent.symm.trans (parent?_eq_some_iff.2 above))
        exact .inr h
  | case3 path hne hnone =>
    rw [List.mem_singleton]
    constructor
    · rintro rfl
      exact .self (by simpa using hne)
    · intro h
      cases h with
      | self => rfl
      | parent above _ => cases hnone.symm.trans (parent?_eq_some_iff.2 above)

/-- Inner scopes are longer than outer ones. -/
theorem pairwise_enclosing (path : String) :
    (enclosing path).Pairwise fun inner outer => outer.length < inner.length := by
  fun_induction enclosing path with
  | case1 path hempty => exact .nil
  | case2 path hne parent hparent ih =>
    refine List.pairwise_cons.2 ⟨fun outer houter => ?_, ih⟩
    have hparent := (parent?_eq_some_iff.1 hparent).length_lt
    exact Nat.lt_of_le_of_lt (mem_enclosing_iff.1 houter).length_le hparent
  | case3 path hne hparent => exact List.pairwise_singleton ..

end AnnotatedHeader.QualifiedPath
