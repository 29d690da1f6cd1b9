import AnnotatedHeader.Text.Blank

/-! Qualified paths: names joined by `::`.

A path is text; `parent?` and `lastSegment` cut it at its last separator
(`lastSeparator?_eq`). -/
namespace AnnotatedHeader.QualifiedPath

def separator : String := "::"

/-- The path of `name` under `parent`; at file level the name alone. -/
def join (parent name : String) : String :=
  if parent.isEmpty then name else parent ++ separator ++ name

/-- The text before and after the first `::`, read from the left. -/
def firstSeparator? : List Char → Option (List Char × List Char)
  | [] => none
  | ':' :: ':' :: cs => some ([], cs)
  | c :: cs => (firstSeparator? cs).map fun (before, after) => (c :: before, after)

/-- The text before and after the last `::`. Three colons in a row end in a
separator. -/
def lastSeparator? (cs : List Char) : Option (List Char × List Char) :=
  (firstSeparator? cs.reverse).map fun (after, before) => (before.reverse, after.reverse)

/-- The path without its last segment. -/
def parent? (path : String) : Option String :=
  (lastSeparator? path.toList).map fun (before, _) => .ofList before

def lastSegment (path : String) : String :=
  match lastSeparator? path.toList with
  | some (_, after) => .ofList after
  | none => path

def isQualified (path : String) : Bool := (firstSeparator? path.toList).isSome

theorem firstSeparator?_eq {cs before after : List Char}
    (h : firstSeparator? cs = some (before, after)) : cs = before ++ ':' :: ':' :: after := by
  fun_induction firstSeparator? cs generalizing before with
  | case1 => simp at h
  | case2 cs => simp_all
  | case3 c cs _ ih =>
    obtain ⟨⟨b, a⟩, hb, he⟩ := Option.map_eq_some_iff.1 h
    simp only [Prod.mk.injEq] at he
    obtain ⟨rfl, rfl⟩ := he
    simp [ih hb]

theorem lastSeparator?_eq {cs before after : List Char}
    (h : lastSeparator? cs = some (before, after)) : cs = before ++ ':' :: ':' :: after := by
  obtain ⟨⟨a, b⟩, hs, he⟩ := Option.map_eq_some_iff.1 h
  simp only [Prod.mk.injEq] at he
  obtain ⟨rfl, rfl⟩ := he
  have := congrArg List.reverse (firstSeparator?_eq hs)
  simpa using this

/-- A parent is shorter than its path. -/
theorem length_of_parent? {path parent : String} (h : parent? path = some parent) :
    parent.toList.length < path.toList.length := by
  obtain ⟨⟨before, after⟩, hs, rfl⟩ := Option.map_eq_some_iff.1 h
  rw [lastSeparator?_eq hs]
  simp only [String.toList_ofList, List.length_append, List.length_cons]
  omega

end AnnotatedHeader.QualifiedPath
