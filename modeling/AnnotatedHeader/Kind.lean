/-! Kinds of declarations and of named regions, and the words that name them. -/
namespace AnnotatedHeader

/-- What a declaration declares. -/
inductive Kind where
  | enumType
  | structType
  | classType
  | function
  | variant
  | property
  deriving DecidableEq, Repr, Inhabited

/-- An enum's variant goes by the name `member`. -/
def Kind.word : Kind → String
  | .enumType => "enum"
  | .structType => "struct"
  | .classType => "class"
  | .function => "function"
  | .variant => "member"
  | .property => "property"

/-- The kinds that a cross-reference can ask for. -/
def Kind.referable : List Kind := [.enumType, .structType, .classType, .function]

/-- The kind that a cross-reference names. -/
def Kind.ofHint? (hint : String) : Option Kind := Kind.referable.find? (·.word == hint)

theorem Kind.word_injective {a b : Kind} (h : a.word = b.word) : a = b := by
  cases a <;> cases b <;> simp_all [Kind.word]

theorem Kind.ofHint?_eq_some_iff {hint : String} {k : Kind} :
    Kind.ofHint? hint = some k ↔ k ∈ Kind.referable ∧ k.word = hint := by
  constructor
  · intro h
    exact ⟨List.mem_of_find?_eq_some h, by simpa using List.find?_some h⟩
  · rintro ⟨hk, rfl⟩
    cases k <;> simp_all [Kind.ofHint?, Kind.referable, Kind.word]

/-- The two kinds of named regions. -/
inductive RegionKind where
  | snippet
  | proxy
  deriving DecidableEq, Repr, Inhabited

def RegionKind.word : RegionKind → String
  | .snippet => "snippet"
  | .proxy => "proxy"

/-- The four words that a directive may open with. -/
inductive DirectiveWord where
  | region (kind : RegionKind)
  | inject
  | ignore
  deriving DecidableEq, Repr, Inhabited

def DirectiveWord.word : DirectiveWord → String
  | .region kind => kind.word
  | .inject => "inject"
  | .ignore => "ignore"

def DirectiveWord.all : List DirectiveWord :=
  [.region .snippet, .region .proxy, .inject, .ignore]

end AnnotatedHeader
