import AnnotatedHeader.Text.Word

/-! Metadata: the arguments of a reflection macro, and the macro itself.

Entries keep their order and may share a key. A value can hold entries:
`MetaValue.induction` is induction over values. -/
namespace AnnotatedHeader

inductive MetaValue where
  /-- A key alone. -/
  | flag
  | text (text : String)
  | group (entries : List (String × MetaValue))
  deriving Repr, Inhabited

theorem MetaValue.induction {P : MetaValue → Prop} (flag : P .flag) (text : ∀ t, P (.text t))
    (group : ∀ entries, (∀ e ∈ entries, P e.2) → P (.group entries)) (v : MetaValue) : P v := by
  refine MetaValue.rec (motive_1 := P) (motive_2 := fun es => ∀ e ∈ es, P e.2)
    (motive_3 := fun e => P e.2) flag text group ?_ ?_ ?_ v
  · intro e he
    cases he
  · intro e es he hes e' he'
    rcases List.mem_cons.1 he' with rfl | he'
    · exact he
    · exact hes e' he'
  · intro key v hv
    exact hv

abbrev Metadata := List (String × MetaValue)

/-- The value of the first entry with that key. -/
def Metadata.get? (m : Metadata) (key : String) : Option MetaValue :=
  (m.find? (·.1 == key)).map (·.2)

/-- Whether a text can be written without quotes. -/
def isBareText (cs : List Char) : Bool :=
  !cs.isEmpty && cs.all fun c => c.isAlpha || c.isDigit || c == '_' || c == '.' || c == '-'

/-- A text between double quotes; double quotes inside are escaped, and nothing else is. -/
def quotedText (cs : List Char) : List Char :=
  '"' :: cs.flatMap (fun c => if c = '"' then ['\\', '"'] else [c]) ++ ['"']

def textArgument (text : String) : String :=
  if isBareText text.toList then text else .ofList (quotedText text.toList)

mutual

/-- An entry as it is written. -/
def MetaValue.argument (key : String) : MetaValue → String
  | .flag => key
  | .text text => key ++ " = " ++ textArgument text
  | .group entries => key ++ " = (" ++ ", ".intercalate (Metadata.arguments entries) ++ ")"

def Metadata.arguments : List (String × MetaValue) → List String
  | [] => []
  | (key, value) :: rest => value.argument key :: Metadata.arguments rest

end

/-- The entries as they stand between a macro's parentheses. -/
def Metadata.toArgs (m : Metadata) : String := ", ".intercalate (Metadata.arguments m)

/-- A macro that says what the declaration after it is for. -/
structure Reflection where
  macroName : String
  metadata : Metadata
  line : Nat
  deriving Repr

def Reflection.toSource (r : Reflection) : String := s!"{r.macroName}({r.metadata.toArgs})"

end AnnotatedHeader
