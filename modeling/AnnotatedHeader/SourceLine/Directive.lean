import AnnotatedHeader.SourceLine
import AnnotatedHeader.Text.Lead
import AnnotatedHeader.Text.Word

/-! Directives: reading `[snippet: name]` and its like.

`Bracket.read?` decides whether a text has the form of a directive at all and
`Bracket.directive` whether such a form is a directive, so a text in brackets is
either no directive, a directive, or a flawed one (`Directive.read?`). -/
namespace AnnotatedHeader

open Text

/-- A letter or underscore, then letters, digits, underscores and hyphens, all ASCII. -/
def isRegionName : List Char → Bool
  | [] => false
  | c :: cs => isIdentStart c && cs.all fun d => isIdentRest d || d == '-'

/-- What stands between the brackets: a slash or none, a word, and after a colon
an argument. -/
structure Bracket where
  closing : Bool
  word : DirectiveWord
  argument : Option String
  deriving DecidableEq, Repr

def DirectiveWord.read? (cs : List Char) : Option (DirectiveWord × List Char) :=
  DirectiveWord.all.findSome? fun w => (afterLead? w.word.toList cs).map (w, ·)

/-- Reads the end of a directive, from behind its word. -/
def Bracket.readArgument? (cs : List Char) : Option (Option String) :=
  match cs.dropWhile isTabOrSpace with
  | ':' :: rest =>
    match rest.dropWhile (· != ']') with
    | ']' :: tail =>
      if tail.all isTabOrSpace then some (some (.ofList (trim (rest.takeWhile (· != ']'))))) else none
    | _ => none
  | ']' :: tail => if tail.all isTabOrSpace then some none else none
  | _ => none

def Bracket.read? : List Char → Option Bracket
  | '[' :: cs =>
    let cs := cs.dropWhile isTabOrSpace
    let closing := cs.head? == some '/'
    let cs := if closing then cs.tail.dropWhile isTabOrSpace else cs
    match DirectiveWord.read? cs with
    | some (word, rest) => (readArgument? rest).map fun argument => ⟨closing, word, argument⟩
    | none => none
  | _ => none

/-- The name that a directive asks for. -/
def Bracket.name (b : Bracket) : Except DirectiveFlaw String :=
  match b.argument with
  | none => .error .missingName
  | some name =>
    if isRegionName name.toList then .ok name
    else .error (if name.isEmpty then .missingName else .invalidName)

def Bracket.directive (b : Bracket) : Except DirectiveFlaw Directive :=
  match b.closing, b.word with
  | true, word =>
    if b.argument.isSome then .error .namedEnd
    else
      match word with
      | .region kind => .ok (.closes kind)
      | .ignore => .ok .endIgnore
      | .inject => .error .injectEnd
  | false, .region kind => b.name.map (.opens kind)
  | false, .inject => b.name.map .inject
  | false, .ignore => if b.argument.isSome then .error .namedIgnore else .ok .ignore

/-- `none` for a text that is not of a directive's form. -/
def Directive.read? (cs : List Char) : Option (Except DirectiveFlaw Directive) :=
  (Bracket.read? cs).map Bracket.directive

theorem isRegionName_of_name {b : Bracket} {name : String} (h : b.name = .ok name) :
    isRegionName name.toList := by
  unfold Bracket.name at h
  split at h
  · cases h
  · split at h
    · rename_i hn
      injection h with h
      exact h ▸ hn
    · cases h

end AnnotatedHeader
