import AnnotatedHeader.Settings.Moment
import AnnotatedHeader.Settings.QuotedText

/-! Keys and values of a settings file.

A value counts only when it is a truth value; of any other it is enough to know
that it is well formed and where it ends. Arrays and texts in triple quotes may go
over several lines. -/
namespace AnnotatedHeader.Settings

open Text

inductive Value where
  | bool (value : Bool)
  | other
  deriving DecidableEq, Repr

/-- How deep brackets may be nested, and how many segments a key may have. -/
def maxDepth : Nat := 79

/-! ### Keys -/

def isKeyChar (c : Char) : Bool := c.isAlpha || c.isDigit || c == '_' || c == '-'

/-- Reads one segment of a key. -/
def keySegment? (cs : List Char) : Option (String × Behind cs) :=
  match cs with
  | [] => none
  | c :: cs =>
    if c = '"' then (basicText? cs).map fun (text, rest) => (.ofList text, rest.after c)
    else if c = '\x27' then (literalText? cs).map fun (text, rest) => (.ofList text, rest.after c)
    else if isKeyChar c then
      some (.ofList (c :: cs.takeWhile isKeyChar),
        ⟨cs.dropWhile isKeyChar, Nat.lt_succ_of_le (List.dropWhile_sublist _).length_le⟩)
    else none

/-- Reads segments; points separate them, blanks around the points mean nothing. -/
def keySegments? (cs : List Char) : Option (List String × Behind cs) :=
  match keySegment? cs with
  | some (segment, ⟨rest, h⟩) =>
    match hd : skipBlank rest with
    | '.' :: more =>
      have hmore : (skipBlank more).length < cs.length := by
        have h1 := length_skipBlank rest
        have h2 := length_skipBlank more
        rw [hd, List.length_cons] at h1
        omega
      (keySegments? (skipBlank more)).map fun (segments, behind) =>
        (segment :: segments, behind.within (Nat.le_of_lt hmore))
    | _ => some ([segment], ⟨rest, h⟩)
  | none => none
termination_by cs.length

def key? (cs : List Char) : Option (List String × Behind cs) :=
  (keySegments? cs).filter fun (key, _) => key.length ≤ maxDepth

/-- Whether one of two keys names what the other is in, or the same. -/
def clash (a b : List String) : Bool := a.isPrefixOf b || b.isPrefixOf a

/-! ### Words -/

def isWordChar (c : Char) : Bool :=
  c.isAlpha || c.isDigit || c == '_' || c == '+' || c == '-' || c == '.' || c == ':'

def wordRun (cs : List Char) : List Char := cs.takeWhile isWordChar

def behindRun (cs : List Char) : List Char := cs.dropWhile isWordChar

theorem length_behindRun (cs : List Char) : (behindRun cs).length ≤ cs.length :=
  (List.dropWhile_sublist _).length_le

/-- The value that a word writes. -/
def wordValue? (cs : List Char) : Option Value :=
  if cs == "true".toList then some (.bool true)
  else if cs == "false".toList then some (.bool false)
  else if isInteger cs || isFloat cs || isMoment cs then some .other
  else none

/-- Reads a word, or a date and a time with a space between them. -/
def word? (cs : List Char) : Option (Value × Behind cs) :=
  match cs with
  | [] => none
  | c :: cs =>
    if isWordChar c then
      match hr : behindRun cs with
      | ' ' :: next =>
        have hnext : next.length < cs.length := by
          have := length_behindRun cs
          rw [hr, List.length_cons] at this
          exact this
        if isDate (c :: wordRun cs) && !(wordRun next).isEmpty then
          if isDateTime (wordRun next) then
            some (.other,
              ⟨behindRun next,
                Nat.lt_succ_of_le (Nat.le_trans (length_behindRun next) (Nat.le_of_lt hnext))⟩)
          else none
        else
          (wordValue? (c :: wordRun cs)).map fun v =>
            (v, ⟨' ' :: next, Nat.lt_succ_of_le hnext⟩)
      | rest =>
        (wordValue? (c :: wordRun cs)).map fun v =>
          (v, ⟨rest, Nat.lt_succ_of_le (hr ▸ length_behindRun cs)⟩)
    else none

/-! ### Values -/

mutual

/-- Reads a value in which brackets are at most `depth` deep. -/
def value? (depth : Nat) (cs : List Char) : Option (Value × Behind cs) :=
  match cs with
  | '[' :: tail =>
    match depth with
    | 0 => none
    | depth + 1 => (arrayItems? depth tail).map fun rest => (.other, rest.after '[')
  | '\x7b' :: tail =>
    match depth with
    | 0 => none
    | depth + 1 =>
      match h : skipBlank tail with
      | '\x7d' :: rest =>
        some (.other, ⟨rest, by
          have := length_skipBlank tail
          rw [h, List.length_cons] at this
          rw [List.length_cons]
          omega⟩)
      | _ => (tableItems? depth [] tail).map fun rest => (.other, rest.after '\x7b')
  | cs =>
    match afterText? cs with
    | some rest => some (.other, rest)
    | none => word? cs
termination_by (cs.length, 0)

/-- Reads the items of an array from behind its bracket or a comma. -/
def arrayItems? (depth : Nat) (cs : List Char) : Option (Behind cs) :=
  match h : skipTrivia cs with
  | ']' :: rest =>
    some ⟨rest, by
      have := length_skipTrivia cs
      rw [h, List.length_cons] at this
      omega⟩
  | _ =>
    match value? depth (skipTrivia cs) with
    | some (_, ⟨rest, hrest⟩) =>
      match hr : skipTrivia rest with
      | ',' :: more =>
        have hmore : more.length < cs.length := by
          have h1 := length_skipTrivia cs
          have h2 := length_skipTrivia rest
          rw [hr, List.length_cons] at h2
          omega
        (arrayItems? depth more).map (·.within (Nat.le_of_lt hmore))
      | ']' :: more =>
        some ⟨more, by
          have h1 := length_skipTrivia cs
          have h2 := length_skipTrivia rest
          rw [hr, List.length_cons] at h2
          omega⟩
      | _ => none
    | none => none
termination_by (cs.length, 1)
decreasing_by
  · rcases Nat.lt_or_eq_of_le (length_skipTrivia cs) with hlt | heq
    · exact Prod.Lex.left _ _ hlt
    · rw [heq]
      exact Prod.Lex.right _ (by decide)
  · exact Prod.Lex.left _ _ hmore

/-- Reads the entries of a table from behind its brace or a comma, on one line but for
their values; `seen` holds the keys before. -/
def tableItems? (depth : Nat) (seen : List (List String)) (cs : List Char) :
    Option (Behind cs) :=
  match key? (skipBlank cs) with
  | some (key, ⟨afterKey, hkey⟩) =>
    match heq : skipBlank afterKey with
    | '=' :: more =>
      have hmore : (skipBlank more).length < cs.length := by
        have h1 := length_skipBlank cs
        have h2 := length_skipBlank afterKey
        have h3 := length_skipBlank more
        rw [heq, List.length_cons] at h2
        omega
      if seen.any (clash key) then none
      else
        match value? depth (skipBlank more) with
        | some (_, ⟨rest, hrest⟩) =>
          match hr : skipBlank rest with
          | ',' :: further =>
            have hfurther : further.length < cs.length := by
              have h2 := length_skipBlank rest
              rw [hr, List.length_cons] at h2
              omega
            (tableItems? depth (key :: seen) further).map (·.within (Nat.le_of_lt hfurther))
          | '\x7d' :: further =>
            some ⟨further, by
              have h2 := length_skipBlank rest
              rw [hr, List.length_cons] at h2
              omega⟩
          | _ => none
        | none => none
    | _ => none
  | none => none
termination_by (cs.length, 1)
decreasing_by
  · exact Prod.Lex.left _ _ hmore
  · exact Prod.Lex.left _ _ hfurther

end

end AnnotatedHeader.Settings
