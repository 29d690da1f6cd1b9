import AnnotatedHeader.Settings.Number
import AnnotatedHeader.Settings.Trivia
import AnnotatedHeader.Text.Behind
import AnnotatedHeader.Text.Lead

/-! Texts in quotes.

Double quotes let a backslash escape, single quotes take every character as it is.
One quote on each side keeps a text on its line; three let it hold line ends, and
quotes of its own. -/
namespace AnnotatedHeader.Settings

open Text

/-! ### Escapes -/

/-- A code point that is a character. -/
def isScalar (n : Nat) : Bool := n < 0xd800 || (0xdfff < n && n < 0x110000)

/-- The character whose code point the first `n` characters write. -/
def codePoint? (n : Nat) (cs : List Char) : Option Char :=
  let digits := cs.take n
  if digits.length = n && digits.all isHexDigit && isScalar (numberOf 16 digits) then
    some (Char.ofNat (numberOf 16 digits))
  else none

/-- The characters that a backslash and a letter or sign stand for. -/
def shortEscapes : List (Char × Char) :=
  [('b', '\x08'), ('t', '\t'), ('n', '\n'), ('f', '\x0c'), ('r', '\r'), ('"', '"'), ('\\', '\\')]

/-- Reads an escape from behind its backslash. -/
def escape? (cs : List Char) : Option (Char × Behind cs) :=
  match cs with
  | [] => none
  | 'u' :: rest =>
    (codePoint? 4 rest).map fun c =>
      (c, ⟨rest.drop 4, Nat.lt_succ_of_le (List.drop_sublist ..).length_le⟩)
  | 'U' :: rest =>
    (codePoint? 8 rest).map fun c =>
      (c, ⟨rest.drop 8, Nat.lt_succ_of_le (List.drop_sublist ..).length_le⟩)
  | c :: rest => (shortEscapes.lookup c).map fun d => (d, ⟨rest, Nat.lt_succ_self _⟩)

/-! ### Texts on one line -/

/-- Reads a text in double quotes from behind the first one. -/
def basicText? (cs : List Char) : Option (List Char × Behind cs) :=
  match cs with
  | [] => none
  | c :: tail =>
    if c = '"' then some ([], ⟨tail, Nat.lt_succ_self _⟩)
    else if c = '\\' then
      match escape? tail with
      | some (d, ⟨rest, h⟩) =>
        (basicText? rest).map fun (text, behind) =>
          (d :: text, behind.within (Nat.le_succ_of_le (Nat.le_of_lt h)))
      | none => none
    else if isTextChar c then
      (basicText? tail).map fun (text, behind) => (c :: text, behind.after c)
    else none
termination_by cs.length
decreasing_by
  · exact Nat.lt_succ_of_lt h
  · exact Nat.lt_succ_self _

/-- Reads a text in single quotes from behind the first one. -/
def literalText? (cs : List Char) : Option (List Char × Behind cs) :=
  match cs with
  | [] => none
  | c :: tail =>
    if c = '\x27' then some ([], ⟨tail, Nat.lt_succ_self _⟩)
    else if isTextChar c then
      (literalText? tail).map fun (text, behind) => (c :: text, behind.after c)
    else none

/-! ### Texts on several lines -/

/-- What three quotes leave when they end a text: up to two more belong to the text
and stand in front of them. -/
def afterQuotes? (quote : Char) (cs : List Char) : Option (List Char) :=
  (afterLead? [quote, quote, quote] cs).map fun rest =>
    rest.drop ((rest.take 2).takeWhile (· == quote)).length

theorem length_afterQuotes? {quote : Char} {cs rest : List Char}
    (h : afterQuotes? quote cs = some rest) : rest.length < cs.length := by
  obtain ⟨tail, ht, rfl⟩ := Option.map_eq_some_iff.1 h
  rw [afterLead?_eq_some_iff.1 ht]
  simp only [List.length_drop, List.length_append, List.length_cons, List.length_nil]
  omega

/-- What is left behind the end of a line that a backslash escapes. -/
def afterEscapedEnd? (cs : List Char) : Option (Behind cs) :=
  match h : skipBlank cs with
  | '\n' :: rest =>
    some ⟨rest, by
      have := length_skipBlank cs
      rw [h, List.length_cons] at this
      omega⟩
  | _ => none

/-- What is left behind a text on several lines, read from behind its opening quotes. -/
def afterBlock? (quote : Char) (cs : List Char) : Option (Behind cs) :=
  match h : afterQuotes? quote cs with
  | some rest => some ⟨rest, length_afterQuotes? h⟩
  | none =>
    match cs with
    | [] => none
    | c :: tail =>
      if c = '\\' && quote == '"' then
        match (escape? tail).map (·.2) <|> afterEscapedEnd? tail with
        | some ⟨rest, hr⟩ =>
          (afterBlock? quote rest).map (·.within (Nat.le_succ_of_le (Nat.le_of_lt hr)))
        | none => none
      else if isTextChar c || c = '\n' then (afterBlock? quote tail).map (·.after c)
      else none
termination_by cs.length
decreasing_by
  · exact Nat.lt_succ_of_lt hr
  · exact Nat.lt_succ_self _

/-! ### Texts of any form -/

/-- What is left behind a text, read from its first quote. -/
def afterText? (cs : List Char) : Option (Behind cs) :=
  match cs with
  | '"' :: '"' :: '"' :: tail =>
    (afterBlock? '"' tail).map fun r => ((r.after '"').after '"').after '"'
  | '\x27' :: '\x27' :: '\x27' :: tail =>
    (afterBlock? '\x27' tail).map fun r => ((r.after '\x27').after '\x27').after '\x27'
  | '"' :: tail => (basicText? tail).map (·.2.after '"')
  | '\x27' :: tail => (literalText? tail).map (·.2.after '\x27')
  | _ => none

end AnnotatedHeader.Settings
