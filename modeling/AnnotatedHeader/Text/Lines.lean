import AnnotatedHeader.Text.Blank

/-! Lines of a text.

`splitOn` cuts at every separator, and putting the separators back gives the text
again (`intercalate_splitOn`); `lines` reads a text whose lines are ended, not
separated, by line feeds. -/
namespace AnnotatedHeader.Text

/-- The runs between separators, one more than there are separators. -/
def splitOn (separator : Char) : List Char → List (List Char)
  | [] => [[]]
  | c :: cs =>
    match splitOn separator cs with
    | [] => [[c]]
    | run :: runs => if c = separator then [] :: run :: runs else (c :: run) :: runs

theorem splitOn_ne_nil (separator : Char) (cs : List Char) : splitOn separator cs ≠ [] := by
  cases cs with
  | nil => simp [splitOn]
  | cons c cs =>
    rw [splitOn]
    split
    · simp
    · split <;> simp

theorem splitOn_separator (separator : Char) (cs : List Char) :
    splitOn separator (separator :: cs) = [] :: splitOn separator cs := by
  cases h : splitOn separator cs with
  | nil => exact absurd h (splitOn_ne_nil separator cs)
  | cons run runs => simp [splitOn, h]

theorem splitOn_cons {separator c : Char} (h : c ≠ separator) (cs : List Char) :
    splitOn separator (c :: cs) =
      (c :: (splitOn separator cs).headD []) :: (splitOn separator cs).tail := by
  cases hs : splitOn separator cs with
  | nil => exact absurd hs (splitOn_ne_nil separator cs)
  | cons run runs => simp [splitOn, hs, h]

theorem intercalate_splitOn (separator : Char) (cs : List Char) :
    [separator].intercalate (splitOn separator cs) = cs := by
  induction cs with
  | nil => rfl
  | cons c cs ih =>
    cases hs : splitOn separator cs with
    | nil => exact absurd hs (splitOn_ne_nil separator cs)
    | cons run runs =>
      rw [hs] at ih
      by_cases h : c = separator
      · subst h
        rw [splitOn_separator, hs, List.intercalate_cons_cons, ih]
        rfl
      · rw [splitOn_cons h, hs]
        cases runs with
        | nil => simp_all
        | cons next runs =>
          rw [List.intercalate_cons_cons] at ih
          simp [List.intercalate_cons_cons, ← ih]

/-- The runs without the last one when nothing follows the last line feed: what
a text file calls its lines. An empty text has one empty line. -/
def fileLines (cs : List Char) : List (List Char) :=
  let runs := splitOn '\n' cs
  if 1 < runs.length && runs.getLast? == some [] then runs.dropLast else runs

def withoutFinal (c : Char) (cs : List Char) : List Char :=
  if cs.getLast? = some c then cs.dropLast else cs

/-- A text without the byte order mark that it may start with. -/
def withoutMark (source : String) : String :=
  match source.toList with
  | '\ufeff' :: rest => .ofList rest
  | _ => source

/-- The lines of a text in which every line feed ends a line, together with a
carriage return right before it. What follows the last line feed is a line only
if it is not empty, and keeps its carriage return. -/
def endedLines (cs : List Char) : List (List Char) :=
  let runs := splitOn '\n' cs
  let last := runs.getLastD []
  runs.dropLast.map (withoutFinal '\r') ++ (if last.isEmpty then [] else [last])

def lines (s : String) : List String := (endedLines s.toList).map .ofList

def joinLines (ls : List String) : String := "\n".intercalate ls

end AnnotatedHeader.Text
