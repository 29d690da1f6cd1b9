import AnnotatedHeader.Text.Blank

/-! Dedenting: captured lines without the blank lines around them and without
the indentation that all of them share. -/
namespace AnnotatedHeader.Region

open Text

/-- The lines between the first and the last that are not blank, ends included. -/
def withoutBlankEnds (ls : List (List Char)) : List (List Char) :=
  ((ls.reverse.dropWhile isBlank).reverse).dropWhile isBlank

def indentation (l : List Char) : Nat := (l.takeWhile isSpace).length

/-- The least indentation of a line that is not blank. -/
def level (ls : List (List Char)) : Nat :=
  ((ls.filter (!isBlank ·)).map indentation).min?.getD 0

/-- A line moved left by `n` characters; a blank line becomes empty. -/
def shifted (n : Nat) (l : List Char) : List Char :=
  if isBlank l then [] else trimEnd (l.drop n)

def dedent (ls : List (List Char)) : List (List Char) :=
  let kept := withoutBlankEnds ls
  kept.map (shifted (level kept))

end AnnotatedHeader.Region
