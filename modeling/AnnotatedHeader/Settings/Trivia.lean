import AnnotatedHeader.Text.Blank

/-! What stands between the parts of a settings file: blanks, comments and line ends.

Readers of a settings file know one line end, the line feed, and take a carriage
return for a character that may stand nowhere. `withLineFeeds` makes a text such
that this is right. -/
namespace AnnotatedHeader.Settings

open Text

/-- A text without the carriage returns that line feeds follow. -/
def withLineFeeds : List Char → List Char
  | '\r' :: '\n' :: cs => '\n' :: withLineFeeds cs
  | c :: cs => c :: withLineFeeds cs
  | [] => []

/-- Characters that a comment may hold, and a text its own signs apart. -/
def isTextChar (c : Char) : Bool := c == '\t' || (32 ≤ c.toNat && c.toNat != 127)

def skipBlank (cs : List Char) : List Char := cs.dropWhile isTabOrSpace

theorem length_skipBlank (cs : List Char) : (skipBlank cs).length ≤ cs.length :=
  (List.dropWhile_sublist _).length_le

/-- Skips a comment, if one starts here. -/
def skipComment : List Char → List Char
  | '#' :: cs => cs.dropWhile isTextChar
  | cs => cs

theorem length_skipComment (cs : List Char) : (skipComment cs).length ≤ cs.length := by
  unfold skipComment
  split
  · exact Nat.le_succ_of_le (List.dropWhile_sublist _).length_le
  · exact Nat.le_refl _

/-- What is left behind the end of a line, blanks and a comment in front of it skipped;
a text's end is a line's end. -/
def afterLine? (cs : List Char) : Option (List Char) :=
  match skipComment (skipBlank cs) with
  | [] => some []
  | c :: rest => if c = '\n' then some rest else none

theorem length_afterLine? {cs rest : List Char} (h : afterLine? cs = some rest) :
    rest.length ≤ cs.length ∧ (cs ≠ [] → rest.length < cs.length) := by
  have h1 := length_skipBlank cs
  have h2 := length_skipComment (skipBlank cs)
  unfold afterLine? at h
  split at h
  · cases h
    exact ⟨Nat.zero_le _, fun hne => List.length_pos_iff.2 hne⟩
  · rename_i hr
    rw [hr, List.length_cons] at h2
    split at h
    · cases h
      omega
    · cases h

/-- Skips blanks, comments and line ends. -/
def skipTrivia : List Char → List Char
  | [] => []
  | c :: cs =>
    if c = '#' then skipTrivia (cs.dropWhile isTextChar)
    else if isTabOrSpace c || c = '\n' then skipTrivia cs
    else c :: cs
termination_by cs => cs.length
decreasing_by
  · exact Nat.lt_succ_of_le (List.dropWhile_sublist _).length_le
  · exact Nat.lt_succ_self _

theorem length_skipTrivia (cs : List Char) : (skipTrivia cs).length ≤ cs.length := by
  fun_induction skipTrivia cs with
  | case1 => exact Nat.le_refl _
  | case2 cs ih =>
    exact Nat.le_succ_of_le (Nat.le_trans ih (List.dropWhile_sublist _).length_le)
  | case3 c cs _ _ ih => exact Nat.le_succ_of_le ih
  | case4 => exact Nat.le_refl _

end AnnotatedHeader.Settings
