/-! White space and trimming.

Three classes are told apart: Unicode's `White_Space` decides what is blank and
what is trimmed, ASCII white space what may stand around the fixed signs of a
comment, and tabs and spaces what may stand inside a bracketed directive.
`trimEnd_trimEnd`, `trimEnd_eq_self_iff` and their neighbours say what trimming
leaves. -/
namespace AnnotatedHeader.Text

/-- Unicode's property `White_Space`. -/
def isSpace (c : Char) : Bool :=
  let n := c.toNat
  (0x9 ≤ n && n ≤ 0xd) || n == 0x20 || n == 0x85 || n == 0xa0 || n == 0x1680 ||
    (0x2000 ≤ n && n ≤ 0x200a) || n == 0x2028 || n == 0x2029 || n == 0x202f || n == 0x205f ||
    n == 0x3000

/-- Tab, line feed, vertical tab, form feed, carriage return and space. -/
def isAsciiSpace (c : Char) : Bool :=
  (0x9 ≤ c.toNat && c.toNat ≤ 0xd) || c == ' '

def isTabOrSpace (c : Char) : Bool := c == '\t' || c == ' '

theorem isSpace_of_isAsciiSpace {c : Char} (h : isAsciiSpace c) : isSpace c := by
  simp only [isAsciiSpace, Bool.or_eq_true, beq_iff_eq] at h
  rcases h with h | rfl
  · simp [isSpace, h]
  · decide

theorem isAsciiSpace_of_isTabOrSpace {c : Char} (h : isTabOrSpace c) : isAsciiSpace c := by
  simp only [isTabOrSpace, Bool.or_eq_true, beq_iff_eq] at h
  rcases h with rfl | rfl <;> decide

/-- Core's white space is part of it. -/
theorem isSpace_of_isWhitespace {c : Char} (h : c.isWhitespace) : isSpace c := by
  simp only [Char.isWhitespace, Bool.or_eq_true, decide_eq_true_eq] at h
  rcases h with ((rfl | rfl) | rfl) | rfl <;> decide

def isBlank (cs : List Char) : Bool := cs.all isSpace

/-! ### Trimming -/

def trimStart (cs : List Char) : List Char := cs.dropWhile isSpace

def trimEnd (cs : List Char) : List Char := (cs.reverse.dropWhile isSpace).reverse

def trim (cs : List Char) : List Char := trimEnd (trimStart cs)

theorem trimEnd_append_of_isBlank (cs : List Char) {w : List Char} (h : isBlank w) :
    trimEnd (cs ++ w) = trimEnd cs := by
  simp only [trimEnd, List.reverse_append]
  rw [List.dropWhile_append_of_pos]
  simpa [isBlank] using h

theorem trimEnd_append_singleton (cs : List Char) {c : Char} (h : isSpace c = false) :
    trimEnd (cs ++ [c]) = cs ++ [c] := by
  simp [trimEnd, h]

/-- Text that already ends in something visible is kept. -/
theorem trimEnd_eq_self_iff {cs : List Char} :
    trimEnd cs = cs ↔ ∀ c, cs.getLast? = some c → isSpace c = false := by
  rcases List.eq_nil_or_concat cs with rfl | ⟨init, c, rfl⟩
  · simp [trimEnd]
  · cases h : isSpace c with
    | false => simp [trimEnd, h]
    | true =>
      have hw : isBlank [c] := by simp [isBlank, h]
      simp only [List.concat_eq_append, trimEnd_append_of_isBlank init hw, List.getLast?_concat,
        Option.some.injEq, forall_eq', h, Bool.true_eq_false, iff_false]
      intro hc
      have hle : (trimEnd init).length ≤ init.length := by
        simpa [trimEnd] using (List.dropWhile_sublist (l := init.reverse) isSpace).length_le
      rw [hc] at hle
      simp only [List.length_append, List.length_cons, List.length_nil] at hle
      omega

theorem trimEnd_trimEnd (cs : List Char) : trimEnd (trimEnd cs) = trimEnd cs := by
  simp only [trimEnd, List.reverse_reverse]
  congr 1
  induction cs.reverse with
  | nil => rfl
  | cons c r ih => cases h : isSpace c <;> simp [h, ih]

def trimmed (s : String) : String := .ofList (trim s.toList)

end AnnotatedHeader.Text
