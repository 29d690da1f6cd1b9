import AnnotatedHeader.DocBlock
import AnnotatedHeader.Text.Word

/-! Links: the written form of a cross-reference.

A link is a bracket pair around a backquoted `kind: path`, followed by an empty
pair of parentheses. Between its parts any ASCII white space may stand.
`Link.scan` takes the links of a line from left to right. -/
namespace AnnotatedHeader

open Text

structure Link where
  hint : String
  /-- The path without white space. -/
  path : String
  deriving DecidableEq, Repr

namespace Link

def skipSpace (cs : List Char) : List Char := cs.dropWhile isAsciiSpace

/-- What follows the sign `c`, white space before it skipped. -/
def sign? (c : Char) (cs : List Char) : Option (List Char) :=
  match skipSpace cs with
  | d :: rest => if d = c then some rest else none
  | [] => none

/-- A word, white space before it skipped, and what follows it. -/
def word? (cs : List Char) : Option (List Char × List Char) :=
  let cs := skipSpace cs
  let word := cs.takeWhile isWord
  if word.isEmpty then none else some (word, cs.dropWhile isWord)

theorem length_skipSpace (cs : List Char) : (skipSpace cs).length ≤ cs.length :=
  (List.dropWhile_sublist _).length_le

theorem length_sign? {c : Char} {cs rest : List Char} (h : sign? c cs = some rest) :
    rest.length < cs.length := by
  have hle := length_skipSpace cs
  unfold sign? at h
  split at h
  · rename_i d tail hs
    split at h
    · injection h with h
      subst h
      rw [hs, List.length_cons] at hle
      omega
    · cases h
  · cases h

theorem length_word? {cs word rest : List Char} (h : word? cs = some (word, rest)) :
    rest.length ≤ cs.length := by
  simp only [word?, Option.ite_none_left_eq_some, Option.some.injEq, Prod.mk.injEq] at h
  obtain ⟨-, -, rfl⟩ := h
  exact Nat.le_trans (List.dropWhile_sublist _).length_le (length_skipSpace cs)

/-- The further segments of a path, each after a `::`. -/
def segments (cs : List Char) : List (List Char) × List Char :=
  match _hs : skipSpace cs with
  | ':' :: ':' :: rest =>
    match _h : word? rest with
    | some (word, tail) =>
      let more := segments tail
      (word :: more.1, more.2)
    | none => ([], cs)
  | _ => ([], cs)
termination_by cs.length
decreasing_by
  have := length_word? _h
  have hle := length_skipSpace cs
  rw [_hs, List.length_cons, List.length_cons] at hle
  omega

/-- Reads a link at the start of the text, from behind its opening bracket. -/
def read? (cs : List Char) : Option (Link × List Char) := do
  let '\x60' :: cs := cs | none
  let (hint, cs) ← word? cs
  let cs ← sign? ':' cs
  let (first, cs) ← word? cs
  let (more, cs) := segments cs
  let cs ← sign? '\x60' cs
  let ']' :: cs := cs | none
  let cs ← sign? '(' cs
  let cs ← sign? ')' cs
  return (⟨.ofList hint, "::".intercalate ((first :: more).map .ofList)⟩, cs)

theorem length_segments (cs : List Char) : (segments cs).2.length ≤ cs.length := by
  fun_induction segments cs with
  | case1 cs rest hs word tail h more ih =>
    have := length_word? h
    have hle := length_skipSpace cs
    rw [hs, List.length_cons, List.length_cons] at hle
    exact Nat.le_trans ih (by omega)
  | case2 => exact Nat.le_refl _
  | case3 => exact Nat.le_refl _

theorem length_read? {cs rest : List Char} {link : Link} (h : read? cs = some (link, rest)) :
    rest.length < cs.length := by
  unfold read? at h
  split at h
  · rename_i cs
    simp only [Option.bind_eq_bind, Option.bind_eq_some_iff] at h
    obtain ⟨⟨hint, a⟩, ha, b, hb, ⟨first, c⟩, hc, d, hd, h⟩ := h
    have h1 : a.length ≤ _ := length_word? ha
    have h2 : b.length < a.length := length_sign? hb
    have h3 : c.length ≤ b.length := length_word? hc
    have h4 := length_segments c
    have h5 := length_sign? hd
    split at h
    · simp only [Option.bind_eq_some_iff, Option.pure_def, Option.some.injEq, Prod.mk.injEq] at h
      obtain ⟨e, he, f, hf, -, rfl⟩ := h
      have h6 := length_sign? he
      have h7 := length_sign? hf
      simp only [List.length_cons] at h5 ⊢
      omega
    · cases h
  · cases h

/-- The links of a text, none of them overlapping another. -/
def scan : List Char → List Link
  | [] => []
  | c :: cs =>
    if c = '[' then
      match _h : read? cs with
      | some (link, rest) => link :: scan rest
      | none => scan cs
    else scan cs
termination_by cs => cs.length
decreasing_by
  · have := length_read? _h
    simp only [List.length_cons]
    omega
  · simp
  · simp

end Link

/-- The cross-reference that a link stands for, when its kind is known. -/
def Link.reference? (line : Nat) (link : Link) : Option CrossReference :=
  (Kind.ofHint? link.hint).map fun kind => ⟨kind, link.path, line, none⟩

end AnnotatedHeader
