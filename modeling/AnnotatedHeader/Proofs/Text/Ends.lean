import AnnotatedHeader.Text.Blank
import Mathlib.Data.List.TakeWhile

/-! What is between the ends.

Blank lines around a text are left out by dropping them from its end and then from its start.
`Between` says what that gives without a word on how: the rest is what was left out, and
neither end of what is kept would be left out. White space around a text is left out the same
way. -/
namespace AnnotatedHeader.Text
variable {α : Type} {p : α → Bool} {xs core : List α}

/-- `core` is `xs` without the elements at either end that `p` holds of. -/
structure Between (p : α → Bool) (xs core : List α) : Prop where
  ends : ∃ before after, xs = before ++ core ++ after ∧ (∀ x ∈ before, p x) ∧ ∀ x ∈ after, p x
  first : ∀ x ∈ core.head?, p x = false
  last : ∀ x ∈ core.getLast?, p x = false

theorem head?_dropWhile_eq_false {x : α} (h : (xs.dropWhile p).head? = some x) : p x = false := by
  have hnot := List.head?_dropWhile_not p xs
  rw [h] at hnot
  simpa using hnot

theorem between_dropWhile (p : α → Bool) (xs : List α) :
    Between p xs (((xs.reverse.dropWhile p).reverse).dropWhile p) := by
  generalize hkept : (xs.reverse.dropWhile p).reverse = kept
  have hafter : xs = kept ++ (xs.reverse.takeWhile p).reverse := by
    rw [← hkept, ← List.reverse_append, List.takeWhile_append_dropWhile, List.reverse_reverse]
  refine ⟨⟨kept.takeWhile p, (xs.reverse.takeWhile p).reverse, ?_, ?_, ?_⟩, ?_, ?_⟩
  · rw [List.takeWhile_append_dropWhile]
    exact hafter
  · exact fun x hx => List.mem_takeWhile_imp hx
  · exact fun x hx => List.mem_takeWhile_imp (List.mem_reverse.1 hx)
  · exact fun x hx => head?_dropWhile_eq_false hx
  · intro x hx
    -- What is kept ends as it did before its start was dropped.
    obtain ⟨init, hinit⟩ := List.getLast?_eq_some_iff.1 hx
    have hlast : kept.getLast? = some x := by
      rw [← List.takeWhile_append_dropWhile (p := p) (l := kept), hinit, ← List.append_assoc,
        List.getLast?_concat]
    rw [← hkept, List.getLast?_reverse] at hlast
    exact head?_dropWhile_eq_false hlast

/-- What has nothing to leave out at its ends is kept whole. -/
theorem dropWhile_ends_eq_self (first : ∀ x ∈ xs.head?, p x = false)
    (last : ∀ x ∈ xs.getLast?, p x = false) :
    ((xs.reverse.dropWhile p).reverse).dropWhile p = xs := by
  have hkeeps (ys : List α) (h : ∀ x ∈ ys.head?, p x = false) : ys.dropWhile p = ys := by
    cases ys with
    | nil => rfl
    | cons y ys => rw [List.dropWhile_cons_of_neg (by simp [h y rfl])]
  rw [hkeeps xs.reverse (by simpa using last), List.reverse_reverse, hkeeps xs first]

/-! ### White space -/

section Blank
variable {cs gap : List Char}

theorem isBlank_append : isBlank (cs ++ gap) = (isBlank cs && isBlank gap) := List.all_append

theorem trimEnd_isPrefix (cs : List Char) : trimEnd cs <+: cs := by
  rw [← List.reverse_suffix, trimEnd, List.reverse_reverse]
  exact List.dropWhile_suffix _

/-- What is trimmed from the end is white space. -/
theorem exists_eq_trimEnd_append (cs : List Char) : ∃ gap, cs = trimEnd cs ++ gap ∧ isBlank gap := by
  refine ⟨(cs.reverse.takeWhile isSpace).reverse, ?_, ?_⟩
  · rw [trimEnd, ← List.reverse_append, List.takeWhile_append_dropWhile, List.reverse_reverse]
  · exact List.all_eq_true.2 fun c hc => List.mem_takeWhile_imp (List.mem_reverse.1 hc)

theorem trim_of_isBlank (h : isBlank cs = true) : trim cs = [] := by
  have hnil : cs.dropWhile isSpace = [] := List.dropWhile_eq_nil_iff.2 (List.all_eq_true.1 h)
  rw [trim, trimStart, hnil]
  rfl

theorem trim_isBlank_append (h : isBlank gap = true) (cs : List Char) :
    trim (gap ++ cs) = trim cs := by
  rw [trim, trim, trimStart, trimStart, List.dropWhile_append_of_pos (List.all_eq_true.1 h)]

theorem trim_append_of_isBlank (cs : List Char) (h : isBlank gap = true) :
    trim (cs ++ gap) = trim cs := by
  unfold trim trimStart
  rw [List.dropWhile_append]
  split
  · rename_i hnil
    rw [List.isEmpty_iff.1 hnil, List.dropWhile_eq_nil_iff.2 (List.all_eq_true.1 h)]
  · exact trimEnd_append_of_isBlank _ h

end Blank

end AnnotatedHeader.Text
