import AnnotatedHeader.Proofs.Text.Lines
import AnnotatedHeader.Proofs.Token.Cut

/-! Where tokens stand.

A token's line counts the line feeds in front of it, and the token holds none itself. So it is
part of one line of its code, the one that its number counts to
(`Token.exists_line_of_mem_tokenize`). -/
namespace AnnotatedHeader

/-- A run without the separator lies between two of them, as many runs behind the first as there
are separators in front of it. -/
theorem Text.exists_run_of_append {separator : Char} {w : List Char} (hw : separator ∉ w)
    (before after : List Char) :
    ∃ run, (splitOn separator (before ++ w ++ after))[before.count separator]? = some run ∧
      w <:+: run := by
  induction before with
  | nil =>
    rw [List.nil_append, splitOn_append_of_not_mem hw]
    exact ⟨_, rfl, (List.prefix_append ..).isInfix⟩
  | cons c before ih =>
    obtain ⟨run, hrun, hinfix⟩ := ih
    rw [List.cons_append, List.cons_append]
    by_cases hc : c = separator
    · subst hc
      rw [splitOn_separator, List.count_cons_self, List.getElem?_cons_succ]
      exact ⟨run, hrun, hinfix⟩
    · rw [splitOn_cons hc, List.count_cons_of_ne hc]
      obtain ⟨first, runs, hruns⟩ :=
        List.exists_cons_of_ne_nil (splitOn_ne_nil separator (before ++ w ++ after))
      rw [hruns] at hrun ⊢
      cases hcount : before.count separator with
      | zero =>
        rw [hcount] at hrun
        cases hrun
        exact ⟨c :: run, rfl, hinfix.trans (List.suffix_cons ..).isInfix⟩
      | succ n =>
        rw [hcount] at hrun
        exact ⟨run, hrun, hinfix⟩

theorem Lexeme.exists_of_mem_tokens {line : Nat} {ls : List Lexeme} {t : Token}
    (h : t ∈ tokens line ls) :
    ∃ before l after, ls = before ++ l :: after ∧ t.text = .ofList l.text ∧
      t.line = line + (before.map newlines).sum := by
  induction ls generalizing line with
  | nil => cases h
  | cons l ls ih =>
    rw [tokens] at h
    have hmore (h : t ∈ tokens (line + l.newlines) ls) :
        ∃ before l' after, l :: ls = before ++ l' :: after ∧ t.text = .ofList l'.text ∧
          t.line = line + (before.map newlines).sum := by
      obtain ⟨before, l', after, rfl, htext, hline⟩ := ih h
      refine ⟨l :: before, l', after, rfl, htext, ?_⟩
      rw [hline, List.map_cons, List.sum_cons, Nat.add_assoc]
    split at h
    · rcases List.mem_cons.1 h with rfl | h
      · exact ⟨[], l, ls, rfl, rfl, rfl⟩
      · exact hmore h
    · exact hmore h

namespace Token

theorem exists_append_of_mem_tokenize {source : String} {first : Nat} {t : Token}
    (h : t ∈ tokenize source first) :
    ∃ before after, source.toList = before ++ t.text.toList ++ after ∧
      t.line = first + before.count '\n' := by
  obtain ⟨before, l, after, hscan, htext, hline⟩ := Lexeme.exists_of_mem_tokens h
  refine ⟨before.flatMap Lexeme.text, after.flatMap Lexeme.text, ?_, ?_⟩
  · rw [htext, String.toList_ofList, ← Lexeme.flatMap_text_scan source.toList, hscan,
      List.flatMap_append, List.flatMap_cons, List.append_assoc]
  · rw [hline, List.count_flatMap]
    rfl

/-- **A token is part of the line that its number counts to.** -/
theorem exists_line_of_mem_tokenize {ls : List String} (hls : ∀ l ∈ ls, '\n' ∉ l.toList)
    {first : Nat} {t : Token} (h : t ∈ tokenize (Text.joinLines ls) first) :
    ∃ k l, ls[k]? = some l ∧ t.line = first + k ∧ t.text.toList <:+: l.toList := by
  have hcut := isCut_of_mem_tokenize t h
  obtain ⟨before, after, htext, hline⟩ := exists_append_of_mem_tokenize h
  have hne : ls ≠ [] := by
    rintro rfl
    have hnil : before ++ t.text.toList ++ after = [] := htext.symm
    simp only [List.append_eq_nil_iff] at hnil
    exact hcut.nonempty hnil.1.2
  obtain ⟨run, hrun, hinfix⟩ := Text.exists_run_of_append hcut.unbroken before after
  have hlines := Text.separated_joinLines hne hls
  unfold Text.separated at hlines
  refine ⟨before.count '\n', .ofList run, ?_, hline, by rwa [String.toList_ofList]⟩
  rw [← hlines, htext, List.getElem?_map, hrun]
  rfl

end Token

end AnnotatedHeader
