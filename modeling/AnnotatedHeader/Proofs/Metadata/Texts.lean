import AnnotatedHeader.Metadata.Parse
import AnnotatedHeader.Proofs.Token.Written

/-! Texts as they are printed.

A text stands bare or between quotes. What is bare is read as words, numbers and operators
(`bare_lexemes`). Between quotes only quotes are escaped, yet the reader takes each backslash
for an escape: a text that its quotes hold is read back if and only if there is none in it
(`unescaped_escaped_iff`). -/
namespace AnnotatedHeader.Metadata

open Lexeme Text

/-! ### Between quotes -/

/-- A text as it stands between its quotes. -/
def escaped (cs : List Char) : List Char := cs.flatMap fun c => if c = '"' then ['\\', '"'] else [c]

theorem unquoted_quotedText (cs : List Char) : unquoted (quotedText cs) = unescaped (escaped cs) := by
  have hcs : quotedText cs = '"' :: (escaped cs ++ ['"']) := rfl
  rw [unquoted, hcs, List.dropWhile_cons_of_neg (by simp)]
  simp

theorem escaped_cons {c : Char} (cs : List Char) (h : c ≠ '"') : escaped (c :: cs) = c :: escaped cs := by
  simp [escaped, h]

theorem escaped_quote (cs : List Char) : escaped ('"' :: cs) = '\\' :: '"' :: escaped cs := by
  simp [escaped]

theorem unescaped_cons {c : Char} (cs : List Char) (h : c ≠ '\\') :
    unescaped (c :: cs) = c :: unescaped cs := by
  rw [unescaped]
  · intro d ds hc
    exact absurd hc h
  · intro hc
    exact absurd hc h

theorem unescaped_escaped {cs : List Char} (h : '\\' ∉ cs) : unescaped (escaped cs) = cs := by
  induction cs with
  | nil => rfl
  | cons c cs ih =>
    rw [List.mem_cons, not_or] at h
    by_cases hquote : c = '"'
    · subst hquote
      rw [escaped_quote, unescaped, ih h.2]
    · rw [escaped_cons cs hquote, unescaped_cons _ (Ne.symm h.1), ih h.2]

theorem inside_of_backslash {quote c : Char} {cs : List Char} (h : Inside quote ('\\' :: c :: cs)) :
    Inside quote cs := by
  cases h with
  | escape _ rest => exact rest
  | char plain _ => exact absurd rfl plain.2.1

theorem inside_of_plain {quote c : Char} {cs : List Char} (h : Inside quote (c :: cs)) (hc : c ≠ '\\') :
    c ≠ quote ∧ Inside quote cs := by
  cases h with
  | escape _ _ => exact absurd rfl hc
  | char plain rest => exact ⟨plain.1, rest⟩

/-- Behind a backslash its quotes hold a text in which that backslash escapes something. -/
theorem exists_of_backslash {cs : List Char} (h : Inside '"' (escaped ('\\' :: cs))) :
    ∃ c ds, cs = c :: ds ∧ Inside '"' (escaped ds) ∧
      unescaped (escaped ('\\' :: cs)) = c :: unescaped (escaped ds) := by
  rw [escaped_cons cs (by decide)] at h ⊢
  cases cs with
  | nil => cases h with | char plain _ => exact absurd rfl plain.2.1
  | cons c ds =>
    by_cases hquote : c = '"'
    · subst hquote
      rw [escaped_quote] at h
      exact absurd rfl (inside_of_plain (inside_of_backslash h) (by decide)).1
    · rw [escaped_cons ds hquote] at h ⊢
      exact ⟨c, ds, rfl, inside_of_backslash h, by rw [unescaped]⟩

/-- The reader drops each backslash that escapes something. -/
theorem length_unescaped_escaped {cs : List Char} (h : Inside '"' (escaped cs)) :
    (unescaped (escaped cs)).length ≤ cs.length ∧
      ('\\' ∈ cs → (unescaped (escaped cs)).length < cs.length) := by
  induction hn : cs.length using Nat.strongRecOn generalizing cs with
  | ind n ih =>
    subst hn
    cases cs with
    | nil => exact ⟨Nat.le_refl _, by simp⟩
    | cons c cs =>
      by_cases hslash : c = '\\'
      · subst hslash
        obtain ⟨d, ds, rfl, hds, heq⟩ := exists_of_backslash h
        have hle := (ih _ (by simp only [List.length_cons]; omega) hds rfl).1
        simp only [heq, List.length_cons]
        omega
      · have hrest : Inside '"' (escaped cs) ∧
            unescaped (escaped (c :: cs)) = c :: unescaped (escaped cs) := by
          by_cases hquote : c = '"'
          · subst hquote
            rw [escaped_quote] at h ⊢
            exact ⟨inside_of_backslash h, by rw [unescaped]⟩
          · rw [escaped_cons cs hquote] at h ⊢
            exact ⟨(inside_of_plain h hslash).2, unescaped_cons _ hslash⟩
        obtain ⟨hle, hlt⟩ := ih _ (Nat.lt_succ_self _) hrest.1 rfl
        simp only [hrest.2, List.length_cons, List.mem_cons, Ne.symm hslash, false_or]
        exact ⟨Nat.succ_le_succ hle, fun hmem => Nat.succ_lt_succ (hlt hmem)⟩

/-- Quotes hold a text of one line in which there is no backslash. -/
theorem inside_escaped {cs : List Char} (h : ∀ c ∈ cs, c ≠ '\\' ∧ c ≠ '\n') :
    Inside '"' (escaped cs) := by
  induction cs with
  | nil => exact .nil
  | cons c cs ih =>
    obtain ⟨⟨hslash, hline⟩, hcs⟩ := List.forall_mem_cons.1 h
    by_cases hquote : c = '"'
    · subst hquote
      rw [escaped_quote]
      exact .escape hline (ih hcs)
    · rw [escaped_cons cs hquote]
      exact .char ⟨hquote, hslash, hline⟩ (ih hcs)

theorem unescaped_escaped_iff {cs : List Char} (h : Inside '"' (escaped cs)) :
    unescaped (escaped cs) = cs ↔ '\\' ∉ cs := by
  refine ⟨fun heq hmem => ?_, unescaped_escaped⟩
  have := (length_unescaped_escaped h).2 hmem
  rw [heq] at this
  omega

/-! ### Without quotes -/

def isBare (c : Char) : Bool := c.isAlpha || c.isDigit || c == '_' || c == '.' || c == '-'

theorem op_of_bare_sign : ∀ s ∈ signs, s.1.toList.all isBare = true → s.2 = .op := by
  decide

theorem isBareText_iff {cs : List Char} : isBareText cs = true ↔ cs ≠ [] ∧ ∀ c ∈ cs, isBare c = true := by
  unfold isBareText
  rw [Bool.and_eq_true, Bool.not_eq_true', List.isEmpty_eq_false_iff, List.all_eq_true]
  rfl

theorem isBare_of_literal {kind : TokenKind} {lead cs : List Char} {quote : Char}
    (h : ∀ d ∈ (literal kind lead quote cs).text, isBare d = true) : isBare quote = true := by
  refine h quote ?_
  unfold literal
  dsimp only
  split <;> simp

theorem kind_wordLexeme {word rest : List Char}
    (h : ∀ d ∈ (wordLexeme word rest).text, isBare d = true) :
    (wordLexeme word rest).kind = .token .ident := by
  unfold wordLexeme at h ⊢
  split at h
  · exact absurd (isBare_of_literal h) (by decide)
  · rename_i hword
    rw [if_neg hword]

/-- A lexeme without a quote, a slash and a blank is a word, a number or an operator. -/
theorem kind_of_bare {c : Char} {cs : List Char} (h : ∀ d ∈ (first c cs).text, isBare d = true) :
    ∃ k, (first c cs).kind = .token k ∧ (k = .ident ∨ k = .number ∨ k = .op) := by
  have hc : isBare c = true := by
    obtain ⟨rest, hrest⟩ := first_isPrefix c cs
    cases htext : (first c cs).text with
    | nil => exact absurd htext (first_ne_nil c cs)
    | cons d ds =>
      rw [htext] at hrest
      cases hrest
      exact h _ (htext ▸ List.mem_cons_self ..)
  have hword : isIdentStart c = true → (first c cs).kind = .token .ident := fun hstart => by
    have hfirst : first c cs = wordLexeme (c :: cs.takeWhile isIdentRest) (cs.dropWhile isIdentRest) :=
      Option.some.inj (first?_word hstart (List.forall_mem_nil _))
    rw [hfirst] at h ⊢
    exact kind_wordLexeme h
  have hnumber : c.isDigit = true → (first c cs).kind = .token .number := fun hstart => by
    have hfirst : first c cs = ⟨.token .number, [c] ++ cs.takeWhile isNumberRest⟩ :=
      Option.some.inj (first?_number hstart (List.forall_mem_nil _))
    rw [hfirst]
  have hsign : c = '.' ∨ c = '-' → (first c cs).kind = .token .op := fun hc => by
    obtain ⟨s, hs, hsc, hslash⟩ : ∃ s ∈ signs, s.1.toList = [c] ∧ c ≠ '/' := by
      rcases hc with rfl | rfl
      · exact ⟨(".", .op), by decide, rfl, by decide⟩
      · exact ⟨("-", .op), by decide, rfl, by decide⟩
    have hstarts : s.1.toList <+: c :: cs := hsc ▸ ⟨cs, rfl⟩
    obtain ⟨s', hs', hfirst, -⟩ := first?_of_sign hs hstarts fun hhead =>
      absurd (Option.some.inj hhead) hslash
    have hfirst : first c cs = ⟨.token s'.2, s'.1.toList⟩ := Option.some.inj hfirst
    rw [hfirst] at h ⊢
    rw [op_of_bare_sign s' hs' (List.all_eq_true.2 h)]
  simp only [isBare, Bool.or_eq_true, beq_iff_eq] at hc
  rcases hc with (((hc | hc) | hc) | hc) | hc
  · exact ⟨_, hword (by simp [isIdentStart, hc]), .inl rfl⟩
  · exact ⟨_, hnumber hc, .inr (.inl rfl)⟩
  · exact ⟨_, hword (by simp [isIdentStart, hc]), .inl rfl⟩
  · exact ⟨_, hsign (.inl hc), .inr (.inr rfl)⟩
  · exact ⟨_, hsign (.inr hc), .inr (.inr rfl)⟩

/-- A text that is written without quotes is read as words, numbers and operators. -/
theorem bare_lexemes {cs : List Char} (h : isBareText cs = true) :
    ∀ l ∈ scan cs, ∃ k, l.kind = .token k ∧ (k = .ident ∨ k = .number ∨ k = .op) := by
  intro l hl
  obtain ⟨c, ds, rfl⟩ := exists_first_of_mem_scan hl
  refine kind_of_bare fun d hd => (isBareText_iff.1 h).2 d ?_
  rw [← flatMap_text_scan cs]
  exact List.mem_flatMap.2 ⟨_, hl, hd⟩

end AnnotatedHeader.Metadata
