import AnnotatedHeader.Proofs.Numbering.Relative
import AnnotatedHeader.Proofs.Token.LongestMatch
import AnnotatedHeader.Proofs.Token.Places

/-! Code is cut into tokens line by line.

What a line feed ends is cut into the lexemes that it is cut into with more code behind it, but for
the last one: a gap and a block comment go on (`Lexeme.first_cut`), and so does a preprocessor line
with a backslash at its end. A gap is no token on either side, so code without the other two has
its own tokens in front of those of what follows (`Token.tokenize_append_newline`). A comment left
open only takes tokens away from what follows (`Lexeme.exists_tokens_append`). -/
namespace AnnotatedHeader.Lexeme

open Text

variable {c : Char} {cs : List Char}

/-! ### Runs that a line feed ends -/

theorem takeWhile_cut {p : Char → Bool} (hp : p '\n' = false) (cs ds : List Char) :
    (cs ++ '\n' :: ds).takeWhile p = cs.takeWhile p := by
  induction cs with
  | nil => rw [List.nil_append, List.takeWhile_cons_of_neg (by simp [hp]), List.takeWhile_nil]
  | cons c cs ih => rw [List.cons_append, List.takeWhile_cons, List.takeWhile_cons, ih]

theorem dropWhile_cut {p : Char → Bool} (hp : p '\n' = false) (cs ds : List Char) :
    (cs ++ '\n' :: ds).dropWhile p = cs.dropWhile p ++ '\n' :: ds := by
  induction cs with
  | nil => rw [List.nil_append, List.dropWhile_cons_of_neg (by simp [hp]), List.dropWhile_nil,
      List.nil_append]
  | cons c cs ih =>
    rw [List.cons_append, List.dropWhile_cons, List.dropWhile_cons, ih]
    split <;> rfl

theorem literalBody_cut (quote : Char) (cs ds : List Char) :
    literalBody quote (cs ++ '\n' :: ds) = literalBody quote cs := by
  fun_induction literalBody quote cs with
  | case1 => simp [literalBody]
  | case2 c cs hc ih => simp [literalBody, hc, ih]
  | case3 c cs hescape hends =>
    cases cs with
    | nil =>
      rw [List.cons_append, List.nil_append]
      by_cases hc : c = '\\'
      · simp [hc, literalBody]
      · rw [literalBody.eq_2 _ _ _ (by simpa using hc), if_pos hends]
    | cons d cs =>
      have hc : c ≠ '\\' := fun hc => hescape d cs hc rfl
      rw [List.cons_append, List.cons_append, literalBody.eq_2 _ _ _ (by simpa using hc),
        if_pos hends]
  | case4 c cs hescape hgoes ih =>
    rw [List.cons_append, literalBody.eq_2 _ _ _ (by simp_all), if_neg hgoes, ih]
  | case5 => simp [literalBody]

theorem literal_cut {kind : TokenKind} {lead : List Char} {quote : Char} (hquote : quote ≠ '\n')
    (cs ds : List Char) :
    literal kind lead quote (cs ++ '\n' :: ds) = literal kind lead quote cs := by
  obtain ⟨rest, hrest⟩ := literalBody_isPrefix quote cs
  unfold literal
  rw [literalBody_cut]
  generalize literalBody quote cs = body at hrest ⊢
  subst hrest
  have hnewline : ('\n' == quote) = false := by simpa using hquote.symm
  dsimp only
  rw [List.append_assoc, List.drop_left, List.drop_left]
  cases rest with
  | nil => simp [hnewline]
  | cons d rest => rfl

theorem getLast?_cons_of_eq_some {d : Char} (c : Char) (h : cs.getLast? = some d) :
    (c :: cs).getLast? = some d := by
  obtain ⟨init, rfl⟩ := List.getLast?_eq_some_iff.1 h
  rw [← List.cons_append, List.getLast?_concat]

theorem preprocessorBody_cut (ends : cs.getLast? ≠ some '\\') (ds : List Char) :
    preprocessorBody (cs ++ '\n' :: ds) = preprocessorBody cs := by
  fun_induction preprocessorBody cs with
  | case1 c cs ih =>
    have hends := fun h => ends (getLast?_cons_of_eq_some '\\' (getLast?_cons_of_eq_some c h))
    rw [List.cons_append, List.cons_append, preprocessorBody, ih hends]
  | case2 c cs hescape hstops =>
    have hc : c ≠ '\\' := by
      rintro rfl
      cases cs with
      | nil => exact ends rfl
      | cons d cs => exact hescape d cs rfl rfl
    rw [List.cons_append, preprocessorBody.eq_2 _ _ (fun _ _ h => absurd h hc), if_pos hstops]
  | case3 c cs hescape hgoes ih =>
    have hends := fun h => ends (getLast?_cons_of_eq_some c h)
    have hc : c ≠ '\\' := by
      rintro rfl
      exact hgoes rfl
    rw [List.cons_append, preprocessorBody.eq_2 _ _ (fun _ _ h => absurd h hc), if_neg hgoes,
      ih hends]
  | case4 => simp [preprocessorBody]

theorem commentBody?_append {body : List Char} (h : commentBody? cs = some body)
    (ds : List Char) : commentBody? (cs ++ ds) = some body := by
  obtain ⟨init, rest, rfl, hfirst, rfl⟩ := commentBody?_eq_some_iff.1 h
  exact commentBody?_eq_some_iff.2 ⟨init, rest ++ ds, by simp, hfirst, rfl⟩

/-- A comment that goes on behind the line feed ends behind it. -/
theorem isPrefix_of_commentBody?_cut {body : List Char} (h : commentBody? cs = none)
    (ds : List Char) (h' : commentBody? (cs ++ '\n' :: ds) = some body) : cs ++ ['\n'] <+: body := by
  obtain ⟨init, rest, hcs, -, rfl⟩ := commentBody?_eq_some_iff.1 h'
  have hline : cs ++ ['\n'] <+: cs ++ '\n' :: ds := ⟨ds, by simp⟩
  have hbody : init ++ ['*', '/'] <+: cs ++ '\n' :: ds := ⟨rest, by simp [hcs]⟩
  refine (List.prefix_or_prefix_of_prefix hline hbody).resolve_right fun hinside => ?_
  rcases List.prefix_concat_iff.1 hinside with heq | hinside
  · exact absurd (congrArg List.getLast? heq) (by simp)
  · exact commentBody?_eq_none_iff.1 h ((List.suffix_append ..).isInfix.trans hinside.isInfix)

theorem isPrefixOf_cut {w : List Char} (unbroken : '\n' ∉ w) (cs ds : List Char) :
    w.isPrefixOf (cs ++ '\n' :: ds) = w.isPrefixOf cs := by
  induction w generalizing cs with
  | nil => simp
  | cons d w ih =>
    rw [List.mem_cons, not_or] at unbroken
    obtain ⟨hd, hw⟩ := unbroken
    cases cs with
    | nil => simp [List.isPrefixOf, Ne.symm hd]
    | cons c cs => simp only [List.cons_append, List.isPrefixOf, ih hw]

theorem find?_signs_cut (cs ds : List Char) :
    (signs.find? fun (sign, _) => sign.toList.isPrefixOf (cs ++ '\n' :: ds)) =
      signs.find? fun (sign, _) => sign.toList.isPrefixOf cs :=
  List.find?_congr fun s hs => isPrefixOf_cut (signs_cut s hs).2.1 cs ds

/-! ### The line's lexemes -/

/-- A lexeme that starts in front of a line feed is the same without what follows that, or it is a
gap or a block comment that goes on. -/
inductive FirstCut (c : Char) (cs ds : List Char) : Prop where
  | same (eq : first c (cs ++ '\n' :: ds) = first c cs)
  | gap (blank : ∀ d ∈ c :: cs, isGap d = true)
  | comment (alone : first c cs = ⟨.openComment, c :: cs⟩)
      (whole : (first c (cs ++ '\n' :: ds)).tokenKind? = none)
      (broken : c :: cs ++ ['\n'] <+: (first c (cs ++ '\n' :: ds)).text)

theorem gap_cut (blank : isGap c = true) (cs ds : List Char) : FirstCut c cs ds := by
  by_cases hall : ∀ d ∈ cs, isGap d = true
  · exact .gap (List.forall_mem_cons.2 ⟨blank, hall⟩)
  · refine .same ?_
    rw [first_gap blank, first_gap blank, List.takeWhile_append, if_neg]
    intro hlength
    exact hall (List.takeWhile_eq_self_iff.1 ((List.takeWhile_prefix _).eq_of_length hlength))

theorem word_cut (start : isIdentStart c = true) (cs ds : List Char) :
    first c (cs ++ '\n' :: ds) = first c cs := by
  have hrest : isIdentRest '\n' = false := by decide
  rw [first_word start, first_word start, takeWhile_cut hrest, dropWhile_cut hrest]
  unfold wordLexeme
  cases cs.dropWhile isIdentRest with
  | nil => simp
  | cons d rest =>
    rw [List.cons_append, List.head?_cons, List.head?_cons, List.tail_cons, List.tail_cons,
      literal_cut (by decide)]

theorem sign_cut (hsign : startsSign c = true) (hfree : NoComment (c :: cs)) (ds : List Char) :
    first c (cs ++ '\n' :: ds) = first c cs := by
  have hfree' : NoComment (c :: (cs ++ '\n' :: ds)) := by
    intro hc d hd
    cases cs with
    | nil =>
      cases hd
      decide
    | cons d' cs => exact hfree hc d hd
  rw [first_of_startsSign hsign hfree, first_of_startsSign hsign hfree', ← List.cons_append,
    find?_signs_cut]

/-- A block comment that is not closed on the line is closed behind it or not at all. -/
theorem blockComment_cut (cs ds : List Char) : FirstCut '/' ('*' :: cs) ds := by
  cases halone : commentBody? cs with
  | some body =>
    refine .same ?_
    rw [List.cons_append, first_blockComment halone,
      first_blockComment (commentBody?_append halone _)]
  | none =>
    cases hwhole : commentBody? (cs ++ '\n' :: ds) with
    | some body =>
      have hbroken := isPrefix_of_commentBody?_cut halone ds hwhole
      have hfirst : first '/' ('*' :: cs ++ '\n' :: ds) = _ := first_blockComment hwhole
      refine .comment (first_openComment halone) ?_ ?_ <;> rw [hfirst]
      · rfl
      · exact (List.prefix_cons_inj _).2 ((List.prefix_cons_inj _).2 hbroken)
    | none =>
      have hfirst : first '/' ('*' :: cs ++ '\n' :: ds) = _ := first_openComment hwhole
      refine .comment (first_openComment halone) ?_ ?_ <;> rw [hfirst]
      · rfl
      · exact ⟨ds, by simp⟩

theorem first_cut (ends : c = '#' → cs.getLast? ≠ some '\\') (ds : List Char) :
    FirstCut c cs ds := by
  have hbranch := branch_first c cs
  generalize first c cs = l at hbranch
  cases hbranch with
  | gap blank => exact gap_cut blank cs ds
  | word start => exact .same (word_cut start cs ds)
  | number start =>
    refine .same ?_
    rw [first_number start, first_number start, takeWhile_cut (by decide)]
  | string is | char is =>
    subst is
    exact .same (literal_cut (by decide) ..)
  | preprocessor is =>
    subst is
    have hfirst (cs : List Char) :
        first '#' cs = ⟨.token .preprocessor, '#' :: preprocessorBody cs⟩ := rfl
    refine .same ?_
    rw [hfirst, hfirst, preprocessorBody_cut (ends rfl)]
  | lineComment is next =>
    subst is next
    have hfirst (cs : List Char) : first '/' ('/' :: cs) =
        ⟨.token .lineComment, '/' :: '/' :: cs.takeWhile (· != '\n')⟩ := rfl
    refine .same ?_
    rw [List.cons_append, hfirst, hfirst, takeWhile_cut (by decide)]
  | blockComment is next | openComment is next =>
    subst is next
    exact blockComment_cut _ ds
  | sign start free | stray start free => exact .same (sign_cut start free ds)

/-! ### The line's tokens -/

theorem le_line_of_mem_tokens {line : Nat} {ls : List Lexeme} {t : Token} (h : t ∈ tokens line ls) :
    line ≤ t.line := by
  obtain ⟨before, -, -, -, -, hline⟩ := exists_of_mem_tokens h
  rw [hline]
  exact Nat.le_add_right ..

/-- Behind a line feed come the tokens of later lines, and those of the code there if no comment
is open. -/
theorem exists_tokens_append (ends : '#' ∈ cs → cs.getLast? ≠ some '\\') (line : Nat)
    (ds : List Char) :
    ∃ later, tokens line (scan (cs ++ '\n' :: ds)) = tokens line (scan cs) ++ later ∧
      (∀ t ∈ later, line + cs.count '\n' < t.line) ∧
      ((∀ l ∈ scan cs, l.kind ≠ .openComment) →
        later = tokens (line + cs.count '\n' + 1) (scan ds)) := by
  -- A lexeme can be longer than one character, so the induction is on length.
  induction hn : cs.length using Nat.strongRecOn generalizing cs line with
  | ind n ih =>
    subst hn
    have hnext (cs : List Char) (h : ∀ c ∈ cs, isGap c = true) :
        tokens line (scan (cs ++ '\n' :: ds)) = tokens line (scan cs) ++
          tokens (line + cs.count '\n' + 1) (scan ds) := by
      have hnone := tokens_scan_append_of_isGap h line []
      rw [List.append_nil] at hnone
      rw [tokens_scan_append_of_isGap h, tokens_scan_newline, hnone]
      simp [scan, tokens]
    cases cs with
    | nil => exact ⟨_, hnext [] (by simp), fun t ht => le_line_of_mem_tokens ht, fun _ => rfl⟩
    | cons c cs =>
      have hends : c = '#' → cs.getLast? ≠ some '\\' := by
        rintro rfl h
        exact ends List.mem_cons_self (getLast?_cons_of_eq_some _ h)
      cases first_cut hends ds with
      | gap blank => exact ⟨_, hnext _ blank, fun t ht => le_line_of_mem_tokens ht, fun _ => rfl⟩
      | same eq =>
        obtain ⟨rest, hrest⟩ := first_isPrefix c cs
        have hne := List.length_pos_iff.2 (first_ne_nil c cs)
        rw [List.cons_append, scan, scan, eq]
        generalize first c cs = l at hrest hne ⊢
        rw [← List.cons_append, ← hrest, List.append_assoc, List.drop_left, List.drop_left]
        rw [← hrest] at ends ih
        obtain ⟨later, hlater, hlines, hclosed⟩ := ih rest.length
          (by rw [List.length_append]; omega)
          (fun h hlast => ends (List.mem_append_right _ h) (by
            rw [List.getLast?_append, hlast]
            rfl)) (line + l.newlines) rfl
        have hcount : line + (l.text ++ rest).count '\n' = line + l.newlines + rest.count '\n' := by
          rw [List.count_append, Nat.add_assoc]
          rfl
        refine ⟨later, ?_, hcount ▸ hlines, fun h => ?_⟩
        · rw [tokens, tokens, hlater]
          split <;> rfl
        · rw [hcount]
          exact hclosed fun l' hl' => h l' (List.mem_cons_of_mem _ hl')
      | comment alone whole broken =>
        have hnone : tokens line (scan (c :: cs)) = [] := by
          rw [scan, alone, List.drop_length]
          simp [scan, tokens, tokenKind?]
        have hcount : (c :: cs).count '\n' + 1 ≤ (first c (cs ++ '\n' :: ds)).newlines := by
          have hle := broken.sublist.count_le '\n'
          rwa [List.count_append, List.count_singleton_self] at hle
        rw [hnone, List.cons_append, scan, tokens, whole]
        refine ⟨_, (List.nil_append _).symm, fun t ht => ?_, fun h => ?_⟩
        · have hline := le_line_of_mem_tokens ht
          omega
        · rw [scan] at h
          exact absurd (congrArg kind alone) (h _ List.mem_cons_self)

end AnnotatedHeader.Lexeme

namespace AnnotatedHeader.Token

/-- **Code is cut into tokens line by line.** Where no comment is open and no backslash stands in
front of a line feed, the tokens are those of the code before it, and those of the code behind it
with its lines counted on. -/
theorem tokenize_append_newline {a : String}
    (closed : ∀ l ∈ Lexeme.scan a.toList, l.kind ≠ .openComment)
    (ends : a.toList.getLast? ≠ some '\\') (b : String) (line : Nat) :
    tokenize (a ++ "\n" ++ b) line =
      tokenize a line ++ tokenize b (line + 1 + a.toList.count '\n') := by
  obtain ⟨later, htokens, -, hlater⟩ :=
    Lexeme.exists_tokens_append (fun _ => ends) line b.toList
  have htext : (a ++ "\n" ++ b).toList = a.toList ++ '\n' :: b.toList := by simp
  unfold tokenize
  rw [htext, htokens, hlater closed, Nat.add_right_comm]

/-- Behind a preprocessor line and a comment of two lines each, an encoding is a word: the string
that it could belong to is on the next line. -/
theorem tokenize_append_newline_word :
    (∀ l ∈ Lexeme.scan "#define A \\\nB\n/* c\n */ u8".toList, l.kind ≠ .openComment) ∧
      "#define A \\\nB\n/* c\n */ u8".toList.getLast? ≠ some '\\' ∧
      tokenize ("#define A \\\nB\n/* c\n */ u8" ++ "\n" ++ "\"s\" 'x") 1 =
        [⟨.ident, "u8", 4⟩, ⟨.string, "\"s\"", 5⟩, ⟨.op, "'x", 5⟩] := by
  have hscan : Lexeme.scan "#define A \\\nB\n/* c\n */ u8".toList =
      [⟨.token .preprocessor, "#define A \\\nB".toList⟩, ⟨.gap, ['\n']⟩,
        ⟨.token .blockComment, "/* c\n */".toList⟩, ⟨.gap, [' ']⟩, ⟨.token .ident, "u8".toList⟩] := by
    cbv
  have closed : ∀ l ∈ Lexeme.scan "#define A \\\nB\n/* c\n */ u8".toList, l.kind ≠ .openComment := by
    rw [hscan]
    decide
  have ends : "#define A \\\nB\n/* c\n */ u8".toList.getLast? ≠ some '\\' := by decide
  have hword : tokenize "#define A \\\nB\n/* c\n */ u8" 1 = [⟨.ident, "u8", 4⟩] := by cbv
  have hstring : tokenize "\"s\" 'x" 5 = [⟨.string, "\"s\"", 5⟩, ⟨.op, "'x", 5⟩] := by cbv
  have hcount : "#define A \\\nB\n/* c\n */ u8".toList.count '\n' = 3 := by decide
  refine ⟨closed, ends, ?_⟩
  rw [tokenize_append_newline closed ends, hword, hcount, hstring]
  rfl

end AnnotatedHeader.Token
