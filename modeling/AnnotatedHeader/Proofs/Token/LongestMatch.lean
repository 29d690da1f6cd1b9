import AnnotatedHeader.Proofs.Token.Cut

/-! The longest match.

`Listed` is the table of patterns, and a text starts with the longest of its texts, the table's
order being of no account. Two things the table does not say: a block comment is listed by its
opening and goes on to its end, and a literal that nothing closes is an error as far as it goes,
even where its encoding alone is a word. `StartsWith` is this rule, and `first?_eq_some_iff` says
that it is the one by which code is cut into lexemes. -/
namespace AnnotatedHeader.Lexeme

open Text

variable {text w cs behind : List Char} {k : Kind} {quote : Char}

/-! ### The table -/

/-- What may stand behind the sign of a preprocessor line. -/
inductive Continued : List Char → Prop where
  | nil : Continued []
  | escape {c : Char} {cs : List Char} (rest : Continued cs) : Continued ('\\' :: c :: cs)
  | char {c : Char} {cs : List Char} (plain : c ≠ '\\' ∧ c ≠ '\n') (rest : Continued cs) :
      Continued (c :: cs)

/-- The texts of each kind, those of block comments by how they open. -/
inductive Listed : Kind → List Char → Prop where
  | gap {w : List Char} (nonempty : w ≠ []) (blank : ∀ c ∈ w, isGap c = true) : Listed .gap w
  | token {k : TokenKind} {w : List Char} (written : Written k w) : Listed (.token k) w
  | lineComment {cs : List Char} (unbroken : '\n' ∉ cs) :
      Listed (.token .lineComment) ('/' :: '/' :: cs)
  | preprocessor {cs : List Char} (inside : Continued cs) : Listed (.token .preprocessor) ('#' :: cs)
  | opening : Listed (.token .blockComment) ['/', '*']

/-- Of the listed texts that the text starts with, none is longer than `w`. -/
structure Longest (text : List Char) (k : Kind) (w : List Char) : Prop where
  listed : Listed k w
  starts : w <+: text
  longest : ∀ k' w', Listed k' w' → w' <+: text → w'.length ≤ w.length

/-! ### Literals that nothing closes -/

/-- What a literal of each kind starts with: an encoding or none, and its quote. -/
inductive Opens : TokenKind → List Char → Char → Prop where
  | string {lead : List Char} (leads : lead ∈ [] :: encodings) : Opens .string lead '"'
  | char : Opens .char [] '\x27'

/-- The text starts with a literal that is not closed behind `w`, where it can go no further. -/
inductive Unclosed : List Char → List Char → Prop where
  | intro {kind : TokenKind} {lead body rest : List Char} {quote : Char}
      (opens : Opens kind lead quote) (inside : Inside quote body) (unclosed : rest.head? ≠ some quote)
      (stops : ∀ more, Inside quote more → more <+: rest → more = []) :
      Unclosed (lead ++ quote :: (body ++ rest)) (lead ++ quote :: body)

/-! ### The rule -/

/-- What a text that is not empty starts with. -/
inductive StartsWith : List Char → Lexeme → Prop where
  | longest {text w : List Char} {k : Kind} (chosen : Longest text k w)
      (whole : k ≠ .token .blockComment) (closed : ∀ w', ¬ Unclosed text w') : StartsWith text ⟨k, w⟩
  /-- A block comment ends with the first `*/`. -/
  | blockComment {body rest : List Char}
      (opens : Longest ('/' :: '*' :: (body ++ '*' :: '/' :: rest)) (.token .blockComment) ['/', '*'])
      (first : ¬ ['*', '/'] <:+: body ++ ['*']) :
      StartsWith ('/' :: '*' :: (body ++ '*' :: '/' :: rest))
        ⟨.token .blockComment, '/' :: '*' :: (body ++ ['*', '/'])⟩
  /-- Without one it takes all that is left. -/
  | openComment {body : List Char}
      (opens : Longest ('/' :: '*' :: body) (.token .blockComment) ['/', '*'])
      (never : ¬ ['*', '/'] <:+: body) :
      StartsWith ('/' :: '*' :: body) ⟨.openComment, '/' :: '*' :: body⟩
  | unclosed {text w : List Char} (literal : Unclosed text w) : StartsWith text ⟨.stray, w⟩
  /-- Nothing is listed that starts with the character. -/
  | character {c : Char} {cs : List Char} (none : ∀ k w, Listed k w → ¬ w <+: c :: cs)
      (closed : ∀ w, ¬ Unclosed (c :: cs) w) : StartsWith (c :: cs) ⟨.stray, [c]⟩

/-! ### Ends of comments -/

theorem commentBody?_eq_some_iff :
    commentBody? cs = some w ↔ ∃ body rest, cs = body ++ '*' :: '/' :: rest ∧
      ¬ ['*', '/'] <:+: body ++ ['*'] ∧ w = body ++ ['*', '/'] := by
  fun_induction commentBody? cs generalizing w with
  | case1 cs =>
    constructor
    · rintro ⟨⟩
      exact ⟨[], cs, rfl, by decide, rfl⟩
    · rintro ⟨body, rest, hcs, hfirst, rfl⟩
      cases body with
      | nil => rfl
      | cons c body =>
        obtain ⟨rfl, hslash⟩ := List.cons_eq_cons.1 hcs
        cases body with
        | nil => cases hslash
        | cons d body =>
          obtain ⟨rfl, -⟩ := List.cons_eq_cons.1 hslash
          exact absurd ⟨[], body ++ ['*'], rfl⟩ hfirst
  | case2 c cs hopen ih =>
    rw [Option.map_eq_some_iff]
    constructor
    · rintro ⟨w, hw, rfl⟩
      obtain ⟨body, rest, rfl, hfirst, rfl⟩ := ih.1 hw
      refine ⟨c :: body, rest, rfl, fun hinfix => ?_, rfl⟩
      rcases List.infix_cons_iff.1 hinfix with hprefix | hinfix
      · obtain ⟨rfl, hslash⟩ := List.cons_prefix_cons.1 hprefix
        cases body with
        | nil => exact absurd hslash (by decide)
        | cons d body =>
          obtain ⟨rfl, -⟩ := List.cons_prefix_cons.1 hslash
          exact hopen _ rfl rfl
      · exact hfirst hinfix
    · rintro ⟨body, rest, hcs, hfirst, rfl⟩
      cases body with
      | nil =>
        cases hcs
        exact absurd rfl (hopen rest rfl)
      | cons d body =>
        cases hcs
        exact ⟨_, ih.2 ⟨body, rest, rfl, fun h => hfirst (List.infix_cons h), rfl⟩, rfl⟩
  | case3 => simp

theorem commentBody?_eq_none_iff : commentBody? cs = none ↔ ¬ ['*', '/'] <:+: cs := by
  fun_induction commentBody? cs with
  | case1 cs => simpa using ⟨[], cs, rfl⟩
  | case2 c cs hopen ih =>
    rw [Option.map_eq_none_iff, ih, List.infix_cons_iff, not_or]
    refine (and_iff_right fun hprefix => ?_).symm
    obtain ⟨rfl, rest, rfl⟩ := List.cons_prefix_cons.1 hprefix
    exact hopen rest rfl rfl
  | case3 => simp

/-! ### Insides -/

theorem Inside.literalBody_append_eq (h : Inside quote w) (behind : List Char) :
    literalBody quote (w ++ behind) = w ++ literalBody quote behind := by
  induction h with
  | nil => rfl
  | escape same _ ih => rw [List.cons_append, List.cons_append, literalBody, if_neg same, ih]; rfl
  | char plain _ ih =>
    rw [List.cons_append, literalBody.eq_2 _ _ _ (fun _ _ hc => absurd hc plain.2.1),
      if_neg (by simpa [and_assoc] using plain), ih]
    rfl

theorem Continued.preprocessorBody_append (h : Continued w) (behind : List Char) :
    preprocessorBody (w ++ behind) = w ++ preprocessorBody behind := by
  induction h with
  | nil => rfl
  | escape _ ih => rw [List.cons_append, List.cons_append, preprocessorBody, ih]; rfl
  | char plain _ ih =>
    rw [List.cons_append, preprocessorBody.eq_2 _ _ (fun _ _ hc => absurd hc plain.1),
      if_neg (by simpa using plain), ih]
    rfl

theorem continued_preprocessorBody (cs : List Char) : Continued (preprocessorBody cs) := by
  fun_induction preprocessorBody cs with
  | case1 c cs ih => exact .escape ih
  | case2 => exact .nil
  | case3 c cs _ hc ih => exact .char (by simpa using hc) ih
  | case4 => exact .nil

/-! ### What is listed -/

theorem Listed.ne_nil (h : Listed k w) : w ≠ [] := by
  cases h with
  | gap nonempty _ => exact nonempty
  | token written =>
    obtain ⟨c, cs, rfl, -⟩ := written.exists_cons
    exact List.cons_ne_nil c cs
  | lineComment | preprocessor | opening => exact List.cons_ne_nil _ _

theorem length_le_wordLexeme (word behind : List Char) :
    word.length ≤ (wordLexeme word behind).text.length := by
  unfold wordLexeme literal
  split
  · dsimp only
    split <;> simp
  · exact Nat.le_refl _

/-- No listed text that a text starts with is longer than its first lexeme. -/
theorem Listed.length_le_first (h : Listed k w) {l : Lexeme} (hl : first? (w ++ behind) = some l) :
    w.length ≤ l.text.length := by
  cases h with
  | @gap w nonempty blank =>
    obtain ⟨c, cs, rfl⟩ := List.exists_cons_of_ne_nil nonempty
    obtain ⟨hc, hcs⟩ := List.forall_mem_cons.1 blank
    rw [List.cons_append, first?, first_gap hc] at hl
    cases hl
    rw [List.takeWhile_append_of_pos hcs]
    simp
  | @lineComment cs unbroken =>
    have hline : ∀ d ∈ cs, (d != '\n') = true := by
      intro d hd
      rw [bne_iff_ne]
      rintro rfl
      exact unbroken hd
    have hfirst : first? ('/' :: '/' :: cs ++ behind) = some
      ⟨.token .lineComment, '/' :: '/' :: (cs ++ behind).takeWhile (· != '\n')⟩ := rfl
    rw [hfirst, List.takeWhile_append_of_pos hline] at hl
    cases hl
    simp
  | @preprocessor cs inside =>
    have hfirst : first? ('#' :: cs ++ behind) = some
      ⟨.token .preprocessor, '#' :: preprocessorBody (cs ++ behind)⟩ := rfl
    rw [hfirst, inside.preprocessorBody_append] at hl
    cases hl
    simp
  | opening =>
    have hfirst : first? (['/', '*'] ++ behind) = some (first '/' ('*' :: behind)) := rfl
    rw [hfirst, Option.some.injEq] at hl
    subst hl
    cases hbody : commentBody? behind with
    | some body => simp [first_blockComment hbody]
    | none => simp [first_openComment hbody]
  | token written =>
    cases written with
    | ident start rest =>
      rw [first?_word start rest] at hl
      cases hl
      exact Nat.le_trans (by simp) (length_le_wordLexeme _ _)
    | number start rest =>
      rw [first?_number start rest] at hl
      cases hl
      simp
    | string leads inside =>
      rw [first?_string leads inside] at hl
      cases hl
      exact Nat.le_refl _
    | char inside =>
      rw [first?_char inside] at hl
      cases hl
      exact Nat.le_refl _
    | @sign sign kind listed =>
      by_cases hslash : sign = "/"
      · -- A comment may start here, which is longer than its slash.
        subst hslash
        cases hl
        exact List.length_pos_iff.2 (first_ne_nil _ _)
      · have free := @noComment_of_sign behind _ _ listed fun h => absurd h hslash
        obtain ⟨s, -, hfirst, -, hlongest⟩ := first?_of_sign listed (List.prefix_append ..) free
        rw [hfirst] at hl
        cases hl
        exact hlongest _ listed (List.prefix_append ..)

/-! ### Unclosed literals -/

theorem Opens.first?_eq {kind : TokenKind} {lead : List Char} (h : Opens kind lead quote)
    (cs : List Char) : first? (lead ++ quote :: cs) = some (literal kind lead quote cs) := by
  cases h with
  | string leads =>
    simp only [encodings, List.mem_cons, List.not_mem_nil, or_false] at leads
    rcases leads with rfl | rfl | rfl | rfl | rfl <;> rfl
  | char => rfl

theorem Opens.written {kind : TokenKind} {lead body : List Char} (h : Opens kind lead quote)
    (inside : Inside quote body) : Written kind (lead ++ quote :: body ++ [quote]) := by
  cases h with
  | string leads => exact .string leads inside
  | char => exact .char inside

theorem Unclosed.first?_eq (h : Unclosed text w) : first? text = some ⟨.stray, w⟩ := by
  obtain ⟨opens, inside, unclosed, stops⟩ := h
  rename_i kind lead body rest quote
  have hrest := stops _ (inside_literalBody quote rest) (literalBody_isPrefix quote rest)
  rw [opens.first?_eq, literal]
  simp [inside.literalBody_append_eq, hrest, unclosed]

theorem Opens.unclosed {kind : TokenKind} {lead : List Char} (h : Opens kind lead quote)
    (hstray : literal kind lead quote cs = ⟨.stray, w⟩) : Unclosed (lead ++ quote :: cs) w := by
  have hinside := inside_literalBody quote cs
  obtain ⟨rest, hrest⟩ := literalBody_isPrefix quote cs
  have hbody := hinside.literalBody_append_eq rest
  rw [hrest, List.self_eq_append_right] at hbody
  unfold literal at hstray
  generalize literalBody quote cs = body at *
  subst hrest
  dsimp only at hstray
  rw [List.drop_left] at hstray
  split at hstray
  · cases hstray
  · rename_i hopen
    cases hstray
    refine .intro h hinside (by simpa using hopen) ?_
    rintro more hmore ⟨rest, rfl⟩
    rw [hmore.literalBody_append_eq, List.append_eq_nil_iff] at hbody
    exact hbody.1

/-! ### The first lexeme -/

theorem longest_of_first {c : Char} (hfirst : first c cs = ⟨k, w⟩) (listed : Listed k w) :
    Longest (c :: cs) k w where
  listed := listed
  starts := by
    have hprefix := first_isPrefix c cs
    rwa [hfirst] at hprefix
  longest := by
    rintro k' w' listed' ⟨rest, hrest⟩
    have hl : first? (w' ++ rest) = some ⟨k, w⟩ := by rw [hrest, first?, hfirst]
    exact listed'.length_le_first hl

theorem closed_of_first {c : Char} (hfirst : first c cs = ⟨k, w⟩) (hk : k ≠ .stray) :
    ∀ w', ¬ Unclosed (c :: cs) w' := by
  intro w' h
  have heq := h.first?_eq
  rw [first?, hfirst, Option.some.injEq, Lexeme.mk.injEq] at heq
  exact hk heq.1

theorem startsWith_of_listed {c : Char} (hfirst : first c cs = ⟨k, w⟩) (listed : Listed k w)
    (whole : k ≠ .token .blockComment) : StartsWith (c :: cs) ⟨k, w⟩ := by
  refine .longest (longest_of_first hfirst listed) whole (closed_of_first hfirst ?_)
  cases listed <;> simp

theorem longest_opening (cs : List Char) :
    Longest ('/' :: '*' :: cs) (.token .blockComment) ['/', '*'] where
  listed := .opening
  starts := List.prefix_append ['/', '*'] cs
  longest := by
    intro k w listed starts
    obtain ⟨c, ds, rfl⟩ := List.exists_cons_of_ne_nil listed.ne_nil
    obtain ⟨rfl, hds⟩ := List.cons_prefix_cons.1 starts
    cases listed with
    | gap _ blank => exact absurd (blank '/' List.mem_cons_self) (by decide)
    | token written =>
      rcases (written.cut.slash ds rfl).2 with rfl | rfl
      · exact Nat.le_succ 1
      · exact Nat.le_refl 2
    | lineComment => exact absurd (List.cons_prefix_cons.1 hds).1 (by decide)
    | opening => exact Nat.le_refl 2

theorem startsWith_literal {c : Char} {kind : TokenKind} {lead ds : List Char}
    (opens : Opens kind lead quote) (heq : c :: cs = lead ++ quote :: ds)
    (hfirst : first c cs = literal kind lead quote ds) :
    StartsWith (c :: cs) (literal kind lead quote ds) := by
  generalize hl : literal kind lead quote ds = l at hfirst
  obtain ⟨k, w⟩ := l
  cases k with
  | token k =>
    obtain ⟨rfl, body, inside, rfl⟩ := literal_eq_token hl
    have written := opens.written inside
    refine startsWith_of_listed hfirst (.token written) ?_
    rintro ⟨⟩
    cases written.isTrivia_eq_false
  | stray =>
    rw [heq]
    exact .unclosed (opens.unclosed hl)
  | gap | openComment =>
    unfold literal at hl
    dsimp only at hl
    split at hl <;> cases hl

theorem not_listed_of_startsSign {c : Char} (start : startsSign c = true)
    (none : ∀ s ∈ signs, s.1.toList ≠ [c]) (k : Kind) : ¬ Listed k [c] := by
  simp only [startsSign, Bool.and_eq_true, Bool.not_eq_true', bne_iff_ne, ne_eq] at start
  obtain ⟨⟨⟨⟨⟨hgap, hident⟩, hdigit⟩, -⟩, -⟩, hpre⟩ := start
  intro listed
  generalize hw : [c] = w at listed
  cases listed with
  | gap _ blank =>
    subst hw
    exact absurd (blank c (List.mem_singleton_self c)) (by simp [hgap])
  | token written =>
    cases written with
    | ident start =>
      cases hw
      exact absurd start (by simp [hident])
    | number start =>
      cases hw
      exact absurd start (by simp [hdigit])
    | string | char =>
      have hlength := congrArg List.length hw
      simp only [List.length_append, List.length_cons, List.length_nil] at hlength
      omega
    | sign listed => exact none _ listed hw.symm
  | lineComment | opening => cases hw
  | preprocessor =>
    cases hw
    exact hpre rfl

theorem Unclosed.eq_quote {c : Char} (h : Unclosed text [c]) : c = '"' ∨ c = '\x27' := by
  generalize hw : [c] = w at h
  cases h with
  | @intro kind lead body rest quote opens =>
    cases opens with
    | char =>
      cases hw
      exact .inr rfl
    | string =>
      cases lead with
      | nil =>
        cases hw
        exact .inl rfl
      | cons d lead => exact absurd (congrArg List.length hw) (by simp)

theorem startsWith_first (c : Char) (cs : List Char) : StartsWith (c :: cs) (first c cs) := by
  have hbranch := branch_first c cs
  generalize hfirst : first c cs = l at hbranch
  cases hbranch with
  | gap blank =>
    refine startsWith_of_listed hfirst (.gap (List.cons_ne_nil _ _) ?_) (by simp)
    exact List.forall_mem_cons.2 ⟨blank, fun d hd => List.mem_takeWhile_imp hd⟩
  | word start =>
    have hword : c :: cs = c :: cs.takeWhile isIdentRest ++ cs.dropWhile isIdentRest := by
      rw [List.cons_append, List.takeWhile_append_dropWhile]
    generalize cs.dropWhile isIdentRest = behind at hfirst hword ⊢
    unfold wordLexeme at hfirst ⊢
    split at hfirst
    · rename_i hstring
      rw [if_pos hstring]
      rw [Bool.and_eq_true, List.contains_iff_mem, beq_iff_eq] at hstring
      obtain ⟨rest, rfl⟩ := List.head?_eq_some_iff.1 hstring.2
      exact startsWith_literal (.string (List.mem_cons_of_mem _ hstring.1)) hword hfirst
    · rename_i hplain
      rw [if_neg hplain]
      exact startsWith_of_listed hfirst
        (.token (.ident start fun d hd => List.mem_takeWhile_imp hd)) (by simp)
  | number start =>
    exact startsWith_of_listed hfirst
      (.token (.number start fun d hd => List.mem_takeWhile_imp hd)) (by simp)
  | string is =>
    subst is
    exact startsWith_literal (.string (List.mem_cons_self ..)) rfl hfirst
  | char is =>
    subst is
    exact startsWith_literal .char rfl hfirst
  | preprocessor is =>
    subst is
    exact startsWith_of_listed hfirst (.preprocessor (continued_preprocessorBody cs)) (by simp)
  | @lineComment rest is next =>
    subst is next
    refine startsWith_of_listed hfirst (.lineComment fun hmem => ?_) (by simp)
    simpa using List.mem_takeWhile_imp hmem
  | blockComment is next closed =>
    subst is next
    obtain ⟨body, rest, rfl, ends, rfl⟩ := commentBody?_eq_some_iff.1 closed
    exact .blockComment (longest_opening _) ends
  | openComment is next never =>
    subst is next
    exact .openComment (longest_opening _) (commentBody?_eq_none_iff.1 never)
  | sign start free listed starts =>
    have written := Written.sign listed
    refine startsWith_of_listed hfirst (.token written) ?_
    rintro ⟨⟩
    cases written.isTrivia_eq_false
  | stray start free none =>
    refine .character ?_ fun w unclosed => ?_
    · rintro k w listed ⟨rest, hrest⟩
      have hl : first? (w ++ rest) = some ⟨.stray, [c]⟩ := by rw [hrest, first?, hfirst]
      obtain ⟨d, ds, rfl⟩ := List.exists_cons_of_ne_nil listed.ne_nil
      obtain ⟨rfl, -⟩ := List.cons_eq_cons.1 hrest
      have hnil : ds = [] := by
        have hlength := listed.length_le_first hl
        exact List.length_eq_zero_iff.1 (Nat.le_zero.1 (Nat.le_of_succ_le_succ hlength))
      subst hnil
      refine not_listed_of_startsSign start (fun s hs heq => none s hs ?_) k listed
      exact heq ▸ List.prefix_append [d] cs
    · have hsame := unclosed.first?_eq
      rw [first?, hfirst] at hsame
      cases hsame
      rcases unclosed.eq_quote with rfl | rfl <;> exact absurd start (by decide)

/-! ### Only one lexeme -/

/-- A listed text alone is a lexeme of its kind, but for a comment that only opens. -/
theorem Listed.first?_eq (h : Listed k w) :
    first? w = some ⟨k, w⟩ ∨ k = .token .blockComment ∧ w = ['/', '*'] := by
  cases h with
  | @gap w nonempty blank =>
    obtain ⟨c, cs, rfl⟩ := List.exists_cons_of_ne_nil nonempty
    obtain ⟨hc, hcs⟩ := List.forall_mem_cons.1 blank
    left
    rw [first?, first_gap hc, List.takeWhile_eq_self_iff.2 hcs]
  | token written =>
    have hfirst := @Written.first?_of_breaks [] _ _ written (by simp)
    rw [List.append_nil] at hfirst
    exact .inl hfirst
  | @lineComment cs unbroken =>
    have hfirst : first? ('/' :: '/' :: cs) = some
      ⟨.token .lineComment, '/' :: '/' :: cs.takeWhile (· != '\n')⟩ := rfl
    left
    rw [hfirst, List.takeWhile_eq_self_iff.2]
    intro d hd
    rw [bne_iff_ne]
    rintro rfl
    exact unbroken hd
  | @preprocessor cs inside =>
    have hfirst : first? ('#' :: cs) = some
      ⟨.token .preprocessor, '#' :: preprocessorBody cs⟩ := rfl
    have hbody := inside.preprocessorBody_append []
    rw [List.append_nil, preprocessorBody, List.append_nil] at hbody
    left
    rw [hfirst, hbody]
  | opening => exact .inr ⟨rfl, rfl⟩

/-- No text is listed twice. -/
theorem Listed.kind_eq {k' : Kind} (h : Listed k w) (h' : Listed k' w) : k = k' := by
  have hopening {k : Kind} (h : Listed k ['/', '*']) : first? ['/', '*'] ≠ some ⟨k, ['/', '*']⟩ := by
    rintro ⟨⟩
    cases h
  rcases h.first?_eq with hk | ⟨rfl, rfl⟩ <;> rcases h'.first?_eq with hk' | ⟨rfl, hw⟩
  · rw [hk] at hk'
    cases hk'
    rfl
  · subst hw
    exact absurd hk (hopening h)
  · exact absurd hk' (hopening h')
  · rfl

theorem Longest.unique {k' : Kind} {w' : List Char} (h : Longest text k w) (h' : Longest text k' w') :
    k = k' ∧ w = w' := by
  have hlength := Nat.le_antisymm (h'.longest _ _ h.listed h.starts) (h.longest _ _ h'.listed h'.starts)
  have hw := (List.prefix_of_prefix_length_le h.starts h'.starts hlength.le).eq_of_length hlength
  subst hw
  exact ⟨h.listed.kind_eq h'.listed, rfl⟩

/-- **Code is cut by the longest match**: the rule says what a text starts with, and nothing
else starts it. -/
theorem first?_eq_some_iff {l : Lexeme} : first? text = some l ↔ StartsWith text l := by
  constructor
  · intro h
    cases text with
    | nil => cases h
    | cons c cs =>
      cases h
      exact startsWith_first c cs
  · intro h
    cases h with
    | @blockComment body rest opens ends =>
      rw [first?, first_blockComment (commentBody?_eq_some_iff.2 ⟨body, rest, rfl, ends, rfl⟩)]
    | openComment opens never =>
      rw [first?, first_openComment (commentBody?_eq_none_iff.2 never)]
    | unclosed literal => exact literal.first?_eq
    | @character c cs none closed =>
      have hstarts := startsWith_first c cs
      rw [first?]
      generalize first c cs = l at hstarts
      cases hstarts with
      | longest h => exact absurd h.starts (none _ _ h.listed)
      | blockComment opens => exact absurd opens.starts (none _ _ opens.listed)
      | openComment opens => exact absurd opens.starts (none _ _ opens.listed)
      | unclosed literal => exact absurd literal (closed _)
      | character => rfl
    | @longest text w k longest whole closed =>
      cases text with
      | nil => exact absurd (List.prefix_nil.1 longest.starts) longest.listed.ne_nil
      | cons c cs =>
        have hstarts := startsWith_first c cs
        rw [first?]
        generalize first c cs = l at hstarts
        cases hstarts with
        | longest h =>
          obtain ⟨rfl, rfl⟩ := longest.unique h
          rfl
        | blockComment opens => exact absurd (longest.unique opens).1 whole
        | openComment opens => exact absurd (longest.unique opens).1 whole
        | unclosed literal => exact absurd literal (closed _)
        | character none => exact absurd longest.starts (none _ _ longest.listed)

end AnnotatedHeader.Lexeme
