import AnnotatedHeader.Proofs.Token.LongestMatch

/-! Tokens account for every character.

Code is tokens with gaps around them, and every piece of it is what the rest of the code starts
with (`Lexeme.StartsWith`). `Accounts` says so of a text and a list of tokens, with the line that
each of them stands on, and `Token.accounts_iff` that the tokens of a text are the only list that
accounts for it: nothing is lost, nothing is read twice, and no line is miscounted. -/
namespace AnnotatedHeader.Token

open Lexeme

/-! ### Gaps and tokens -/

/-- Lexemes of this kind stand between tokens: white space, comments and preprocessor lines. -/
inductive Separates : Lexeme.Kind → Prop where
  | gap : Separates .gap
  | lineComment : Separates (.token .lineComment)
  | blockComment : Separates (.token .blockComment)
  | preprocessor : Separates (.token .preprocessor)

/-- The kind of token that a lexeme of this kind is. What is an error for the lexer is a token
too, and read as an operator. -/
inductive Yields : Lexeme.Kind → TokenKind → Prop where
  | token {kind : TokenKind} (plain : kind.isTrivia = false) : Yields (.token kind) kind
  | stray : Yields .stray .op

/-- In front of `rest`, `g` is white space, comments and preprocessor lines. -/
inductive Gap (rest : List Char) : List Char → Prop where
  | nil : Gap rest []
  | cons {k : Lexeme.Kind} {w g : List Char} (starts : StartsWith (w ++ (g ++ rest)) ⟨k, w⟩)
      (separates : Separates k) (more : Gap rest g) : Gap rest (w ++ g)

/-- The text is a gap, then a token and a gap for each of the tokens, where the last gap may end in
a block comment without an end. Lines are counted from `line` on. -/
inductive Accounts : Nat → List Char → List Token → Prop where
  | ends {line : Nat} {g rest : List Char} (gap : Gap rest g)
      (last : rest = [] ∨ StartsWith rest ⟨.openComment, rest⟩) : Accounts line (g ++ rest) []
  | token {line : Nat} {g w rest : List Char} {k : Lexeme.Kind} {kind : TokenKind} {ts : List Token}
      (gap : Gap (w ++ rest) g) (starts : StartsWith (w ++ rest) ⟨k, w⟩) (yields : Yields k kind)
      (nonempty : w ≠ []) (unbroken : '\n' ∉ w)
      (more : Accounts (line + (g ++ w).count '\n') rest ts) :
      Accounts line (g ++ (w ++ rest)) (⟨kind, .ofList w, line + g.count '\n'⟩ :: ts)

variable {line : Nat} {g w rest : List Char} {k : Lexeme.Kind} {kind : TokenKind} {ts : List Token}

/-! ### Tokens of what is accounted for -/

theorem Separates.tokenKind?_eq (h : Separates k) : tokenKind? ⟨k, w⟩ = none := by
  cases h <;> rfl

theorem Yields.tokenKind?_eq (h : Yields k kind) : tokenKind? ⟨k, w⟩ = some kind := by
  cases h with
  | token plain => simp [tokenKind?, plain]
  | stray => rfl

theorem scan_of_startsWith (h : StartsWith (w ++ rest) ⟨k, w⟩) :
    scan (w ++ rest) = ⟨k, w⟩ :: scan rest :=
  scan_append (first?_eq_some_iff.2 h)

/-- A gap counts lines and means nothing else. -/
theorem Gap.tokens_scan (h : Gap rest g) (line : Nat) :
    tokens line (scan (g ++ rest)) = tokens (line + g.count '\n') (scan rest) := by
  induction h generalizing line with
  | nil => rfl
  | @cons k w g starts separates _ ih =>
    rw [List.append_assoc, scan_of_startsWith starts, tokens, separates.tokenKind?_eq, newlines, ih,
      List.count_append, Nat.add_assoc]

theorem Accounts.tokens_scan {text : List Char} (h : Accounts line text ts) :
    tokens line (scan text) = ts := by
  induction h with
  | ends gap last =>
    rw [gap.tokens_scan]
    rcases last with rfl | last
    · simp [scan, tokens]
    · rw [scan_eq_cons (first?_eq_some_iff.2 last), List.drop_length]
      simp [scan, tokens, tokenKind?]
  | @token line g w rest k kind ts gap starts yields _ unbroken _ ih =>
    rw [List.count_append, List.count_eq_zero.2 unbroken, Nat.add_zero] at ih
    rw [gap.tokens_scan, scan_of_startsWith starts, tokens, yields.tokenKind?_eq, newlines,
      List.count_eq_zero.2 unbroken, Nat.add_zero, ih]

/-! ### What is scanned is accounted for -/

theorem Accounts.gap {text : List Char} (starts : StartsWith (w ++ text) ⟨k, w⟩)
    (separates : Separates k) (h : Accounts (line + w.count '\n') text ts) :
    Accounts line (w ++ text) ts := by
  generalize hline : line + w.count '\n' = line' at h
  cases h with
  | ends gap last =>
    rw [← List.append_assoc]
    exact .ends (.cons starts separates gap) last
  | @token _ g v rest k' kind ts gap starts' yields nonempty unbroken more =>
    subst hline
    rw [Nat.add_assoc, ← List.count_append, ← List.append_assoc] at more
    rw [← List.append_assoc, Nat.add_assoc, ← List.count_append]
    exact .token (.cons starts separates gap) starts' yields nonempty unbroken more

theorem separates_or_yields (c : Char) (cs : List Char) :
    Separates (first c cs).kind ∨ (first c cs).kind = .openComment ∨
      ∃ kind, Yields (first c cs).kind kind := by
  cases (first c cs).kind with
  | gap => exact .inl .gap
  | openComment => exact .inr (.inl rfl)
  | stray => exact .inr (.inr ⟨_, .stray⟩)
  | token kind =>
    cases kind with
    | lineComment => exact .inl .lineComment
    | blockComment => exact .inl .blockComment
    | preprocessor => exact .inl .preprocessor
    | _ => exact .inr (.inr ⟨_, .token rfl⟩)

theorem Yields.cut {c : Char} {cs : List Char} (h : Yields k kind) (hfirst : first c cs = ⟨k, w⟩) :
    Cut kind w := by
  have hmem : ⟨k, w⟩ ∈ scan (c :: cs) := by
    rw [scan, hfirst]
    exact List.mem_cons_self
  have hshape : shape? ⟨k, w⟩ = some (kind, .ofList w) := by rw [shape?, h.tokenKind?_eq]; rfl
  simpa using cut_of_mem_scan hmem hshape

theorem accounts_scan (line : Nat) (cs : List Char) : Accounts line cs (tokens line (scan cs)) := by
  fun_induction scan cs generalizing line with
  | case1 => exact .ends .nil (.inl rfl)
  | case2 c cs ih =>
    have hcase := separates_or_yields c cs
    have hstarts := startsWith_first c cs
    obtain ⟨rest, hrest⟩ := first_isPrefix c cs
    generalize hfirst : first c cs = l at *
    obtain ⟨k, w⟩ := l
    dsimp only at hcase hrest ih ⊢
    rw [← hrest] at hstarts ih ⊢
    rw [List.drop_left] at ih ⊢
    rcases hcase with separates | rfl | ⟨kind, yields⟩
    · rw [tokens, separates.tokenKind?_eq, newlines]
      exact .gap hstarts separates (ih _)
    · -- What has no end leaves nothing.
      have hnil : rest = [] := by
        generalize htext : w ++ rest = text at hstarts
        cases hstarts with
        | longest chosen => cases chosen.listed
        | openComment => simpa using htext
      subst hnil
      rw [tokens, scan, List.append_nil] at *
      exact .ends .nil (.inr hstarts)
    · rw [tokens, yields.tokenKind?_eq, newlines]
      have hcut := yields.cut hfirst
      have hcount : w.count '\n' = 0 := List.count_eq_zero.2 hcut.unbroken
      rw [hcount, Nat.add_zero]
      refine .token .nil hstarts yields hcut.nonempty hcut.unbroken ?_
      rw [List.nil_append, hcount]
      exact ih line

/-- **Tokens account for every character.** The tokens of a text are the one list with gaps of
white space, comments and preprocessor lines around its members that makes up the text, cut by
the longest match, each token on the line that the line feeds in front of it count to. -/
theorem accounts_iff {source : String} :
    Accounts line source.toList ts ↔ tokenize source line = ts := by
  constructor
  · exact Accounts.tokens_scan
  · rintro rfl
    exact accounts_scan line source.toList

end AnnotatedHeader.Token
