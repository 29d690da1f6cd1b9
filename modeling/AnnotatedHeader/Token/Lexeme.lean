import AnnotatedHeader.Notice
import AnnotatedHeader.Text.Word
import AnnotatedHeader.Token

/-! Lexemes: code cut into the longest pieces that mean something.

`Lexeme.scan` loses nothing: the texts of the lexemes, one after the other, are
the code (`flatMap_text_scan`). Tokens are the lexemes that are neither blank nor
trivia, each with the line it starts on. -/
namespace AnnotatedHeader

open Text

inductive Lexeme.Kind where
  /-- Spaces, tabs and ends of lines. -/
  | gap
  | token (kind : TokenKind)
  /-- Nothing that code may hold; read as an operator. -/
  | stray
  /-- A block comment without an end. -/
  | openComment
  deriving DecidableEq, Repr

structure Lexeme where
  kind : Lexeme.Kind
  text : List Char
  deriving DecidableEq, Repr

namespace Lexeme

/-! ### Runs -/

/-- Separates tokens and means nothing else. -/
def isGap (c : Char) : Bool :=
  c == ' ' || c == '\t' || c == '\r' || c == '\n' || c == '\x0c'

def isNumberRest (c : Char) : Bool :=
  c.isAlpha || c.isDigit || c == '_' || c == '.' || c == '\x27'

/-- The inside of a literal: up to its quote, the end of the line, or a backslash
that has nothing to escape. -/
def literalBody (quote : Char) : List Char → List Char
  | '\\' :: c :: cs => if c = '\n' then [] else '\\' :: c :: literalBody quote cs
  | c :: cs => if c = quote || c = '\\' || c = '\n' then [] else c :: literalBody quote cs
  | [] => []

/-- A preprocessor line behind its sign: up to the end of the line, unless a
backslash precedes it. -/
def preprocessorBody : List Char → List Char
  | '\\' :: c :: cs => '\\' :: c :: preprocessorBody cs
  | c :: cs => if c = '\\' || c = '\n' then [] else c :: preprocessorBody cs
  | [] => []

/-- A block comment behind its opening, with its end. -/
def commentBody? : List Char → Option (List Char)
  | '*' :: '/' :: _ => some ['*', '/']
  | c :: cs => (commentBody? cs).map (c :: ·)
  | [] => none

/-- The signs, longer ones first. -/
def signs : List (String × TokenKind) :=
  [ ("...", .op),
    ("->", .op), ("++", .op), ("--", .op), ("&&", .op), ("||", .op), ("::", .scope),
    ("-=", .op), ("+=", .op), ("*=", .op), ("/=", .op), ("%=", .op), ("&=", .op), ("|=", .op),
    ("^=", .op), ("!=", .op), ("<=", .op), (">=", .op), ("==", .op),
    ("(", .lparen), (")", .rparen), ("\x7b", .lbrace), ("\x7d", .rbrace), ("[", .lbracket),
    ("]", .rbracket), ("<", .less), (">", .greater), (",", .comma), (";", .semi), (":", .colon),
    ("=", .equals), ("~", .tilde),
    ("-", .op), ("+", .op), ("*", .op), ("/", .op), ("%", .op), ("&", .op), ("|", .op),
    ("^", .op), ("!", .op), ("?", .op), (".", .op), ("@", .op), ("$", .op), ("\\", .op) ]

/-! ### One lexeme -/

/-- A literal from its opening quote on; `lead` is the encoding in front of it.
Without a closing quote it is stray as far as it goes. -/
def literal (kind : TokenKind) (lead : List Char) (quote : Char) (cs : List Char) : Lexeme :=
  let body := literalBody quote cs
  if (cs.drop body.length).head? == some quote then ⟨.token kind, lead ++ quote :: body ++ [quote]⟩
  else ⟨.stray, lead ++ quote :: body⟩

/-- What may stand right before the quote of a string. -/
def encodings : List (List Char) := [['u', '8'], ['u'], ['U'], ['L']]

/-- The lexeme that the text `c :: cs` starts with. -/
def first (c : Char) (cs : List Char) : Lexeme :=
  if isGap c then ⟨.gap, c :: cs.takeWhile isGap⟩
  else if isIdentStart c then
    let word := c :: cs.takeWhile isIdentRest
    match cs.dropWhile isIdentRest with
    | '"' :: rest =>
      if word ∈ encodings then literal .string word '"' rest else ⟨.token .ident, word⟩
    | _ => ⟨.token .ident, word⟩
  else if c.isDigit then ⟨.token .number, c :: cs.takeWhile isNumberRest⟩
  else
    match c, cs with
    | '"', _ => literal .string [] '"' cs
    | '\x27', _ => literal .char [] '\x27' cs
    | '#', _ => ⟨.token .preprocessor, '#' :: preprocessorBody cs⟩
    | '/', '/' :: rest => ⟨.token .lineComment, '/' :: '/' :: rest.takeWhile (· != '\n')⟩
    | '/', '*' :: rest =>
      match commentBody? rest with
      | some body => ⟨.token .blockComment, '/' :: '*' :: body⟩
      | none => ⟨.openComment, '/' :: '*' :: rest⟩
    | _, _ =>
      match signs.find? fun (sign, _) => sign.toList.isPrefixOf (c :: cs) with
      | some (sign, kind) => ⟨.token kind, sign.toList⟩
      | none => ⟨.stray, [c]⟩

theorem literalBody_isPrefix (quote : Char) (cs : List Char) : literalBody quote cs <+: cs := by
  fun_induction literalBody quote cs with
  | case1 => exact List.nil_prefix
  | case2 c cs _ ih => exact (List.prefix_cons_inj _).2 ((List.prefix_cons_inj _).2 ih)
  | case3 => exact List.nil_prefix
  | case4 c cs _ _ ih => exact (List.prefix_cons_inj _).2 ih
  | case5 => exact List.nil_prefix

theorem preprocessorBody_isPrefix (cs : List Char) : preprocessorBody cs <+: cs := by
  fun_induction preprocessorBody cs with
  | case1 c cs ih => exact (List.prefix_cons_inj _).2 ((List.prefix_cons_inj _).2 ih)
  | case2 => exact List.nil_prefix
  | case3 c cs _ _ ih => exact (List.prefix_cons_inj _).2 ih
  | case4 => exact List.nil_prefix

theorem commentBody?_isPrefix {cs body : List Char} (h : commentBody? cs = some body) :
    body <+: cs := by
  fun_induction commentBody? cs generalizing body with
  | case1 cs =>
    injection h with h
    exact h ▸ ⟨cs, rfl⟩
  | case2 c cs _ ih =>
    obtain ⟨b, hb, rfl⟩ := Option.map_eq_some_iff.1 h
    exact (List.prefix_cons_inj _).2 (ih hb)
  | case3 => cases h

theorem literal_isPrefix (kind : TokenKind) (lead : List Char) (quote : Char) (cs : List Char) :
    (literal kind lead quote cs).text <+: lead ++ quote :: cs := by
  obtain ⟨rest, hrest⟩ := literalBody_isPrefix quote cs
  unfold literal
  generalize literalBody quote cs = body at hrest ⊢
  subst hrest
  dsimp only
  rw [List.drop_left]
  split
  · rename_i h
    cases rest with
    | nil => simp at h
    | cons d rest =>
      have hd : d = quote := by simpa using h
      exact ⟨rest, by simp [hd]⟩
  · exact ⟨rest, by simp⟩

/-- A lexeme is what the text starts with. -/
theorem first_isPrefix (c : Char) (cs : List Char) : (first c cs).text <+: c :: cs := by
  have hspan (p : Char → Bool) (l : List Char) : l.takeWhile p <+: l := List.takeWhile_prefix p
  unfold first
  split
  · exact (List.prefix_cons_inj c).2 (hspan ..)
  split
  · split
    · rename_i rest hd
      dsimp only
      split
      · have hcs : c :: cs = (c :: cs.takeWhile isIdentRest) ++ '"' :: rest := by
          rw [List.cons_append, ← hd, List.takeWhile_append_dropWhile]
        rw [hcs]
        exact literal_isPrefix ..
      · exact (List.prefix_cons_inj c).2 (hspan ..)
    · exact (List.prefix_cons_inj c).2 (hspan ..)
  split
  · exact (List.prefix_cons_inj c).2 (hspan ..)
  split
  · exact literal_isPrefix .string [] _ cs
  · exact literal_isPrefix .char [] _ cs
  · exact (List.prefix_cons_inj _).2 (preprocessorBody_isPrefix cs)
  · exact (List.prefix_cons_inj _).2 ((List.prefix_cons_inj _).2 (hspan ..))
  · split
    · rename_i h
      exact (List.prefix_cons_inj _).2 ((List.prefix_cons_inj _).2 (commentBody?_isPrefix h))
    · exact List.prefix_rfl
  · split
    · rename_i h
      exact List.isPrefixOf_iff_prefix.1 (by simpa using List.find?_some h)
    · exact ⟨cs, rfl⟩

theorem literal_ne_nil (kind : TokenKind) (lead : List Char) (quote : Char) (cs : List Char) :
    (literal kind lead quote cs).text ≠ [] := by
  unfold literal
  dsimp only
  split <;> simp

theorem first_ne_nil (c : Char) (cs : List Char) : (first c cs).text ≠ [] := by
  unfold first
  split
  · simp
  split
  · split
    · dsimp only
      split
      · exact literal_ne_nil _ _ _ _
      · simp
    · simp
  split
  · simp
  split
  · exact literal_ne_nil _ _ _ _
  · exact literal_ne_nil _ _ _ _
  · simp
  · simp
  · split <;> simp
  · split
    · rename_i sign kind h
      have hmem := List.mem_of_find?_eq_some h
      have hall : ∀ s ∈ signs, s.1.toList ≠ [] := by decide
      exact hall _ hmem
    · simp

/-! ### All of them -/

def scan : List Char → List Lexeme
  | [] => []
  | c :: cs => first c cs :: scan ((c :: cs).drop (first c cs).text.length)
termination_by cs => cs.length
decreasing_by
  have := List.length_pos_iff.2 (first_ne_nil c cs)
  rw [List.length_drop, List.length_cons]
  omega

/-- Nothing is lost. -/
theorem flatMap_text_scan (cs : List Char) : (scan cs).flatMap text = cs := by
  fun_induction scan cs with
  | case1 => rfl
  | case2 c cs ih =>
    rw [List.flatMap_cons, ih]
    exact List.prefix_iff_eq_append.1 (first_isPrefix c cs)

theorem ne_nil_of_mem_scan {cs : List Char} {l : Lexeme} (h : l ∈ scan cs) : l.text ≠ [] := by
  fun_induction scan cs with
  | case1 => cases h
  | case2 c cs ih =>
    rcases List.mem_cons.1 h with rfl | h
    · exact first_ne_nil c cs
    · exact ih h

/-- The kind of token that a lexeme is, if it is one. -/
def tokenKind? (l : Lexeme) : Option TokenKind :=
  match l.kind with
  | .token kind => if kind.isTrivia then none else some kind
  | .stray => some .op
  | .gap | .openComment => none

def notice? (l : Lexeme) : Option Notice :=
  match l.kind with
  | .stray => some (.strayText (.ofList l.text))
  | .openComment => some .openComment
  | .gap | .token _ => none

def newlines (l : Lexeme) : Nat := l.text.count '\n'

/-- The tokens among lexemes that start on line `line`. -/
def tokens (line : Nat) : List Lexeme → List Token
  | [] => []
  | l :: ls =>
    let rest := tokens (line + l.newlines) ls
    match l.tokenKind? with
    | some kind => ⟨kind, .ofList l.text, line⟩ :: rest
    | none => rest

end Lexeme

namespace Token

/-- The tokens of code whose first line is `firstLine`. -/
def tokenize (source : String) (firstLine : Nat) : List Token :=
  Lexeme.tokens firstLine (Lexeme.scan source.toList)

/-- What there is to say about the code's lexemes. -/
def noticesOf (source : String) : List Notice :=
  (Lexeme.scan source.toList).filterMap Lexeme.notice?

end Token

end AnnotatedHeader
