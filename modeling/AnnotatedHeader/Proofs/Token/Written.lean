import AnnotatedHeader.Token.Lexeme
import Mathlib

/-! How tokens are written, and where the lexer ends them.

`Written` lists the texts that are tokens (`written_of_first`). Such a text is read back
as the one token that it is when nothing behind it can belong to it: `first?_ident_iff` and
its neighbours say what that means for each kind, and `Written.first?_of_breaks` names
characters that end any of them. -/
namespace AnnotatedHeader

namespace Lexeme

open Text

/-! ### Literals -/

/-- What may stand between the quotes of a literal. -/
inductive Inside (quote : Char) : List Char → Prop where
  | nil : Inside quote []
  | escape {c : Char} {cs : List Char} (same : c ≠ '\n') (rest : Inside quote cs) :
      Inside quote ('\\' :: c :: cs)
  | char {c : Char} {cs : List Char} (plain : c ≠ quote ∧ c ≠ '\\' ∧ c ≠ '\n')
      (rest : Inside quote cs) : Inside quote (c :: cs)

variable {quote : Char} {body behind : List Char}

theorem inside_literalBody (quote : Char) (cs : List Char) : Inside quote (literalBody quote cs) := by
  fun_induction literalBody quote cs with
  | case1 => exact .nil
  | case2 c cs hc ih => exact .escape hc ih
  | case3 => exact .nil
  | case4 c cs _ hc ih => exact .char (by simpa [and_assoc] using hc) ih
  | case5 => exact .nil

theorem Inside.literalBody_append (h : Inside quote body) (hquote : quote ≠ '\\')
    (behind : List Char) : literalBody quote (body ++ quote :: behind) = body := by
  induction h with
  | nil =>
    rw [List.nil_append, literalBody, if_pos (by simp)]
    intro c cs hc
    exact absurd hc hquote
  | escape same _ ih =>
    rw [List.cons_append, List.cons_append, literalBody, if_neg same, ih]
  | char plain _ ih =>
    rw [List.cons_append, literalBody, if_neg (by simpa [and_assoc] using plain), ih]
    intro c cs hc
    exact absurd hc plain.2.1

theorem literal_eq_token {kind k : TokenKind} {lead w cs : List Char}
    (h : literal kind lead quote cs = ⟨.token k, w⟩) :
    k = kind ∧ ∃ body, Inside quote body ∧ w = lead ++ quote :: body ++ [quote] := by
  unfold literal at h
  dsimp only at h
  split at h
  · cases h
    exact ⟨rfl, _, inside_literalBody quote cs, rfl⟩
  · cases h

theorem literal_of_inside (kind : TokenKind) (lead : List Char) (h : Inside quote body)
    (hquote : quote ≠ '\\') (behind : List Char) :
    literal kind lead quote (body ++ quote :: behind) =
      ⟨.token kind, lead ++ quote :: body ++ [quote]⟩ := by
  unfold literal
  simp [h.literalBody_append hquote]

/-! ### The first lexeme -/

def first? : List Char → Option Lexeme
  | [] => none
  | c :: cs => some (first c cs)

theorem scan_eq_cons {cs : List Char} {l : Lexeme} (h : first? cs = some l) :
    scan cs = l :: scan (cs.drop l.text.length) := by
  cases cs with
  | nil => cases h
  | cons c cs =>
    cases h
    rw [scan]

theorem scan_append {kind : Kind} {w : List Char} (h : first? (w ++ behind) = some ⟨kind, w⟩) :
    scan (w ++ behind) = ⟨kind, w⟩ :: scan behind := by
  rw [scan_eq_cons h, List.drop_left]

/-- How the tokens of each kind are written. -/
inductive Written : TokenKind → List Char → Prop where
  | ident {c : Char} {cs : List Char} (start : isIdentStart c = true)
      (rest : ∀ d ∈ cs, isIdentRest d = true) : Written .ident (c :: cs)
  | number {c : Char} {cs : List Char} (start : c.isDigit = true)
      (rest : ∀ d ∈ cs, isNumberRest d = true) : Written .number (c :: cs)
  | string {lead body : List Char} (leads : lead ∈ [] :: encodings) (inside : Inside '"' body) :
      Written .string (lead ++ '"' :: body ++ ['"'])
  | char {body : List Char} (inside : Inside '\x27' body) :
      Written .char ('\x27' :: body ++ ['\x27'])
  | sign {sign : String} {kind : TokenKind} (listed : (sign, kind) ∈ signs) :
      Written kind sign.toList

/-! ### Where a token ends -/

theorem takeWhile_eq_nil_iff {p : Char → Bool} :
    behind.takeWhile p = [] ↔ ∀ d ∈ behind.head?, p d = false := by
  cases behind with
  | nil => simp
  | cons d ds => by_cases hd : p d = true <;> simp [hd]

theorem eq_of_isGap {c : Char} (h : isGap c = true) :
    c = ' ' ∨ c = '\t' ∨ c = '\r' ∨ c = '\n' ∨ c = '\x0c' := by
  simpa [isGap, or_assoc] using h

theorem isGap_of_isIdentStart {c : Char} (h : isIdentStart c = true) : isGap c = false := by
  by_contra hgap
  rcases eq_of_isGap (Bool.not_eq_false _ ▸ hgap) with rfl | rfl | rfl | rfl | rfl <;>
    exact absurd h (by decide)

theorem isGap_of_isDigit {c : Char} (h : c.isDigit = true) :
    isGap c = false ∧ isIdentStart c = false := by
  constructor
  · by_contra hgap
    rcases eq_of_isGap (Bool.not_eq_false _ ▸ hgap) with rfl | rfl | rfl | rfl | rfl <;>
      exact absurd h (by decide)
  · by_contra hstart
    simp only [isIdentStart, Char.isAlpha, Char.isUpper, Char.isLower, Char.isDigit, ge_iff_le,
      Bool.or_eq_true, Bool.and_eq_true, decide_eq_true_eq, beq_iff_eq, UInt32.le_iff_toNat_le,
      Bool.not_eq_false] at h hstart
    rcases hstart with (⟨hlow, -⟩ | ⟨hlow, -⟩) | rfl
    · exact absurd (hlow.trans h.2) (by decide)
    · exact absurd (hlow.trans h.2) (by decide)
    · exact absurd h.2 (by decide)

/-- A word, or the string whose encoding it is. -/
def wordLexeme (word behind : List Char) : Lexeme :=
  if encodings.contains word && behind.head? == some '"' then literal .string word '"' behind.tail
  else ⟨.token .ident, word⟩

theorem wordLexeme_eq_iff {word w : List Char} :
    wordLexeme word behind = ⟨.token .ident, w⟩ ↔
      word = w ∧ (word ∈ encodings → behind.head? ≠ some '"') := by
  unfold wordLexeme
  split
  · rename_i hstring
    rw [Bool.and_eq_true, List.contains_iff_mem, beq_iff_eq] at hstring
    refine iff_of_false (fun h => ?_) fun h => h.2 hstring.1 hstring.2
    cases (literal_eq_token h).1
  · rename_i hword
    rw [Bool.and_eq_true, List.contains_iff_mem, beq_iff_eq, not_and] at hword
    simpa using fun _ => hword

theorem first_word {c : Char} (start : isIdentStart c = true) (cs : List Char) :
    first c cs =
      wordLexeme (c :: cs.takeWhile isIdentRest) (cs.dropWhile isIdentRest) := by
  unfold first
  rw [if_neg (by simp [isGap_of_isIdentStart start]), if_pos start]
  dsimp only
  unfold wordLexeme
  split
  · rename_i rest hrest
    simp [hrest]
  · rename_i hbare
    have hquote : (cs.dropWhile isIdentRest).head? ≠ some '"' := fun h => by
      obtain ⟨rest, hrest⟩ := List.head?_eq_some_iff.1 h
      exact hbare rest hrest
    simp [hquote]

theorem first?_word {c : Char} {cs : List Char} (start : isIdentStart c = true)
    (word : ∀ d ∈ cs, isIdentRest d = true) :
    first? (c :: cs ++ behind) = some
      (wordLexeme (c :: (cs ++ behind.takeWhile isIdentRest)) (behind.dropWhile isIdentRest)) := by
  rw [List.cons_append, first?, first_word start, List.takeWhile_append_of_pos word,
    List.dropWhile_append_of_pos word]

theorem first?_ident_iff {c : Char} {cs : List Char} (start : isIdentStart c = true)
    (word : ∀ d ∈ cs, isIdentRest d = true) :
    first? (c :: cs ++ behind) = some ⟨.token .ident, c :: cs⟩ ↔
      (∀ d ∈ behind.head?, isIdentRest d = false) ∧
        (c :: cs ∈ encodings → behind.head? ≠ some '"') := by
  rw [first?_word start word, Option.some.injEq, wordLexeme_eq_iff, List.cons_inj_right,
    List.append_right_eq_self, takeWhile_eq_nil_iff]
  refine and_congr_right fun hends => ?_
  have htake := takeWhile_eq_nil_iff.2 hends
  have hdrop : behind.dropWhile isIdentRest = behind := by
    conv => rhs; rw [← List.takeWhile_append_dropWhile (p := isIdentRest) (l := behind), htake]
    rfl
  rw [htake, hdrop, List.append_nil]

theorem first_number {c : Char} (start : c.isDigit = true) (cs : List Char) :
    first c cs = ⟨.token .number, c :: cs.takeWhile isNumberRest⟩ := by
  obtain ⟨hgap, hident⟩ := isGap_of_isDigit start
  unfold first
  rw [if_neg (by simp [hgap]), if_neg (by simp [hident]), if_pos start]

theorem first?_number {c : Char} {cs : List Char} (start : c.isDigit = true)
    (rest : ∀ d ∈ cs, isNumberRest d = true) :
    first? (c :: cs ++ behind) =
      some ⟨.token .number, c :: cs ++ behind.takeWhile isNumberRest⟩ := by
  rw [List.cons_append, first?, first_number start, List.takeWhile_append_of_pos rest,
    List.cons_append]

theorem first?_number_iff {c : Char} {cs : List Char} (start : c.isDigit = true)
    (rest : ∀ d ∈ cs, isNumberRest d = true) :
    first? (c :: cs ++ behind) = some ⟨.token .number, c :: cs⟩ ↔
      ∀ d ∈ behind.head?, isNumberRest d = false := by
  rw [first?_number start rest, Option.some.injEq, Lexeme.mk.injEq, List.append_right_eq_self,
    takeWhile_eq_nil_iff]
  exact and_iff_right rfl

theorem first?_string {lead : List Char} (leads : lead ∈ [] :: encodings) (inside : Inside '"' body) :
    first? (lead ++ '"' :: body ++ ['"'] ++ behind) =
      some ⟨.token .string, lead ++ '"' :: body ++ ['"']⟩ := by
  have hopens (cs : List Char) : first? (lead ++ '"' :: cs) = some (literal .string lead '"' cs) := by
    simp only [encodings, List.mem_cons, List.not_mem_nil, or_false] at leads
    rcases leads with rfl | rfl | rfl | rfl | rfl <;> rfl
  have hcs : lead ++ '"' :: body ++ ['"'] ++ behind = lead ++ '"' :: (body ++ '"' :: behind) := by
    simp
  rw [hcs, hopens, literal_of_inside _ _ inside (by decide)]

theorem first?_char (inside : Inside '\x27' body) :
    first? ('\x27' :: body ++ ['\x27'] ++ behind) =
      some ⟨.token .char, '\x27' :: body ++ ['\x27']⟩ := by
  have hcs : '\x27' :: body ++ ['\x27'] ++ behind = '\x27' :: (body ++ '\x27' :: behind) := by
    simp
  have hopens (cs : List Char) : first? ('\x27' :: cs) = some (literal .char [] '\x27' cs) := rfl
  rw [hcs, hopens, literal_of_inside _ _ inside (by decide), List.nil_append]

/-! ### Signs -/

/-- What a sign can start with: nothing else starts with it, comments apart. -/
def startsSign (c : Char) : Bool :=
  !isGap c && !isIdentStart c && !c.isDigit && c != '"' && c != '\x27' && c != '#'

theorem isIdentRest_of_startsSign {c : Char} (h : startsSign c = true) : isIdentRest c = false := by
  simp only [startsSign, isIdentStart, Bool.and_eq_true, Bool.not_eq_true', Bool.or_eq_false_iff] at h
  simp [isIdentRest, h]

theorem isNumberRest_of_startsSign {c : Char} (h : startsSign c = true) (hdot : c ≠ '.') :
    isNumberRest c = false := by
  simp only [startsSign, isIdentStart, Bool.and_eq_true, Bool.not_eq_true', Bool.or_eq_false_iff,
    bne_iff_ne] at h
  simp [isNumberRest, h, hdot]

theorem startsSign_of_mem : ∀ s ∈ signs, s.1.toList.head?.any startsSign = true := by
  decide

theorem signs_sorted : signs.Pairwise fun s s' => s'.1.toList.length ≤ s.1.toList.length := by
  decide

theorem kind_of_sign : ∀ s ∈ signs, ∀ s' ∈ signs, s.1 = s'.1 → s.2 = s'.2 := by
  decide

theorem length_le_of_find? {p : String × TokenKind → Bool} {ss : List (String × TokenKind)}
    {s : String × TokenKind}
    (sorted : ss.Pairwise fun s s' => s'.1.toList.length ≤ s.1.toList.length)
    (h : ss.find? p = some s) : ∀ s' ∈ ss, p s' = true → s'.1.toList.length ≤ s.1.toList.length := by
  obtain ⟨-, before, after, rfl, hbefore⟩ := List.find?_eq_some_iff_append.1 h
  intro s' hs' hp
  rcases List.mem_append.1 hs' with hs' | hs'
  · have := hbefore s' hs'
    rw [hp] at this
    cases this
  · rcases List.mem_cons.1 hs' with rfl | hs'
    · exact Nat.le_refl _
    · exact (List.pairwise_cons.1 (List.pairwise_append.1 sorted).2.1).1 s' hs'

theorem isTrivia_of_sign : ∀ s ∈ signs, s.2.isTrivia = false := by
  decide

theorem ne_ident_of_sign : ∀ s ∈ signs, s.2 ≠ .ident := by
  decide

/-- No comment starts here. -/
def NoComment (cs : List Char) : Prop :=
  cs.head? = some '/' → ∀ d ∈ cs.tail.head?, d ≠ '/' ∧ d ≠ '*'

theorem first_of_startsSign {c : Char} {cs : List Char} (h : startsSign c = true)
    (free : NoComment (c :: cs)) :
    first c cs = match signs.find? fun (sign, _) => sign.toList.isPrefixOf (c :: cs) with
      | some (sign, kind) => ⟨.token kind, sign.toList⟩
      | none => ⟨.stray, [c]⟩ := by
  simp only [startsSign, Bool.and_eq_true, Bool.not_eq_true', bne_iff_ne, ne_eq] at h
  obtain ⟨⟨⟨⟨⟨hgap, hident⟩, hdigit⟩, hstring⟩, hchar⟩, hpre⟩ := h
  unfold first
  rw [if_neg (by simp [hgap]), if_neg (by simp [hident]), if_neg (by simp [hdigit])]
  split
  · exact absurd rfl hstring
  · exact absurd rfl hchar
  · exact absurd rfl hpre
  · exact absurd rfl (free rfl _ rfl).1
  · exact absurd rfl (free rfl _ rfl).2
  · rfl

/-! ### What the first characters decide -/

theorem first_gap {c : Char} (blank : isGap c = true) (cs : List Char) :
    first c cs = ⟨.gap, c :: cs.takeWhile isGap⟩ := by
  unfold first
  rw [if_pos blank]

theorem scan_gap {c : Char} (blank : isGap c = true) (cs : List Char) :
    scan (c :: cs) = ⟨.gap, c :: cs.takeWhile isGap⟩ :: scan (cs.dropWhile isGap) := by
  have hcs : c :: cs = c :: cs.takeWhile isGap ++ cs.dropWhile isGap := by
    rw [List.cons_append, List.takeWhile_append_dropWhile]
  rw [scan, first_gap blank, List.cons.injEq]
  refine ⟨rfl, congrArg scan ?_⟩
  exact (congrArg (List.drop _) hcs).trans List.drop_left

theorem first_blockComment {cs body : List Char} (h : commentBody? cs = some body) :
    first '/' ('*' :: cs) = ⟨.token .blockComment, '/' :: '*' :: body⟩ := by
  unfold first
  rw [if_neg (by decide), if_neg (by decide), if_neg (by decide)]
  simp [h]

theorem first_openComment {cs : List Char} (h : commentBody? cs = none) :
    first '/' ('*' :: cs) = ⟨.openComment, '/' :: '*' :: cs⟩ := by
  unfold first
  rw [if_neg (by decide), if_neg (by decide), if_neg (by decide)]
  simp [h]

/-- What the text `c :: cs` starts with, and why. -/
inductive Branch (c : Char) (cs : List Char) : Lexeme → Prop where
  | gap (blank : isGap c = true) : Branch c cs ⟨.gap, c :: cs.takeWhile isGap⟩
  | word (start : isIdentStart c = true) :
      Branch c cs (wordLexeme (c :: cs.takeWhile isIdentRest) (cs.dropWhile isIdentRest))
  | number (start : c.isDigit = true) : Branch c cs ⟨.token .number, c :: cs.takeWhile isNumberRest⟩
  | string (is : c = '"') : Branch c cs (literal .string [] '"' cs)
  | char (is : c = '\x27') : Branch c cs (literal .char [] '\x27' cs)
  | preprocessor (is : c = '#') : Branch c cs ⟨.token .preprocessor, '#' :: preprocessorBody cs⟩
  | lineComment {rest : List Char} (is : c = '/') (next : cs = '/' :: rest) :
      Branch c cs ⟨.token .lineComment, '/' :: '/' :: rest.takeWhile (· != '\n')⟩
  | blockComment {rest body : List Char} (is : c = '/') (next : cs = '*' :: rest)
      (closed : commentBody? rest = some body) :
      Branch c cs ⟨.token .blockComment, '/' :: '*' :: body⟩
  | openComment {rest : List Char} (is : c = '/') (next : cs = '*' :: rest)
      (never : commentBody? rest = none) : Branch c cs ⟨.openComment, '/' :: '*' :: rest⟩
  | sign {sign : String} {kind : TokenKind} (start : startsSign c = true) (free : NoComment (c :: cs))
      (listed : (sign, kind) ∈ signs) (starts : sign.toList <+: c :: cs) :
      Branch c cs ⟨.token kind, sign.toList⟩
  | stray (start : startsSign c = true) (free : NoComment (c :: cs))
      (none : ∀ s ∈ signs, ¬ s.1.toList <+: c :: cs) : Branch c cs ⟨.stray, [c]⟩

theorem branch_of_startsSign {c : Char} {cs : List Char} (start : startsSign c = true)
    (free : NoComment (c :: cs)) : Branch c cs (first c cs) := by
  rw [first_of_startsSign start free]
  split
  · rename_i sign kind hfind
    have hstarts := List.find?_some hfind
    exact .sign start free (List.mem_of_find?_eq_some hfind)
      (List.isPrefixOf_iff_prefix.1 (by simpa using hstarts))
  · rename_i hnone
    refine .stray start free fun s hs hstarts => List.find?_eq_none.1 hnone s hs ?_
    exact List.isPrefixOf_iff_prefix.2 hstarts

theorem branch_first (c : Char) (cs : List Char) : Branch c cs (first c cs) := by
  by_cases hgap : isGap c = true
  · exact first_gap hgap cs ▸ .gap hgap
  by_cases hident : isIdentStart c = true
  · exact first_word hident cs ▸ .word hident
  by_cases hdigit : c.isDigit = true
  · exact first_number hdigit cs ▸ .number hdigit
  by_cases hstring : c = '"'
  · subst hstring
    exact .string rfl
  by_cases hchar : c = '\x27'
  · subst hchar
    exact .char rfl
  by_cases hpre : c = '#'
  · subst hpre
    exact .preprocessor rfl
  by_cases hfree : NoComment (c :: cs)
  · exact branch_of_startsSign (by simp [startsSign, *]) hfree
  obtain ⟨rfl, d, cs, rfl, hd⟩ : c = '/' ∧ ∃ d cs', cs = d :: cs' ∧ (d = '/' ∨ d = '*') := by
    simp only [NoComment, not_forall] at hfree
    obtain ⟨hc, d, hd, hcomment⟩ := hfree
    obtain ⟨cs', rfl⟩ := List.head?_eq_some_iff.1 hd
    exact ⟨by simpa using hc, d, cs', rfl, by tauto⟩
  rcases hd with rfl | rfl
  · exact .lineComment rfl rfl
  · cases hbody : commentBody? cs with
    | some body => exact first_blockComment hbody ▸ .blockComment rfl rfl hbody
    | none => exact first_openComment hbody ▸ .openComment rfl rfl hbody

theorem written_of_first {c : Char} {cs w : List Char} {k : TokenKind}
    (h : first c cs = ⟨.token k, w⟩) (hk : k.isTrivia = false) : Written k w := by
  have hbranch := branch_first c cs
  generalize first c cs = l at h hbranch
  cases hbranch with
  | gap => cases h
  | word start =>
    unfold wordLexeme at h
    split at h
    · rename_i hstring
      rw [Bool.and_eq_true, List.contains_iff_mem] at hstring
      obtain ⟨rfl, body, hbody, rfl⟩ := literal_eq_token h
      exact .string (List.mem_cons_of_mem _ hstring.1) hbody
    · cases h
      exact .ident start fun d hd => List.mem_takeWhile_imp hd
  | number start =>
    cases h
    exact .number start fun d hd => List.mem_takeWhile_imp hd
  | string =>
    obtain ⟨rfl, body, hbody, rfl⟩ := literal_eq_token h
    exact .string (List.mem_cons_self ..) hbody
  | char =>
    obtain ⟨rfl, body, hbody, rfl⟩ := literal_eq_token h
    exact .char hbody
  | preprocessor | lineComment | blockComment =>
    cases h
    cases hk
  | openComment | stray => cases h
  | sign _ _ listed =>
    cases h
    exact .sign listed

/-! ### Longest signs -/

/-- Of the signs that the text starts with, the lexer takes a longest one. -/
theorem first?_of_sign {cs : List Char} {s : String × TokenKind} (hs : s ∈ signs)
    (hstarts : s.1.toList <+: cs) (free : NoComment cs) :
    ∃ s' ∈ signs, first? cs = some ⟨.token s'.2, s'.1.toList⟩ ∧ s'.1.toList <+: cs ∧
      ∀ x ∈ signs, x.1.toList <+: cs → x.1.toList.length ≤ s'.1.toList.length := by
  have hstart := startsSign_of_mem s hs
  cases hsign : s.1.toList with
  | nil =>
    rw [hsign] at hstart
    cases hstart
  | cons c w =>
    rw [hsign] at hstart hstarts
    obtain ⟨rest, rfl⟩ := hstarts
    have hstart : startsSign c = true := hstart
    rw [List.cons_append] at free ⊢
    rw [first?, first_of_startsSign hstart free]
    split
    · rename_i sign kind hfind
      refine ⟨(sign, kind), List.mem_of_find?_eq_some hfind, rfl, ?_, ?_⟩
      · exact List.isPrefixOf_iff_prefix.1 (by simpa using List.find?_some hfind)
      · intro x hx hxstarts
        exact length_le_of_find? signs_sorted hfind x hx (List.isPrefixOf_iff_prefix.2 hxstarts)
    · rename_i hnone
      refine absurd ?_ (List.find?_eq_none.1 hnone s hs)
      show s.1.toList.isPrefixOf (c :: (w ++ rest)) = true
      rw [hsign]
      exact List.isPrefixOf_iff_prefix.2 ⟨rest, rfl⟩

theorem slash_signs : ∀ s ∈ signs, s.1.toList.head? = some '/' → s.1 = "/" ∨ s.1 = "/=" := by
  decide

theorem noComment_of_sign {sign : String} {kind : TokenKind} (listed : (sign, kind) ∈ signs)
    (free : sign = "/" → ∀ d ∈ behind.head?, d ≠ '/' ∧ d ≠ '*') :
    NoComment (sign.toList ++ behind) := by
  intro hhead
  have hsign : sign.toList.head? = some '/' := by
    cases hcs : sign.toList with
    | nil =>
      have hstart := startsSign_of_mem _ listed
      rw [hcs] at hstart
      cases hstart
    | cons c cs =>
      rw [hcs] at hhead
      exact hhead
  rcases slash_signs _ listed hsign with rfl | rfl
  · exact free rfl
  · intro d hd
    cases hd
    decide

/-- Where a longer sign starts than the one that is listed, its rest comes next. -/
theorem exists_rest_of_longer {sign s : String} (hstarts : s.toList <+: sign.toList ++ behind)
    (hlonger : sign.toList.length < s.toList.length) :
    ∃ c cs, s.toList = sign.toList ++ c :: cs ∧ c :: cs <+: behind := by
  obtain ⟨rest, hrest⟩ := List.prefix_of_prefix_length_le (List.prefix_append sign.toList behind)
    hstarts hlonger.le
  rw [← hrest, List.prefix_append_right_inj] at hstarts
  rw [← hrest, List.length_append] at hlonger
  cases rest with
  | nil =>
    rw [List.length_nil] at hlonger
    omega
  | cons c cs => exact ⟨c, cs, hrest.symm, hstarts⟩

/-- A slash that is read as such starts no comment. -/
theorem free_of_first? (h : first? ('/' :: behind) = some ⟨.token .op, ['/']⟩) :
    ∀ d ∈ behind.head?, d ≠ '/' ∧ d ≠ '*' := by
  intro d hd
  obtain ⟨ds, rfl⟩ := List.head?_eq_some_iff.1 hd
  constructor
  · rintro rfl
    cases h
  · rintro rfl
    have h : first '/' ('*' :: ds) = ⟨.token .op, ['/']⟩ := Option.some.inj h
    cases hbody : commentBody? ds <;> simp [first, hbody, isGap, isIdentStart] at h

/-- A sign is read where no comment and no longer sign starts. -/
theorem first?_sign_iff {sign : String} {kind : TokenKind} (listed : (sign, kind) ∈ signs) :
    first? (sign.toList ++ behind) = some ⟨.token kind, sign.toList⟩ ↔
      (sign = "/" → ∀ d ∈ behind.head?, d ≠ '/' ∧ d ≠ '*') ∧
        ∀ s ∈ signs, ∀ c cs, s.1.toList = sign.toList ++ c :: cs → ¬ c :: cs <+: behind := by
  have hself : sign.toList <+: sign.toList ++ behind := List.prefix_append ..
  constructor
  · intro h
    have free : sign = "/" → ∀ d ∈ behind.head?, d ≠ '/' ∧ d ≠ '*' := by
      rintro rfl
      cases kind_of_sign _ listed ("/", .op) (by decide) rfl
      exact free_of_first? h
    refine ⟨free, fun s hs c cs hrest hbehind => ?_⟩
    obtain ⟨s', -, hfirst, -, hlongest⟩ := first?_of_sign listed hself (noComment_of_sign listed free)
    rw [h, Option.some.injEq, Lexeme.mk.injEq] at hfirst
    have hlonger := hlongest s hs (by rwa [hrest, List.prefix_append_right_inj])
    rw [← hfirst.2, hrest, List.length_append, List.length_cons] at hlonger
    omega
  · rintro ⟨free, longest⟩
    obtain ⟨s, hs, hfirst, hstarts, hlongest⟩ :=
      first?_of_sign listed hself (noComment_of_sign listed free)
    have hle : s.1.toList.length ≤ sign.toList.length := by
      by_contra hlonger
      obtain ⟨c, cs, hrest, hbehind⟩ := exists_rest_of_longer hstarts (by omega)
      exact longest s hs c cs hrest hbehind
    have hlength := Nat.le_antisymm hle (hlongest _ listed hself)
    have hsame : s.1.toList = sign.toList :=
      (List.prefix_of_prefix_length_le hstarts hself hle).eq_of_length hlength
    rw [hfirst, hsame, kind_of_sign s hs _ listed (String.toList_inj.1 hsame)]

/-- Whether no other sign starts with the sign, and no comment. -/
def isSolid (sign : String) : Bool :=
  sign != "/" && signs.all fun s => !sign.toList.isPrefixOf s.1.toList || s.1 == sign

theorem first?_of_solid {sign : String} {kind : TokenKind} (listed : (sign, kind) ∈ signs)
    (solid : isSolid sign = true) (behind : List Char) :
    first? (sign.toList ++ behind) = some ⟨.token kind, sign.toList⟩ := by
  rw [isSolid, Bool.and_eq_true, bne_iff_ne, List.all_eq_true] at solid
  refine (first?_sign_iff listed).2 ⟨fun h => absurd h solid.1, fun s hs c cs hsign _ => ?_⟩
  have hsame := solid.2 s hs
  rw [List.isPrefixOf_iff_prefix.2 ⟨c :: cs, hsign.symm⟩, Bool.not_true, Bool.false_or,
    beq_iff_eq] at hsame
  rw [hsame] at hsign
  simp at hsign

/-! ### Characters that end a token -/

/-- No token goes on with the character. -/
def breaks (c : Char) : Bool :=
  !isIdentRest c && !isNumberRest c && c != '"' && c != '/' && c != '*' &&
    signs.all fun (sign, _) => !sign.toList.tail.contains c

theorem Written.exists_cons {k : TokenKind} {w : List Char} (h : Written k w) :
    ∃ c cs, w = c :: cs ∧ isGap c = false := by
  cases h with
  | ident start _ => exact ⟨_, _, rfl, isGap_of_isIdentStart start⟩
  | number start _ => exact ⟨_, _, rfl, (isGap_of_isDigit start).1⟩
  | string leads _ =>
    simp only [encodings, List.mem_cons, List.not_mem_nil, or_false] at leads
    rcases leads with rfl | rfl | rfl | rfl | rfl <;> exact ⟨_, _, rfl, by decide⟩
  | char _ => exact ⟨_, _, rfl, by decide⟩
  | @sign sign kind listed =>
    have hstart := startsSign_of_mem _ listed
    cases hsign : sign.toList with
    | nil =>
      rw [hsign] at hstart
      cases hstart
    | cons c cs =>
      rw [hsign] at hstart
      have hstart : startsSign c = true := hstart
      simp only [startsSign, Bool.and_eq_true, Bool.not_eq_true'] at hstart
      exact ⟨c, cs, rfl, hstart.1.1.1.1.1⟩

theorem Written.first?_of_breaks {k : TokenKind} {w : List Char} (h : Written k w)
    (hb : ∀ c ∈ behind.head?, breaks c = true) : first? (w ++ behind) = some ⟨.token k, w⟩ := by
  have hb (c : Char) (hc : c ∈ behind.head?) := hb c hc
  simp only [breaks, Bool.and_eq_true, Bool.not_eq_true', bne_iff_ne, ne_eq, List.all_eq_true] at hb
  cases h with
  | ident start rest =>
    refine (first?_ident_iff start rest).2 ⟨fun d hd => (hb d hd).1.1.1.1.1, fun _ hquote => ?_⟩
    exact (hb _ hquote).1.1.1.2 rfl
  | number start rest =>
    exact (first?_number_iff start rest).2 fun d hd => (hb d hd).1.1.1.1.2
  | string leads inside => exact first?_string leads inside
  | char inside => exact first?_char inside
  | @sign sign kind listed =>
    refine (first?_sign_iff listed).2 ⟨fun _ d hd => ⟨(hb d hd).1.1.2, (hb d hd).1.2⟩, ?_⟩
    rintro s hs c cs hrest ⟨more, rfl⟩
    have hnone := (hb c rfl).2 s hs
    obtain ⟨c', cs', hsign, -⟩ := (Written.sign listed).exists_cons
    rw [hrest, hsign] at hnone
    simp at hnone

/-! ### Tokens -/

/-- The kind and the text of the token that a lexeme is, if it is one. -/
def shape? (l : Lexeme) : Option (TokenKind × String) := l.tokenKind?.map (·, .ofList l.text)

theorem Written.isTrivia_eq_false {k : TokenKind} {w : List Char} (h : Written k w) :
    k.isTrivia = false := by
  cases h with
  | ident | number | string | char => rfl
  | sign listed => exact isTrivia_of_sign _ listed

/-- What is read first is a token. -/
theorem filterMap_shape?_scan {k : TokenKind} {w cs : List Char}
    (h : first? cs = some ⟨.token k, w⟩) (hk : k.isTrivia = false) :
    (scan cs).filterMap shape? = (k, .ofList w) :: (scan (cs.drop w.length)).filterMap shape? := by
  rw [scan_eq_cons h, List.filterMap_cons_some]
  simp [shape?, tokenKind?, hk]

theorem Written.filterMap_shape?_scan {k : TokenKind} {w : List Char} (hw : Written k w)
    (h : first? (w ++ behind) = some ⟨.token k, w⟩) :
    (scan (w ++ behind)).filterMap shape? = (k, .ofList w) :: (scan behind).filterMap shape? := by
  rw [Lexeme.filterMap_shape?_scan h hw.isTrivia_eq_false, List.drop_left]

/-- A gap is passed over. -/
theorem filterMap_shape?_scan_gap {c : Char} {cs : List Char} (h : isGap c = true) :
    (scan (c :: cs)).filterMap shape? = (scan cs).filterMap shape? := by
  have hgap {c : Char} {cs : List Char} (h : isGap c = true) :
      (scan (c :: cs)).filterMap shape? = (scan (cs.dropWhile isGap)).filterMap shape? := by
    rw [scan_gap h, List.filterMap_cons_none rfl]
  rw [hgap h]
  cases cs with
  | nil => rfl
  | cons d ds =>
    by_cases hd : isGap d = true
    · rw [List.dropWhile_cons_of_pos hd, hgap hd]
    · rw [List.dropWhile_cons_of_neg hd]

theorem exists_first_of_mem_scan {cs : List Char} {l : Lexeme} (h : l ∈ scan cs) :
    ∃ c ds, l = first c ds := by
  fun_induction scan cs with
  | case1 => cases h
  | case2 c cs ih =>
    rcases List.mem_cons.1 h with rfl | h
    · exact ⟨c, cs, rfl⟩
    · exact ih h

theorem written_of_mem_scan {cs : List Char} {l : Lexeme} {s : TokenKind × String}
    (hl : l ∈ scan cs) (clean : l.kind ≠ .stray) (hs : l.shape? = some s) :
    Written s.1 s.2.toList := by
  obtain ⟨kind, hkind, rfl⟩ := Option.map_eq_some_iff.1 hs
  obtain ⟨c, ds, hfirst⟩ := exists_first_of_mem_scan hl
  obtain ⟨lkind, text⟩ := l
  rw [String.toList_ofList]
  cases lkind with
  | gap => cases hkind
  | openComment => cases hkind
  | stray => exact absurd rfl clean
  | token k =>
    unfold tokenKind? at hkind
    dsimp only at hkind
    split at hkind
    · cases hkind
    · rename_i htrivia
      cases hkind
      exact written_of_first hfirst.symm (by simpa using htrivia)

end Lexeme

namespace Token

/-- A token wherever it stands. -/
def shape (t : Token) : TokenKind × String := (t.kind, t.text)

theorem map_shape_tokens (line : Nat) (ls : List Lexeme) :
    (Lexeme.tokens line ls).map shape = ls.filterMap Lexeme.shape? := by
  induction ls generalizing line with
  | nil => rfl
  | cons l ls ih =>
    rw [Lexeme.tokens]
    cases hkind : l.tokenKind? with
    | none =>
      have hshape : l.shape? = none := by rw [Lexeme.shape?, hkind, Option.map_none]
      rw [List.filterMap_cons_none hshape]
      exact ih _
    | some kind =>
      have hshape : l.shape? = some (kind, .ofList l.text) := by
        rw [Lexeme.shape?, hkind, Option.map_some]
      rw [List.filterMap_cons_some hshape, List.map_cons, ih]
      rfl

theorem map_shape_tokenize (source : String) (line : Nat) :
    (tokenize source line).map shape = (Lexeme.scan source.toList).filterMap Lexeme.shape? :=
  map_shape_tokens ..

theorem written_of_mem_tokenize {source : String} {line : Nat}
    (clean : ∀ l ∈ Lexeme.scan source.toList, l.kind ≠ .stray) :
    ∀ t ∈ tokenize source line, Lexeme.Written t.kind t.text.toList := by
  intro t ht
  have hshape := List.mem_map_of_mem (f := shape) ht
  rw [map_shape_tokenize] at hshape
  obtain ⟨l, hl, hs⟩ := List.mem_filterMap.1 hshape
  exact Lexeme.written_of_mem_scan hl (clean l hl) hs

/-- Every token but a sign is written as one. -/
theorem written_of_kind {source : String} {line : Nat} {t : Token} (h : t ∈ tokenize source line)
    (kind : t.kind ≠ .op) : Lexeme.Written t.kind t.text.toList := by
  have hshape := List.mem_map_of_mem (f := shape) h
  rw [map_shape_tokenize] at hshape
  obtain ⟨l, hl, hs⟩ := List.mem_filterMap.1 hshape
  refine Lexeme.written_of_mem_scan hl (fun hstray => kind ?_) hs
  obtain ⟨k, hk, hkind⟩ := Option.map_eq_some_iff.1 hs
  rw [Lexeme.tokenKind?, hstray] at hk
  cases hk
  exact (congrArg Prod.fst hkind).symm

/-- A word is not empty, and each of its characters can stand in a word. -/
theorem word_of_ident {source : String} {line : Nat} {t : Token} (h : t ∈ tokenize source line)
    (ident : t.kind = .ident) :
    t.text ≠ "" ∧ ∀ c ∈ t.text.toList, Text.isIdentRest c = true := by
  have hwritten := written_of_kind h (by rw [ident]; decide)
  rw [ident] at hwritten
  generalize hcs : t.text.toList = cs at hwritten
  cases hwritten with
  | @ident c cs start rest =>
    refine ⟨?_, List.forall_mem_cons.2 ⟨?_, rest⟩⟩
    · intro hempty
      rw [hempty] at hcs
      cases hcs
    · rcases Bool.or_eq_true_iff.1 start with hletter | hunderscore
      · simp [Text.isIdentRest, hletter]
      · simp [Text.isIdentRest, hunderscore]
  | sign listed => exact absurd rfl (Lexeme.ne_ident_of_sign _ listed)

end Token

end AnnotatedHeader
