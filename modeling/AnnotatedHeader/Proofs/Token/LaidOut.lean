import AnnotatedHeader.Proofs.Token.Joined
import AnnotatedHeader.Proofs.Token.Lexes

/-! Tokens written out, with gaps among them.

Such a text (`LaidOut`) need not be read as its tokens: where nothing separates them, some can
read as one. But no character of a token is lost then, and so a reading that has as many
characters as the text takes it token by token (`LaidOut.peel`). -/
namespace AnnotatedHeader

namespace Lexeme

/-! ### Characters that are no gaps -/

def weight (cs : List Char) : Nat := cs.countP (!isGap ·)

def weightOf (ss : List (TokenKind × String)) : Nat := (ss.map fun s => weight s.2.toList).sum

theorem weight_append (cs ds : List Char) : weight (cs ++ ds) = weight cs + weight ds :=
  List.countP_append

theorem weightOf_append (ss us : List (TokenKind × String)) :
    weightOf (ss ++ us) = weightOf ss + weightOf us := by
  simp [weightOf]

theorem weightOf_cons (s : TokenKind × String) (ss : List (TokenKind × String)) :
    weightOf (s :: ss) = weight s.2.toList + weightOf ss := rfl

theorem weightOf_perm {ss us : List (TokenKind × String)} (h : ss.Perm us) : weightOf ss = weightOf us :=
  (h.map _).sum_nat

/-- What is read of a text is no heavier than the text. -/
theorem weightOf_scan_le (cs : List Char) : weightOf ((scan cs).filterMap shape?) ≤ weight cs := by
  fun_induction scan cs with
  | case1 => exact Nat.le_refl _
  | case2 c cs ih =>
    have hsplit := List.prefix_iff_eq_append.1 (first_isPrefix c cs)
    conv => rhs; rw [← hsplit, weight_append]
    cases hshape : shape? (first c cs) with
    | none =>
      rw [List.filterMap_cons_none hshape]
      omega
    | some s =>
      obtain ⟨kind, -, rfl⟩ := Option.map_eq_some_iff.1 hshape
      rw [List.filterMap_cons_some hshape, weightOf_cons, String.toList_ofList]
      omega

/-- Such tokens are read, and no other characters are there but gaps. -/
structure Exact (cs : List Char) (ss : List (TokenKind × String)) : Prop where
  shapes : (scan cs).filterMap shape? = ss
  weight : weight cs = weightOf ss

variable {cs ds rest behind w : List Char} {k : TokenKind}

/-! ### One token -/

/-- A token that ends in front of some code ends in front of the first part of it. -/
theorem Written.first?_of_append (hw : Written k w)
    (h : first? (w ++ (rest ++ behind)) = some ⟨.token k, w⟩) :
    first? (w ++ rest) = some ⟨.token k, w⟩ := by
  have hhead {d : Char} (hd : d ∈ rest.head?) : d ∈ (rest ++ behind).head? := by
    obtain ⟨ds, rfl⟩ := List.head?_eq_some_iff.1 hd
    rfl
  cases hw with
  | ident start word =>
    obtain ⟨hends, hbare⟩ := (first?_ident_iff start word).1 h
    exact (first?_ident_iff start word).2
      ⟨fun d hd => hends d (hhead hd), fun hlead hquote => hbare hlead (hhead hquote)⟩
  | number start word =>
    have hends := (first?_number_iff start word).1 h
    exact (first?_number_iff start word).2 fun d hd => hends d (hhead hd)
  | string leads inside => exact first?_string leads inside
  | char inside => exact first?_char inside
  | sign listed =>
    obtain ⟨hfree, hlongest⟩ := (first?_sign_iff listed).1 h
    refine (first?_sign_iff listed).2 ⟨fun hslash d hd => hfree hslash d (hhead hd), ?_⟩
    exact fun s hs c cs hsign hstarts =>
      hlongest s hs c cs hsign (hstarts.trans (List.prefix_append ..))

/-- A kind of tokens with one sign only. -/
theorem Written.eq_sign (hw : Written k w) {sign : String}
    (word : k ∉ [TokenKind.ident, .number, .string, .char]) (only : ∀ s ∈ signs, s.2 = k → s.1 = sign) :
    w = sign.toList := by
  cases hw with
  | sign listed => exact congrArg String.toList (only _ listed rfl)
  | ident | number | string | char => simp at word

/-- Where a sign starts there is a sign or a comment. -/
theorem kind_of_sign_isPrefix {s : String × TokenKind} {l : Lexeme} (hs : s ∈ signs)
    (hstarts : s.1.toList <+: cs) (h : first? cs = some l) : l.kind ≠ .stray := by
  by_cases free : NoComment cs
  · obtain ⟨s', -, hfirst, -⟩ := first?_of_sign hs hstarts free
    rw [h] at hfirst
    cases hfirst
    exact Kind.noConfusion
  · obtain ⟨hslash, d, hd, hcomment⟩ : cs.head? = some '/' ∧ ∃ d ∈ cs.tail.head?, ¬ (d ≠ '/' ∧ d ≠ '*') := by
      simpa [NoComment] using free
    obtain ⟨ds, rfl⟩ := List.head?_eq_some_iff.1 hslash
    obtain ⟨ds, rfl⟩ := List.head?_eq_some_iff.1 hd
    obtain rfl | rfl : d = '/' ∨ d = '*' := by
      by_cases hd : d = '/'
      · exact .inl hd
      · exact .inr (by_contra fun hstar => hcomment ⟨hd, hstar⟩)
    · cases h
      exact Kind.noConfusion
    · have h : first '/' ('*' :: ds) = l := Option.some.inj h
      rw [← h]
      cases hbody : commentBody? ds <;> simp [first, hbody, isGap, Text.isIdentStart]

/-- A lexeme that is no token would take the first character with it. -/
theorem Exact.shape?_first {c : Char} {s : TokenKind × String} {ss : List (TokenKind × String)}
    (hc : isGap c = false) (h : Exact (c :: cs) (s :: ss)) : shape? (first c cs) = some s := by
  obtain ⟨hshapes, hweight⟩ := h
  have hscan : scan (c :: cs) =
      first c cs :: scan ((c :: cs).drop (first c cs).text.length) := scan_eq_cons rfl
  obtain ⟨rest, hrest⟩ := first_isPrefix c cs
  rw [hscan] at hshapes
  cases hshape : shape? (first c cs) with
  | some s' =>
    rw [List.filterMap_cons_some hshape] at hshapes
    exact congrArg some (List.cons.inj hshapes).1
  | none =>
    have hsolid : 0 < Lexeme.weight (first c cs).text := by
      have hpresent : (first c cs).text ≠ [] :=
        ne_nil_of_mem_scan (hscan ▸ List.mem_cons_self ..)
      obtain ⟨d, text, htext⟩ := List.exists_cons_of_ne_nil hpresent
      rw [htext] at hrest ⊢
      obtain rfl : d = c := (List.cons.inj hrest).1
      exact List.countP_pos_iff.2 ⟨d, List.mem_cons_self .., by simp [hc]⟩
    have hle := weightOf_scan_le rest
    rw [List.filterMap_cons_none hshape, ← hrest, List.drop_left] at hshapes
    rw [← hrest, weight_append, ← hshapes] at hweight
    omega

/-- A token that a text starts with, and that is read first, is the first lexeme. -/
theorem Written.first?_of_exact (hw : Written k w) {ss : List (TokenKind × String)}
    (h : Exact (w ++ ds) ((k, .ofList w) :: ss)) : first? (w ++ ds) = some ⟨.token k, w⟩ := by
  obtain ⟨c, cs, rfl, hc⟩ := hw.exists_cons
  have hshape : shape? (first c (cs ++ ds)) = some (k, .ofList (c :: cs)) := h.shape?_first hc
  have hfirst : first? (c :: cs ++ ds) = some (first c (cs ++ ds)) := rfl
  rw [hfirst, Option.some.injEq]
  generalize first c (cs ++ ds) = l at hshape hfirst
  obtain ⟨kind, text⟩ := l
  obtain ⟨kind', hkind, hpair⟩ := Option.map_eq_some_iff.1 hshape
  rw [Prod.mk.injEq, String.ofList_inj] at hpair
  obtain ⟨rfl, rfl⟩ := hpair
  cases kind with
  | token kind =>
    unfold tokenKind? at hkind
    dsimp only at hkind
    split at hkind
    · cases hkind
    · cases hkind
      rfl
  | stray =>
    cases hkind
    generalize hw' : c :: cs = w at hw
    cases hw with
    | sign listed =>
      exact absurd rfl (kind_of_sign_isPrefix listed (hw' ▸ List.prefix_append ..) hfirst)
  | gap | openComment => cases hkind

/-! ### Gaps, signs and comments -/

theorem shapes_gaps (blank : ∀ c ∈ cs, isGap c = true) :
    (scan (cs ++ ds)).filterMap shape? = (scan ds).filterMap shape? := by
  induction cs with
  | nil => rfl
  | cons c cs ih =>
    obtain ⟨hc, hcs⟩ := List.forall_mem_cons.1 blank
    rw [List.cons_append, filterMap_shape?_scan_gap hc, ih hcs]

theorem weight_gaps (blank : ∀ c ∈ cs, isGap c = true) : weight cs = 0 :=
  List.countP_eq_zero.2 fun c hc => by simp [blank c hc]

theorem Exact.of_gaps {ss : List (TokenKind × String)} (blank : ∀ c ∈ cs, isGap c = true)
    (h : Exact (cs ++ ds) ss) : Exact ds ss := by
  obtain ⟨hshapes, hweight⟩ := h
  rw [shapes_gaps blank] at hshapes
  rw [weight_append, weight_gaps blank, Nat.zero_add] at hweight
  exact ⟨hshapes, hweight⟩

/-- Brackets, commas and semicolons are read wherever they stand. -/
theorem shapes_sign (sign : String) {kind : TokenKind} (listed : (sign, kind) ∈ signs)
    (solid : isSolid sign = true) (ds : List Char) :
    (scan (sign.toList ++ ds)).filterMap shape? = (kind, sign) :: (scan ds).filterMap shape? := by
  rw [(Written.sign listed).filterMap_shape?_scan (first?_of_solid listed solid ds), String.ofList_toList]

theorem Exact.of_sign (sign : String) {kind : TokenKind} (listed : (sign, kind) ∈ signs)
    (solid : isSolid sign = true) {ss : List (TokenKind × String)}
    (h : Exact (sign.toList ++ ds) ((kind, sign) :: ss)) : Exact ds ss := by
  obtain ⟨hshapes, hweight⟩ := h
  rw [shapes_sign sign listed solid, List.cons.injEq] at hshapes
  rw [weight_append, weightOf_cons] at hweight
  exact ⟨hshapes.2, Nat.add_left_cancel hweight⟩

/-- A comment ends with its line. -/
theorem shapes_comment {cs : List Char} (unbroken : '\n' ∉ cs) (ds : List Char) :
    (scan ('/' :: '/' :: cs ++ '\n' :: ds)).filterMap shape? = (scan ds).filterMap shape? := by
  have htake : (cs ++ '\n' :: ds).takeWhile (· != '\n') = cs := by
    rw [List.takeWhile_append_of_pos fun c hc => bne_iff_ne.2 (by rintro rfl; exact unbroken hc)]
    simp
  have hfirst : first? ('/' :: '/' :: cs ++ '\n' :: ds) =
      some ⟨.token .lineComment, '/' :: '/' :: (cs ++ '\n' :: ds).takeWhile (· != '\n')⟩ := rfl
  rw [htake] at hfirst
  rw [scan_append hfirst, List.filterMap_cons_none rfl, filterMap_shape?_scan_gap (by decide)]

/-! ### Tokens in a row -/

/-- Tokens are read in front of a character that ends any token. -/
theorem Lexes.shapes_append {ss : List (TokenKind × String)} (h : Lexes cs ss)
    (hb : ∀ c ∈ behind.head?, breaks c = true) :
    (scan (cs ++ behind)).filterMap shape? = ss ++ (scan behind).filterMap shape? := by
  induction h with
  | nil => rfl
  | gap blank _ ih => rw [List.cons_append, filterMap_shape?_scan_gap blank, ih]
  | token written ends _ ih =>
    rw [List.append_assoc, written.filterMap_shape?_scan (written.first?_append ends hb), ih,
      List.cons_append]

end Lexeme

open Lexeme

namespace Token

/-- The tokens of a text. -/
def reading (text : String) : List (TokenKind × String) := (tokenize text 1).map shape

theorem reading_eq (text : String) : reading text = (scan text.toList).filterMap shape? :=
  map_shape_tokenize ..

/-- The text has these tokens, and gaps before, between and behind them. -/
inductive LaidOut : List Token → List Char → Prop where
  | nil : LaidOut [] []
  | gap {c : Char} {ts : List Token} {cs : List Char} (blank : isGap c = true) (rest : LaidOut ts cs) :
      LaidOut ts (c :: cs)
  | token {ts : List Token} {cs : List Char} (t : Token) (rest : LaidOut ts cs) :
      LaidOut (t :: ts) (t.text.toList ++ cs)

namespace LaidOut
variable {t : Token} {ts us : List Token} {cs ds : List Char}

theorem single (t : Token) : LaidOut [t] t.text.toList := by
  simpa using LaidOut.token t .nil

theorem append (h : LaidOut ts cs) (h' : LaidOut us ds) : LaidOut (ts ++ us) (cs ++ ds) := by
  induction h with
  | nil => exact h'
  | gap blank _ ih => exact .gap blank ih
  | token t _ ih =>
    rw [List.append_assoc]
    exact .token t ih

theorem of_gaps (blank : ∀ c ∈ cs, isGap c = true) : LaidOut [] cs := by
  induction cs with
  | nil => exact .nil
  | cons c cs ih =>
    obtain ⟨hc, hcs⟩ := List.forall_mem_cons.1 blank
    exact .gap hc (ih hcs)

theorem joinAfter (before : Option Token) (prev : Token) (ts : List Token) :
    LaidOut ts (Token.joinAfter before prev ts).toList := by
  induction ts generalizing before prev with
  | nil => exact .nil
  | cons t ts ih =>
    have hrest : LaidOut (t :: ts) (t.text.toList ++ (Token.joinAfter (some prev) t ts).toList) :=
      .token t (ih ..)
    rw [Token.joinAfter, String.toList_append, String.toList_append, List.append_assoc]
    split
    · exact .gap (by decide) hrest
    · exact hrest

theorem join (ts : List Token) : LaidOut ts (Token.join ts).toList := by
  cases ts with
  | nil => exact .nil
  | cons t ts =>
    rw [Token.join, String.toList_append]
    exact .token t (.joinAfter ..)

/-- Nothing stands between the tokens. -/
theorem texts (ts : List Token) : LaidOut ts (String.join (ts.map (·.text))).toList := by
  induction ts with
  | nil => exact .nil
  | cons t ts ih =>
    rw [List.map_cons, String.join_cons, String.toList_append]
    exact .token t ih

theorem exists_append (h : LaidOut (ts ++ us) cs) :
    ∃ as bs, cs = as ++ bs ∧ LaidOut ts as ∧ LaidOut us bs := by
  induction ts generalizing cs with
  | nil => exact ⟨[], cs, rfl, .nil, h⟩
  | cons t ts ih =>
    rw [List.cons_append] at h
    generalize hvs : t :: (ts ++ us) = vs at h
    induction h with
    | nil => cases hvs
    | gap blank _ ihGap =>
      obtain ⟨as, bs, rfl, has, hbs⟩ := ihGap hvs
      exact ⟨_ :: as, bs, rfl, .gap blank has, hbs⟩
    | token t' rest =>
      cases hvs
      obtain ⟨as, bs, rfl, has, hbs⟩ := ih rest
      exact ⟨_, bs, (List.append_assoc ..).symm, .token t has, hbs⟩

theorem weight_eq (h : LaidOut ts cs) : weight cs = weightOf (ts.map shape) := by
  induction h with
  | nil => rfl
  | gap blank _ ih => simpa [weight, blank] using ih
  | token t _ ih => rw [weight_append, ih, List.map_cons, weightOf_cons, shape]

/-- **A text that is read without a loss is read token for token.** -/
theorem peel {ss : List (TokenKind × String)} (h : LaidOut ts cs)
    (written : ∀ t ∈ ts, Written t.kind t.text.toList) (exact : Exact (cs ++ ds) (ts.map shape ++ ss)) :
    Lexes cs (ts.map shape) ∧ Exact ds ss := by
  induction h with
  | nil => exact ⟨.nil, exact⟩
  | gap blank _ ih =>
    obtain ⟨hlexes, hrest⟩ := ih written (.of_gaps (List.forall_mem_singleton.2 blank) exact)
    exact ⟨.gap blank hlexes, hrest⟩
  | @token ts cs t _ ih =>
    obtain ⟨ht, hts⟩ := List.forall_mem_cons.1 written
    have hshape : shape t = (t.kind, .ofList t.text.toList) := by
      rw [shape, String.ofList_toList]
    rw [List.append_assoc, List.map_cons, List.cons_append, hshape] at exact
    have hfirst := ht.first?_of_exact exact
    obtain ⟨hlexes, hrest⟩ := ih hts
      ⟨by simpa [ht.filterMap_shape?_scan hfirst] using exact.shapes, by
        simpa [weight_append, weightOf_cons] using exact.weight⟩
    rw [List.map_cons, hshape]
    exact ⟨.token ht (ht.first?_of_append hfirst) hlexes, hrest⟩

theorem lexes_of_shapes (h : LaidOut ts cs) (written : ∀ t ∈ ts, Written t.kind t.text.toList)
    (shapes : (scan cs).filterMap shape? = ts.map shape) : Lexes cs (ts.map shape) := by
  have hexact : Exact (cs ++ []) (ts.map shape ++ []) :=
    ⟨by simpa using shapes, by simpa using h.weight_eq⟩
  exact (h.peel written hexact).1

/-- A bracket that comes first is read first. -/
theorem shapes_of_solid (h : LaidOut (t :: ts) cs) (listed : (t.text, t.kind) ∈ signs)
    (solid : isSolid t.text = true) :
    ∃ ss, (scan (cs ++ ds)).filterMap shape? = shape t :: ss := by
  generalize hus : t :: ts = us at h
  induction h with
  | nil => cases hus
  | gap blank _ ih =>
    obtain ⟨ss, hss⟩ := ih hus
    exact ⟨ss, (filterMap_shape?_scan_gap blank).trans hss⟩
  | @token _ cs t' _ =>
    cases hus
    refine ⟨(scan (cs ++ ds)).filterMap shape?, ?_⟩
    rw [List.append_assoc, (Written.sign listed).filterMap_shape?_scan (first?_of_solid listed solid _),
      String.ofList_toList]
    rfl

end LaidOut

/-- The token of a kind with one sign only. -/
theorem shape_of_sign {t : Token} {kind : TokenKind} {sign : String} (hkind : t.kind = kind)
    (written : Written t.kind t.text.toList) (word : kind ∉ [TokenKind.ident, .number, .string, .char])
    (only : ∀ s ∈ signs, s.2 = kind → s.1 = sign) : shape t = (kind, sign) := by
  rw [hkind] at written
  rw [shape, hkind, String.toList_inj.1 (written.eq_sign word only)]

/-! ### Parts of joined tokens -/

variable {before : Option Token} {x : Token} {ts us : List Token}

theorem lexes_single (written : Written x.kind x.text.toList) : Lexes x.text.toList [shape x] := by
  have hends : first? (x.text.toList ++ []) = some ⟨.token x.kind, x.text.toList⟩ :=
    written.first?_of_breaks (by simp)
  simpa [shape] using Lexes.token written hends .nil

theorem blends_append {a b : Token} (h : blends a b ts.head? = true) :
    blends a b (ts ++ us).head? = true := by
  cases ts with
  | cons t ts => exact h
  | nil =>
    unfold blends at h ⊢
    rw [List.head?_nil, Option.any_none, Bool.and_false, Bool.or_false] at h
    rw [Bool.or_eq_true, Bool.or_eq_true, Bool.and_eq_true (a.isOp ".")] at h ⊢
    exact h.imp_left (Or.imp_right fun hdot => ⟨hdot.1, by rw [hdot.2, Bool.true_or]⟩)

theorem runsTogether_left (h : runsTogether before (ts ++ us) = false) :
    runsTogether before ts = false := by
  induction ts generalizing before with
  | nil => rfl
  | cons a ts ih =>
    cases ts with
    | nil => rfl
    | cons b ts =>
      rw [List.cons_append, List.cons_append, runsTogether, Bool.or_eq_false_iff] at h
      rw [runsTogether, ih h.2, Bool.or_false]
      by_contra hblends
      rw [Bool.not_eq_false, Bool.and_eq_true] at hblends
      rw [hblends.1, blends_append hblends.2] at h
      cases h.1

theorem runsTogether_right (h : runsTogether before (ts ++ x :: us) = false) :
    runsTogether (some x) us = false := by
  induction ts generalizing before with
  | nil =>
    cases us with
    | nil => rfl
    | cons u us =>
      rw [List.nil_append, runsTogether, Bool.or_eq_false_iff] at h
      exact h.2
  | cons a ts ih =>
    cases ts with
    | nil =>
      rw [List.cons_append, List.nil_append, runsTogether, Bool.or_eq_false_iff] at h
      exact ih h.2
    | cons b ts =>
      rw [List.cons_append, List.cons_append, runsTogether, Bool.or_eq_false_iff] at h
      exact ih h.2

/-- What follows such a sign is joined as at the start. -/
def startsAfresh (t : Token) : Prop := t.kind = .lparen ∨ t.kind = .comma ∨ t.kind = .equals

theorem needsSpace_afresh (h : x.startsAfresh) (a b : Token) :
    needsSpace (some x) a b = needsSpace none a b := by
  have hkind : startsOperand (some x) = true ∧ x.isIdent "operator" = false := by
    rcases h with h | h | h <;> simp [startsOperand, isIdent, h]
  have hspaced : spaced (some x) a b = spaced none a b := by
    unfold spaced
    rw [Option.any_some, hkind.2, Option.any_none]
  unfold needsSpace isUnary
  rw [hspaced, hkind.1]
  rfl

theorem runsTogether_afresh (h : x.startsAfresh) (ts : List Token) :
    runsTogether (some x) ts = runsTogether none ts := by
  match ts with
  | [] | [_] => rfl
  | a :: b :: ts => rw [runsTogether, runsTogether, needsSpace_afresh h]

theorem lexes_join (written : ∀ t ∈ ts, Written t.kind t.text.toList)
    (apart : runsTogether none ts = false) : Lexes (join ts).toList (ts.map shape) :=
  (LaidOut.join ts).lexes_of_shapes written ((map_shape_scan_join_iff written).2 apart)

end Token

end AnnotatedHeader
