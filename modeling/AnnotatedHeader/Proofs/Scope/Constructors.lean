import AnnotatedHeader.Proofs.Scope.Bodies
import AnnotatedHeader.Proofs.Scope.Takes
import AnnotatedHeader.Proofs.Statement.Nested

/-! Constructors and their initializers.

Behind the parameters and the colon of a constructor, a brace opens an initializer if a member's
name stands in front of it, and the body if a group does (`ConstructorHead.braceRole_tokens`). What
is in a group is passed over, whatever it is, up to the sign that closes the group. So members and
groups in turn are collected to the body's own brace, however many there are, and the constructor
is declared with what stands in front of the colon (`declare_constructor`). -/
namespace AnnotatedHeader

/-! ### Brackets of one kind -/

namespace Token

/-- Whether the closing sign comes as often as the opening one, and behind it; `depth` counts those
that are open in front of the tokens. -/
def closesFrom (opening closing : TokenKind) (depth : Nat) : List Token → Bool
  | [] => depth == 0
  | t :: ts =>
    if t.kind = opening then closesFrom opening closing (depth + 1) ts
    else if t.kind = closing then depth != 0 && closesFrom opening closing (depth - 1) ts
    else closesFrom opening closing depth ts

/-- The first token opens, or closes what was open, or is another sign. -/
theorem closesFrom_cons {opening closing : TokenKind} {depth : Nat} {t : Token} {ts : List Token}
    (h : closesFrom opening closing depth (t :: ts) = true) :
    (t.kind = opening ∧ closesFrom opening closing (depth + 1) ts = true) ∨
      (t.kind = closing ∧ ∃ outer, depth = outer + 1 ∧ closesFrom opening closing outer ts = true) ∨
      (t.kind ≠ opening ∧ t.kind ≠ closing ∧ closesFrom opening closing depth ts = true) := by
  rw [closesFrom] at h
  split at h
  · exact .inl ⟨by assumption, h⟩
  · split at h
    · rw [Bool.and_eq_true, bne_iff_ne] at h
      obtain ⟨outer, rfl⟩ := Nat.exists_eq_succ_of_ne_zero h.1
      exact .inr (.inl ⟨by assumption, outer, rfl, h.2⟩)
    · exact .inr (.inr ⟨by assumption, by assumption, h⟩)

theorem eq_zero_of_closesFrom_nil {opening closing : TokenKind} {depth : Nat}
    (h : closesFrom opening closing depth [] = true) : depth = 0 := by
  simpa [closesFrom] using h

/-- The tokens close what they open, whatever stands between brackets of one kind. -/
structure Paired (ts : List Token) : Prop where
  parens : closesFrom .lparen .rparen 0 ts = true
  brackets : closesFrom .lbracket .rbracket 0 ts = true
  braces : closesFrom .lbrace .rbrace 0 ts = true

end Token

open Token (closesFrom Paired)

theorem splitClose?_of_closesFrom {depth : Nat} {ts : List Token}
    (h : closesFrom .lparen .rparen depth ts = true) {closing : Token} (closes : closing.kind = .rparen)
    (behind : List Token) : splitClose? depth (ts ++ closing :: behind) = some (ts, behind) := by
  induction ts generalizing depth with
  | nil => simp [splitClose?, Token.eq_zero_of_closesFrom_nil h, closes]
  | cons t ts ih =>
    rw [List.cons_append]
    rcases Token.closesFrom_cons h with ⟨hkind, hts⟩ | ⟨hkind, outer, rfl, hts⟩ | ⟨hopens, hcloses, hts⟩
    · simp [splitClose?, hkind, ih hts]
    · simp [splitClose?, hkind, ih hts]
    · unfold splitClose?
      split <;> simp_all

theorem Piece.balancedFrom_tokens (depth : Nat) (ts : List Token) :
    balancedFrom depth (ts.map .token) = closesFrom .lbrace .rbrace depth ts := by
  induction ts generalizing depth with
  | nil => rfl
  | cons t ts ih =>
    rw [List.map_cons, balancedFrom, ih, closesFrom]
    unfold braceDepth
    cases t.kind <;> simp [bne]

namespace Statement

/-! ### Collecting -/

def pushAll (s : Statement) (ts : List Token) : Statement := { s with tokens := s.tokens ++ ts }

@[simp] theorem pushAll_nil (s : Statement) : s.pushAll [] = s := by
  unfold pushAll
  rw [List.append_nil]

@[simp] theorem pushAll_pushAll (s : Statement) (ts us : List Token) :
    (s.pushAll ts).pushAll us = s.pushAll (ts ++ us) := by
  unfold pushAll
  rw [List.append_assoc]

theorem push_eq (s : Statement) (t : Token) : s.push t = s.pushAll [t] := rfl

@[simp] theorem tokens_pushAll (s : Statement) (ts : List Token) :
    (s.pushAll ts).tokens = s.tokens ++ ts := rfl

/-- A token that ends nothing goes to the statement. -/
theorem collect_token {depth braces : Nat} {s : Statement} {t : Token}
    (goesOn : s.step depth braces t.kind = .goesOn) (ps : List Piece) :
    collect depth braces s (.token t :: ps) =
      collect (depthsAfter depth braces t.kind).1 (depthsAfter depth braces t.kind).2
        (s.pushAll [t]) ps := by
  rw [collect, goesOn, push_eq]

/-- Signs that open and close nothing are collected as they come. -/
theorem collect_signs {ts : List Token} (h : ∀ t ∈ ts,
    t.kind.opens = false ∧ t.kind.closes = false ∧ t.kind ≠ .semi) (s : Statement) (ps : List Piece) :
    collect 0 0 s (ts.map .token ++ ps) = collect 0 0 (s.pushAll ts) ps := by
  induction ts generalizing s with
  | nil => rw [List.map_nil, List.nil_append, pushAll_nil]
  | cons t ts ih =>
    obtain ⟨⟨hopens, hcloses, hsemi⟩, hts⟩ := List.forall_mem_cons.1 h
    have hstep : s.step 0 0 t.kind = .goesOn ∧ depthsAfter 0 0 t.kind = (0, 0) := by
      unfold step depthsAfter parenDepth
      cases hkind : t.kind <;> rw [hkind] at hopens hcloses hsemi <;>
        first | exact ⟨rfl, rfl⟩ | exact absurd rfl hsemi | exact absurd hopens (by decide) |
          exact absurd hcloses (by decide)
    rw [List.map_cons, List.cons_append, collect_token hstep.1, hstep.2, ih hts, pushAll_pushAll]
    rfl

/-- In parentheses everything is collected up to the sign that closes them. -/
theorem collect_parens {parens brackets more : Nat} {ts : List Token} (hmore : more ≠ 0)
    (hparens : closesFrom .lparen .rparen parens ts = true)
    (hbrackets : closesFrom .lbracket .rbracket brackets ts = true) (s : Statement) (ps : List Piece) :
    collect (parens + brackets + more) 0 s (ts.map .token ++ ps) =
      collect more 0 (s.pushAll ts) ps := by
  induction ts generalizing parens brackets s with
  | nil =>
    rw [Token.eq_zero_of_closesFrom_nil hparens, Token.eq_zero_of_closesFrom_nil hbrackets,
      Nat.zero_add, pushAll_nil]
    rfl
  | cons t ts ih =>
    have hopen : parens + brackets + more ≠ 0 := by omega
    have hdepths : depthsAfter (parens + brackets + more) 0 t.kind =
        (parenDepth (parens + brackets + more) t.kind, 0) := by
      unfold depthsAfter
      rw [if_pos]
      simp [hmore]
    have hnext {p b : Nat} (hp : closesFrom .lparen .rparen p ts = true)
        (hb : closesFrom .lbracket .rbracket b ts = true)
        (hdepth : parenDepth (parens + brackets + more) t.kind = p + b + more) :
        collect (parenDepth (parens + brackets + more) t.kind) 0 (s.pushAll [t]) (ts.map .token ++ ps) =
          collect more 0 (s.pushAll (t :: ts)) ps := by
      rw [hdepth, ih hp hb, pushAll_pushAll]
      rfl
    rw [List.map_cons, List.cons_append, collect_token (step_of_open s _ (.inl hopen)), hdepths]
    rcases Token.closesFrom_cons hparens with ⟨hkind, hp⟩ | ⟨hkind, outer, rfl, hp⟩ | ⟨hl, hr, hp⟩ <;>
      rcases Token.closesFrom_cons hbrackets with ⟨hkind', hb⟩ | ⟨hkind', outer', rfl, hb⟩ | ⟨hl', hr', hb⟩
    · cases hkind.symm.trans hkind'
    · cases hkind.symm.trans hkind'
    · exact hnext hp hb (by rw [hkind, parenDepth]; omega)
    · cases hkind.symm.trans hkind'
    · cases hkind.symm.trans hkind'
    · exact hnext hp hb (by rw [hkind, parenDepth]; omega)
    · exact hnext hp hb (by rw [hkind', parenDepth]; omega)
    · exact hnext hp hb (by rw [hkind', parenDepth]; omega)
    · exact hnext hp hb (by unfold parenDepth; split <;> simp_all)

/-- In an initializer's braces everything is collected up to the brace that closes them. -/
theorem collect_braces {braces more : Nat} {ts : List Token} (hmore : more ≠ 0)
    (h : closesFrom .lbrace .rbrace braces ts = true) (s : Statement) (ps : List Piece) :
    collect 0 (braces + more) s (ts.map .token ++ ps) = collect 0 more (s.pushAll ts) ps := by
  induction ts generalizing braces s with
  | nil =>
    rw [Token.eq_zero_of_closesFrom_nil h, Nat.zero_add, pushAll_nil]
    rfl
  | cons t ts ih =>
    have hopen : braces + more ≠ 0 := by omega
    have hdepths : depthsAfter 0 (braces + more) t.kind = (0, braceDepth (braces + more) t.kind) := by
      unfold depthsAfter
      rw [if_neg]
      simp [hmore]
    have hnext {outer : Nat} (h : closesFrom .lbrace .rbrace outer ts = true)
        (hdepth : braceDepth (braces + more) t.kind = outer + more) :
        collect 0 (braceDepth (braces + more) t.kind) (s.pushAll [t]) (ts.map .token ++ ps) =
          collect 0 more (s.pushAll (t :: ts)) ps := by
      rw [hdepth, ih h, pushAll_pushAll]
      rfl
    rw [List.map_cons, List.cons_append, collect_token (step_of_open s _ (.inr hopen)), hdepths]
    rcases Token.closesFrom_cons h with ⟨hkind, hts⟩ | ⟨hkind, outer, rfl, hts⟩ | ⟨hl, hr, hts⟩
    · exact hnext hts (by rw [hkind, braceDepth]; omega)
    · exact hnext hts (by rw [hkind, braceDepth]; omega)
    · exact hnext hts (by unfold braceDepth; split <;> simp_all)

end Statement

/-! ### Constructors -/

/-- What stands in front of the colon: the name, parameters, and words such as `noexcept`. -/
structure ConstructorHead where
  name : Token
  opening : Token
  params : List Token
  closing : Token
  qualifiers : List Token
  ident : name.kind = .ident
  identifier : name.text.toList.head?.any Text.isIdentStart = true
  notEnum : name.text ≠ "enum"
  notOperator : name.text ≠ "operator"
  opens : opening.kind = .lparen
  paired : Paired params
  closes : closing.kind = .rparen
  words : ∀ t ∈ qualifiers, t.kind = .ident

/-- A member's name, with its template arguments. -/
inductive IsMember : List Token → Prop where
  | plain {name : Token} (ident : name.kind = .ident) : IsMember [name]
  | template {name opening closing : Token} {args : List Token} (ident : name.kind = .ident)
      (opens : opening.kind = .less)
      (signs : ∀ t ∈ args, t.kind ∈ [TokenKind.ident, .scope, .comma, .less, .greater])
      (closes : closing.kind = .greater) : IsMember (name :: opening :: (args ++ [closing]))

/-- A group in parentheses or braces. -/
inductive IsGroup : List Token → Prop where
  | parens {opening closing : Token} {inside : List Token} (opens : opening.kind = .lparen)
      (paired : Paired inside) (closes : closing.kind = .rparen) :
      IsGroup (opening :: (inside ++ [closing]))
  | braces {opening closing : Token} {inside : List Token} (opens : opening.kind = .lbrace)
      (paired : Paired inside) (closes : closing.kind = .rbrace) :
      IsGroup (opening :: (inside ++ [closing]))

/-- Members, each with its group, and commas between them. -/
inductive Initializers : List Token → Prop where
  | last {ms is : List Token} (member : IsMember ms) (group : IsGroup is) : Initializers (ms ++ is)
  | cons {ms is ts : List Token} {comma : Token} (member : IsMember ms) (group : IsGroup is)
      (separates : comma.kind = .comma) (rest : Initializers ts) :
      Initializers (ms ++ (is ++ comma :: ts))

theorem IsMember.sign {ms : List Token} (h : IsMember ms) :
    ∀ t ∈ ms, t.kind.opens = false ∧ t.kind.closes = false ∧ t.kind ≠ .semi := by
  have hsign {t : Token} (ht : t.kind ∈ [TokenKind.ident, .scope, .comma, .less, .greater]) :
      t.kind.opens = false ∧ t.kind.closes = false ∧ t.kind ≠ .semi := by
    generalize t.kind = kind at ht
    revert kind
    decide
  cases h with
  | plain ident => exact List.forall_mem_singleton.2 (hsign (by rw [ident]; decide))
  | template ident opens signs closes =>
    refine List.forall_mem_cons.2 ⟨hsign (by rw [ident]; decide), List.forall_mem_cons.2
      ⟨hsign (by rw [opens]; decide), List.forall_mem_append.2 ⟨fun t ht => hsign (signs t ht), ?_⟩⟩⟩
    exact List.forall_mem_singleton.2 (hsign (by rw [closes]; decide))

theorem IsMember.exists_getLast? {ms : List Token} (h : IsMember ms) :
    ∃ t, ms.getLast? = some t ∧ (t.kind = .ident ∨ t.kind = .greater) := by
  cases h with
  | plain ident => exact ⟨_, rfl, .inl ident⟩
  | template ident opens signs closes =>
    rw [← List.cons_append, ← List.cons_append]
    exact ⟨_, List.getLast?_concat, .inr closes⟩

theorem IsGroup.exists_getLast? {is : List Token} (h : IsGroup is) :
    ∃ t, is.getLast? = some t ∧ (t.kind = .rparen ∨ t.kind = .rbrace) := by
  cases h with
  | parens _ _ closes =>
    rw [← List.cons_append]
    exact ⟨_, List.getLast?_concat, .inl closes⟩
  | braces _ _ closes =>
    rw [← List.cons_append]
    exact ⟨_, List.getLast?_concat, .inr closes⟩

theorem Initializers.exists_getLast? {ts : List Token} (h : Initializers ts) :
    ∃ t, ts.getLast? = some t ∧ (t.kind = .rparen ∨ t.kind = .rbrace) := by
  induction h with
  | last _ group =>
    obtain ⟨t, hlast, hkind⟩ := group.exists_getLast?
    exact ⟨t, by rw [List.getLast?_append, hlast]; rfl, hkind⟩
  | @cons ms is ts comma _ _ _ _ ih =>
    obtain ⟨t, hlast, hkind⟩ := ih
    refine ⟨t, ?_, hkind⟩
    rw [List.append_cons, ← List.append_assoc, ← List.append_assoc, List.getLast?_append, hlast]
    rfl

namespace ConstructorHead

def tokens (c : ConstructorHead) : List Token :=
  c.name :: c.opening :: (c.params ++ c.closing :: c.qualifiers)

theorem splitCall?_tokens (c : ConstructorHead) (more : List Token) :
    splitCall? (c.tokens ++ more) = some ([c.name], c.params ++ c.closing :: (c.qualifiers ++ more)) := by
  have hname : (Nesting.step {} c.name).afterOperator = false := by
    simp [Nesting.afterOperator, Token.isIdent, c.notOperator]
  have hangle : (Nesting.step {} c.name).angle = 0 :=
    (Nesting.step_of_flat (by rw [c.ident]; rfl) {}).2
  have hopening (ts : List Token) :
      splitCallFrom (Nesting.step {} c.name) (c.opening :: ts) = some ([], ts) := by
    unfold splitCallFrom
    dsimp only
    rw [if_pos hangle, c.opens]
    cases ts with
    | nil => rfl
    | cons close ts =>
      cases ts with
      | nil => rfl
      | cons opening rest => simp [hname]
  have htokens : c.tokens ++ more =
      c.name :: c.opening :: (c.params ++ c.closing :: (c.qualifiers ++ more)) := by
    simp [tokens]
  rw [htokens, splitCall?]
  unfold splitCallFrom
  dsimp only
  rw [if_pos rfl, c.ident, hopening]
  rfl

theorem splitClose?_tokens (c : ConstructorHead) (more : List Token) :
    splitClose? 0 (c.params ++ c.closing :: (c.qualifiers ++ more)) =
      some (c.params, c.qualifiers ++ more) :=
  splitClose?_of_closesFrom c.paired.parens c.closes _

/-- Behind a colon a brace opens an initializer where a name stands in front of it. -/
theorem braceRole_tokens (c : ConstructorHead) {front : List Token} {last : Token}
    (colon : ∃ t ∈ front, t.kind = .colon) (hlast : front.getLast? = some last) :
    braceRole (c.tokens ++ front) =
      if last.kind = .ident ∨ last.kind = .greater then .initializer else .body := by
  have hcolon : (c.qualifiers ++ front).any (·.kind == .colon) = true := by
    obtain ⟨t, ht, hkind⟩ := colon
    exact List.any_eq_true.2 ⟨t, List.mem_append_right _ ht, by simp [hkind]⟩
  have hlast' : (c.tokens ++ front).getLast? = some last := by rw [List.getLast?_append, hlast]; rfl
  rw [braceRole, splitCall?_tokens]
  dsimp only
  rw [splitClose?_tokens]
  dsimp only
  rw [hcolon, hlast']
  simp

end ConstructorHead

namespace Statement
variable {c : ConstructorHead} {s : Statement} {front ts : List Token}

/-- A group in parentheses is collected, wherever it stands. -/
theorem collect_parenGroup {opening closing : Token} {inside : List Token} (opens : opening.kind = .lparen)
    (paired : Paired inside) (closes : closing.kind = .rparen) (s : Statement) (ps : List Piece) :
    collect 0 0 s ((opening :: (inside ++ [closing])).map .token ++ ps) =
      collect 0 0 (s.pushAll (opening :: (inside ++ [closing]))) ps := by
  have hstep : s.step 0 0 opening.kind = .goesOn := by rw [opens]; rfl
  have hopen : depthsAfter 0 0 opening.kind = (0 + 0 + 1, 0) := by rw [opens]; rfl
  have hclose : depthsAfter 1 0 closing.kind = (0, 0) := by rw [closes]; rfl
  rw [List.map_cons, List.cons_append, collect_token hstep, hopen, List.map_append, List.append_assoc,
    collect_parens Nat.one_ne_zero paired.parens paired.brackets, List.map_singleton,
    List.singleton_append, collect_token (step_of_open _ _ (.inl Nat.one_ne_zero)), hclose]
  simp

/-- A group in braces is collected where an initializer is due. -/
theorem collect_group {is : List Token} (h : IsGroup is)
    (hrole : braceRole s.tokens = .initializer) (ps : List Piece) :
    collect 0 0 s (is.map .token ++ ps) = collect 0 0 (s.pushAll is) ps := by
  cases h with
  | parens opens paired closes => exact collect_parenGroup opens paired closes s ps
  | @braces opening closing inside opens paired closes =>
    have hstep : s.step 0 0 opening.kind = .goesOn := by
      rw [opens]
      simp [step, hrole]
    have hopen : depthsAfter 0 0 opening.kind = (0, 0 + 1) := by rw [opens]; rfl
    have hclose : depthsAfter 0 1 closing.kind = (0, 0) := by rw [closes]; rfl
    rw [List.map_cons, List.cons_append, collect_token hstep, hopen, List.map_append, List.append_assoc,
      collect_braces Nat.one_ne_zero paired.braces, List.map_singleton,
      List.singleton_append, collect_token (step_of_open _ _ (.inr Nat.one_ne_zero)), hclose]
    simp

/-- A member and its group are collected, whatever stands behind the group. -/
theorem collect_member {ms is : List Token} (member : IsMember ms) (group : IsGroup is)
    (hs : s.tokens = c.tokens ++ front) (colon : ∃ t ∈ front, t.kind = .colon) (ps : List Piece) :
    collect 0 0 s (ms.map .token ++ (is.map .token ++ ps)) =
      collect 0 0 (s.pushAll (ms ++ is)) ps := by
  obtain ⟨last, hlast, hkind⟩ := member.exists_getLast?
  have hfront : (front ++ ms).getLast? = some last := by rw [List.getLast?_append, hlast]; rfl
  have hcolon : ∃ t ∈ front ++ ms, t.kind = .colon :=
    colon.imp fun _ h => ⟨List.mem_append_left _ h.1, h.2⟩
  have hrole : braceRole (s.pushAll ms).tokens = .initializer := by
    rw [tokens_pushAll, hs, List.append_assoc, c.braceRole_tokens hcolon hfront, if_pos hkind]
  rw [collect_signs member.sign, collect_group group hrole, pushAll_pushAll]

/-- All initializers are collected. -/
theorem collect_initializers (h : Initializers ts) (hs : s.tokens = c.tokens ++ front)
    (colon : ∃ t ∈ front, t.kind = .colon) (ps : List Piece) :
    collect 0 0 s (ts.map .token ++ ps) = collect 0 0 (s.pushAll ts) ps := by
  induction h generalizing s front with
  | last member group => rw [List.map_append, List.append_assoc, collect_member member group hs colon]
  | @cons ms is ts comma member group separates _ ih =>
    have hcomma : ∀ t ∈ [comma], t.kind.opens = false ∧ t.kind.closes = false ∧ t.kind ≠ .semi := by
      simp [separates, TokenKind.opens, TokenKind.closes]
    have hpieces : (ms ++ (is ++ comma :: ts)).map Piece.token ++ ps =
        ms.map .token ++ (is.map .token ++ ([comma].map .token ++ (ts.map .token ++ ps))) := by
      simp
    have htokens : ((s.pushAll (ms ++ is)).pushAll [comma]).tokens =
        c.tokens ++ (front ++ (ms ++ is ++ [comma])) := by
      simp [hs]
    rw [hpieces, collect_member member group hs colon, collect_signs hcomma,
      ih htokens (colon.imp fun _ h => ⟨List.mem_append_left _ h.1, h.2⟩)]
    simp

/-- A constructor's head is collected up to what stands behind it. -/
theorem collect_head (c : ConstructorHead) (s : Statement) (ps : List Piece) :
    collect 0 0 s (c.tokens.map .token ++ ps) = collect 0 0 (s.pushAll c.tokens) ps := by
  have hwords {ts : List Token} (h : ∀ t ∈ ts, t.kind = .ident) :
      ∀ t ∈ ts, t.kind.opens = false ∧ t.kind.closes = false ∧ t.kind ≠ .semi :=
    fun t ht => by simp [h t ht, TokenKind.opens, TokenKind.closes]
  have hpieces : c.tokens.map Piece.token ++ ps = [c.name].map .token ++
      ((c.opening :: (c.params ++ [c.closing])).map .token ++ (c.qualifiers.map .token ++ ps)) := by
    simp [ConstructorHead.tokens]
  rw [hpieces, collect_signs (hwords (List.forall_mem_singleton.2 c.ident)),
    collect_parenGroup c.opens c.paired c.closes, collect_signs (hwords c.words)]
  simp [ConstructorHead.tokens]

/-- **The statement of a constructor ends at its body.** -/
theorem read_constructor (h : Initializers ts) {colon opening : Token} (hcolon : colon.kind = .colon)
    (opens : opening.kind = .lbrace) (rest : List Piece) :
    read ((c.tokens ++ colon :: ts).map .token ++ .token opening :: rest) =
      pure (⟨c.tokens ++ colon :: ts, [], true, c.name.line⟩, rest) := by
  obtain ⟨last, hlast, hkind⟩ := h.exists_getLast?
  have hcolons : ∀ t ∈ [colon], t.kind.opens = false ∧ t.kind.closes = false ∧ t.kind ≠ .semi := by
    simp [hcolon, TokenKind.opens, TokenKind.closes]
  have hpieces : (c.tokens ++ colon :: ts).map Piece.token ++ .token opening :: rest =
      c.tokens.map .token ++ ([colon].map .token ++ (ts.map .token ++ .token opening :: rest)) := by
    simp
  have hlast' : (colon :: ts).getLast? = some last := by
    rw [← List.singleton_append, List.getLast?_append, hlast]
    rfl
  have hrole : braceRole (c.tokens ++ colon :: ts) = .body := by
    rw [c.braceRole_tokens ⟨colon, List.mem_cons_self, hcolon⟩ hlast', if_neg]
    rcases hkind with hkind | hkind <;> simp [hkind]
  have hstep (s : Statement) (hs : s.tokens = c.tokens ++ colon :: ts) :
      s.step 0 0 opening.kind = .opensBody := by
    rw [opens]
    simp [step, hs, hrole]
  rw [hpieces, read, collect_head, collect_signs hcolons,
    collect_initializers h rfl ⟨colon, List.mem_singleton_self colon, hcolon⟩, collect,
    hstep _ (by simp)]
  simp only [pushAll_pushAll, List.append_assoc, List.singleton_append]
  rfl

end Statement

/-! ### What is declared -/

namespace ConstructorHead

/-- What the constructor is declared as: its signature ends in front of the colon. -/
def heading (c : ConstructorHead) : Heading where
  name := c.name.text
  signature := Token.join c.tokens
  item := .function
    { lead := none
      params := Head.params [] 2 c.params
      qualifiers := Head.nonEmpty? (Token.join c.qualifiers)
      special := true
      hasBody := true }

theorem constructed_name (c : ConstructorHead) : Head.constructed c.name.text = c.name.text := by
  have hidentifier := c.identifier
  unfold Head.constructed
  split
  · rename_i rest hname
    rw [hname] at hidentifier
    cases hidentifier
  · rfl

theorem name_isEmpty (c : ConstructorHead) : c.name.text.isEmpty = false := by
  have hidentifier := c.identifier
  rw [Bool.eq_false_iff, ne_eq, String.isEmpty_iff]
  intro hname
  rw [hname] at hidentifier
  cases hidentifier

theorem isRecordHead_tokens (c : ConstructorHead) (more : List Token) :
    Head.isRecordHead (c.tokens ++ more) = false := by
  unfold Head.isRecordHead tokens
  simp [c.opens]

theorem functionName?_name (c : ConstructorHead) :
    Head.functionName? [c.name] = some (c.name.text, []) := by
  have hname : c.name.isIdent "operator" = false := by simp [Token.isIdent, c.notOperator]
  simp [Head.functionName?, hname, c.ident]

/-- In its record the statement declares the constructor. -/
theorem classify_tokens (c : ConstructorHead) {colon : Token} (hcolon : colon.kind = .colon)
    (ts : List Token) (line : Nat) :
    Head.classify ⟨c.tokens ++ colon :: ts, [], true, line⟩ (some c.name.text) =
      .declares c.heading [] := by
  have hqualifiers : (c.qualifiers ++ colon :: ts).takeWhile (·.kind != .colon) = c.qualifiers := by
    rw [List.takeWhile_append_of_pos fun t ht => by simp [c.words t ht],
      List.takeWhile_cons_of_neg (by simp [hcolon]), List.append_nil]
  have hlength : (c.tokens ++ colon :: ts).take (1 + c.params.length + c.qualifiers.length + 2) =
      c.tokens := by
    refine List.take_left' ?_
    simp only [tokens, List.length_cons, List.length_append]
    omega
  have henum : ¬c.name.isIdent "enum" = true := by simp [Token.isIdent, c.notEnum]
  have hfunction : Head.functionHead ⟨c.tokens ++ colon :: ts, [], true, line⟩ (some c.name.text)
      [c.name] (c.params ++ c.closing :: (c.qualifiers ++ colon :: ts)) = .declares c.heading [] := by
    unfold Head.functionHead
    rw [splitClose?_tokens]
    dsimp only
    rw [functionName?_name]
    dsimp only
    rw [constructed_name, hqualifiers, List.length_singleton, hlength]
    simp [heading]
  unfold Head.classify
  dsimp only
  rw [isRecordHead_tokens, splitCall?_tokens]
  dsimp only
  rw [hfunction]
  refine (if_neg henum).trans (if_neg ?_)
  simp

end ConstructorHead

/-- A constructor as it is written in its record. -/
structure Constructor where
  head : ConstructorHead
  colon : Token
  initializers : List Token
  opening : Token
  body : List Token
  closing : Token
  isColon : colon.kind = .colon
  members : Initializers initializers
  opens : opening.kind = .lbrace
  paired : Paired body
  closes : closing.kind = .rbrace

namespace Constructor

/-- The tokens in front of the body. -/
def front (c : Constructor) : List Token := c.head.tokens ++ c.colon :: c.initializers

def tokens (c : Constructor) : List Token := c.front ++ c.opening :: (c.body ++ [c.closing])

theorem pieces_eq (c : Constructor) (rest : List Piece) :
    c.tokens.map .token ++ rest = c.front.map .token ++
      .token c.opening :: (c.body.map .token ++ .token c.closing :: rest) := by
  simp [tokens]

theorem skipBody_body (c : Constructor) (rest : List Piece) :
    skipBody 0 (c.body.map .token ++ .token c.closing :: rest) = pure rest := by
  refine skipBody_of_balanced ?_ c.closes rest
  rw [Piece.balanced, Piece.balancedFrom_tokens]
  exact c.paired.braces

end Constructor

/-- **Initializers do not hide a constructor's body.** The statement ends at the body, which is
skipped, and what is declared has the signature in front of the colon. -/
theorem Scope.declare_constructor {s : Scope} {b : State} (c : Constructor)
    (record : s.record = some c.head.name.text) (free : b.pending.reflection = none)
    (rest : List Piece) :
    Statement.read (c.tokens.map .token ++ rest) =
        pure (⟨c.front, [], true, c.head.name.line⟩,
          c.body.map .token ++ .token c.closing :: rest) ∧
      (declare s b (c.tokens.map .token ++ rest)).result = .ok (.continues
        { b with
          pending := {}
          members := Declaration.merged b.members
            ⟨s.declared b.visibility c.head.name.line b.pending c.head.heading, []⟩ } rest) := by
  have hread := Statement.read_constructor (c := c.head) c.members c.isColon c.opens
    (c.body.map .token ++ .token c.closing :: rest)
  have hhead : Head.classify ⟨c.front, [], true, c.head.name.line⟩ s.record =
      .declares c.head.heading [] := by
    rw [record]
    exact c.head.classify_tokens c.isColon c.initializers c.head.name.line
  rw [c.pieces_eq]
  refine ⟨hread, ?_⟩
  have hdeclares := declare_of_declares (.skipsBody (congrArg Outcome.result hread) hhead
    (by rw [free]; rfl) rfl (fun _ _ h => by cases h) (fun _ h => by cases h)
    (congrArg Outcome.result (c.skipBody_body rest)))
  have hname : c.head.heading.name.isEmpty = false := c.head.name_isEmpty
  refine hdeclares.trans ?_
  simp [State.added, declared, hname]

/-- A constructor whose initializers have template arguments, parentheses and braces. -/
theorem Scope.declare_constructor_groups :
    ∃ (c : Constructor) (b : State), Token.join c.tokens =
        "C(int) noexcept : A<B>(1), X \x7b1\x7d \x7b;\x7d" ∧
      (⟨"C", some "C", .everyone, true⟩ : Scope).record = some c.head.name.text ∧
      b.pending.reflection = none ∧
      Statement.read (c.tokens.map .token ++ []) =
        pure (⟨c.front, [], true, c.head.name.line⟩,
          c.body.map .token ++ .token c.closing :: []) ∧
      (declare ⟨"C", some "C", .everyone, true⟩ b (c.tokens.map .token ++ [])).result =
        .ok (.continues
          { b with
            pending := {}
            members := Declaration.merged b.members
              ⟨(⟨"C", some "C", .everyone, true⟩ : Scope).declared b.visibility c.head.name.line
                b.pending c.head.heading, []⟩ } []) := by
  let head : ConstructorHead :=
    { name := ⟨.ident, "C", 1⟩
      opening := ⟨.lparen, "(", 1⟩
      params := [⟨.ident, "int", 1⟩]
      closing := ⟨.rparen, ")", 1⟩
      qualifiers := [⟨.ident, "noexcept", 1⟩]
      ident := rfl
      identifier := by decide
      notEnum := by decide
      notOperator := by decide
      opens := rfl
      paired := ⟨rfl, rfl, rfl⟩
      closes := rfl
      words := by decide }
  have hbase : IsMember [⟨.ident, "A", 1⟩, ⟨.less, "<", 1⟩, ⟨.ident, "B", 1⟩, ⟨.greater, ">", 1⟩] :=
    @IsMember.template _ _ _ [_] rfl rfl (by decide) rfl
  have hparens : IsGroup [⟨.lparen, "(", 1⟩, ⟨.number, "1", 1⟩, ⟨.rparen, ")", 1⟩] :=
    @IsGroup.parens _ _ [_] rfl ⟨rfl, rfl, rfl⟩ rfl
  have hbraces : IsGroup [⟨.lbrace, "\x7b", 1⟩, ⟨.number, "1", 1⟩, ⟨.rbrace, "\x7d", 1⟩] :=
    @IsGroup.braces _ _ [_] rfl ⟨rfl, rfl, rfl⟩ rfl
  let c : Constructor :=
    { head
      colon := ⟨.colon, ":", 1⟩
      initializers := _
      opening := ⟨.lbrace, "\x7b", 1⟩
      body := [⟨.semi, ";", 1⟩]
      closing := ⟨.rbrace, "\x7d", 1⟩
      isColon := rfl
      members := @Initializers.cons _ _ _ ⟨.comma, ",", 1⟩ hbase hparens rfl
        (.last (@IsMember.plain ⟨.ident, "X", 1⟩ rfl) hbraces)
      opens := rfl
      paired := ⟨rfl, rfl, rfl⟩
      closes := rfl }
  exact ⟨c, ⟨.everyone, {}, [], []⟩, by cbv, rfl, rfl, declare_constructor c rfl rfl []⟩

end AnnotatedHeader
