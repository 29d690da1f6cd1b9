import AnnotatedHeader.Proofs.Statement.Forms
import AnnotatedHeader.Proofs.Statement.Nested
import AnnotatedHeader.Proofs.Token.Solid
import AnnotatedHeader.Statement.Head

/-! Variables that are declared with one type.

Behind the first of them, each is given the type that the first one has, and that type is
what stands in front of the first one's name. Where the type names that very word, it is cut
short: `headings_listed_iff` says that the variables are what they are when each is declared
alone if and only if the name of the first does not occur in the type. -/
namespace AnnotatedHeader

/-- What stands behind a type to declare a variable. -/
structure Variable where
  marks : List Token
  name : Token
  extent : List Token
  value : List Token

namespace Variable

/-- The variable without its value. -/
def front (v : Variable) : List Token := v.marks ++ v.name :: v.extent

def tokens (v : Variable) : List Token := v.front ++ v.value

/-- Marks of pointers, a name, and perhaps an extent and a value. -/
structure IsSpelled (v : Variable) : Prop where
  marks : ∀ t ∈ v.marks, t.isPointer = true
  kind : v.name.kind = .ident
  written : Lexeme.Written v.name.kind v.name.text.toList
  name : v.name.text ≠ "operator"
  extent : v.extent = [] ∨ ∃ opening inner closing, v.extent = opening :: (inner ++ [closing]) ∧
    opening.kind = .lbracket ∧ closing.kind = .rbracket ∧ ∀ t ∈ inner, t.kind.isSingle = true
  value : v.value = [] ∨ ∃ equals expr, v.value = equals :: expr ∧ equals.kind = .equals ∧
    Balanced false expr

end Variable

/-! ### One variable -/

namespace Variable.IsSpelled
variable {v : Variable}

theorem balanced_front (h : v.IsSpelled) : Balanced false v.front := by
  refine Balanced.append (.of_single fun t ht => ?_) (.sign (by rw [h.kind]; rfl) (by simp [h.kind]) ?_)
  · rw [Token.kind_of_isPointer (h.marks t ht)]
    exact ⟨rfl, by simp⟩
  · rcases h.extent with hnone | ⟨opening, inner, closing, hextent, hopens, hcloses, hinner⟩
    · rw [hnone]
      exact .nil
    · rw [hextent]
      exact .group (by rw [hopens]; rfl) (by rw [hcloses]; rfl)
        (.of_single fun t ht => ⟨hinner t ht, fun _ => rfl⟩) .nil

theorem balanced (h : v.IsSpelled) : Balanced false v.tokens := by
  refine h.balanced_front.append ?_
  rcases h.value with hnone | ⟨equals, expr, hvalue, hequals, hexpr⟩
  · rw [hnone]
    exact .nil
  · rw [hvalue]
    exact .sign (by rw [hequals]; rfl) (by simp [hequals]) hexpr

/-- No value, no body and no bit field's width starts in front of the value. -/
theorem findFrom_front (h : v.IsSpelled) {kind : TokenKind}
    (sign : kind = .equals ∨ kind = .lbrace ∨ kind = .colon) {n : Nesting} (flat : n.angle = 0) :
    n.findFrom kind v.front = none := by
  have hword : ∀ t ∈ v.marks ++ [v.name], t.kind ≠ kind := by
    refine List.forall_mem_append.2 ⟨fun t ht => ?_, List.forall_mem_singleton.2 ?_⟩
    · rw [Token.kind_of_isPointer (h.marks t ht)]
      rcases sign with rfl | rfl | rfl <;> decide
    · rw [h.kind]
      rcases sign with rfl | rfl | rfl <;> decide
  have hnone : n.findFrom kind (v.marks ++ [v.name]) = none :=
    Nesting.findFrom_eq_none_iff.2 fun e he hkind => absurd hkind (hword _ (Nesting.snd_mem_of_visited he))
  have hbalanced : Balanced false (v.marks ++ [v.name]) := .of_single fun t ht => by
    rcases List.mem_append.1 ht with ht | ht
    · rw [Token.kind_of_isPointer (h.marks t ht)]
      exact ⟨rfl, by simp⟩
    · rw [List.mem_singleton.1 ht, h.kind]
      exact ⟨rfl, by simp⟩
  rw [front, List.append_cons, Nesting.findFrom_append hnone, Option.map_eq_none_iff]
  rcases h.extent with hnil | ⟨opening, inner, closing, hextent, hopens, -, hinner⟩
  · rw [hnil]
    rfl
  · rw [hextent]
    refine Balanced.findFrom_group (by rw [hopens]; rfl) ?_
      (.of_single fun t ht => ⟨hinner t ht, fun _ => rfl⟩) (hbalanced.run flat).2
    rw [hopens]
    rcases sign with rfl | rfl | rfl <;> decide

/-- No parameter list starts in front of the value. -/
theorem quiet_front (h : v.IsSpelled) : ∀ t ∈ v.front, t.kind ≠ .lparen := by
  refine List.forall_mem_append.2 ⟨fun t ht => ?_, List.forall_mem_cons.2 ⟨?_, fun t ht => ?_⟩⟩
  · rw [Token.kind_of_isPointer (h.marks t ht)]
    decide
  · rw [h.kind]
    decide
  · rcases h.extent with hnil | ⟨opening, inner, closing, hextent, hopens, hcloses, hinner⟩
    · rw [hnil] at ht
      cases ht
    · rw [hextent] at ht
      rcases List.mem_cons.1 ht with rfl | ht
      · rw [hopens]
        decide
      rcases List.mem_append.1 ht with ht | ht
      · intro hparen
        have hsingle := hinner t ht
        rw [hparen] at hsingle
        cases hsingle
      · rw [List.mem_singleton.1 ht, hcloses]
        decide

/-- The variable is cut at its name. -/
theorem declarator?_append (h : v.IsSpelled) (ts : List Token) :
    Head.declarator? (ts ++ v.front) = some ⟨ts ++ v.marks, v.name, v.extent⟩ := by
  have hname (before : List Token) :
      Head.dropExtents (v.name :: before) = some (v.name :: before) := by
    rw [Head.dropExtents, if_neg (by simp [h.kind])]
  have hdrop : Head.dropExtents (ts ++ v.front).reverse =
      some (v.name :: (ts ++ v.marks).reverse) := by
    rcases h.extent with hnil | ⟨opening, inner, closing, hextent, hopens, hcloses, hinner⟩
    · have hreverse : (ts ++ v.front).reverse = v.name :: (ts ++ v.marks).reverse := by
        simp [front, hnil]
      rw [hreverse]
      exact hname _
    · have hreverse : (ts ++ v.front).reverse =
          closing :: (inner.reverse ++ opening :: v.name :: (ts ++ v.marks).reverse) := by
        simp [front, hextent]
      have hrest : (inner.reverse ++ opening :: v.name :: (ts ++ v.marks).reverse).dropWhile
          (·.kind != .lbracket) = opening :: v.name :: (ts ++ v.marks).reverse := by
        rw [List.dropWhile_append_of_pos, List.dropWhile_cons_of_neg (by simp [hopens])]
        intro t ht
        have hsingle := hinner t (List.mem_reverse.1 ht)
        by_contra hbracket
        rw [show t.kind = .lbracket by simpa using hbracket] at hsingle
        cases hsingle
      rw [hreverse, Head.dropExtents, if_pos hcloses]
      split
      · rename_i t rest hbefore
        rw [hrest] at hbefore
        cases hbefore
        exact hname _
      · rename_i hbefore
        rw [hrest] at hbefore
        cases hbefore
  unfold Head.declarator?
  rw [hdrop]
  dsimp only
  rw [if_pos h.kind, List.reverse_reverse, List.length_reverse, front, ← List.append_assoc,
    List.append_cons, List.drop_left' (by simp [Nat.add_assoc])]

end Variable.IsSpelled

/-- Words that name a type and do not open a head of another kind. -/
structure IsSharedType (ts : List Token) : Prop where
  words : TypeWords false ts
  /-- Something besides `static` is there. -/
  typed : ∃ t ∈ ts, t.kind = .ident ∧ t.text ≠ "static"
  plain : ∀ t ∈ ts.head?, t.isIdent "enum" = false ∧ Head.recordKeywords.any (t.isIdent ·) = false

namespace Head
variable {ts : List Token} {v : Variable}

theorem signature_of_property? {h : Heading} (hp : property? ts = some h) :
    h.signature = Token.join ts := by
  obtain ⟨us, d, shape, -, -, rfl⟩ := eq_of_property? hp
  rfl

/-- A type and one variable are a property of that name. -/
theorem exists_property? (hT : IsSharedType ts) (hv : v.IsSpelled) :
    ∃ h, property? (ts ++ v.tokens) = some h ∧ h.name = v.name.text ∧ h.item.kind = .property := by
  have hfront {kind : TokenKind} (sign : kind = .equals ∨ kind = .lbrace ∨ kind = .colon) :
      findTop? kind (ts ++ v.front) = none := by
    have hnone : Nesting.findFrom kind {} ts = none :=
      hT.words.findFrom_eq_none (by rcases sign with rfl | rfl | rfl <;> decide) {}
    rw [findTop?, Nesting.findFrom_append hnone, hv.findFrom_front sign (hT.words.run {}).2]
    rfl
  have hstop : ((findTop? .equals (ts ++ v.tokens)) <|> findTop? .lbrace (ts ++ v.tokens)).getD
      (ts ++ v.tokens).length = (ts ++ v.front).length := by
    rw [Variable.tokens, ← List.append_assoc]
    rcases hv.value with hnil | ⟨equals, expr, hvalue, hequals, -⟩
    · rw [hnil, List.append_nil, hfront (.inl rfl), hfront (.inr (.inl rfl))]
      rfl
    · have htop := (hT.words.isPart.append hv.balanced_front.isPart {} rfl).2
      have hfound : findTop? .equals (ts ++ v.front ++ v.value) = some (ts ++ v.front).length := by
        rw [findTop?, Nesting.findFrom_append (hfront (.inl rfl)), hvalue, Nesting.findFrom,
          if_pos (by simpa [hequals] using htop)]
        simp
      rw [hfound]
      rfl
  have htyped : ((ts ++ v.marks).filter (!·.isIdent "static")).isEmpty = false := by
    obtain ⟨t, ht, hkind, htext⟩ := hT.typed
    rw [List.isEmpty_eq_false_iff]
    refine List.ne_nil_of_mem (List.mem_filter.2 ⟨List.mem_append_left _ ht, ?_⟩)
    simp [Token.isIdent, htext]
  unfold property?
  dsimp only
  rw [hstop, Variable.tokens, ← List.append_assoc, List.take_left, hfront (.inr (.inr rfl)),
    Option.getD_none, List.take_length, hv.declarator?_append]
  dsimp only
  rw [htyped, if_neg Bool.false_ne_true]
  exact ⟨_, rfl, rfl, rfl⟩

/-! ### The shared type -/

theorem sharedType_eq (first : List Token) (name : String) :
    sharedType first name = if first.any (·.isIdent name) then
      (first.takeWhile (!·.isIdent name)).rdropWhile Token.isPointer else [] := rfl

/-- The type is shared if it does not name the first variable. -/
theorem sharedType_of_not_mem (hT : IsSharedType ts) (hv : v.IsSpelled)
    (other : ∀ t ∈ ts, t.isIdent v.name.text = false) :
    sharedType (ts ++ v.tokens) v.name.text = ts := by
  have hname : v.name.isIdent v.name.text = true := by simp [Token.isIdent, hv.kind]
  have hmarks : ∀ t ∈ v.marks, t.isIdent v.name.text = false := fun t ht => by
    simp [Token.isIdent, Token.kind_of_isPointer (hv.marks t ht)]
  have htake : (ts ++ v.tokens).takeWhile (!·.isIdent v.name.text) = ts ++ v.marks := by
    rw [Variable.tokens, Variable.front, List.append_assoc, ← List.append_assoc, List.cons_append,
      List.takeWhile_append_of_pos, List.takeWhile_cons_of_neg (by simp [hname]), List.append_nil]
    exact List.forall_mem_append.2 ⟨fun t ht => by simp [other t ht], fun t ht => by simp [hmarks t ht]⟩
  rw [sharedType_eq, if_pos (List.any_eq_true.2 ⟨v.name, by simp [Variable.tokens, Variable.front], hname⟩),
    htake]
  have hself : ts.rdropWhile Token.isPointer = ts :=
    List.rdropWhile_eq_self_iff.2 fun hne hpointer => by
      have hword := hT.words.kind_getLast rfl _ (List.getLast_mem_getLast? hne)
      rw [Token.kind_of_isPointer hpointer] at hword
      simp at hword
  conv => rhs; rw [← hself]
  rw [List.rdropWhile, List.reverse_append, List.dropWhile_append_of_pos, List.rdropWhile]
  exact fun t ht => hv.marks t (List.mem_reverse.1 ht)

/-- The type is cut short where it names the first variable. -/
theorem sharedType_of_mem (us : List Token) {name : String} (named : ∃ t ∈ ts, t.isIdent name = true) :
    ∃ more, ts = sharedType (ts ++ us) name ++ more ∧ ∃ t ∈ more, t.isIdent name = true := by
  -- The type is cut at the first word that is the name.
  obtain ⟨t, hfind⟩ := Option.isSome_iff_exists.1 (List.find?_isSome.2 named)
  obtain ⟨hname, before, after, rfl, hbefore⟩ := List.find?_eq_some_iff_append.1 hfind
  have htake : (before ++ t :: after ++ us).takeWhile (!·.isIdent name) = before := by
    rw [List.append_assoc, List.takeWhile_append_of_pos hbefore, List.cons_append,
      List.takeWhile_cons_of_neg (by simp [hname]), List.append_nil]
  rw [sharedType_eq, if_pos (List.any_eq_true.2 ⟨t, by simp, hname⟩), htake]
  obtain ⟨pointers, hpointers⟩ := before.rdropWhile_prefix (p := Token.isPointer)
  refine ⟨pointers ++ t :: after, ?_, t, by simp, hname⟩
  rw [← List.append_assoc, hpointers]

/-! ### Several variables -/

/-- What a head declares. -/
def headings : Head → List Heading
  | .declares first others => first :: others
  | .skip _ => []

/-- The tokens of a type and of variables behind it, with the commas between them. -/
def variableTokens (ts : List Token) (v : Variable) (more : List (Token × Variable)) : List Token :=
  listed (ts ++ v.tokens) (more.map fun e => (e.1, e.2.tokens))

variable {more : List (Token × Variable)}

/-- A variable opens no parameter list: a value ends the search, and nothing else could. -/
theorem splitCallFrom_tokens (hv : v.IsSpelled) {us : List Token} {n : Nesting} (top : n.isTop = true)
    (h : ∀ m : Nesting, m.isTop = true → splitCallFrom m us = none) :
    splitCallFrom n (v.tokens ++ us) = none := by
  have hfront := (hv.balanced_front.isPart n top).2
  rw [Variable.tokens, List.append_assoc]
  refine Nesting.splitCallFrom_append_eq_none
    (fun e he _ => hv.quiet_front _ (Nesting.snd_mem_of_visited he)) ?_
  rcases hv.value with hnil | ⟨equals, expr, hvalue, hequals, -⟩
  · rw [hnil]
    exact h _ hfront
  · have hlast : (n.run v.front).afterOperator = false := by
      rw [Variable.front, Nesting.afterOperator]
      rcases hv.extent with hnil | ⟨opening, inner, closing, hextent, -, hcloses, -⟩
      · rw [hnil, Nesting.prev_run_concat]
        simp [Token.isIdent, hv.name]
      · rw [hextent, ← List.cons_append, ← List.cons_append, ← List.append_assoc,
          Nesting.prev_run_concat]
        simp [Token.isIdent, hcloses]
    rw [hvalue, List.cons_append]
    unfold splitCallFrom
    simp [(Nesting.isTop_iff.1 hfront).2, hequals, hlast]

theorem splitCall?_variableTokens (hT : TypeWords false ts) (hv : v.IsSpelled)
    (hmore : ∀ e ∈ more, e.1.kind = .comma ∧ e.2.IsSpelled) :
    splitCall? (variableTokens ts v more) = none := by
  rw [splitCall?, variableTokens, listed, List.append_assoc]
  refine Nesting.splitCallFrom_append_eq_none (fun e he hangle hparen => ?_) ?_
  · have hword := hT.kind_of_visited {} (by simp) e he hangle
    simp [hparen] at hword
  · have htop := (hT.isPart {} rfl).2
    generalize Nesting.run {} ts = n at htop
    induction more generalizing n v with
    | nil => exact splitCallFrom_tokens hv htop fun _ _ => rfl
    | cons e more ih =>
      obtain ⟨⟨hcomma, he⟩, hmore⟩ := List.forall_mem_cons.1 hmore
      refine splitCallFrom_tokens hv htop fun m hm => ?_
      rw [List.map_cons, List.flatMap_cons, List.cons_append]
      have hquiet : ∀ x ∈ m.visited [e.1], x.1.angle = 0 → x.2.kind ≠ .lparen := by
        simp [hcomma]
      refine Nesting.splitCallFrom_append_eq_none hquiet ?_
      refine ih he hmore _ ?_
      have hflat := Nesting.step_of_flat (t := e.1) (by rw [hcomma]; rfl) m
      rw [Nesting.run_cons, Nesting.run_nil, Nesting.isTop_iff, hflat.1, hflat.2]
      exact Nesting.isTop_iff.1 hm

/-- Several variables are read as the first of them, then each other behind the shared type. -/
theorem classify_variableTokens {s : Statement} (record : String) (hT : IsSharedType ts)
    (hv : v.IsSpelled) (hmore : ∀ e ∈ more, e.1.kind = .comma ∧ e.2.IsSpelled)
    (tokens : s.tokens = variableTokens ts v more) (bodiless : s.hasBody = false) {first : Heading}
    (hfirst : property? (ts ++ v.tokens) = some first) :
    classify s (some record) = .declares first (more.filterMap fun e =>
      property? (sharedType (ts ++ v.tokens) first.name ++ e.2.tokens)) := by
  have hparts : (commaParts s.tokens).map Prod.snd =
      (ts ++ v.tokens) :: more.map fun e => e.2.tokens := by
    rw [tokens, variableTokens, map_snd_commaParts_listed (hT.words.isPart.append hv.balanced.isPart),
      List.map_map]
    · rfl
    · intro e he
      obtain ⟨e, he', rfl⟩ := List.mem_map.1 he
      exact ⟨(hmore e he').1, (hmore e he').2.balanced.isPart⟩
  have hheads : propertyHeads s.tokens = .declares first (more.filterMap fun e =>
      property? (sharedType (ts ++ v.tokens) first.name ++ e.2.tokens)) := by
    unfold propertyHeads
    split
    · rename_i part parts hcomma
      rw [hcomma, List.map_cons, List.cons.injEq] at hparts
      obtain ⟨hpart, hparts⟩ := hparts
      dsimp only at hpart
      rw [hpart, hfirst]
      dsimp only
      have hothers := congrArg
        (List.filterMap fun p => property? (sharedType (ts ++ v.tokens) first.name ++ p)) hparts
      rw [List.filterMap_map, List.filterMap_map] at hothers
      exact congrArg (Head.declares first) hothers
    · rename_i hcomma
      rw [hcomma] at hparts
      cases hparts
  obtain ⟨t, rest, hts⟩ : ∃ t rest, ts = t :: rest := by
    obtain ⟨t, ht, -⟩ := hT.typed
    exact List.exists_cons_of_ne_nil (List.ne_nil_of_mem ht)
  obtain ⟨henum, hrecord⟩ := hT.plain t (by rw [hts]; rfl)
  have hcall := tokens ▸ splitCall?_variableTokens hT.words hv hmore
  obtain ⟨us, htokens⟩ : ∃ us, s.tokens = t :: us := ⟨_, by rw [tokens, hts]; rfl⟩
  unfold classify
  rw [hcall, bodiless, htokens]
  dsimp only
  rw [← htokens, hrecord, if_neg (by simp [henum]), Bool.false_and, if_neg Bool.false_ne_true]
  exact hheads

/-- With more of a type in front of it a variable is another property. -/
theorem property?_append_ne {base us : List Token} {h : Heading}
    (visible : ∃ t ∈ us, Token.solid t.text ≠ [])
    (hp : property? (base ++ v.tokens) = some h) : property? (base ++ us ++ v.tokens) ≠ some h := by
  intro hlong
  obtain ⟨t, ht, hsolid⟩ := visible
  have hjoin : Token.join (base ++ v.tokens) = Token.join (base ++ us ++ v.tokens) :=
    (signature_of_property? hp).symm.trans (signature_of_property? hlong)
  have hlength := congrArg (fun text => (Token.solid text).length) hjoin
  simp only [Token.solid_join, List.flatMap_append, List.length_append] at hlength
  have hnil : us.flatMap (fun t => Token.solid t.text) = [] :=
    List.eq_nil_of_length_eq_zero (by omega)
  exact hsolid (List.flatMap_eq_nil_iff.1 hnil t ht)

/-- Behind a part of the type only, the variables are not what they are behind the whole type. -/
theorem filterMap_property?_ne {base us : List Token} (cut : ts = base ++ us)
    (visible : ∃ t ∈ us, Token.solid t.text ≠ []) (further : more ≠ [])
    (hmore : ∀ e ∈ more, ∃ h, property? (ts ++ e.2.tokens) = some h) :
    (more.filterMap fun e => property? (base ++ e.2.tokens)) ≠
      more.filterMap fun e => property? (ts ++ e.2.tokens) := by
  obtain ⟨e, others, rfl⟩ := List.exists_cons_of_ne_nil further
  obtain ⟨⟨h, hp⟩, hothers⟩ := List.forall_mem_cons.1 hmore
  intro heq
  rw [List.filterMap_cons, List.filterMap_cons, hp] at heq
  cases hshort : property? (base ++ e.2.tokens) with
  | some h' =>
    rw [hshort] at heq
    cases (List.cons.inj heq).1
    exact property?_append_ne visible hshort (cut ▸ hp)
  | none =>
    -- Then the first of them is lost, and none that follows makes up for it.
    rw [hshort] at heq
    have hlength := congrArg List.length heq
    have hle := List.length_filterMap_le (fun e => property? (base ++ e.2.tokens)) others
    have hall : (others.filterMap fun e => property? (ts ++ e.2.tokens)).length = others.length := by
      refine List.filterMap_length_eq_length.2 fun e he => ?_
      obtain ⟨h, hp⟩ := hothers e he
      rw [hp]
      rfl
    dsimp only at hlength
    rw [List.length_cons, hall] at hlength
    omega

/-- **Variables that share a type are what they are when each is declared alone** if and only if the
type does not name the first of them. -/
theorem headings_listed_iff {s : Statement} {record : String} (hT : IsSharedType ts)
    (hv : v.IsSpelled) (hmore : ∀ e ∈ more, e.1.kind = .comma ∧ e.2.IsSpelled)
    (tokens : s.tokens = variableTokens ts v more) (bodiless : s.hasBody = false) :
    let alone (w : Variable) := classify { s with tokens := ts ++ w.tokens } (some record)
    (∀ w ∈ v :: more.map Prod.snd,
      ∃ h, alone w = .declares h [] ∧ h.name = w.name.text ∧ h.item.kind = .property) ∧
    ((classify s (some record)).headings =
        (v :: more.map Prod.snd).flatMap (fun w => (alone w).headings) ↔
      more = [] ∨ ∀ t ∈ ts, t.isIdent v.name.text = false) := by
  intro alone
  have halone {w : Variable} (hw : w.IsSpelled) : ∃ h, property? (ts ++ w.tokens) = some h ∧
      alone w = .declares h [] ∧ h.name = w.name.text ∧ h.item.kind = .property := by
    obtain ⟨h, hp, hname, hkind⟩ := exists_property? hT hw
    refine ⟨h, hp, ?_, hname, hkind⟩
    have htokens : ({ s with tokens := ts ++ w.tokens } : Statement).tokens = variableTokens ts w [] := by
      simp [variableTokens, listed]
    exact classify_variableTokens record hT hw (by simp) htokens bodiless hp
  obtain ⟨first, hfirst, hfirstAlone, hname, -⟩ := halone hv
  have hright : (v :: more.map Prod.snd).flatMap (fun w => (alone w).headings) =
      first :: more.filterMap fun e => property? (ts ++ e.2.tokens) := by
    rw [List.flatMap_cons, hfirstAlone, List.flatMap_map, List.filterMap_eq_flatMap_toList]
    refine congrArg (first :: ·) (List.flatMap_congr fun e he => ?_)
    obtain ⟨h, hp, hhead, -⟩ := halone (hmore e he).2
    rw [hp, hhead]
    rfl
  rw [classify_variableTokens record hT hv hmore tokens bodiless hfirst, hright, hname]
  constructor
  · refine List.forall_mem_cons.2 ⟨?_, List.forall_mem_map.2 fun e he => ?_⟩
    · obtain ⟨h, -, hhead⟩ := halone hv
      exact ⟨h, hhead⟩
    · obtain ⟨h, -, hhead⟩ := halone (hmore e he).2
      exact ⟨h, hhead⟩
  · constructor
    · intro heq
      by_contra hnamed
      rw [not_or] at hnamed
      obtain ⟨hne, hnamed⟩ := hnamed
      obtain ⟨us, hcut, t, ht, hword⟩ := sharedType_of_mem v.tokens (by simpa using hnamed)
      have htext : t.text = v.name.text := by simpa using (Bool.and_eq_true_iff.1 hword).2
      refine filterMap_property?_ne hcut ⟨t, ht, ?_⟩ hne (fun e he => ?_) (List.tail_eq_of_cons_eq heq)
      · rw [htext]
        exact Token.solid_ne_nil hv.written
      · obtain ⟨h, hp, -⟩ := halone (hmore e he).2
        exact ⟨h, hp⟩
    · rintro (rfl | hother)
      · rfl
      · rw [sharedType_of_not_mem hT hv hother]
        rfl

/-- An array of numbers, and a pointer to one that is null. -/
theorem headings_listed_of_pointer :
    (classify ⟨[⟨.ident, "TArray", 1⟩, ⟨.less, "<", 1⟩, ⟨.ident, "int", 1⟩, ⟨.greater, ">", 1⟩,
        ⟨.ident, "A", 1⟩, ⟨.comma, ",", 1⟩, ⟨.op, "*", 1⟩, ⟨.ident, "B", 1⟩, ⟨.equals, "=", 1⟩,
        ⟨.ident, "nullptr", 1⟩], [], false, 1⟩ (some "S")).headings =
      [⟨"A", "TArray<int> A", .property ⟨"TArray<int>", none, none, false⟩⟩,
        ⟨"B", "TArray<int>* B = nullptr", .property ⟨"TArray<int>*", none, some "nullptr", false⟩⟩] := by
  have hT : IsSharedType [⟨.ident, "TArray", 1⟩, ⟨.less, "<", 1⟩, ⟨.ident, "int", 1⟩,
      ⟨.greater, ">", 1⟩] := by
    refine ⟨.arguments (by decide) rfl rfl (.word (.inl rfl) .nil) .nil, by simp, ?_⟩
    rintro t ⟨⟩
    decide
  have hA : Variable.IsSpelled ⟨[], ⟨.ident, "A", 1⟩, [], []⟩ :=
    ⟨by simp, rfl, .ident (by decide) (by simp), by decide, .inl rfl, .inl rfl⟩
  have hB : Variable.IsSpelled ⟨[⟨.op, "*", 1⟩], ⟨.ident, "B", 1⟩, [],
      [⟨.equals, "=", 1⟩, ⟨.ident, "nullptr", 1⟩]⟩ :=
    ⟨by simp [Token.isPointer, Token.isOp], rfl, .ident (by decide) (by simp), by decide, .inl rfl,
      .inr ⟨_, _, rfl, rfl, .sign rfl (by simp) .nil⟩⟩
  have hmore : ∀ e ∈ [((⟨.comma, ",", 1⟩ : Token), (⟨[⟨.op, "*", 1⟩], ⟨.ident, "B", 1⟩, [],
      [⟨.equals, "=", 1⟩, ⟨.ident, "nullptr", 1⟩]⟩ : Variable))], e.1.kind = .comma ∧ e.2.IsSpelled :=
    List.forall_mem_singleton.2 ⟨rfl, hB⟩
  refine ((headings_listed_iff hT hA hmore rfl rfl).2.2 (.inr (by decide))).trans ?_
  decide +kernel

/-- A type that ends in the first variable's name is cut short for the second. -/
theorem exists_headings_listed_ne :
    ∃ (s : Statement) (ts : List Token) (v : Variable) (more : List (Token × Variable)),
      s.tokens = Token.tokenize "N::X X, Y" 1 ∧ s.hasBody = false ∧ IsSharedType ts ∧ v.IsSpelled ∧
      (∀ e ∈ more, e.1.kind = .comma ∧ e.2.IsSpelled) ∧ s.tokens = variableTokens ts v more ∧
      (classify s (some "S")).headings =
        [⟨"X", "N::X X", .property ⟨"N::X", none, none, false⟩⟩,
          ⟨"Y", "N::Y", .property ⟨"N::", none, none, false⟩⟩] ∧
      (v :: more.map Prod.snd).flatMap
          (fun w => (classify { s with tokens := ts ++ w.tokens } (some "S")).headings) =
        [⟨"X", "N::X X", .property ⟨"N::X", none, none, false⟩⟩,
          ⟨"Y", "N::X Y", .property ⟨"N::X", none, none, false⟩⟩] := by
  have htokens : Token.tokenize "N::X X, Y" 1 = [⟨.ident, "N", 1⟩, ⟨.scope, "::", 1⟩,
      ⟨.ident, "X", 1⟩, ⟨.ident, "X", 1⟩, ⟨.comma, ",", 1⟩, ⟨.ident, "Y", 1⟩] := by
    cbv
  have hX : Variable.IsSpelled ⟨[], ⟨.ident, "X", 1⟩, [], []⟩ :=
    ⟨by simp, rfl, .ident (by decide) (by simp), by decide, .inl rfl, .inl rfl⟩
  have hY : Variable.IsSpelled ⟨[], ⟨.ident, "Y", 1⟩, [], []⟩ :=
    ⟨by simp, rfl, .ident (by decide) (by simp), by decide, .inl rfl, .inl rfl⟩
  refine ⟨⟨Token.tokenize "N::X X, Y" 1, [], false, 1⟩,
    [⟨.ident, "N", 1⟩, ⟨.scope, "::", 1⟩, ⟨.ident, "X", 1⟩], ⟨[], ⟨.ident, "X", 1⟩, [], []⟩,
    [(⟨.comma, ",", 1⟩, ⟨[], ⟨.ident, "Y", 1⟩, [], []⟩)], rfl, rfl, ?_, hX, ?_, htokens, ?_, ?_⟩
  · refine ⟨.word (.inl rfl) (.word (.inr rfl) (.word (.inl rfl) .nil)), by simp, ?_⟩
    rintro t ⟨⟩
    decide
  · exact List.forall_mem_singleton.2 ⟨rfl, hY⟩
  · rw [htokens]
    decide +kernel
  · decide +kernel

end Head

end AnnotatedHeader
