import AnnotatedHeader.Proofs.Scope.Reads

/-! What is left unread decides nothing.

Of pieces `xs ++ p :: ps`, a reader that leaves `p` unread makes the same without it, or with
anything else behind it: what it finds, and what it leaves in front of `p`, is the same for any
`xs ++ qs` where `p` leads `qs`, if anything does. A statement that a body's brace ends is another
such reader (`Statement.read_upTo`). From the parts of an item this goes to a turn
(`Scope.Takes.append`), as long as a word at its start means the same. In front of a brace or a
semicolon it does (`Scope.word_append`), and so a scope that ends at a `{` is read alike whatever
stands behind the brace (`Scope.Reads.append`). -/
namespace AnnotatedHeader

/-- Nothing stands there, or pieces that start with `p`. -/
def Piece.Leads (p : Piece) (qs : List Piece) : Prop := ∀ q ∈ qs.head?, q = p

theorem Piece.Leads.cases {p : Piece} {qs : List Piece} (h : p.Leads qs) :
    qs = [] ∨ ∃ qs', qs = p :: qs' := by
  cases qs with
  | nil => exact .inl rfl
  | cons q qs => exact .inr ⟨qs, congrArg (· :: qs) (h q rfl)⟩

theorem Piece.leads_cons (p : Piece) (qs : List Piece) : p.Leads (p :: qs) := by
  rintro q ⟨⟩
  rfl

theorem not_cons_suffix {p : Piece} {ps rest : List Piece} (h : rest <:+ ps) : ¬ p :: ps <:+ rest :=
  fun h' => absurd (h'.trans h).length_le (by simp)

/-- A sign that no macro call goes past. -/
def Token.IsStop (t : Token) : Prop := t.kind = .lbrace ∨ t.kind = .rbrace ∨ t.kind = .semi

variable {p : Piece} {opening sign : Token} {xs ps rest : List Piece}

/-! ### Statements -/

namespace Statement
variable {depth braces : Nat} {s s' : Statement}

/-- The statement behind a doc block. -/
def behindDoc (depth braces : Nat) (s : Statement) (b : DocBlock) : Statement :=
  if braces = 0 ∧ depth ≠ 0 then s.pushDoc b else s

theorem hasBody_behindDoc (depth braces : Nat) (s : Statement) (b : DocBlock) :
    (behindDoc depth braces s b).hasBody = s.hasBody := by
  unfold behindDoc
  split <;> rfl

theorem result_collect_doc (depth braces : Nat) (s : Statement) (b : DocBlock) (ps : List Piece) :
    (collect depth braces s (.doc b :: ps)).result =
      (collect depth braces (behindDoc depth braces s b) ps).result := by
  rw [collect, behindDoc]
  split
  · rw [if_neg (by omega)]
  · split
    · rw [if_pos (by omega)]
    · rw [if_neg (by omega), Outcome.result_bind]
      rfl

/-- Nothing ends a statement within brackets. -/
theorem step_of_open {depth braces : Nat} (s : Statement) (kind : TokenKind)
    (h : depth ≠ 0 ∨ braces ≠ 0) : s.step depth braces kind = .goesOn := by
  unfold step
  rw [if_neg]
  simp only [Bool.and_eq_true, decide_eq_true_eq]
  omega

/-- Only in front of a brace that ends the scope nothing is read. -/
theorem collect_unread (h : (collect depth braces s (p :: ps)).result = .ok (s', rest))
    (hrest : p :: ps <:+ rest) :
    s' = s ∧ ∃ t, p = .token t ∧ t.kind = .rbrace ∧ step depth braces s t.kind = .stops := by
  cases p with
  | inject proxy line => cases h
  | doc b =>
    rw [result_collect_doc] at h
    exact absurd hrest (not_cons_suffix (collect_suffix h))
  | token t =>
    by_cases kind : t.kind = .rbrace
    · rw [collect] at h
      cases hstep : step depth braces s t.kind with
      | ends | opensBody =>
        rw [hstep] at h
        cases h
        exact absurd hrest (not_cons_suffix (List.suffix_refl _))
      | stops =>
        rw [hstep] at h
        cases h
        exact ⟨rfl, t, rfl, kind, hstep⟩
      | goesOn =>
        rw [hstep] at h
        exact absurd hrest (not_cons_suffix (collect_suffix (s := s.push t) h))
    · exact absurd hrest (not_cons_suffix (collect_suffix_of_token kind h))

theorem collect_append
    (h : (collect depth braces s (xs ++ p :: ps)).result = .ok (s', rest))
    (hrest : p :: ps <:+ rest) :
    ∃ zs, ∀ qs, p.Leads qs →
      (collect depth braces s (xs ++ qs)).result = .ok (s', zs ++ qs) := by
  induction xs generalizing depth braces s with
  | nil =>
    obtain ⟨rfl, t, rfl, -, hstep⟩ := collect_unread h hrest
    refine ⟨[], fun qs hqs => ?_⟩
    rcases hqs.cases with rfl | ⟨qs, rfl⟩
    · rw [List.nil_append, collect]
      split <;> rfl
    · rw [List.nil_append, collect, hstep]
      rfl
  | cons x xs ih =>
    simp only [List.cons_append] at h ⊢
    cases x with
    | inject proxy line => cases h
    | doc b =>
      simp only [result_collect_doc] at h ⊢
      exact ih h
    | token t =>
      simp only [collect] at h ⊢
      cases hstep : step depth braces s t.kind with
      | ends | opensBody =>
        rw [hstep] at h
        cases h
        exact ⟨xs, fun qs _ => rfl⟩
      | stops =>
        rw [hstep] at h
        cases h
        exact ⟨.token t :: xs, fun qs _ => rfl⟩
      | goesOn =>
        rw [hstep] at h
        exact ih (s := s.push t) h

theorem length_of_collect (hs : s.hasBody = false)
    (h : (collect depth braces s ps).result = .ok (s', rest)) (hbody : s'.hasBody = true) :
    rest.length < ps.length := by
  induction ps generalizing depth braces s with
  | nil =>
    rw [collect] at h
    split at h <;> cases h <;> cases hs.symm.trans hbody
  | cons p ps ih =>
    cases p with
    | inject proxy line => cases h
    | doc b =>
      rw [result_collect_doc] at h
      exact Nat.lt_succ_of_lt (ih ((hasBody_behindDoc ..).trans hs) h)
    | token t =>
      rw [collect] at h
      split at h
      · cases h
        cases hs.symm.trans hbody
      · cases h
        cases hs.symm.trans hbody
      · cases h
        exact Nat.lt_succ_self _
      · exact Nat.lt_succ_of_lt (ih (s := s.push t) hs h)

theorem collect_upTo (hs : s.hasBody = false)
    (h : (collect depth braces s (xs ++ .token opening :: ps)).result = .ok (s', ps))
    (hbody : s'.hasBody = true) (qs : List Piece) :
    (collect depth braces s (xs ++ .token opening :: qs)).result = .ok (s', qs) := by
  -- Only a body's brace makes a statement that has one.
  have hends {s : Statement} {rest : List Piece} (hs : s.hasBody = false) :
      (pure (s, rest) : Outcome _).result ≠ .ok (s', ps) := by
    intro h
    cases h
    cases hs.symm.trans hbody
  induction xs generalizing depth braces s with
  | nil =>
    rw [List.nil_append, collect] at h ⊢
    cases hstep : step depth braces s opening.kind with
    | ends | stops =>
      rw [hstep] at h
      exact absurd h (hends hs)
    | opensBody =>
      rw [hstep] at h
      cases h
      rfl
    | goesOn =>
      rw [hstep] at h
      exact absurd (length_of_collect (s := s.push opening) hs h hbody) (Nat.lt_irrefl _)
  | cons x xs ih =>
    rw [List.cons_append] at h ⊢
    cases x with
    | inject proxy line => cases h
    | doc b =>
      rw [result_collect_doc] at h ⊢
      exact ih ((hasBody_behindDoc ..).trans hs) h
    | token t =>
      rw [collect] at h ⊢
      cases hstep : step depth braces s t.kind with
      | ends | stops =>
        rw [hstep] at h
        exact absurd h (hends hs)
      | opensBody =>
        rw [hstep] at h
        injection h with h
        have hlength := congrArg (·.2.length) h
        simp only [List.length_append, List.length_cons] at hlength
        omega
      | goesOn =>
        rw [hstep] at h
        exact ih (s := s.push t) hs h

theorem head?_append_of_leads {qs : List Piece} (hqs : p.Leads qs) (hne : xs ++ qs ≠ [])
    (ps : List Piece) : (xs ++ qs).head? = (xs ++ p :: ps).head? := by
  cases xs with
  | cons x xs => rfl
  | nil =>
    rcases hqs.cases with rfl | ⟨qs, rfl⟩
    · exact absurd rfl hne
    · rfl

theorem read_append {stmt : Statement} (h : (read (xs ++ p :: ps)).result = .ok (stmt, rest))
    (hrest : p :: ps <:+ rest) :
    ∃ zs, ∀ qs, p.Leads qs → xs ++ qs ≠ [] →
      (read (xs ++ qs)).result = .ok (stmt, zs ++ qs) := by
  obtain ⟨zs, hzs⟩ := collect_append h hrest
  refine ⟨zs, fun qs hqs hne => ?_⟩
  unfold read
  rw [head?_append_of_leads hqs hne ps]
  exact hzs qs hqs

/-- A word alone is a statement only in front of a brace that ends the scope. -/
theorem hasKind_of_read {t : Token} {stmt : Statement} (kind : t.kind = .ident)
    (h : (read (.token t :: p :: ps)).result = .ok (stmt, rest)) (hrest : p :: ps <:+ rest) :
    p.hasKind .rbrace = true := by
  have hstep (s : Statement) : step 0 0 s t.kind = .goesOn := by
    rw [kind]
    rfl
  unfold read at h
  rw [collect, hstep] at h
  obtain ⟨-, t', rfl, kind', -⟩ := collect_unread h hrest
  simp [Piece.hasKind, kind']

/-- A statement that a body's brace ends is read without the body. -/
theorem read_upTo {stmt : Statement} (h : (read (xs ++ .token opening :: ps)).result = .ok (stmt, ps))
    (hbody : stmt.hasBody = true) :
    ∀ qs, (read (xs ++ .token opening :: qs)).result = .ok (stmt, qs) := by
  intro qs
  unfold read at h ⊢
  rw [head?_append_of_leads (Piece.leads_cons _ qs) (by simp) ps]
  exact collect_upTo rfl h hbody qs

end Statement

/-! ### Bodies that are skipped -/

theorem skipBody_token (depth : Nat) (t : Token) (ps : List Piece) :
    skipBody depth (.token t :: ps) =
      if t.kind = .rbrace ∧ depth = 0 then pure ps else skipBody (braceDepth depth t.kind) ps := by
  cases hkind : t.kind <;> cases depth <;> simp [skipBody, braceDepth, hkind]

theorem skipBody_append {depth : Nat} (h : (skipBody depth (xs ++ p :: ps)).result = .ok rest)
    (hrest : p :: ps <:+ rest) :
    ∃ zs, ∀ qs, (skipBody depth (xs ++ qs)).result = .ok (zs ++ qs) := by
  induction xs generalizing depth with
  | nil =>
    rw [List.nil_append] at h
    refine absurd hrest (not_cons_suffix ?_)
    cases p with
    | inject proxy line => cases h
    | doc b =>
      have hrest : (skipBody depth ps).result = .ok rest := h
      exact skipBody_suffix hrest
    | token t =>
      rw [skipBody_token] at h
      split at h
      · cases h
        exact List.suffix_refl _
      · exact skipBody_suffix h
  | cons x xs ih =>
    rw [List.cons_append] at h
    simp only [List.cons_append]
    cases x with
    | inject proxy line => cases h
    | doc b => exact ih h
    | token t =>
      simp only [skipBody_token] at h ⊢
      split at h
      · cases h
        exact ⟨xs, fun qs => by rw [if_pos (by assumption)]; rfl⟩
      · simp only [if_neg (by assumption : ¬ (t.kind = .rbrace ∧ depth = 0))]
        exact ih h

theorem Statement.skipBodyOf_append {stmt : Statement}
    (h : (stmt.skipBodyOf (xs ++ p :: ps)).result = .ok rest) (hrest : p :: ps <:+ rest) :
    ∃ zs, ∀ qs, (stmt.skipBodyOf (xs ++ qs)).result = .ok (zs ++ qs) := by
  unfold skipBodyOf at h ⊢
  cases hbody : stmt.hasBody with
  | true =>
    rw [hbody] at h
    exact skipBody_append h hrest
  | false => exact ⟨xs, fun qs => rfl⟩

/-! ### Enum bodies -/

namespace EnumBody
variable {path : String} {members found : List Declaration} {doc : Option DocBlock} {depth : Nat}

theorem entryTokens_append (h : p :: ps <:+ (entryTokens depth (xs ++ p :: ps)).2) :
    ∃ ts zs, ∀ qs, p.Leads qs → entryTokens depth (xs ++ qs) = (ts, zs ++ qs) := by
  induction xs generalizing depth with
  | nil =>
    rw [List.nil_append] at h
    cases p with
    | doc | inject => exact absurd h (not_cons_suffix (entryTokens_suffix depth ps))
    | token t =>
      rw [entryTokens] at h
      by_cases hcomma : (t.kind = .comma && depth == 0) = true
      · rw [if_pos hcomma] at h
        exact absurd h (not_cons_suffix (List.suffix_refl _))
      · rw [if_neg hcomma] at h
        by_cases hbrace : (t.kind = .rbrace && depth == 0) = true
        · refine ⟨[], [], fun qs hqs => ?_⟩
          rcases hqs.cases with rfl | ⟨qs, rfl⟩
          · rfl
          · rw [List.nil_append, entryTokens, if_neg hcomma, if_pos hbrace]
        · rw [if_neg hbrace] at h
          exact absurd h (not_cons_suffix (entryTokens_suffix ..))
  | cons x xs ih =>
    simp only [List.cons_append] at h ⊢
    cases x with
    | doc | inject => exact ih h
    | token t =>
      simp only [entryTokens] at h ⊢
      by_cases hcomma : (t.kind = .comma && depth == 0) = true
      · simp only [if_pos hcomma] at h ⊢
        exact ⟨[], xs, fun qs _ => rfl⟩
      · simp only [if_neg hcomma] at h ⊢
        by_cases hbrace : (t.kind = .rbrace && depth == 0) = true
        · simp only [if_pos hbrace] at h ⊢
          exact ⟨[], .token t :: xs, fun qs _ => rfl⟩
        · simp only [if_neg hbrace] at h ⊢
          obtain ⟨ts, zs, hzs⟩ := ih h
          exact ⟨t :: ts, zs, fun qs hqs => by rw [hzs qs hqs]⟩

theorem read_entry {t : Token} (hbrace : t.kind ≠ .rbrace) (hcomma : t.kind ≠ .comma)
    (ps : List Piece) :
    read path members doc (.token t :: ps) =
      addEntry path members doc (t :: (entryTokens (bracketDepth 0 t.kind) ps).1) >>= fun members =>
        read path members none (entryTokens (bracketDepth 0 t.kind) ps).2 := by
  rw [read]
  split
  · exact absurd (by assumption) hbrace
  · exact absurd (by assumption) hcomma
  · rfl

/-- What is read of an enum's body leaves nothing of a piece that it starts with. -/
theorem suffix_of_read_cons (h : (read path members doc (p :: ps)).result = .ok (found, rest)) :
    rest <:+ ps := by
  cases p with
  | inject proxy line =>
    rw [read] at h
    cases h
  | doc b =>
    rw [read] at h
    exact read_suffix h
  | token t =>
    by_cases hbrace : t.kind = .rbrace
    · simp only [read, hbrace] at h
      cases h
      exact List.suffix_refl _
    · by_cases hcomma : t.kind = .comma
      · simp only [read, hcomma] at h
        exact read_suffix h
      · rw [read_entry hbrace hcomma] at h
        obtain ⟨members', -, h⟩ := Outcome.result_bind_eq_ok.1 h
        exact (read_suffix h).trans (entryTokens_suffix ..)

theorem read_append (h : (read path members doc (xs ++ p :: ps)).result = .ok (found, rest))
    (hrest : p :: ps <:+ rest) :
    ∃ zs, ∀ qs, p.Leads qs →
      (read path members doc (xs ++ qs)).result = .ok (found, zs ++ qs) := by
  -- An entry is read from further on, so the induction is on length.
  induction hn : xs.length using Nat.strongRecOn generalizing xs members doc with
  | ind n ih =>
    subst hn
    cases xs with
    | nil => exact absurd hrest (not_cons_suffix (suffix_of_read_cons h))
    | cons x xs =>
      simp only [List.cons_append] at h ⊢
      have hlater {members : List Declaration} {doc : Option DocBlock}
          (h : (read path members doc (xs ++ p :: ps)).result = .ok (found, rest)) :=
        ih xs.length (by simp) h rfl
      cases x with
      | inject proxy line =>
        rw [read] at h
        cases h
      | doc b =>
        simp only [read] at h ⊢
        exact hlater h
      | token t =>
        by_cases hbrace : t.kind = .rbrace
        · simp only [read, hbrace] at h ⊢
          cases h
          exact ⟨xs, fun qs _ => rfl⟩
        · by_cases hcomma : t.kind = .comma
          · simp only [read, hcomma] at h ⊢
            exact hlater h
          · simp only [read_entry hbrace hcomma] at h ⊢
            obtain ⟨members', hentry, h⟩ := Outcome.result_bind_eq_ok.1 h
            obtain ⟨ts, zs, hzs⟩ := entryTokens_append (hrest.trans (read_suffix h))
            have hself := hzs _ (Piece.leads_cons p ps)
            have hshorter : zs.length < (Piece.token t :: xs).length := by
              have hlength := (entryTokens_suffix (bracketDepth 0 t.kind) (xs ++ p :: ps)).length_le
              rw [hself] at hlength
              simp only [List.length_append, List.length_cons] at hlength ⊢
              omega
            rw [hself] at h hentry
            obtain ⟨zs', hzs'⟩ := ih _ hshorter h rfl
            refine ⟨zs', fun qs hqs => ?_⟩
            rw [hzs qs hqs]
            exact Outcome.result_bind_eq_ok.2 ⟨members', hentry, hzs' qs hqs⟩

end EnumBody

namespace Scope

/-! ### Macros, templates and namespaces -/

theorem suffix_of_argumentTokens_cons {depth : Nat} {ts : List Token}
    (h : argumentTokens depth (p :: ps) = some (ts, rest)) : rest <:+ ps := by
  have hmap {depth : Nat} {t : Token}
      (h : (argumentTokens depth ps).map (fun e => (t :: e.1, e.2)) = some (ts, rest)) :
      rest <:+ ps := by
    obtain ⟨⟨us, r⟩, hr, he⟩ := Option.map_eq_some_iff.1 h
    cases he
    exact argumentTokens_suffix hr
  cases p with
  | doc | inject =>
    have hrest : argumentTokens depth ps = some (ts, rest) := h
    exact argumentTokens_suffix hrest
  | token t =>
    unfold argumentTokens at h
    split at h
    · cases h
      exact List.suffix_refl _
    · exact hmap h
    · exact hmap h
    · cases h
    · cases h
    · cases h
    · exact hmap h

theorem argumentTokens_append {depth : Nat} {ts : List Token}
    (h : argumentTokens depth (xs ++ p :: ps) = some (ts, rest)) (hrest : p :: ps <:+ rest) :
    ∃ zs, ∀ qs, argumentTokens depth (xs ++ qs) = some (ts, zs ++ qs) := by
  induction xs generalizing depth ts with
  | nil => exact absurd hrest (not_cons_suffix (suffix_of_argumentTokens_cons h))
  | cons x xs ih =>
    have hmap {depth : Nat} {t : Token}
        (h : (argumentTokens depth (xs ++ p :: ps)).map (fun e => (t :: e.1, e.2)) =
          some (ts, rest)) :
        ∃ zs, ∀ qs, (argumentTokens depth (xs ++ qs)).map (fun e => (t :: e.1, e.2)) =
          some (ts, zs ++ qs) := by
      obtain ⟨⟨us, r⟩, hr, he⟩ := Option.map_eq_some_iff.1 h
      cases he
      obtain ⟨zs, hzs⟩ := ih hr
      exact ⟨zs, fun qs => by rw [hzs qs]; rfl⟩
    simp only [List.cons_append] at h ⊢
    cases x with
    | doc | inject => exact ih h
    | token t =>
      unfold argumentTokens at h ⊢
      split at h
      · cases h
        exact ⟨xs, fun qs => rfl⟩
      · exact hmap h
      · exact hmap h
      · cases h
      · cases h
      · cases h
      · exact hmap h

/-- What becomes of a call that may go on behind `xs`. -/
inductive CallCut (depth : Nat) (xs : List Piece) : Prop where
  | ends {e : Nat × List Piece} (own : callEnd? depth xs = some e) (line : ∃ x ∈ xs, x.line = e.1)
      (append : ∀ qs, callEnd? depth (xs ++ qs) = some (e.1, e.2 ++ qs))
  | broken (append : ∀ qs, callEnd? depth (xs ++ qs) = none)
  | goesOn {depth' : Nat} (own : callEnd? depth xs = none)
      (append : ∀ qs, callEnd? depth (xs ++ qs) = callEnd? depth' qs)

theorem callCut (depth : Nat) (xs : List Piece) : CallCut depth xs := by
  induction xs generalizing depth with
  | nil => exact .goesOn rfl fun qs => rfl
  | cons x xs ih =>
    cases x with
    | doc | inject => exact .broken fun qs => rfl
    | token t =>
      have hgoes (depth' : Nat)
          (h : ∀ qs, callEnd? depth (.token t :: qs) = callEnd? depth' qs) :
          CallCut depth (.token t :: xs) := by
        cases ih depth' with
        | ends own line append =>
          obtain ⟨x, hx, hline⟩ := line
          exact .ends ((h xs).trans own) ⟨x, List.mem_cons_of_mem _ hx, hline⟩
            fun qs => (h _).trans (append qs)
        | broken append => exact .broken fun qs => (h _).trans (append qs)
        | goesOn own append => exact .goesOn ((h xs).trans own) fun qs => (h _).trans (append qs)
      cases hkind : t.kind with
      | rparen =>
        cases depth with
        | zero =>
          refine .ends (e := (t.line, xs)) ?_ ⟨_, List.mem_cons_self, rfl⟩ fun qs => ?_ <;>
            simp [callEnd?, hkind]
        | succ depth => exact hgoes depth fun qs => by simp [callEnd?, hkind]
      | lparen => exact hgoes (depth + 1) fun qs => by simp [callEnd?, hkind]
      | semi | lbrace | rbrace => exact .broken fun qs => by simp [callEnd?, hkind]
      | _ => exact hgoes depth fun qs => by simp [callEnd?, hkind]

theorem callEnd?_append (hstop : sign.IsStop) (depth : Nat) (xs ps : List Piece) :
    callEnd? depth (xs ++ .token sign :: ps) =
      (callEnd? depth xs).map fun e => (e.1, e.2 ++ .token sign :: ps) := by
  cases callCut depth xs with
  | ends own line append => rw [append, own, Option.map_some]
  | broken append =>
    have hown := append []
    rw [List.append_nil] at hown
    rw [append, hown, Option.map_none]
  | goesOn own append =>
    rw [append, own, Option.map_none]
    rcases hstop with hkind | hkind | hkind <;> simp [callEnd?, hkind]

/-- A macro call that ends its line is told by the piece behind it, which the sign can be. -/
theorem afterMacroCall?_append (hstop : sign.IsStop) (t : Token) (xs : List Piece) :
    ∃ found : Option (List Piece), ∀ qs, afterMacroCall? t (xs ++ .token sign :: qs) =
      found.map (· ++ .token sign :: qs) := by
  -- What follows the call is checked once it is known to stand in front of the sign.
  have hchecked (line : Nat) (zs : List Piece) : ∃ found : Option (List Piece), ∀ qs,
      (if (zs ++ Piece.token sign :: qs).head?.any (·.line ≤ line) then none
        else some (zs ++ .token sign :: qs)) = found.map (· ++ .token sign :: qs) := by
    refine ⟨if (zs ++ [Piece.token sign]).head?.any (·.line ≤ line) then none else some zs, ?_⟩
    intro qs
    have hhead : (zs ++ .token sign :: qs).head? = (zs ++ [Piece.token sign]).head? := by
      cases zs <;> rfl
    rw [hhead]
    split <;> rfl
  unfold afterMacroCall?
  split
  · cases xs with
    | nil =>
      obtain ⟨found, hfound⟩ := hchecked t.line []
      refine ⟨found, fun qs => ?_⟩
      have hparen : Piece.hasKind (.token sign) .lparen = false := by
        rcases hstop with hkind | hkind | hkind <;> simp [Piece.hasKind, hkind]
      simp only [List.nil_append, hparen]
      exact hfound qs
    | cons x xs =>
      simp only [List.cons_append]
      split
      · simp only [callEnd?_append hstop]
        cases callEnd? 0 xs with
        | none => exact ⟨none, fun qs => rfl⟩
        | some e => exact hchecked e.1 e.2
      · exact hchecked t.line (x :: xs)
  · exact ⟨none, fun qs => rfl⟩

theorem readReflection_append {t : Token} {r : Reflection}
    (h : (readReflection t (xs ++ p :: ps)).result = .ok (r, rest)) (hrest : p :: ps <:+ rest) :
    ∃ zs, ∀ qs, (readReflection t (xs ++ qs)).result = .ok (r, zs ++ qs) := by
  cases xs with
  | nil =>
    simp only [List.nil_append, readReflection] at h
    split at h
    · split at h
      · rename_i ts after hargs
        split at h
        · cases h
          exact absurd hrest (not_cons_suffix (argumentTokens_suffix hargs))
        · cases h
      · cases h
    · cases h
  | cons x xs =>
    simp only [List.cons_append, readReflection] at h ⊢
    split at h
    · rename_i hparen
      split at h
      · rename_i ts after hargs
        split at h
        · rename_i metadata hread
          cases h
          obtain ⟨zs, hzs⟩ := argumentTokens_append hargs hrest
          refine ⟨zs, fun qs => ?_⟩
          simp only [hparen, if_true, hzs qs, hread]
          rfl
        · cases h
      · cases h
    · cases h

theorem suffix_of_templateTokens_cons (angle : Nat) (p : Piece) (ps : List Piece) :
    (templateTokens angle (p :: ps)).2 <:+ ps := by
  cases p with
  | doc | inject => exact templateTokens_suffix angle ps
  | token t =>
    rw [templateTokens]
    split
    · exact List.suffix_refl _
    · exact templateTokens_suffix ..

theorem templateTokens_append {angle : Nat}
    (h : p :: ps <:+ (templateTokens angle (xs ++ p :: ps)).2) :
    ∃ ts zs, ∀ qs, templateTokens angle (xs ++ qs) = (ts, zs ++ qs) := by
  induction xs generalizing angle with
  | nil => exact absurd h (not_cons_suffix (suffix_of_templateTokens_cons angle p ps))
  | cons x xs ih =>
    simp only [List.cons_append] at h ⊢
    cases x with
    | doc | inject => exact ih h
    | token t =>
      simp only [templateTokens] at h ⊢
      by_cases hcloses : (t.kind = .greater && angle ≤ 1) = true
      · simp only [if_pos hcloses] at h ⊢
        exact ⟨[t], xs, fun qs => rfl⟩
      · simp only [if_neg hcloses] at h ⊢
        obtain ⟨ts, zs, hzs⟩ := ih h
        exact ⟨t :: ts, zs, fun qs => by rw [hzs qs]⟩

/-- The head with more behind it. Nothing is an alias of nothing. -/
def NamespaceHead.append : NamespaceHead → List Piece → NamespaceHead
  | .body name rest, ps => .body name (rest ++ ps)
  | .alias [], [] => .nothing []
  | .alias rest, ps => .alias (rest ++ ps)
  | .nothing rest, ps => .nothing (rest ++ ps)

theorem namespaceHead_append (name : String)
    (h : p :: ps <:+ (namespaceHead name (xs ++ p :: ps)).rest) :
    ∃ u : NamespaceHead, ∀ qs, p.Leads qs → namespaceHead name (xs ++ qs) = u.append qs := by
  induction xs generalizing name with
  | nil =>
    have hhead {u : NamespaceHead} (hnil : u.append [] = .nothing [])
        (hcons : ∀ qs, namespaceHead name (p :: qs) = u.append (p :: qs)) :
        ∃ u : NamespaceHead, ∀ qs, p.Leads qs → namespaceHead name ([] ++ qs) = u.append qs := by
      refine ⟨u, fun qs hqs => ?_⟩
      rcases hqs.cases with rfl | ⟨qs, rfl⟩
      · exact hnil.symm
      · exact hcons qs
    rw [List.nil_append] at h
    cases p with
    | doc | inject => exact hhead (u := .nothing []) rfl fun qs => rfl
    | token t =>
      simp only [namespaceHead] at h
      split at h
      · exact absurd h (not_cons_suffix (List.suffix_refl _))
      · exact absurd h (not_cons_suffix (namespaceHead_suffix ..))
      · exact absurd h (not_cons_suffix (namespaceHead_suffix ..))
      · refine hhead (u := .alias []) rfl fun qs => ?_
        simp_all [namespaceHead, NamespaceHead.append]
  | cons x xs ih =>
    simp only [List.cons_append] at h ⊢
    cases x with
    | doc b => exact ⟨.nothing (.doc b :: xs), fun qs _ => rfl⟩
    | inject proxy line => exact ⟨.nothing (.inject proxy line :: xs), fun qs _ => rfl⟩
    | token t =>
      simp only [namespaceHead] at h ⊢
      split at h
      · exact ⟨.body name xs, fun qs _ => by simp_all [NamespaceHead.append]⟩
      · simp_all
      · simp_all
      · exact ⟨.alias (.token t :: xs), fun qs _ => by simp_all [NamespaceHead.append]⟩

/-! ### Words -/

/-- The word with more behind what it leaves. -/
def Word.append : Word → List Piece → Word
  | .macroCall rest, ps => .macroCall (rest ++ ps)
  | w, _ => w

theorem word_append (hstop : sign.IsStop) (t : Token) (xs : List Piece) :
    ∃ w : Word, ∀ qs, word t (xs ++ .token sign :: qs) = w.append (.token sign :: qs) := by
  have hnext (kind : TokenKind) (qs : List Piece) :
      nextIs 0 kind (xs ++ .token sign :: qs) = nextIs 0 kind (xs ++ [.token sign]) := by
    cases xs <;> rfl
  have hnamespace (qs : List Piece) :
      startsNamespace (xs ++ .token sign :: qs) = startsNamespace (xs ++ [.token sign]) := by
    cases xs with
    | nil => rfl
    | cons x xs => cases x <;> rfl
  -- The second piece is looked at only behind a string, which the sign is not.
  have hlinkage (qs : List Piece) :
      (nextIs 0 .string (xs ++ [.token sign]) && nextIs 1 .lbrace (xs ++ .token sign :: qs)) =
        (nextIs 0 .string (xs ++ [.token sign]) && nextIs 1 .lbrace (xs ++ [.token sign])) := by
    match xs with
    | [] => rcases hstop with hkind | hkind | hkind <;> simp [nextIs, Piece.hasKind, hkind]
    | [_] => rfl
    | _ :: _ :: _ => rfl
  obtain ⟨found, hfound⟩ := afterMacroCall?_append hstop t xs
  simp only [word, label?, hnext, hnamespace, Bool.and_assoc, hlinkage, hfound]
  split
  · exact ⟨.label _, fun _ => rfl⟩
  split
  · exact ⟨.template, fun _ => rfl⟩
  split
  · exact ⟨.inlined, fun _ => rfl⟩
  split
  · exact ⟨.namespace, fun _ => rfl⟩
  split
  · exact ⟨.linkage, fun _ => rfl⟩
  split
  · exact ⟨.reflection, fun _ => rfl⟩
  split
  · exact ⟨.passedOver, fun _ => rfl⟩
  cases found with
  | none => exact ⟨.other, fun _ => rfl⟩
  | some rest => exact ⟨.macroCall rest, fun _ => rfl⟩

/-! ### Turns -/

/-- The turn with more behind what it leaves. -/
def Turn.append : Turn → List Piece → Turn
  | .closes rest, ps => .closes (rest ++ ps)
  | .continues b rest, ps => .continues b (rest ++ ps)
  | .opens inner frame rest, ps => .opens inner frame (rest ++ ps)

namespace Turn
variable {v : Turn}

theorem eq_closes_of_append (h : .closes rest = v.append ps) :
    ∃ zs, v = .closes zs ∧ rest = zs ++ ps := by
  cases v <;> cases h
  exact ⟨_, rfl, rfl⟩

theorem eq_continues_of_append {b : State} (h : .continues b rest = v.append ps) :
    ∃ zs, v = .continues b zs ∧ rest = zs ++ ps := by
  cases v <;> cases h
  exact ⟨_, rfl, rfl⟩

theorem eq_opens_of_append {inner : Scope} {frame : Frame} (h : .opens inner frame rest = v.append ps) :
    ∃ zs, v = .opens inner frame zs ∧ rest = zs ++ ps := by
  cases v <;> cases h
  exact ⟨_, rfl, rfl⟩

end Turn

theorem Declares.append {s : Scope} {b : State} {u : Turn} (hxs : xs ≠ [])
    (h : Declares s b (xs ++ p :: ps) u) (hrest : p :: ps <:+ u.rest) :
    ∃ v : Turn, ∀ qs, p.Leads qs → Declares s b (xs ++ qs) (v.append qs) := by
  have hself := Piece.leads_cons p ps
  have hne (qs : List Piece) : xs ++ qs ≠ [] := by simp [hxs]
  cases h with
  | passesOver read head free skipped =>
    obtain ⟨ys, hread⟩ := Statement.read_append read
      (hrest.trans (Statement.skipBodyOf_suffix skipped))
    cases read.symm.trans (hread _ hself (hne _))
    obtain ⟨zs, hskipped⟩ := Statement.skipBodyOf_append skipped hrest
    exact ⟨.continues _ zs, fun qs hqs =>
      .passesOver (hread qs hqs (hne qs)) head free (hskipped qs)⟩
  | opensRecord read head checked body item =>
    obtain ⟨zs, hread⟩ := Statement.read_append read hrest
    exact ⟨.opens _ _ zs, fun qs hqs =>
      .opensRecord (hread qs hqs (hne qs)) head checked body item⟩
  | readsEnum read head checked body item entries =>
    obtain ⟨ys, hread⟩ := Statement.read_append read (hrest.trans (EnumBody.read_suffix entries))
    cases read.symm.trans (hread _ hself (hne _))
    obtain ⟨zs, hentries⟩ := EnumBody.read_append entries hrest
    exact ⟨.continues _ zs, fun qs hqs =>
      .readsEnum (hread qs hqs (hne qs)) head checked body item (hentries qs hqs)⟩
  | skipsBody read head checked body record enum skipped =>
    obtain ⟨ys, hread⟩ := Statement.read_append read (hrest.trans (skipBody_suffix skipped))
    cases read.symm.trans (hread _ hself (hne _))
    obtain ⟨zs, hskipped⟩ := skipBody_append skipped hrest
    exact ⟨.continues _ zs, fun qs hqs =>
      .skipsBody (hread qs hqs (hne qs)) head checked body record enum (hskipped qs)⟩
  | announces read head checked bodiless =>
    obtain ⟨zs, hread⟩ := Statement.read_append read hrest
    exact ⟨.continues _ zs, fun qs hqs => .announces (hread qs hqs (hne qs)) head checked bodiless⟩

theorem word_eq_of_append {t : Token} (hopen : opening.kind = .lbrace) {w : Word}
    (h : word t (xs ++ .token opening :: ps) = w) (hw : ∀ rest, w ≠ .macroCall rest)
    (qs : List Piece) : word t (xs ++ .token opening :: qs) = w := by
  obtain ⟨w', hw'⟩ := word_append (.inl hopen) t xs
  rw [hw'] at h ⊢
  cases w' with
  | macroCall rest => exact absurd h.symm (hw _)
  | _ => exact h

/-- The alias of a namespace, which is cut off where nothing is left of it and of the pieces
behind it: its statement stops at a brace. -/
theorem takes_alias_append {s : Scope} (b : State) {t : Token} {ys rest : List Piece} {stmt : Statement}
    (kind : t.kind = .ident) (read : (Statement.read (ys ++ p :: ps)).result = .ok (stmt, rest))
    (hrest : p :: ps <:+ rest) :
    ∃ zs, ∀ qs, p.Leads qs → ∀ behind, word t behind = .namespace →
      namespaceHead "" behind = (NamespaceHead.alias ys).append qs →
      Takes s b (.token t) behind (.continues b.withoutDoc (zs ++ qs)) := by
  obtain ⟨zs, hread⟩ := Statement.read_append read hrest
  refine ⟨zs, fun qs hqs behind is head => ?_⟩
  by_cases hne : ys ++ qs = []
  · obtain ⟨rfl, rfl⟩ := List.append_eq_nil_iff.1 hne
    have hzs : zs = [] := by
      have hsuffix := Statement.read_suffix (hread _ (Piece.leads_cons p ps) (by simp))
      have hlength := hsuffix.length_le
      simp only [List.length_append, List.length_cons, List.length_nil] at hlength
      exact List.eq_nil_of_length_eq_zero (by omega)
    rw [hzs]
    exact .endsNamespaceHead kind is head
  · refine .aliases kind is (head.trans ?_) (hread qs hqs hne)
    cases ys with
    | nil => cases qs with
      | nil => exact absurd rfl hne
      | cons => rfl
    | cons => rfl

/-- What a turn makes of the pieces in front of one that it leaves unread. A word that it starts
with looks ahead, so `Q` says what may stand there instead. -/
theorem Takes.append {s : Scope} {b : State} {q : Piece} {u : Turn} {Q : List Piece → Prop}
    (hQ : ∀ qs, Q qs → p.Leads qs) (hself : Q (p :: ps))
    (hword : ∀ t, q = .token t → t.kind = .ident →
      ∃ w : Word, ∀ qs, Q qs → word t (xs ++ qs) = w.append qs)
    (h : Takes s b q (xs ++ p :: ps) u) (hrest : p :: ps <:+ u.rest) :
    ∃ v : Turn, ∀ qs, Q qs → Takes s b q (xs ++ qs) (v.append qs) := by
  have hsame {t : Token} {w : Word} (ht : q = .token t) (kind : t.kind = .ident)
      (is : word t (xs ++ p :: ps) = w) (plain : ∀ rest, w ≠ .macroCall rest) (qs : List Piece)
      (hqs : Q qs) : word t (xs ++ qs) = w := by
    obtain ⟨w', hw'⟩ := hword t ht kind
    rw [hw' _ hself] at is
    rw [hw' qs hqs]
    cases w' with
    | macroCall rest => exact absurd is.symm (plain _)
    | _ => exact is
  -- The pieces that a word takes with it cannot include the one that is left.
  have hdrop (n : Nat) (h : p :: ps <:+ (xs ++ p :: ps).drop n) (qs : List Piece) :
      (xs ++ qs).drop n = xs.drop n ++ qs := by
    have hlength := h.length_le
    simp only [List.length_drop, List.length_append, List.length_cons] at hlength
    rw [List.drop_append_of_le_length (by omega)]
  cases h with
  | doc block => exact ⟨.continues _ xs, fun qs _ => .doc block _⟩
  | inject proxy line _ record => exact ⟨.continues _ xs, fun qs _ => .inject proxy line _ record⟩
  | closes t _ kind braced => exact ⟨.closes xs, fun qs _ => .closes t _ kind braced⟩
  | passes t _ why =>
    refine ⟨.continues b xs, fun qs hqs => .passes t _ ?_⟩
    exact why.imp_right (.imp_right fun h => ⟨h.1, hsame rfl h.1 h.2 (by simp) qs hqs⟩)
  | @label t _ v kind is =>
    refine ⟨.continues { b with visibility := v } (xs.drop 1), fun qs hqs => ?_⟩
    have htaken := Takes.label (s := s) (b := b) kind (hsame rfl kind is (by simp) qs hqs)
    rwa [hdrop 1 hrest] at htaken
  | @template t _ kind is =>
    obtain ⟨ts, zs, hzs⟩ := templateTokens_append hrest
    refine ⟨.continues { b with pending.template := some (Token.join (t :: ts)) } zs,
      fun qs hqs => ?_⟩
    have htaken := Takes.template (s := s) (b := b) kind (hsame rfl kind is (by simp) qs hqs)
    rw [hzs qs] at htaken
    exact htaken
  | opensNamespace kind is head =>
    obtain ⟨u, hu⟩ := namespaceHead_append "" (by rwa [head])
    have hhead := head.symm.trans (hu _ (hQ _ hself))
    cases u with
    | body name zs =>
      cases hhead
      exact ⟨.opens _ _ zs, fun qs hqs =>
        .opensNamespace kind (hsame rfl kind is (by simp) qs hqs) (hu qs (hQ qs hqs))⟩
    | «alias» zs => cases zs <;> cases hhead
    | nothing => cases hhead
  | @aliases t _ rest _ stmt kind is head read =>
    have hleft := hrest.trans (Statement.read_suffix read)
    obtain ⟨u, hu⟩ := namespaceHead_append "" (by rwa [head])
    have hhead := head.symm.trans (hu _ (hQ _ hself))
    cases u with
    | body => cases hhead
    | «alias» ys =>
      have hys : rest = ys ++ p :: ps := by cases ys <;> cases hhead <;> rfl
      subst hys
      obtain ⟨zs, htakes⟩ := takes_alias_append (s := s) b kind read hrest
      exact ⟨.continues b.withoutDoc zs, fun qs hqs =>
        htakes qs (hQ qs hqs) _ (hsame rfl kind is (by simp) qs hqs) (hu qs (hQ qs hqs))⟩
    | nothing => cases hhead
  | endsNamespaceHead kind is head =>
    obtain ⟨u, hu⟩ := namespaceHead_append "" (by rwa [head])
    have hhead := head.symm.trans (hu _ (hQ _ hself))
    cases u with
    | body => cases hhead
    | «alias» zs => cases zs <;> cases hhead
    | nothing zs =>
      cases hhead
      exact ⟨.continues _ zs, fun qs hqs =>
        .endsNamespaceHead kind (hsame rfl kind is (by simp) qs hqs) (hu qs (hQ qs hqs))⟩
  | opensLinkage kind is =>
    refine ⟨.opens { s with braced := true } (.transparent b) (xs.drop 2), fun qs hqs => ?_⟩
    have htaken := Takes.opensLinkage (s := s) (b := b) kind (hsame rfl kind is (by simp) qs hqs)
    rwa [hdrop 2 hrest] at htaken
  | annotates kind is free read =>
    obtain ⟨zs, hread⟩ := readReflection_append read hrest
    exact ⟨.continues _ zs, fun qs hqs =>
      .annotates kind (hsame rfl kind is (by simp) qs hqs) free (hread qs)⟩
  | @passesOverKeyword t _ rest rest' stmt kind is read skipped =>
    have read : (Statement.read (.token t :: xs ++ p :: ps)).result = .ok (stmt, rest) := read
    obtain ⟨ys, hread⟩ := Statement.read_append read
      (hrest.trans (Statement.skipBodyOf_suffix skipped))
    cases read.symm.trans (hread _ (hQ _ hself) (by simp))
    obtain ⟨zs, hskipped⟩ := Statement.skipBodyOf_append skipped hrest
    exact ⟨.continues b zs, fun qs hqs => .passesOverKeyword kind
      (hsame rfl kind is (by simp) qs hqs) (hread qs (hQ qs hqs) (by simp)) (hskipped qs)⟩
  | calls kind is =>
    obtain ⟨w, hw⟩ := hword _ rfl kind
    rw [hw _ hself] at is
    cases w with
    | macroCall zs => exact ⟨.continues b zs, fun qs hqs => .calls kind (hw qs hqs)⟩
    | _ => cases is
  | @declares t _ _ kind is h =>
    have h : Declares s b (.token t :: xs ++ p :: ps) u := h
    obtain ⟨v, hv⟩ := h.append (List.cons_ne_nil _ _) hrest
    exact ⟨v, fun qs hqs => .declares kind
      (fun hident => hsame rfl hident (is hident) (by simp) qs hqs) (hv qs (hQ qs hqs))⟩

/-- **A turn that leaves the brace unread** does so whatever stands behind that brace. -/
theorem turn_append {s : Scope} {b : State} {q : Piece} {pieces : List Piece} {u : Turn}
    (hopen : opening.kind = .lbrace) (hpieces : xs ++ .token opening :: ps = q :: pieces)
    (h : (turn s b q pieces).result = .ok u) (hrest : .token opening :: ps <:+ u.rest) :
    ∃ v : Turn, u = v.append (.token opening :: ps) ∧
      ∀ qs, ∃ pieces', xs ++ .token opening :: qs = q :: pieces' ∧
        (turn s b q pieces').result = .ok (v.append (.token opening :: qs)) := by
  cases xs with
  | nil =>
    cases hpieces
    exact absurd hrest (not_cons_suffix (turn_suffix h))
  | cons x xs =>
    cases hpieces
    obtain ⟨v, hv⟩ := (takes_of_turn h).append (Q := fun qs => ∃ qs', qs = .token opening :: qs')
      (fun _ ⟨qs', hqs'⟩ => hqs' ▸ Piece.leads_cons _ qs') ⟨ps, rfl⟩
      (fun t _ _ => (word_append (.inl hopen) t xs).imp fun _ hw _ ⟨qs', hqs'⟩ => hqs' ▸ hw qs') hrest
    have hturn (qs : List Piece) := turn_of_takes (hv _ ⟨qs, rfl⟩)
    cases h.symm.trans (hturn ps)
    exact ⟨v, rfl, fun qs => ⟨_, rfl, hturn qs⟩⟩

/-! ### Readings -/

/-- **A scope that ends in front of a brace is read alike whatever stands behind that brace.** -/
theorem Reads.append {s : Scope} {b : State} {found : Contents} (hopen : opening.kind = .lbrace)
    (h : Reads s b (xs ++ .token opening :: ps) found rest)
    (hrest : .token opening :: ps <:+ rest) :
    ∃ zs, rest = zs ++ .token opening :: ps ∧
      ∀ qs, Reads s b (xs ++ .token opening :: qs) found (zs ++ .token opening :: qs) := by
  generalize hpieces : xs ++ .token opening :: ps = pieces at h
  induction h generalizing xs with
  | ends => simp at hpieces
  | closes taken free =>
    obtain ⟨v, hv, hturn⟩ := turn_append hopen hpieces taken hrest
    obtain ⟨zs, rfl, rfl⟩ := Turn.eq_closes_of_append hv
    refine ⟨zs, rfl, fun qs => ?_⟩
    obtain ⟨pieces', hpieces', taken'⟩ := hturn qs
    rw [hpieces']
    exact .closes taken' free
  | continues taken more ih =>
    obtain ⟨v, hv, hturn⟩ := turn_append hopen hpieces taken (hrest.trans more.suffix)
    obtain ⟨ys, rfl, rfl⟩ := Turn.eq_continues_of_append hv
    obtain ⟨zs, hzs, hmore⟩ := ih hrest rfl
    refine ⟨zs, hzs, fun qs => ?_⟩
    obtain ⟨pieces', hpieces', taken'⟩ := hturn qs
    rw [hpieces']
    exact .continues taken' (hmore qs)
  | opens taken inside more ihInside ihMore =>
    obtain ⟨v, hv, hturn⟩ :=
      turn_append hopen hpieces taken (hrest.trans (more.suffix.trans inside.suffix))
    obtain ⟨ys, rfl, rfl⟩ := Turn.eq_opens_of_append hv
    obtain ⟨ys', rfl, hinside⟩ := ihInside (hrest.trans more.suffix) rfl
    obtain ⟨zs, hzs, hmore⟩ := ihMore hrest rfl
    refine ⟨zs, hzs, fun qs => ?_⟩
    obtain ⟨pieces', hpieces', taken'⟩ := hturn qs
    rw [hpieces']
    exact .opens taken' (hinside qs) (hmore qs)

end Scope

end AnnotatedHeader
