import AnnotatedHeader.EnumBody
import AnnotatedHeader.Proofs.Numbering.Heads

/-! Statements and enum bodies among renumbered pieces.

Readers go by the kinds of pieces and by the kinds and texts of tokens. So they stop where they
did, and what they have read, or the fault they end with, is renumbered. -/
namespace AnnotatedHeader

variable {g : Nat → Nat}

/-! ### Statements -/

namespace Statement

theorem push_renumber (s : Statement) (t : Token) :
    (renumber g s).push (renumber g t) = renumber g (s.push t) := by
  obtain ⟨tokens, paramDocs, hasBody, line⟩ := s
  show Statement.mk (tokens.map (renumber g) ++ [renumber g t]) _ _ _ =
    Statement.mk ((tokens ++ [t]).map (renumber g)) _ _ _
  rw [List.map_append]
  rfl

theorem pushDoc_renumber (s : Statement) (b : DocBlock) :
    (renumber g s).pushDoc (renumber g b) = renumber g (s.pushDoc b) := by
  obtain ⟨tokens, paramDocs, hasBody, line⟩ := s
  show Statement.mk _ (paramDocs.map (Head.renumberDoc g) ++
      [((tokens.map (renumber g)).length, renumber g b)]) _ _ =
    Statement.mk _ ((paramDocs ++ [(tokens.length, b)]).map (Head.renumberDoc g)) _ _
  rw [List.map_append, List.length_map]
  rfl

theorem step_renumber (depth braces : Nat) (s : Statement) (kind : TokenKind) :
    step depth braces (renumber g s) kind = step depth braces s kind := by
  have htokens : braceRole (renumber g s).tokens = braceRole s.tokens := braceRole_renumber s.tokens
  unfold step
  rw [htokens]

theorem result_collect_renumber (depth braces : Nat) (s : Statement) (ps : List Piece) :
    (collect depth braces (renumber g s) (ps.map (renumber g))).result =
      renumber g (collect depth braces s ps).result := by
  induction ps generalizing depth braces s with
  | nil =>
    rw [List.map_nil, collect, collect]
    split <;> rfl
  | cons p ps ih =>
    rw [List.map_cons]
    cases p with
    | inject proxy line => rfl
    | doc b =>
      rw [Piece.renumber_doc, collect, collect, pushDoc_renumber]
      split
      · exact ih ..
      · split
        · exact ih ..
        · rw [Outcome.result_bind, Outcome.result_bind]
          exact ih ..
    | token t =>
      rw [Piece.renumber_token, collect, collect, step_renumber, Token.kind_renumber, push_renumber]
      cases step depth braces s t.kind with
      | ends => rfl
      | stops => rfl
      | opensBody => rfl
      | goesOn => exact ih ..

/-- A statement takes its line from its first piece, so there must be one. -/
theorem result_read_renumber {ps : List Piece} (h : ps ≠ []) :
    (read (ps.map (renumber g))).result = renumber g (read ps).result := by
  cases ps with
  | nil => exact absurd rfl h
  | cons p ps =>
    unfold read
    rw [← result_collect_renumber, List.map_cons]
    simp only [List.head?_cons, Option.map_some, Option.getD_some, Piece.line_renumber]
    rfl

end Statement

theorem result_skipBody_renumber (depth : Nat) (ps : List Piece) :
    (skipBody depth (ps.map (renumber g))).result = renumber g (skipBody depth ps).result := by
  fun_induction skipBody depth ps with
  | case1 => rfl
  | case2 => rfl
  | case3 depth b ps ih => exact ih
  | case4 t ps hkind => simp [skipBody, hkind]
  | case5 t ps depth hkind ih => simp only [List.map_cons, Piece.renumber_token, skipBody,
      Token.kind_renumber, hkind, ih]
  | case6 depth t ps hkind ih => simp only [List.map_cons, Piece.renumber_token, skipBody,
      Token.kind_renumber, hkind, ih]
  | case7 t ps depth _ _ _ ih => simp only [List.map_cons, Piece.renumber_token, skipBody,
      Token.kind_renumber, ih]

theorem Statement.result_skipBodyOf_renumber (s : Statement) (rest : List Piece) :
    ((renumber g s).skipBodyOf (rest.map (renumber g))).result =
      renumber g (s.skipBodyOf rest).result := by
  have hbody : (renumber g s).hasBody = s.hasBody := rfl
  unfold skipBodyOf
  rw [hbody]
  split
  · exact result_skipBody_renumber 0 rest
  · rfl

/-! ### Merging -/

namespace Declaration

theorem sameEntity_renumber (a b : Declaration) :
    sameEntity (renumber g a) (renumber g b) = sameEntity a b := by
  unfold sameEntity
  simp only [toDeclared_renumber, Declared.path_renumber, kind_renumber, Declared.item_renumber,
    Item.paramTypes_renumber]

theorem inherit_renumber (winner loser : Declaration) :
    inherit (renumber g winner) (renumber g loser) = renumber g (inherit winner loser) := by
  have horElse {α : Type} [Numbered α] (a b : Option α) :
      (renumber g a <|> renumber g b) = renumber g (a <|> b) := by
    cases a <;> cases b <;> rfl
  obtain ⟨own, members⟩ := winner
  obtain ⟨own', members'⟩ := loser
  unfold inherit
  simp only [renumber_mk, Declared.doc_renumber, Declared.reflection_renumber, horElse]
  rfl

theorem combine_renumber (earlier later : Declaration) :
    combine (renumber g earlier) (renumber g later) = renumber g (combine earlier later) := by
  have houtlasts : outlasts (renumber g earlier) (renumber g later) = outlasts earlier later := by
    unfold outlasts
    simp only [toDeclared_renumber, Declared.item_renumber, Item.hasBody_renumber]
  unfold combine
  rw [houtlasts, inherit_renumber, inherit_renumber]
  split <;> rfl

theorem merged_renumber (ds : List Declaration) (later : Declaration) :
    merged (ds.map (renumber g)) (renumber g later) = (merged ds later).map (renumber g) := by
  induction ds with
  | nil => rfl
  | cons d ds ih =>
    rw [List.map_cons, merged, merged, sameEntity_renumber, combine_renumber, ih]
    split <;> rfl

end Declaration

/-! ### Enum bodies -/

namespace EnumBody

theorem entryTokens_renumber (depth : Nat) (ps : List Piece) :
    entryTokens depth (ps.map (renumber g)) = renumber g (entryTokens depth ps) := by
  induction ps generalizing depth with
  | nil => rfl
  | cons p ps ih =>
    rw [List.map_cons]
    cases p with
    | token t =>
      rw [Piece.renumber_token, entryTokens, entryTokens, Token.kind_renumber, ih]
      split
      · rfl
      · split <;> rfl
    | doc b => exact ih _
    | inject proxy line => exact ih _

theorem reflection_renumber (t : Token) (args : List Token) :
    reflection (renumber g t) (args.map (renumber g)) = renumber g (reflection t args) := by
  unfold reflection
  cases args with
  | nil => rfl
  | cons opening rest =>
    rw [List.map_cons]
    dsimp only
    rw [any_getLast?_renumber fun _ => rfl, Token.kind_renumber, Token.line_renumber,
      ← List.map_dropLast, Metadata.read_renumber]
    split
    · cases Metadata.read rest.dropLast <;> rfl
    · rfl

theorem value?_renumber (head : List Token) : value? (head.map (renumber g)) = value? head := by
  unfold value?
  rw [dropWhile_renumber fun _ => rfl]
  cases head.dropWhile (·.kind != .equals) with
  | nil => rfl
  | cons equals value => exact congrArg some (Token.join_renumber value)

theorem variant_renumber (path : String) (doc : Option DocBlock) (ts : List Token) :
    variant path (renumber g doc) (ts.map (renumber g)) = renumber g (variant path doc ts) := by
  unfold variant
  cases ts with
  | nil => rfl
  | cons name rest =>
    rw [List.map_cons]
    dsimp only
    rw [Token.kind_renumber]
    split
    · rw [← List.map_cons, takeWhile_renumber fun _ => rfl, dropWhile_renumber fun _ => rfl,
        Token.join_renumber, value?_renumber]
      have hleaf (r : Option Reflection) := (Declaration.renumber_mk (g := g)
        { name := name.text
          path := QualifiedPath.join path name.text
          line := name.line
          visibility := .everyone
          template := none
          reflection := r
          signature := Token.join ((name :: rest).takeWhile (!·.isIdent metaMacro))
          doc
          item := .variant (value? ((name :: rest).takeWhile (!·.isIdent metaMacro)))
          synthetic := false } []).symm
      cases (name :: rest).dropWhile (!·.isIdent metaMacro) with
      | nil => exact congrArg (fun d => Except.ok (some d)) (hleaf none)
      | cons t args =>
        simp only [List.map_cons, reflection_renumber]
        cases reflection t args with
        | error e => rfl
        | ok r => exact congrArg (fun d => Except.ok (some d)) (hleaf (some r))
    · rfl

theorem result_addEntry_renumber (path : String) (members : List Declaration) (doc : Option DocBlock)
    (ts : List Token) :
    (addEntry path (members.map (renumber g)) (renumber g doc) (ts.map (renumber g))).result =
      renumber g (addEntry path members doc ts).result := by
  unfold addEntry
  refine Outcome.result_bind_renumber (variant_renumber path doc ts) fun entry => ?_
  cases entry with
  | none => rfl
  | some member => exact congrArg Except.ok (Declaration.merged_renumber members member)

theorem result_read_renumber (path : String) (members : List Declaration) (doc : Option DocBlock)
    (ps : List Piece) :
    (read path (members.map (renumber g)) (renumber g doc) (ps.map (renumber g))).result =
      renumber g (read path members doc ps).result := by
  fun_induction read path members doc ps with
  | case1 members doc =>
    rw [List.map_nil, read]
    rfl
  | case2 members doc b ps ih =>
    rw [List.map_cons, Piece.renumber_doc, read]
    exact ih
  | case3 members doc proxy line ps =>
    rw [List.map_cons, Piece.renumber_inject, read]
    rfl
  | case4 members doc t ps hkind =>
    rw [List.map_cons, Piece.renumber_token, read, Token.kind_renumber, hkind]
    rfl
  | case5 members doc t ps hkind ih =>
    rw [List.map_cons, Piece.renumber_token, read, Token.kind_renumber, hkind]
    exact ih
  | case6 members doc t ps more hbrace hcomma ih =>
    have hmore := entryTokens_renumber (g := g) (bracketDepth 0 t.kind) ps
    rw [List.map_cons, Piece.renumber_token, read, Token.kind_renumber, hmore]
    split
    · rename_i h
      exact (hbrace h).elim
    · rename_i h
      exact (hcomma h).elim
    · exact Outcome.result_bind_renumber (result_addEntry_renumber path members doc (t :: more.1)) ih

end EnumBody

end AnnotatedHeader
