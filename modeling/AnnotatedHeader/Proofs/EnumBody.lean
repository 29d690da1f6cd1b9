import AnnotatedHeader.Proofs.Declaration.Forest
import AnnotatedHeader.Proofs.Scope.Unread
import AnnotatedHeader.Proofs.Token.Brackets

/-! Enum bodies are read exactly.

An entry is a name, a value behind `=` and a macro's call, and a comma ends it outside brackets
only. So the tokens between two commas are those of one entry (`entryTokens_bracketed`), and each of
its parts is found where it stands (`Entry.variant_tokens`). Names that differ make paths that
differ, hence no two variants are merged, and a body declares the variants that are written in it,
one for each entry and in their order (`read_of_written`). -/
namespace AnnotatedHeader

theorem QualifiedPath.join_inj {parent a b : String} (h : join parent a = join parent b) : a = b := by
  unfold join at h
  split at h
  · exact h
  · simpa using h

theorem Declaration.mergeInto_of_distinct {ds : List Declaration} {later : Declaration}
    (h : ∀ d ∈ ds, d.path ≠ later.path) : mergeInto ds later = pure (ds ++ [later]) := by
  have hnew : later.entity ∉ ds.map entity := fun hmem => by
    obtain ⟨d, hd, hentity⟩ := List.mem_map.1 hmem
    exact h d hd (congrArg Prod.fst hentity)
  have hnone : ds.find? (sameEntity · later) = none :=
    List.find?_eq_none.2 fun d hd => by simp [sameEntity, h d hd]
  rw [mergeInto, hnone, merged_of_new hnew]
  rfl

namespace EnumBody

/-! ### Entries -/

/-- The value of an entry: `=` and an expression. -/
structure Assignment where
  sign : Token
  expr : List Token
  equals : sign.kind = .equals
  nested : Token.Nested false expr
  plain : ∀ t ∈ expr, t.isIdent metaMacro = false

/-- The metadata of an entry: the macro's name and its arguments. -/
structure MetaCall where
  word : Token
  opening : Token
  args : List Token
  closing : Token
  metadata : Metadata
  named : word.isIdent metaMacro = true
  opens : opening.kind = .lparen
  closes : closing.kind = .rparen
  nested : Token.Nested true args
  accepted : Metadata.read args = .ok metadata

/-- An entry as it is written. -/
structure Entry where
  doc : Option DocBlock
  name : Token
  value : Option Assignment
  call : Option MetaCall
  ident : name.kind = .ident
  named : name.text ≠ metaMacro

def Assignment.tokens (a : Assignment) : List Token := a.sign :: a.expr

def MetaCall.tokens (c : MetaCall) : List Token := c.word :: c.opening :: (c.args ++ [c.closing])

namespace Entry

/-- The tokens in front of the macro. -/
def head (e : Entry) : List Token := e.name :: (e.value.map (·.tokens)).getD []

def tokens (e : Entry) : List Token := e.head ++ (e.call.map (·.tokens)).getD []

def pieces (e : Entry) : List Piece := e.doc.toList.map .doc ++ e.tokens.map .token

/-- What the entry says. -/
def declaration (path : String) (e : Entry) : Declaration where
  name := e.name.text
  path := QualifiedPath.join path e.name.text
  line := e.name.line
  visibility := .everyone
  template := none
  reflection := e.call.map fun c => ⟨metaMacro, c.metadata, c.word.line⟩
  signature := Token.join e.head
  doc := e.doc
  item := .variant (e.value.map fun a => Token.join a.expr)
  synthetic := false
  members := []

end Entry

/-- Commas stand between entries, and there may be one behind the last. -/
inductive Written : List Entry → List Piece → Prop where
  | nil : Written [] []
  | last (e : Entry) : Written [e] e.pieces
  | cons {es : List Entry} {ps : List Piece} {comma : Token} (e : Entry) (separates : comma.kind = .comma)
      (rest : Written es ps) : Written (e :: es) (e.pieces ++ .token comma :: ps)

/-! ### The tokens of an entry -/

theorem bracketDepth_of_sign {kind : TokenKind} (opens : kind.opens = false) (closes : kind.closes = false)
    (depth : Nat) : bracketDepth depth kind = depth := by
  unfold bracketDepth
  cases kind <;> first | rfl | exact absurd opens (by decide) | exact absurd closes (by decide)

theorem bracketDepth_of_opens {kind : TokenKind} (opens : kind.opens = true) (depth : Nat) :
    bracketDepth depth kind = depth + 1 := by
  unfold bracketDepth
  cases kind <;> first | rfl | exact absurd opens (by decide)

theorem bracketDepth_of_closes {kind : TokenKind} (closes : kind.closes = true) (depth : Nat) :
    bracketDepth depth kind = depth - 1 := by
  unfold bracketDepth
  cases kind <;> first | rfl | exact absurd closes (by decide)

/-- Only a comma or a closing brace outside brackets ends an entry. -/
theorem entryTokens_token {t : Token} {depth : Nat} (comma : t.kind = .comma → depth ≠ 0)
    (brace : t.kind = .rbrace → depth ≠ 0) (ps : List Piece) :
    entryTokens depth (.token t :: ps) =
      (t :: (entryTokens (bracketDepth depth t.kind) ps).1,
        (entryTokens (bracketDepth depth t.kind) ps).2) := by
  have hcomma : ¬(t.kind = .comma && depth == 0) = true := by simpa using comma
  have hbrace : ¬(t.kind = .rbrace && depth == 0) = true := by simpa using brace
  rw [entryTokens, if_neg hcomma, if_neg hbrace]

/-- Nested tokens are read to their end: no comma and no brace among them ends an entry. -/
theorem entryTokens_bracketed {lone : Token → Prop} {ts : List Token}
    (h : Bracketed Token.Pairs Token.IsBare lone ts) {depth : Nat}
    (bare : ∀ t, lone t → t.IsBare ∧ (t.kind = .comma → 0 < depth)) (rest : List Piece) :
    entryTokens depth (ts.map .token ++ rest) =
      (ts ++ (entryTokens depth rest).1, (entryTokens depth rest).2) := by
  induction h generalizing depth rest with
  | nil => rfl
  | @single lone t ts alone _ ih =>
    obtain ⟨⟨opens, closes⟩, comma⟩ := bare t alone
    have hbrace (hkind : t.kind = .rbrace) : depth ≠ 0 := by
      rw [hkind] at closes
      cases closes
    rw [List.map_cons, List.cons_append,
      entryTokens_token (fun hkind => Nat.pos_iff_ne_zero.1 (comma hkind)) hbrace,
      bracketDepth_of_sign opens closes, ih bare]
    rfl
  | @group lone opening closing ts us pair _ _ ihWithin ihRest =>
    obtain ⟨hopens, hcloses⟩ := TokenKind.opens_of_closer? pair
    have hopening {kind : TokenKind} (hkind : opening.kind = kind) (other : kind.opens = false) :
        depth ≠ 0 := by
      rw [hkind, other] at hopens
      cases hopens
    have hpieces : (opening :: (ts ++ closing :: us)).map Piece.token ++ rest =
        .token opening :: (ts.map .token ++ (.token closing :: (us.map .token ++ rest))) := by
      simp
    rw [hpieces, entryTokens_token (hopening · rfl) (hopening · rfl), bracketDepth_of_opens hopens,
      ihWithin fun _ h => ⟨h, fun _ => Nat.succ_pos depth⟩,
      entryTokens_token (fun _ => Nat.succ_ne_zero depth) (fun _ => Nat.succ_ne_zero depth),
      bracketDepth_of_closes hcloses, Nat.succ_sub_one, ihRest bare]
    simp

namespace Entry
variable {e : Entry} {path : String}

theorem nested_tokens (e : Entry) : Token.Nested false e.tokens := by
  have hvalue : Token.Nested false ((e.value.map (·.tokens)).getD []) := by
    cases e.value with
    | none => exact .nil
    | some a => exact .sign (by rw [a.equals]; rfl) (by rw [a.equals]; rfl) (by simp [a.equals]) a.nested
  have hcall : Token.Nested false ((e.call.map (·.tokens)).getD []) := by
    cases e.call with
    | none => exact .nil
    | some c =>
      have hword : c.word.kind = .ident := by
        have := c.named
        simp only [Token.isIdent, Bool.and_eq_true, beq_iff_eq] at this
        exact this.1
      have hpair : c.opening.kind.closer? = some c.closing.kind := by rw [c.opens, c.closes]; rfl
      exact .sign (by rw [hword]; rfl) (by rw [hword]; rfl) (by simp [hword]) (.group hpair c.nested .nil)
  have hhead : Token.Nested false e.head :=
    .sign (by rw [e.ident]; rfl) (by rw [e.ident]; rfl) (by simp [e.ident]) hvalue
  exact hhead.append hcall

/-- No token in front of the macro is the macro. -/
theorem not_isIdent_of_mem_head (e : Entry) : ∀ t ∈ e.head, t.isIdent metaMacro = false := by
  refine List.forall_mem_cons.2 ⟨by simp [Token.isIdent, e.named], ?_⟩
  cases e.value with
  | none => exact fun t ht => absurd ht List.not_mem_nil
  | some a => exact List.forall_mem_cons.2 ⟨by simp [Token.isIdent, a.equals], a.plain⟩

theorem value?_head (e : Entry) : value? e.head = e.value.map fun a => Token.join a.expr := by
  have hname : (e.name.kind != .equals) = true := by simp [e.ident]
  unfold value? head
  rw [List.dropWhile_cons_of_pos (by exact hname)]
  cases e.value with
  | none => rfl
  | some a => simp [Assignment.tokens, a.equals]

theorem reflection_args (c : MetaCall) :
    reflection c.word (c.opening :: (c.args ++ [c.closing])) =
      .ok ⟨metaMacro, c.metadata, c.word.line⟩ := by
  have hcall : (c.opening.kind = .lparen &&
      (c.args ++ [c.closing]).getLast?.any (·.kind == .rparen)) = true := by
    simp [c.opens, c.closes]
  unfold reflection
  dsimp only
  rw [if_pos hcall, List.dropLast_concat, c.accepted]

/-- The tokens of an entry make the variant that it says. -/
theorem variant_tokens (e : Entry) (path : String) :
    variant path e.doc e.tokens = .ok (some (e.declaration path)) := by
  have hhead : ∀ t ∈ e.head, (!t.isIdent metaMacro) = true := fun t ht => by
    simp [e.not_isIdent_of_mem_head t ht]
  have htake : e.tokens.takeWhile (!·.isIdent metaMacro) = e.head := by
    rw [tokens, List.takeWhile_append_of_pos hhead]
    cases e.call with
    | none => simp
    | some c => simp [MetaCall.tokens, c.named]
  have hdrop : e.tokens.dropWhile (!·.isIdent metaMacro) = (e.call.map (·.tokens)).getD [] := by
    rw [tokens, List.dropWhile_append_of_pos hhead]
    cases e.call with
    | none => rfl
    | some c => simp [MetaCall.tokens, c.named]
  obtain ⟨rest, hrest⟩ : ∃ rest, e.tokens = e.name :: rest := ⟨_, rfl⟩
  have hident := e.ident
  unfold variant
  dsimp only
  rw [htake, hdrop, value?_head]
  rw [hrest]
  dsimp only
  rw [if_pos hident]
  unfold declaration
  cases e.call with
  | none => rfl
  | some c =>
    rw [Option.map_some, Option.getD_some, MetaCall.tokens]
    dsimp only
    rw [reflection_args]
    rfl

theorem addEntry_tokens (e : Entry) {path : String} {members : List Declaration}
    (distinct : ∀ d ∈ members, d.path ≠ QualifiedPath.join path e.name.text) :
    addEntry path members e.doc e.tokens = pure (members ++ [e.declaration path]) := by
  unfold addEntry
  rw [variant_tokens]
  exact Declaration.mergeInto_of_distinct distinct

/-- In front of what ends an entry, the entry's variant is read. -/
theorem read_pieces (e : Entry) {path : String} {members : List Declaration}
    (distinct : ∀ d ∈ members, d.path ≠ QualifiedPath.join path e.name.text)
    {t : Token} {ps after : List Piece} (ends : entryTokens 0 (.token t :: ps) = ([], after)) :
    read path members none (e.pieces ++ .token t :: ps) =
      read path (members ++ [e.declaration path]) none after := by
  have hdoc : read path members none (e.pieces ++ .token t :: ps) =
      read path members e.doc (e.tokens.map .token ++ .token t :: ps) := by
    unfold pieces
    cases e.doc with
    | none => rfl
    | some b => rw [Option.toList_some, List.map_cons, List.map_nil, List.append_assoc,
        List.cons_append, List.nil_append, read]
  obtain ⟨others, htokens⟩ : ∃ others, e.tokens = e.name :: others := ⟨_, rfl⟩
  have hothers : Token.Nested false others := by
    have hnested := htokens ▸ e.nested_tokens
    cases hnested with
    | single _ rest => exact rest
    | group pair =>
      unfold Token.Pairs at pair
      rw [e.ident] at pair
      cases pair
  have hdepth : bracketDepth 0 e.name.kind = 0 := by rw [e.ident]; rfl
  have hentry : entryTokens 0 (others.map .token ++ .token t :: ps) = (others, after) := by
    rw [entryTokens_bracketed hothers (fun _ h => h.imp_right fun hcomma hkind => by
      cases hcomma hkind), ends, List.append_nil]
  rw [hdoc, htokens, List.map_cons, List.cons_append,
    read_entry (by simp [e.ident]) (by simp [e.ident]), hdepth, hentry, ← htokens,
    addEntry_tokens e distinct, pure_bind]

end Entry

/-! ### Bodies -/

/-- What is written behind variants that have been read adds its own to them. -/
theorem read_written {path : String} {es : List Entry} {ps : List Piece} (h : Written es ps)
    (names : (es.map (·.name.text)).Nodup) {members : List Declaration}
    (distinct : ∀ d ∈ members, ∀ e ∈ es, d.path ≠ QualifiedPath.join path e.name.text)
    {closing : Token} (closes : closing.kind = .rbrace) (rest : List Piece) :
    read path members none (ps ++ .token closing :: rest) =
      pure (members ++ es.map (·.declaration path), rest) := by
  have hclosed (members : List Declaration) :
      read path members none (.token closing :: rest) = pure (members, rest) := by
    rw [read, closes]
  induction h generalizing members with
  | nil => rw [List.nil_append, hclosed, List.map_nil, List.append_nil]
  | last e =>
    have hends : entryTokens 0 (.token closing :: rest) = ([], .token closing :: rest) := by
      simp [entryTokens, closes]
    rw [e.read_pieces (fun d hd => distinct d hd e List.mem_cons_self) hends, hclosed]
    rfl
  | @cons es ps comma e separates _ ih =>
    have hends (after : List Piece) : entryTokens 0 (.token comma :: after) = ([], after) := by
      simp [entryTokens, separates]
    obtain ⟨hnew, hnames⟩ := List.nodup_cons.1 names
    rw [List.append_assoc, List.cons_append,
      e.read_pieces (fun d hd => distinct d hd e List.mem_cons_self) (hends _), ih hnames,
      List.append_assoc]
    · rfl
    · intro d hd e' he'
      rcases List.mem_append.1 hd with hd | hd
      · exact distinct d hd e' (List.mem_cons_of_mem _ he')
      · rw [List.mem_singleton.1 hd]
        intro hpath
        exact hnew (List.mem_map.2 ⟨e', he', (QualifiedPath.join_inj hpath).symm⟩)

/-- **An enum's body is read to its end, and declares the variants that are written in it.** -/
theorem read_of_written (path : String) {es : List Entry} {ps : List Piece} (h : Written es ps)
    (names : (es.map (·.name.text)).Nodup) {closing : Token} (closes : closing.kind = .rbrace)
    (rest : List Piece) :
    read path [] none (ps ++ .token closing :: rest) = pure (es.map (·.declaration path), rest) :=
  read_written h names (by simp) closes rest

/-- A value with commas in brackets, a macro's call, and a comma behind the last entry. -/
theorem read_of_written_trailing :
    ∃ es ps, Written es ps ∧ (es.map (·.name.text)).Nodup ∧
      Token.join (ps.filterMap fun | .token t => some t | _ => none) =
        "A = F(1, 2) UMETA(X = 1), B," ∧
      es.map (fun e => (e.declaration "E").path) = ["E::A", "E::B"] ∧
      read "E" [] none (ps ++ [.token ⟨.rbrace, "\x7d", 3⟩]) = pure (es.map (·.declaration "E"), []) := by
  let value : Assignment :=
    { sign := ⟨.equals, "=", 1⟩
      expr := [⟨.ident, "F", 1⟩, ⟨.lparen, "(", 1⟩, ⟨.number, "1", 1⟩, ⟨.comma, ",", 1⟩,
        ⟨.number, "2", 1⟩, ⟨.rparen, ")", 1⟩]
      equals := rfl
      nested := .sign rfl rfl (by simp) (@Token.Nested.group _ _ _ [_, _, _] _ rfl
        (.sign rfl rfl (by simp) (.sign rfl rfl (by simp) (.sign rfl rfl (by simp) .nil))) .nil)
      plain := by decide }
  let call : MetaCall :=
    { word := ⟨.ident, "UMETA", 1⟩
      opening := ⟨.lparen, "(", 1⟩
      args := [⟨.ident, "X", 1⟩, ⟨.equals, "=", 1⟩, ⟨.number, "1", 1⟩]
      closing := ⟨.rparen, ")", 1⟩
      metadata := [("X", .text "1")]
      named := rfl
      opens := rfl
      closes := rfl
      nested := .sign rfl rfl (by simp) (.sign rfl rfl (by simp) (.sign rfl rfl (by simp) .nil))
      accepted := by cbv }
  let a : Entry := ⟨none, ⟨.ident, "A", 1⟩, some value, some call, rfl, by decide⟩
  let b : Entry := ⟨none, ⟨.ident, "B", 2⟩, none, none, rfl, by decide⟩
  have hwritten : Written [a, b] (a.pieces ++ .token ⟨.comma, ",", 1⟩ ::
      (b.pieces ++ .token ⟨.comma, ",", 2⟩ :: [])) := .cons a rfl (.cons b rfl .nil)
  exact ⟨_, _, hwritten, by decide, by cbv, by cbv, read_of_written "E" hwritten (by decide) rfl []⟩

end EnumBody

end AnnotatedHeader
