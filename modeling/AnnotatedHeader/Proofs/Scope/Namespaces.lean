import AnnotatedHeader.Proofs.Scope.Enclosed
import AnnotatedHeader.Proofs.Scope.Forest
import AnnotatedHeader.Proofs.Scope.Grouping
import AnnotatedHeader.SourceLine.Classify

/-! Namespaces in one head or in many.

A head with several names opens one scope, where as many heads with one name open a scope in the
other (`readOn_headed`). The scope of the last name is the same in both, and so is what is read in
it up to its brace (`readOn_enclosed`). The scopes around it hold what it holds, once merged, and
are ended by the braces behind it (`readOn_of_inNamespaces`). So all ways to write the same
namespaces around the same pieces are read alike (`readOn_eq_of_inNamespaces`), unless something in
the pieces is read beyond that brace. -/
namespace AnnotatedHeader.Scope

open Declaration (merged)

variable {names names' : List String} {s : Scope} {b : State} {ks ts : List Token}
  {opening closing c : Token} {xs ps qs : List Piece}

/-! ### Heads -/

/-- `namespace`, with or without `inline` in front of it. -/
inductive Keyword : List Token → Prop where
  | plain {key : Token} (is : key.isIdent "namespace" = true) : Keyword [key]
  | inlined {first key : Token} (inline : first.isIdent "inline" = true)
      (is : key.isIdent "namespace" = true) : Keyword [first, key]

/-- The names of a namespace, `::` between them, and `inline` in front of any. -/
inductive Names : List String → List Token → Prop where
  | last {name : Token} (ident : name.kind = .ident) (nonempty : name.text ≠ "")
      (plain : name.text ≠ "inline") : Names [name.text] [name]
  | cons {names : List String} {name sign : Token} {ts : List Token} (ident : name.kind = .ident)
      (nonempty : name.text ≠ "") (plain : name.text ≠ "inline") (scope : sign.kind = .scope)
      (rest : Names names ts) : Names (name.text :: names) (name :: sign :: ts)
  | inlined {names : List String} {first : Token} {ts : List Token}
      (inline : first.isIdent "inline" = true) (rest : Names names ts) : Names names (first :: ts)

theorem eq_of_isIdent {t : Token} {text : String} (h : t.isIdent text = true) :
    t = ⟨.ident, text, t.line⟩ := by
  obtain ⟨kind, text', line⟩ := t
  obtain ⟨rfl, rfl⟩ : kind = .ident ∧ text' = text := by simpa [Token.isIdent] using h
  rfl

/-- A name with more than one part is that of a namespace in a namespace. -/
theorem inNamespace_inNamespace {first rest : String} (hfirst : first ≠ "") (hrest : rest ≠ "")
    (s : Scope) : (s.inNamespace first).inNamespace rest = s.inNamespace (first ++ "::" ++ rest) := by
  unfold inNamespace QualifiedPath.join QualifiedPath.separator
  by_cases hpath : s.path = "" <;> simp [hfirst, hrest, hpath, String.append_assoc]

/-- A namespace's head opens the namespaces of its names, one in the other. -/
theorem Names.opens (h : Names names ts) (opens : opening.kind = .lbrace) :
    ∃ name, name ≠ "" ∧
      (∀ (ahead : String) (ps : List Piece),
        namespaceHead ahead (ts.map .token ++ .token opening :: ps) = .body (ahead ++ name) ps) ∧
      ∀ s : Scope, s.inNamespace name = names.foldl inNamespace s := by
  induction h with
  | @last name ident nonempty plain =>
    refine ⟨name.text, nonempty, fun ahead ps => ?_, fun s => rfl⟩
    simp [namespaceHead, ident, plain, opens]
  | @cons names name sign ts ident nonempty plain scope _ ih =>
    obtain ⟨rest, hrest, hhead, hopens⟩ := ih
    refine ⟨name.text ++ "::" ++ rest, by simp [nonempty], fun ahead ps => ?_, fun s => ?_⟩
    · simp [namespaceHead, ident, plain, scope, hhead, String.append_assoc]
    · rw [← inNamespace_inNamespace nonempty hrest, List.foldl_cons, hopens]
  | @inlined names first ts inline _ ih =>
    obtain ⟨name, hname, hhead, hopens⟩ := ih
    refine ⟨name, hname, fun ahead ps => ?_, hopens⟩
    obtain ⟨hkind, htext⟩ : first.kind = .ident ∧ first.text = "inline" := by
      simpa [Token.isIdent] using inline
    simp [namespaceHead, hkind, htext, hhead]

/-- A namespace's head, and what is behind its brace. -/
def headed (ks ts : List Token) (opening : Token) (ps : List Piece) : List Piece :=
  ks.map .token ++ (ts.map .token ++ .token opening :: ps)

@[simp] theorem headed_append (ks ts : List Token) (opening : Token) (ps qs : List Piece) :
    headed ks ts opening ps ++ qs = headed ks ts opening (ps ++ qs) := by
  simp [headed]

/-- The pieces open the namespaces, one in the other, whatever the scope is and has read. -/
theorem readOn_headed (keyword : Keyword ks) (named : Names names ts) (opens : opening.kind = .lbrace)
    (s : Scope) (b : State) (ps : List Piece) :
    readOn s b (headed ks ts opening ps) =
      readOn (names.foldl inNamespace s) (names.foldl inNamespace s).start ps >>= fun e =>
        readOn s ((Frame.transparent b.withoutDoc).resumed e.1) e.2 := by
  obtain ⟨name, -, hhead, hopens⟩ := named.opens opens
  have hopening {key : Token} (is : key.isIdent "namespace" = true) :
      readOn s b (.token key :: (ts.map .token ++ .token opening :: ps)) =
        readOn (names.foldl inNamespace s) (names.foldl inNamespace s).start ps >>= fun e =>
          readOn s ((Frame.transparent b.withoutDoc).resumed e.1) e.2 := by
    have hbody := hhead "" ps
    rw [String.empty_append] at hbody
    rw [eq_of_isIdent is, readOn_cons, turn_of_takes (.opensNamespace rfl (word_namespace _ _) hbody),
      hopens]
    rfl
  cases keyword with
  | plain is => exact hopening is
  | @inlined first key inline is =>
    have hword : word first (.token key :: (ts.map .token ++ .token opening :: ps)) = .inlined := by
      rw [eq_of_isIdent inline, eq_of_isIdent is]
      rfl
    have hfirst : first.kind = .ident := by rw [eq_of_isIdent inline]
    rw [headed, List.map_cons, List.map_singleton, List.cons_append, List.singleton_append, readOn_cons,
      turn_of_takes (.passes first _ (.inr (.inr ⟨hfirst, hword⟩)))]
    exact hopening is

/-! ### Bodies -/

/-- The pieces are in the namespaces of the names, each of which is opened with others or alone. The
brace `c` closes the last. -/
inductive InNamespaces (xs : List Piece) (c : Token) : List String → List Piece → Prop where
  | last {names : List String} {ks ts : List Token} {opening : Token} (keyword : Keyword ks)
      (named : Names names ts) (opens : opening.kind = .lbrace) :
      InNamespaces xs c names (headed ks ts opening (xs ++ [.token c]))
  | within {names names' : List String} {ks ts : List Token} {opening closing : Token} {ps : List Piece}
      (keyword : Keyword ks) (named : Names names ts) (opens : opening.kind = .lbrace)
      (inside : InNamespaces xs c names' ps) (closes : closing.kind = .rbrace) :
      InNamespaces xs c (names ++ names') (headed ks ts opening (ps ++ [.token closing]))

theorem Names.braced_foldl (h : Names names ts) (s : Scope) :
    (names.foldl inNamespace s).braced = true := by
  obtain ⟨name, -, -, hopens⟩ := @Names.opens _ _ ⟨.lbrace, "", 0⟩ h rfl
  rw [← hopens]
  rfl

theorem InNamespaces.braced (h : InNamespaces xs c names ps) (s : Scope) :
    (names.foldl inNamespace s).braced = true := by
  induction h generalizing s with
  | last _ named => exact named.braced_foldl s
  | within _ _ _ _ _ ih =>
    rw [List.foldl_append]
    exact ih _

/-- What a scope holds that has been read from its start is merged already. -/
theorem foldl_merged_of_readOn {found : Contents} (h : readOn s s.start ps = .ok (found, qs)) :
    found.declarations.foldl merged [] = found.declarations := by
  obtain ⟨⟨found', rest⟩, hread, heq⟩ := Except.map_eq_ok.1 h
  cases heq
  exact Declaration.foldl_merged_of_apart (reads_of_readFrom hread).fits_of_start.1

/-- What the pieces declare in the namespaces is declared in the scope around them. -/
theorem readOn_of_inNamespaces (h : InNamespaces xs c names ps) {o : Except Fault Contents}
    (ho : ∀ rest, readOn (names.foldl inNamespace s) (names.foldl inNamespace s).start
      (xs ++ .token c :: rest) = o.map (·, rest)) (rest : List Piece) :
    readOn s b (ps ++ rest) =
      o >>= fun found => readOn s ((Frame.transparent b.withoutDoc).resumed found) rest := by
  induction h generalizing s b rest with
  | @last names ks ts opening keyword named opens =>
    rw [headed_append, ← List.append_cons, readOn_headed keyword named opens, ho]
    cases o <;> rfl
  | @within names names' ks ts opening closing ps keyword named opens inside closes ih =>
    rw [List.foldl_append] at ho
    rw [headed_append, ← List.append_cons, readOn_headed keyword named opens, ih ho]
    cases o with
    | error e => rfl
    | ok found =>
      -- The brace behind them ends the scope, and what is merged there a second time stays as it is.
      have hends : readOn (names.foldl inNamespace s)
          ((Frame.transparent (names.foldl inNamespace s).start.withoutDoc).resumed found)
          (.token closing :: rest) = .ok (found, rest) := by
        have hclosed := readOn_of_reads (.closes (b := (Frame.transparent
          (names.foldl inNamespace s).start.withoutDoc).resumed found)
          (turn_of_takes (.closes closing rest closes (named.braced_foldl s))) rfl)
        have hmerged := foldl_merged_of_readOn (ho rest)
        simpa [Frame.resumed, start, State.withoutDoc, hmerged] using hclosed
      show readOn _ _ _ >>= _ = _
      rw [hends]
      rfl

/-- **Namespaces in one head or in many hold the same.** -/
theorem readOn_eq_of_inNamespaces (closes : c.kind = .rbrace) (nested : Piece.Nested xs)
    (settled : Settled xs) (hps : InNamespaces xs c names ps) (hqs : InNamespaces xs c names qs)
    (s : Scope) (b : State) (rest : List Piece) : readOn s b (ps ++ rest) = readOn s b (qs ++ rest) := by
  obtain ⟨o, ho⟩ := readOn_enclosed (b := (names.foldl inNamespace s).start) closes (hps.braced s)
    nested.loose (.inl rfl) ((List.append_nil xs).symm ▸ settled)
  rw [readOn_of_inNamespaces hps ho, readOn_of_inNamespaces hqs ho]

/-! ### The namespaces `a` and `b` -/

def inOneHead (xs : List Piece) (c : Token) : List Piece :=
  headed [⟨.ident, "namespace", 1⟩] [⟨.ident, "a", 1⟩, ⟨.scope, "::", 1⟩, ⟨.ident, "b", 1⟩]
    ⟨.lbrace, "\x7b", 1⟩ (xs ++ [.token c])

def inTwoHeads (ks : List Token) (xs : List Piece) (c : Token) : List Piece :=
  headed ks [⟨.ident, "a", 1⟩] ⟨.lbrace, "\x7b", 1⟩
    (headed [⟨.ident, "namespace", 1⟩] [⟨.ident, "b", 1⟩] ⟨.lbrace, "\x7b", 1⟩ (xs ++ [.token c]) ++
      [.token c])

theorem names_singleton {name : String} (nonempty : name ≠ "") (plain : name ≠ "inline") :
    Names [name] [⟨.ident, name, 1⟩] :=
  @Names.last ⟨.ident, name, 1⟩ rfl nonempty plain

theorem inNamespaces_inOneHead (xs : List Piece) (c : Token) :
    InNamespaces xs c ["a", "b"] (inOneHead xs c) :=
  .last (.plain rfl) (@Names.cons _ ⟨.ident, "a", 1⟩ _ _ rfl (by decide) (by decide) rfl
    (names_singleton (by decide) (by decide))) rfl

theorem inNamespaces_inTwoHeads (keyword : Keyword ks) (closes : c.kind = .rbrace) (xs : List Piece) :
    InNamespaces xs c ["a", "b"] (inTwoHeads ks xs c) :=
  .within keyword (names_singleton (by decide) (by decide)) rfl
    (.last (.plain rfl) (names_singleton (by decide) (by decide)) rfl) closes

theorem readOn_eq_of_inNamespaces_inline :
    ∃ xs c ps qs, c.kind = .rbrace ∧ Piece.Nested xs ∧ Settled xs ∧
      InNamespaces xs c ["a", "b"] ps ∧ InNamespaces xs c ["a", "b"] qs ∧
      (SourceLine.classify "namespace a::b \x7b struct S \x7b\x7d; \x7d").map
        (fun lines => Piece.ofLines lines (CommentBlock.group lines)) = .ok ps ∧
      (SourceLine.classify "inline namespace a \x7b namespace b \x7b struct S \x7b\x7d; \x7d\x7d").map
        (fun lines => Piece.ofLines lines (CommentBlock.group lines)) = .ok qs ∧
      readOn file file.start (ps ++ []) = readOn file file.start (qs ++ []) := by
  let c : Token := ⟨.rbrace, "\x7d", 1⟩
  let xs : List Piece := [.token ⟨.ident, "struct", 1⟩, .token ⟨.ident, "S", 1⟩,
    .token ⟨.lbrace, "\x7b", 1⟩, .token c, .token ⟨.semi, ";", 1⟩]
  have hnested : Piece.Nested xs :=
    .single (by rintro t ⟨⟩; exact ⟨rfl, rfl⟩) (.single (by rintro t ⟨⟩; exact ⟨rfl, rfl⟩)
      (.group ⟨_, _, rfl, rfl, rfl⟩ .nil (.single (by rintro t ⟨⟩; exact ⟨rfl, rfl⟩) .nil)))
  have hsettled : Settled xs := ⟨by decide, by decide⟩
  have hps := inNamespaces_inOneHead xs c
  have hqs := @inNamespaces_inTwoHeads _ c
    (@Keyword.inlined ⟨.ident, "inline", 1⟩ ⟨.ident, "namespace", 1⟩ rfl rfl) rfl xs
  exact ⟨xs, c, _, _, rfl, hnested, hsettled, hps, hqs, by cbv, by cbv,
    readOn_eq_of_inNamespaces rfl hnested hsettled hps hqs file file.start []⟩

/-- A namespace whose attribute stands where an alias has its sign, and a struct behind it. -/
def attributed : List Piece :=
  [.token ⟨.ident, "namespace", 1⟩, .token ⟨.lbracket, "[", 1⟩, .token ⟨.lbracket, "[", 1⟩,
    .token ⟨.ident, "deprecated", 1⟩, .token ⟨.lparen, "(", 1⟩, .token ⟨.string, "\"x\"", 1⟩,
    .token ⟨.rparen, ")", 1⟩, .token ⟨.rbracket, "]", 1⟩, .token ⟨.rbracket, "]", 1⟩,
    .token ⟨.ident, "c", 1⟩, .token ⟨.lbrace, "\x7b", 1⟩, .token ⟨.rbrace, "\x7d", 1⟩,
    .token ⟨.ident, "struct", 1⟩, .token ⟨.ident, "T", 1⟩, .token ⟨.semi, ";", 1⟩]

theorem nested_attributed : Piece.Nested attributed := by
  have hbare {t : Token} (h : t.IsBare) : Piece.IsBare (.token t) := by
    rintro _ ⟨⟩
    exact h
  have harguments : Piece.Nested [.token ⟨.string, "\"x\"", 1⟩] := .single (hbare ⟨rfl, rfl⟩) .nil
  have hattribute : Piece.Nested [.token ⟨.ident, "deprecated", 1⟩, .token ⟨.lparen, "(", 1⟩,
      .token ⟨.string, "\"x\"", 1⟩, .token ⟨.rparen, ")", 1⟩] :=
    .single (hbare ⟨rfl, rfl⟩) (.group ⟨_, _, rfl, rfl, rfl⟩ harguments .nil)
  have hbrackets : Piece.Nested [.token ⟨.lbracket, "[", 1⟩, .token ⟨.ident, "deprecated", 1⟩,
      .token ⟨.lparen, "(", 1⟩, .token ⟨.string, "\"x\"", 1⟩, .token ⟨.rparen, ")", 1⟩,
      .token ⟨.rbracket, "]", 1⟩] :=
    .group ⟨_, _, rfl, rfl, rfl⟩ hattribute .nil
  have hstruct : Piece.Nested
      [.token ⟨.ident, "struct", 1⟩, .token ⟨.ident, "T", 1⟩, .token ⟨.semi, ";", 1⟩] :=
    .single (hbare ⟨rfl, rfl⟩) (.single (hbare ⟨rfl, rfl⟩) (.single (hbare ⟨rfl, rfl⟩) .nil))
  exact .single (hbare ⟨rfl, rfl⟩) (.group ⟨_, _, rfl, rfl, rfl⟩ hbrackets (.single (hbare ⟨rfl, rfl⟩)
    (.group ⟨_, _, rfl, rfl, rfl⟩ .nil hstruct)))

/-- The body behind the attribute is read in the namespace around it and its brace ends that one, so
the struct is outside `b`, or outside both. -/
theorem exists_readOn_inNamespaces_ne :
    ∃ xs c ps qs, c.kind = .rbrace ∧ Piece.Nested xs ∧ headsEnd xs = true ∧
      InNamespaces xs c ["a", "b"] ps ∧ InNamespaces xs c ["a", "b"] qs ∧
      (SourceLine.classify
        "namespace a::b \x7b namespace [[deprecated(\"x\")]] c \x7b\x7d struct T; \x7d").map
          (fun lines => Piece.ofLines lines (CommentBlock.group lines)) = .ok ps ∧
      (SourceLine.classify ("namespace a \x7b namespace b \x7b " ++
        "namespace [[deprecated(\"x\")]] c \x7b\x7d struct T; \x7d\x7d")).map
          (fun lines => Piece.ofLines lines (CommentBlock.group lines)) = .ok qs ∧
      readOn file file.start ps ≠ readOn file file.start qs := by
  let c : Token := ⟨.rbrace, "\x7d", 1⟩
  have keyword : Keyword [⟨.ident, "namespace", 1⟩] := .plain rfl
  refine ⟨attributed, c, _, _, rfl, nested_attributed, by decide, inNamespaces_inOneHead _ _,
    inNamespaces_inTwoHeads keyword rfl _, by cbv, by cbv, fun h => ?_⟩
  have hone : Reads file file.start (inOneHead attributed c) _ _ :=
    .opens rfl (.continues rfl (.closes rfl rfl)) (.continues rfl (.continues rfl (.ends rfl)))
  have htwo : Reads file file.start (inTwoHeads [⟨.ident, "namespace", 1⟩] attributed c) _ _ :=
    .opens rfl (.opens rfl (.continues rfl (.closes rfl rfl)) (.continues rfl (.closes rfl rfl)))
      (.continues rfl (.ends rfl))
  rw [readOn_of_reads hone, readOn_of_reads htwo] at h
  have hpaths := congrArg (·.map fun e => e.1.declarations.map (·.path)) h
  have hne : (["T"] : List String) = ["a::T"] := Except.ok.inj hpaths
  simp at hne

end AnnotatedHeader.Scope
