import AnnotatedHeader.Proofs.Piece
import AnnotatedHeader.Proofs.QualifiedPath
import AnnotatedHeader.Proofs.Resolution
import AnnotatedHeader.Proofs.Scope.Nodes
import AnnotatedHeader.Proofs.Statement.Forms
import AnnotatedHeader.Proofs.Token.Written

/-! What declarations are called.

A name is a word of the header, behind a tilde for a destructor; an operator's is made of the
texts of its tokens. `Called` lists these forms, and whatever a scope declares is called in one
of them (`Reads.named`). There is no colon in a word. So a declaration's path ends in its name,
and a table knows it by that last segment, unless it is an operator with a separator in its
name, such as a conversion to a qualified type (`Contents.names_end_paths_iff`). -/
namespace AnnotatedHeader

open QualifiedPath

/-- What a declaration of each kind can be called where these are the tokens. -/
inductive Called (ts : List Token) : Kind → String → Prop where
  | word {kind : Kind} {t : Token} (mem : t ∈ ts) (ident : t.kind = .ident) : Called ts kind t.text
  | destructor {t : Token} (mem : t ∈ ts) (ident : t.kind = .ident) :
      Called ts .function ("~" ++ t.text)
  | operator {symbol : List Token} (subset : symbol ⊆ ts) :
      Called ts .function ("operator" ++ String.join (symbol.map (·.text)))

theorem Called.mono {ts us : List Token} {kind : Kind} {name : String} (h : Called ts kind name)
    (subset : ts ⊆ us) : Called us kind name := by
  cases h with
  | word mem ident => exact .word (subset mem) ident
  | destructor mem ident => exact .destructor (subset mem) ident
  | operator symbol => exact .operator (List.Subset.trans symbol subset)

/-! ### Heads -/

namespace Head

theorem called_enumHead {ts : List Token} {hasBody : Bool}
    (named : (enumHead ts hasBody).name ≠ "") : Called ts .enumType (enumHead ts hasBody).name := by
  unfold enumHead at named ⊢
  dsimp only at named ⊢
  generalize hfound : List.find? _ _ = found at named ⊢
  cases found with
  | none => exact absurd rfl named
  | some t =>
    have hident : t.kind = .ident := by simpa using List.find?_some hfound
    have hmem := List.mem_reverse.1 (List.mem_of_find?_eq_some hfound)
    exact .word (List.take_subset _ _ (List.drop_subset _ _ hmem)) hident

theorem NameOf.called {words : List Token} {name : String} (h : NameOf words name) :
    Called words .function name := by
  cases h with
  | word ident => exact .word (List.mem_singleton_self _) ident
  | destructor sign ident =>
    exact .destructor (List.mem_cons_of_mem _ (List.mem_singleton_self _)) ident
  | operator is =>
    rw [Token.isIdent, Bool.and_eq_true, beq_iff_eq, beq_iff_eq] at is
    rw [List.map_cons, String.join_cons, is.2]
    exact .operator (List.subset_cons_self ..)

theorem called_of_property? {ts : List Token} {h : Heading} (hp : property? ts = some h) :
    Called ts h.item.kind h.name := by
  obtain ⟨us, d, shape, hsubset, hd, rfl⟩ := eq_of_property? hp
  obtain ⟨rfl, hident, -⟩ := eq_of_declarator? hd
  exact .word (hsubset (List.mem_append_right _ (List.mem_cons_self ..))) hident

/-- A heading that has a name has one of these. -/
theorem called_of_classify {stmt : Statement} {record : Option String} {first h : Heading}
    {others : List Heading} (hc : classify stmt record = .declares first others)
    (hh : h ∈ first :: others) (named : h.name ≠ "") : Called stmt.tokens h.item.kind h.name := by
  cases form_of_classify hc with
  | enumeration =>
    rw [List.mem_singleton] at hh
    subst hh
    exact called_enumHead named
  | record tokens head =>
    obtain ⟨rfl, name, key, shape, hmem, hident, -, rfl⟩ := eq_of_recordHead head
    rw [List.mem_singleton] at hh
    rw [hh, tokens]
    exact .word (List.mem_cons_of_mem _ hmem) hident
  | function call head =>
    obtain ⟨rfl, inside, behind, name, lead, special, -, hname, rfl⟩ := eq_of_functionHead head
    obtain ⟨words, rfl, hwords⟩ := exists_nameOf_of_functionName? hname
    rw [List.mem_singleton] at hh
    rw [hh]
    refine hwords.called.mono fun t ht => ?_
    exact (splitCallFrom_subset _ call).1 (List.mem_append_right _ ht)
  | properties within head =>
    obtain ⟨us, hsubset, hproperty⟩ := exists_of_propertyHeads head h hh
    exact (called_of_property? hproperty).mono hsubset

end Head

/-! ### Scopes -/

/-- What a declaration is called, and the path that this gives it. -/
structure Declared.Named (ts : List Token) (own : Declared) : Prop where
  called : Called ts own.item.kind own.name
  path : ∃ parent, own.path = join parent own.name

theorem Material.makes_named (ts : List Token) : (Material.among ts).Makes (Declared.Named ts) where
  template _ := trivial
  reflection _ _ := trivial
  ofHead visibility line hhead hh named hwaiting hpieces := by
    refine ⟨(Head.called_of_classify hhead hh named).mono fun t ht => ?_, _, rfl⟩
    exact hpieces _ (Statement.token_mem_pieces ht) t rfl
  ofEntry {path doc ts' member} hdoc hts hentry := by
    obtain ⟨name, rest, reflection, rfl, hident, rfl⟩ := EnumBody.eq_of_variant hentry
    exact ⟨.word (hts name (List.mem_cons_self ..) name rfl) hident, path, rfl⟩
  inherits _ hw _ := ⟨hw.called, hw.path⟩

/-- Whatever a scope declares is called in one of these ways. -/
theorem Scope.Reads.named {s : Scope} {ps rest : List Piece} {found : Contents} {ts : List Token}
    (hts : ∀ t, .token t ∈ ps → t ∈ ts) (h : Reads s s.start ps found rest) :
    ∀ d ∈ Declaration.walkAll found.declarations, d.Named ts := by
  refine Declaration.forall_mem_walkAll.2 (h.every (Material.makes_named ts) ?_ (.start ..))
  rintro p hp t rfl
  exact hts t hp

/-! ### Names and paths -/

namespace Called
variable {source : String} {line : Nat} {kind : Kind} {name : String}

theorem ne_empty (h : Called (Token.tokenize source line) kind name) : name ≠ "" := by
  cases h with
  | word mem ident => exact (Token.word_of_ident mem ident).1
  | destructor _ _ | operator _ => simp

theorem not_mem_of_ident {t : Token} (mem : t ∈ Token.tokenize source line) (ident : t.kind = .ident) :
    ':' ∉ t.text.toList := by
  intro hcolon
  exact absurd ((Token.word_of_ident mem ident).2 _ hcolon) (by decide)

theorem head_ne (h : Called (Token.tokenize source line) kind name) : ':' ∉ name.toList.head? := by
  cases h with
  | word mem ident => exact fun hhead => not_mem_of_ident mem ident (List.mem_of_head? hhead)
  | destructor _ _ | operator _ => simp

/-- Only an operator can have a separator in its name. -/
theorem exists_symbol_of_isQualified (h : Called (Token.tokenize source line) kind name)
    (separated : IsQualified name) :
    kind = .function ∧ ∃ symbol ⊆ Token.tokenize source line,
      name = "operator" ++ String.join (symbol.map (·.text)) := by
  obtain ⟨before, after, hname⟩ := separated
  have hcolon : ':' ∈ name.toList := by
    rw [hname, toList_separated]
    simp
  cases h with
  | word mem ident => exact absurd hcolon (not_mem_of_ident mem ident)
  | destructor mem ident =>
    refine absurd hcolon ?_
    simpa using not_mem_of_ident mem ident
  | operator subset => exact ⟨rfl, _, subset, rfl⟩

end Called

/-- A table of trees in which no name has a separator goes by the last segments, and no other
table does. -/
theorem SymbolTable.pathsNamed_eq_lastSegments_iff {ds : List Declaration}
    (h : ∀ d ∈ Declaration.walkAll ds, lastSegment d.path = d.name ↔ ¬IsQualified d.name) :
    (∀ name path, path ∈ (ofTrees ds).pathsNamed name ↔
        (ofTrees ds).contains path = true ∧ lastSegment path = name) ↔
      ∀ d ∈ Declaration.walkAll ds, ¬IsQualified d.name := by
  constructor
  · intro hnamed d hd
    have hpath := mem_pathsNamed_insertAll.2 ⟨d, hd, rfl, rfl⟩
    exact (h d hd).1 ((hnamed d.name d.path).1 hpath).2
  · intro hplain name path
    rw [contains_ofTrees, List.mem_map]
    refine mem_pathsNamed_insertAll.trans ⟨?_, ?_⟩
    · rintro ⟨d, hd, rfl, rfl⟩
      exact ⟨⟨d, hd, rfl⟩, (h d hd).2 (hplain d hd)⟩
    · rintro ⟨⟨d, hd, rfl⟩, rfl⟩
      exact ⟨d, hd, ((h d hd).2 (hplain d hd)).symm, rfl⟩

namespace Scope.Contents

/-- **A declaration's path ends in its name**, which is not empty, unless it is an operator with
a separator in its name; and a table lists the paths that end in a name under that name if and
only if there is no such operator. -/
theorem names_end_paths_iff {lines : List SourceLine} {blocks : List CommentBlock} {found : Contents}
    (h : (ofLines lines blocks).result = .ok found) :
    (∀ d ∈ Declaration.walkAll found.declarations,
      d.name ≠ "" ∧ (lastSegment d.path = d.name ↔ ¬IsQualified d.name) ∧
        (IsQualified d.name → d.kind = .function ∧
          ∃ symbol ⊆ Token.tokenize (Piece.code lines) (Piece.firstLine lines),
            d.name = "operator" ++ String.join (symbol.map (·.text)))) ∧
      (∀ name, ((SymbolTable.ofTrees found.declarations).pathsNamed name).Pairwise (· < ·)) ∧
      ((∀ name path, path ∈ (SymbolTable.ofTrees found.declarations).pathsNamed name ↔
          (SymbolTable.ofTrees found.declarations).contains path = true ∧ lastSegment path = name) ↔
        ∀ d ∈ Declaration.walkAll found.declarations, ¬IsQualified d.name) := by
  obtain ⟨rest, hreads⟩ := result_ofLines_eq_ok.1 h
  have hnamed := hreads.named fun t ht => Piece.mem_tokenize_of_mem ht
  have hends : ∀ d ∈ Declaration.walkAll found.declarations,
      lastSegment d.path = d.name ↔ ¬IsQualified d.name := by
    intro d hd
    obtain ⟨parent, hpath⟩ := (hnamed d hd).path
    rw [hpath]
    exact lastSegment_join_iff (hnamed d hd).called.head_ne
  refine ⟨fun d hd => ⟨(hnamed d hd).called.ne_empty, hends d hd, ?_⟩,
    SymbolTable.pairwise_pathsNamed _, SymbolTable.pathsNamed_eq_lastSegments_iff hends⟩
  exact (hnamed d hd).called.exists_symbol_of_isQualified

/-- A record with a destructor and a conversion to a plain type. -/
theorem names_end_paths_iff_plain :
    ∃ lines found,
      SourceLine.classify "struct S \x7b ~S(); API operator char(); \x7d;" = .ok lines ∧
      (ofLines lines (CommentBlock.group lines)).result = .ok found ∧
      (Declaration.walkAll found.declarations).map (fun d => (d.name, d.path)) =
        [("S", "S"), ("~S", "S::~S"), ("operatorchar", "S::operatorchar")] ∧
      ∀ name path, path ∈ (SymbolTable.ofTrees found.declarations).pathsNamed name ↔
        (SymbolTable.ofTrees found.declarations).contains path = true ∧ lastSegment path = name := by
  let t (kind : TokenKind) (text : String) : Piece := .token ⟨kind, text, 1⟩
  let lines : List SourceLine :=
    [⟨1, 0, "struct S \x7b ~S(); API operator char(); \x7d;", .code, false⟩]
  let destructor : Declaration := ⟨⟨"~S", "S::~S", 1, .everyone, none, none, "~S()", none,
    .function ⟨none, [], none, true, false⟩, false⟩, []⟩
  let conversion : Declaration := ⟨⟨"operatorchar", "S::operatorchar", 1, .everyone, none, none,
    "API operator char()", none, .function ⟨some "API", [], none, false, false⟩, false⟩, []⟩
  let record : Declaration := ⟨⟨"S", "S", 1, .everyone, none, none, "struct S", none,
    .record .structKey ⟨none, [], true⟩, false⟩, [destructor, conversion]⟩
  let inner : Scope := .ofRecord "S" "S" .structKey
  have hlines : SourceLine.classify "struct S \x7b ~S(); API operator char(); \x7d;" = .ok lines := by
    cbv
  have hpieces : Piece.ofLines lines [] =
      [t .ident "struct", t .ident "S", t .lbrace "\x7b", t .tilde "~", t .ident "S", t .lparen "(",
        t .rparen ")", t .semi ";", t .ident "API", t .ident "operator", t .ident "char",
        t .lparen "(", t .rparen ")", t .semi ";", t .rbrace "\x7d", t .semi ";"] := by
    cbv
  have hdestructor : (turn inner inner.start (t .tilde "~")
      [t .ident "S", t .lparen "(", t .rparen ")", t .semi ";", t .ident "API", t .ident "operator",
        t .ident "char", t .lparen "(", t .rparen ")", t .semi ";", t .rbrace "\x7d",
        t .semi ";"]).result =
      .ok (.continues ⟨.everyone, {}, [destructor], []⟩
        [t .ident "API", t .ident "operator", t .ident "char", t .lparen "(", t .rparen ")",
          t .semi ";", t .rbrace "\x7d", t .semi ";"]) := by
    cbv
  have hconversion : (turn inner ⟨.everyone, {}, [destructor], []⟩ (t .ident "API")
      [t .ident "operator", t .ident "char", t .lparen "(", t .rparen ")", t .semi ";",
        t .rbrace "\x7d", t .semi ";"]).result =
      .ok (.continues ⟨.everyone, {}, [destructor, conversion], []⟩
        [t .rbrace "\x7d", t .semi ";"]) := by
    cbv
  have hfound : (ofLines lines (CommentBlock.group lines)).result = .ok ⟨[record], []⟩ := by
    refine result_ofLines_eq_ok.2 ⟨[], ?_⟩
    show Reads _ _ (Piece.ofLines lines []) _ _
    rw [hpieces]
    exact .opens rfl (.continues hdestructor (.continues hconversion (.closes rfl rfl)))
      (.continues rfl (.ends rfl))
  refine ⟨lines, _, hlines, hfound, rfl, (names_end_paths_iff hfound).2.2.2 fun d hd => ?_⟩
  have hplain : ∀ d ∈ [record, destructor, conversion], isQualified d.name = false := by
    decide +kernel
  rw [← isQualified_iff, hplain d hd]
  exact Bool.false_ne_true

/-- A conversion to a qualified type is not found by the last segment of its path. -/
theorem exists_lastSegment_ne_name :
    ∃ lines found d,
      SourceLine.classify "struct S \x7b API operator std::string(); \x7d;" = .ok lines ∧
      (ofLines lines (CommentBlock.group lines)).result = .ok found ∧
      d ∈ Declaration.walkAll found.declarations ∧ d.name = "operatorstd::string" ∧
      lastSegment d.path = "string" ∧
      (SymbolTable.ofTrees found.declarations).contains d.path = true ∧
      d.path ∉ (SymbolTable.ofTrees found.declarations).pathsNamed "string" := by
  let t (kind : TokenKind) (text : String) : Piece := .token ⟨kind, text, 1⟩
  let lines : List SourceLine :=
    [⟨1, 0, "struct S \x7b API operator std::string(); \x7d;", .code, false⟩]
  let conversion : Declaration := ⟨⟨"operatorstd::string", "S::operatorstd::string", 1, .everyone,
    none, none, "API operator std::string()", none,
    .function ⟨some "API", [], none, false, false⟩, false⟩, []⟩
  let record : Declaration := ⟨⟨"S", "S", 1, .everyone, none, none, "struct S", none,
    .record .structKey ⟨none, [], true⟩, false⟩, [conversion]⟩
  let inner : Scope := .ofRecord "S" "S" .structKey
  have hlines : SourceLine.classify "struct S \x7b API operator std::string(); \x7d;" =
      .ok lines := by
    cbv
  have hpieces : Piece.ofLines lines [] =
      [t .ident "struct", t .ident "S", t .lbrace "\x7b", t .ident "API", t .ident "operator",
        t .ident "std", t .scope "::", t .ident "string", t .lparen "(", t .rparen ")", t .semi ";",
        t .rbrace "\x7d", t .semi ";"] := by
    cbv
  have hturn : (turn inner inner.start (t .ident "API")
      [t .ident "operator", t .ident "std", t .scope "::", t .ident "string", t .lparen "(",
        t .rparen ")", t .semi ";", t .rbrace "\x7d", t .semi ";"]).result =
      .ok (.continues ⟨.everyone, {}, [conversion], []⟩ [t .rbrace "\x7d", t .semi ";"]) := by
    cbv
  have hfound : (ofLines lines (CommentBlock.group lines)).result = .ok ⟨[record], []⟩ := by
    refine result_ofLines_eq_ok.2 ⟨[], ?_⟩
    show Reads _ _ (Piece.ofLines lines []) _ _
    rw [hpieces]
    exact .opens rfl (.continues hturn (.closes rfl rfl)) (.continues rfl (.ends rfl))
  have hd : conversion ∈ Declaration.walkAll [record] :=
    List.mem_cons_of_mem _ (List.mem_singleton_self _)
  refine ⟨lines, _, conversion, hlines, hfound, hd, rfl, by decide +kernel, ?_, ?_⟩
  · exact SymbolTable.contains_ofTrees.2 (List.mem_map_of_mem hd)
  · intro hnamed
    obtain ⟨d, hd, hname, -⟩ := SymbolTable.mem_pathsNamed_insertAll.1 hnamed
    have hnames : ∀ d ∈ [record, conversion], d.name ≠ "string" := by
      decide +kernel
    exact hnames d hd hname

end Scope.Contents

end AnnotatedHeader
