import AnnotatedHeader.Proofs.Document.ParamLines
import AnnotatedHeader.Proofs.Statement.FunctionHead

/-! The two ways in which a function is printed.

A function without documented parameters is printed as its signature, any other from its parts,
with each parameter on a line of its own (`FunctionShape.ReadsAlike`). The parts are read as the
signature is when each is read from its own text and no parameter is an array
(`FunctionCut.IsPlain`), and `function_printings_agree_iff` says that nothing else can go wrong. -/
namespace AnnotatedHeader

open Lexeme

/-! ### Functions -/

namespace FunctionShape

/-- The shape without its parameters' docs. -/
def undocumented (shape : FunctionShape) : FunctionShape :=
  { shape with params := shape.params.map fun p => { p with doc := none } }

theorem toList_printed_headerLines (depth : Nat) (name : String) (shape : FunctionShape) :
    (printed (shape.headerLines depth name)).toList = List.replicate depth '\t' ++
      ((shape.lead.elim "" (· ++ " ")).toList ++ (name.toList ++
        '(' :: '\n' :: ((printed (Param.headerLines (depth + 1) shape.params)).toList ++
          (List.replicate depth '\t' ++
            ')' :: ((shape.qualifiers.elim "" (" " ++ ·)).toList ++ [';', '\n']))))) := by
  have hlast : (printed [indented depth (shape.qualifiers.elim ");" fun q => ") " ++ q ++ ";")]).toList =
      List.replicate depth '\t' ++
        ')' :: ((shape.qualifiers.elim "" (" " ++ ·)).toList ++ [';', '\n']) := by
    rw [toList_printed_cons, toList_indented]
    cases shape.qualifiers with
    | none => simp [printed]
    | some q => simp [printed]
  rw [headerLines, List.cons_append, toList_printed_cons, toList_printed_append, hlast, toList_indented]
  simp

end FunctionShape

namespace FunctionCut

/-- The function is declared by this head. -/
structure Heads (c : FunctionCut) (own : Declared) (shape : FunctionShape) : Prop where
  opening : c.opening.kind = .lparen
  closing : c.closing.kind = .rparen
  name : own.name = String.join (c.name.map (·.text))
  signature : own.signature = Token.join c.tokens
  lead : shape.lead = if c.lead.isEmpty then none else some (Token.join c.lead)
  params : ∃ docs start, shape.params = Head.params docs start c.inside
  qualifiers : shape.qualifiers = Head.nonEmpty? (Token.join c.qualifiers)

/-- The name and what follows the parameters are read from their own texts, and no parameter's name
has extents behind it. -/
structure IsPlain (c : FunctionCut) : Prop where
  name : Token.reading (String.join (c.name.map (·.text))) = c.name.map Token.shape
  qualifiers : Token.reading (Token.join c.qualifiers) = c.qualifiers.map Token.shape
  flat : ∀ e ∈ commaParts c.inside, Head.hasExtents e.2 = false

end FunctionCut

/-- With its parameters on lines of their own the function is read as its signature is. -/
def FunctionShape.ReadsAlike (depth : Nat) (own : Declared) (shape : FunctionShape) : Prop :=
  Token.reading (printed (shape.headerLines depth own.name)) =
    Token.reading own.signature ++ [(.semi, ";")]

namespace FunctionCut.Heads
variable {c : FunctionCut} {own : Declared} {shape : FunctionShape} (h : c.Heads own shape)
  (given : shape.params ≠ []) (written : ∀ t ∈ c.tokens, Written t.kind t.text.toList)
include h

theorem undocumented : c.Heads own shape.undocumented := by
  obtain ⟨docs, start, hparams⟩ := h.params
  refine ⟨h.opening, h.closing, h.name, h.signature, h.lead, ⟨[], start, ?_⟩, h.qualifiers⟩
  show shape.params.map _ = _
  rw [hparams, Head.map_params]

theorem laidOut_lead : Token.LaidOut c.lead (shape.lead.elim "" (· ++ " ")).toList := by
  rw [h.lead]
  cases c.lead with
  | nil => exact .nil
  | cons t ts =>
    have hspace : Token.LaidOut [] [' '] := .of_gaps (List.forall_mem_singleton.2 (by decide))
    have htext : (Token.join (t :: ts) ++ " ").toList = (Token.join (t :: ts)).toList ++ [' '] :=
      String.toList_append
    show Token.LaidOut (t :: ts) (Token.join (t :: ts) ++ " ").toList
    rw [htext]
    simpa using (Token.LaidOut.join (t :: ts)).append hspace

theorem toList_qualifiers : ∃ gaps, (∀ d ∈ gaps, isGap d = true) ∧
    (shape.qualifiers.elim "" (" " ++ ·)).toList = gaps ++ (Token.join c.qualifiers).toList := by
  rw [h.qualifiers, Head.nonEmpty?]
  by_cases hempty : (Token.join c.qualifiers).isEmpty = true
  · refine ⟨[], by simp, ?_⟩
    rw [if_pos hempty, String.isEmpty_iff.1 hempty]
    rfl
  · refine ⟨[' '], List.forall_mem_singleton.2 (by decide), ?_⟩
    rw [if_neg hempty]
    exact String.toList_append

theorem shapes_lead (written : ∀ t ∈ c.lead, Written t.kind t.text.toList)
    (apart : Token.runsTogether none c.lead = false) (ds : List Char) :
    (scan ((shape.lead.elim "" (· ++ " ")).toList ++ ds)).filterMap shape? =
      c.lead.map Token.shape ++ (scan ds).filterMap shape? := by
  have hlexes := Token.lexes_join written apart
  rw [h.lead]
  generalize c.lead = lead at hlexes ⊢
  cases lead with
  | nil => rfl
  | cons t ts =>
    have htext : (Token.join (t :: ts) ++ " ").toList ++ ds =
        (Token.join (t :: ts)).toList ++ ' ' :: ds := by
      rw [String.toList_append, List.append_assoc]
      rfl
    show (scan ((Token.join (t :: ts) ++ " ").toList ++ ds)).filterMap shape? = _
    rw [htext, hlexes.shapes_append (by simp; decide), filterMap_shape?_scan_gap (by decide)]

include written

theorem shapes_tokens : c.tokens.map Token.shape ++ [(.semi, ";")] =
    c.lead.map Token.shape ++ (c.name.map Token.shape ++ ((.lparen, "(") ::
      (c.inside.map Token.shape ++ ((.rparen, ")") ::
        (c.qualifiers.map Token.shape ++ [(.semi, ";")]))))) := by
  have hopening : Token.shape c.opening = (.lparen, "(") :=
    Token.shape_of_sign h.opening (written _ (by simp [tokens])) (by decide) (by decide)
  have hclosing : Token.shape c.closing = (.rparen, ")") :=
    Token.shape_of_sign h.closing (written _ (by simp [tokens])) (by decide) (by decide)
  simp [tokens, hopening, hclosing]

include given

theorem exists_params : ∃ first more, c.inside = listed first more ∧
    (commaParts c.inside).map Prod.snd = first :: more.map Prod.snd ∧ AreParams shape.params first more := by
  obtain ⟨docs, start, hparams⟩ := h.params
  obtain ⟨first, more, hinside, hparts, hcommas⟩ := Nesting.exists_listed {} 0 c.inside
  refine ⟨first, more, hinside, hparts, ?_, hcommas, fun t ht => written t ?_⟩
  · rcases Head.params_eq docs start c.inside with hnone | hsome
    · exact absurd (hparams.trans hnone) given
    · have hmap : ((commaParts c.inside).map fun e => (start + e.1, e.2)).map Prod.snd =
          first :: more.map Prod.snd := by
        rw [← hparts, List.map_map]
        rfl
      rw [hparams, hsome, Head.map_signature_paramsOf, hmap]
  · rw [tokens, hinside]
    exact List.mem_append_right _ (List.mem_cons_of_mem _ (List.mem_append_left _ ht))

/-- Nothing but the order of the tokens can get lost. -/
theorem weight_printed (bare : ∀ p ∈ shape.params, p.doc = none) (depth : Nat) :
    weight (printed (shape.headerLines depth own.name)).toList =
      weightOf (c.tokens.map Token.shape ++ [(.semi, ";")]) := by
  obtain ⟨first, more, hinside, -, hparams⟩ := h.exists_params given written
  obtain ⟨gaps, hgaps, hqualifiers⟩ := h.toList_qualifiers
  have htail : weight (shape.qualifiers.elim "" (" " ++ ·)).toList =
      weightOf (c.qualifiers.map Token.shape) := by
    rw [hqualifiers, weight_append, weight_gaps hgaps, (Token.LaidOut.join _).weight_eq, Nat.zero_add]
  have hopen (cs : List Char) : weight ('(' :: '\n' :: cs) = weight "(".toList + weight cs :=
    weight_append ['(', '\n'] cs
  have hclose (cs : List Char) : weight (')' :: cs) = weight ")".toList + weight cs :=
    weight_append [')'] cs
  have hsemi : weight [';', '\n'] = weightOf [(.semi, ";")] := by
    decide
  rw [h.shapes_tokens written, FunctionShape.toList_printed_headerLines, h.name,
    weight_append, weight_append, weight_append, hopen, weight_append, weight_append, hclose,
    weight_append, weight_gaps (isGap_of_mem_replicate _), h.laidOut_lead.weight_eq,
    (Token.LaidOut.texts c.name).weight_eq, Param.weight_headerLines hparams bare, htail, hsemi, ← hinside]
  simp only [weightOf_append, weightOf_cons, Nat.zero_add]

/-- What is read of the printed head is read of its parts. -/
theorem isPlain_of_readsAlike {depth : Nat} (read : Token.reading own.signature = c.tokens.map Token.shape)
    (bare : ∀ p ∈ shape.params, p.doc = none) (alike : shape.ReadsAlike depth own) : c.IsPlain := by
  obtain ⟨first, more, hinside, hparts, hparams⟩ := h.exists_params given written
  obtain ⟨gaps, hgaps, hqualifiers⟩ := h.toList_qualifiers
  rw [FunctionShape.ReadsAlike, read, Token.reading_eq] at alike
  have hall := Exact.mk alike (h.weight_printed given written bare depth)
  rw [h.shapes_tokens written, FunctionShape.toList_printed_headerLines, h.name, hinside] at hall
  obtain ⟨-, hafterLead⟩ := h.laidOut_lead.peel (fun t ht => written t (by simp [tokens, ht]))
    (.of_gaps (isGap_of_mem_replicate _) hall)
  obtain ⟨hname, hafterName⟩ :=
    (Token.LaidOut.texts c.name).peel (fun t ht => written t (by simp [tokens, ht])) hafterLead
  have hline : Exact (['\n'] ++ _) _ := .of_sign "(" (by decide) (by decide) hafterName
  obtain ⟨hflat, hafterParams⟩ := Param.peel_headerLines hparams bare
    (.of_gaps (List.forall_mem_singleton.2 (by decide)) hline)
  have hbehind : Exact ((shape.qualifiers.elim "" (" " ++ ·)).toList ++ _) _ :=
    .of_sign ")" (by decide) (by decide) (.of_gaps (isGap_of_mem_replicate _) hafterParams)
  rw [hqualifiers, List.append_assoc] at hbehind
  obtain ⟨htail, -⟩ := (Token.LaidOut.join c.qualifiers).peel
    (fun t ht => written t (by simp [tokens, ht])) (.of_gaps hgaps hbehind)
  refine ⟨?_, ?_, fun e he => hflat e.2 ?_⟩
  · rw [Token.reading_eq, hname.shapes]
  · rw [Token.reading_eq, htail.shapes]
  · rw [← hparts]
    exact List.mem_map_of_mem he

theorem readsAlike_of_isPlain {depth : Nat} (read : Token.reading own.signature = c.tokens.map Token.shape)
    (plain : c.IsPlain) : shape.ReadsAlike depth own := by
  obtain ⟨first, more, hinside, hparts, hparams⟩ := h.exists_params given written
  obtain ⟨gaps, hgaps, hqualifiers⟩ := h.toList_qualifiers
  have hname : Lexes own.name.toList (c.name.map Token.shape) := by
    rw [h.name]
    refine (Token.LaidOut.texts c.name).lexes_of_shapes (fun t ht => written t ?_) ?_
    · simp [tokens, ht]
    · rw [← Token.reading_eq, plain.name]
  have htail : Lexes (Token.join c.qualifiers).toList (c.qualifiers.map Token.shape) := by
    refine (Token.LaidOut.join _).lexes_of_shapes (fun t ht => written t ?_) ?_
    · simp [tokens, ht]
    · rw [← Token.reading_eq, plain.qualifiers]
  have happart : Token.runsTogether none c.tokens = false := by
    rw [← Token.map_shape_scan_join_iff written, ← h.signature, ← Token.reading_eq, read]
  rw [tokens, List.append_assoc] at happart
  have hinsideApart : Token.runsTogether none (listed first more) = false := by
    rw [← hinside, ← Token.runsTogether_afresh (.inl h.opening)]
    rw [← List.append_assoc] at happart
    exact Token.runsTogether_left (Token.runsTogether_right happart)
  have hflat : ∀ part ∈ first :: more.map Prod.snd, Head.hasExtents part = false := by
    rw [← hparts]
    exact List.forall_mem_map.2 plain.flat
  have hopen (cs : List Char) : (scan ('(' :: cs)).filterMap shape? =
      (.lparen, "(") :: (scan cs).filterMap shape? := shapes_sign "(" (by decide) (by decide) cs
  have hclose (cs : List Char) : (scan (')' :: cs)).filterMap shape? =
      (.rparen, ")") :: (scan cs).filterMap shape? := shapes_sign ")" (by decide) (by decide) cs
  have hsemi : (scan [';', '\n']).filterMap shape? = [(.semi, ";")] := by
    have hsign : (scan [';', '\n']).filterMap shape? = (.semi, ";") :: (scan ['\n']).filterMap shape? :=
      shapes_sign ";" (by decide) (by decide) ['\n']
    rw [hsign, filterMap_shape?_scan_gap (by decide), scan]
    rfl
  rw [FunctionShape.ReadsAlike, read, h.shapes_tokens written, Token.reading_eq,
    FunctionShape.toList_printed_headerLines, shapes_gaps (isGap_of_mem_replicate _),
    h.shapes_lead (fun t ht => written t (by simp [tokens, ht])) (Token.runsTogether_left happart),
    hname.shapes_append (by simp; decide), hopen, filterMap_shape?_scan_gap (by decide),
    Param.shapes_headerLines hparams (hparams.lexes hinsideApart hflat),
    shapes_gaps (isGap_of_mem_replicate _), hclose, hqualifiers,
    List.append_assoc, shapes_gaps hgaps, htail.shapes_append (by simp; decide), hsemi, hinside]

end FunctionCut.Heads

/-! ### Headers -/

/-- Every function's head is made of these tokens. -/
def Declared.HasHead (ts : List Token) (own : Declared) : Prop :=
  ∀ shape, own.item = .function shape → ∃ c : FunctionCut, c.Heads own shape ∧ c.tokens ⊆ ts

theorem Material.makes_hasHead {ts : List Token} (tildes : ∀ t ∈ ts, t.kind = .tilde → t.text = "~") :
    (Material.among ts).Makes (Declared.HasHead ts) where
  template _ := trivial
  reflection _ _ := trivial
  ofHead visibility line hhead hh _ hwaiting hpieces shape hshape := by
    obtain ⟨c, hc⟩ := Head.exists_cut_of_classify hhead hh hshape
    obtain ⟨special, hitem⟩ := hc.item
    cases hitem.symm.trans hshape
    have htokens {t : Token} (ht : t ∈ _) : t ∈ ts := hpieces _ (Statement.token_mem_pieces ht) t rfl
    exact ⟨c, ⟨hc.opening, hc.closing, hc.name.2 fun t ht => tildes t (htokens ht), hc.signature, rfl,
      ⟨_, _, rfl⟩, rfl⟩, fun t ht => htokens (hc.starts.subset ht)⟩
  ofEntry hdoc _ hentry shape hshape := by
    obtain ⟨name, rest, reflection, -, -, rfl⟩ := EnumBody.eq_of_variant hentry
    cases hshape
  inherits := by
    intro winner loser _ hw _ shape hshape
    obtain ⟨c, hc, htokens⟩ := hw shape hshape
    exact ⟨c, ⟨hc.opening, hc.closing, hc.name, hc.signature, hc.lead, hc.params, hc.qualifiers⟩, htokens⟩

theorem Declaration.mem_walkAll {d : Declaration} {ds : List Declaration} (h : d ∈ ds) : d ∈ walkAll ds := by
  rw [walkAll_eq_flatMap]
  exact List.mem_flatMap.2 ⟨d, h, d.walk_eq ▸ List.mem_cons_self ..⟩

/-- The head of every function that a header declares is cut from the header's code. -/
theorem Scope.Contents.hasHead_of_ofLines {lines : List SourceLine} {blocks : List CommentBlock}
    {found : Contents} (h : (ofLines lines blocks).result = .ok found) :
    ∀ d ∈ Declaration.walkAll found.declarations,
      d.HasHead (Token.tokenize (Piece.code lines) (Piece.firstLine lines)) := by
  obtain ⟨rest, hreads⟩ := result_ofLines_eq_ok.1 h
  refine Declaration.forall_mem_walkAll.2 (hreads.every (Material.makes_hasHead fun t ht htilde => ?_) ?_
    (.start ..))
  · have hwritten := Token.written_of_kind ht (by simp [htilde])
    exact congrArg Prod.snd (Token.shape_of_sign htilde hwritten (by decide) (by decide))
  · rintro p hp t rfl
    exact Piece.mem_tokenize_of_mem hp

/-- **A function is printed alike in both ways**, unless a parameter with a name is an array or a part
of the head is not read from its own text. Docs make no difference. -/
theorem function_printings_agree_iff {lines : List SourceLine} {blocks : List CommentBlock}
    {found : Scope.Contents} (h : (Scope.Contents.ofLines lines blocks).result = .ok found)
    (clean : ∀ l ∈ scan (Piece.code lines).toList, l.kind ≠ .stray) {d : Declaration}
    (hd : d ∈ Declaration.walkAll found.declarations) {shape : FunctionShape}
    (function : d.item = .function shape) (given : shape.params ≠ []) :
    let ts := Token.tokenize (Piece.code lines) (Piece.firstLine lines)
    (∃ c : FunctionCut, c.Heads d.toDeclared shape ∧ c.tokens ⊆ ts) ∧
      ∀ c : FunctionCut, c.Heads d.toDeclared shape → c.tokens ⊆ ts →
        Token.reading d.signature = c.tokens.map Token.shape → ∀ depth,
          (shape.undocumented.ReadsAlike depth d.toDeclared ↔ c.IsPlain) ∧
            (shape.undocumented.ReadsAlike depth d.toDeclared → shape.ReadsAlike depth d.toDeclared) := by
  intro ts
  refine ⟨Scope.Contents.hasHead_of_ofLines h d hd shape function, fun c hc hts read depth => ?_⟩
  have written : ∀ t ∈ c.tokens, Written t.kind t.text.toList :=
    fun t ht => Token.written_of_mem_tokenize clean t (hts ht)
  have hiff : shape.undocumented.ReadsAlike depth d.toDeclared ↔ c.IsPlain := by
    have hgiven : shape.undocumented.params ≠ [] := mt List.map_eq_nil_iff.1 given
    refine ⟨hc.undocumented.isPlain_of_readsAlike hgiven written read fun p hp => ?_,
      hc.undocumented.readsAlike_of_isPlain hgiven written read⟩
    obtain ⟨p, -, rfl⟩ := List.mem_map.1 hp
    rfl
  exact ⟨hiff, fun halike => hc.readsAlike_of_isPlain given written read (hiff.1 halike)⟩

/-- A function whose first parameter is documented and whose second has a default. -/
theorem function_printings_agree_documented :
    let shape : FunctionShape :=
      ⟨some "void",
        [⟨some "X", "Foo&", none, some ⟨2, [.markdown "d"], []⟩⟩, ⟨some "N", "int", some "3", none⟩],
        some "const", false, false⟩
    let d : Declaration := ⟨⟨"F", "F", 1, .everyone, none, none, "void F(Foo& X, int N = 3) const", none,
      .function shape, false⟩, []⟩
    ∃ lines, SourceLine.classify "void F(\n/// d\nFoo& X, int N = 3) const;" = .ok lines ∧
      (Scope.Contents.ofLines lines (CommentBlock.group lines)).result = .ok ⟨[d], []⟩ ∧
      shape.ReadsAlike 0 d.toDeclared := by
  intro shape d
  let c : FunctionCut :=
    ⟨[⟨.ident, "void", 1⟩], [⟨.ident, "F", 1⟩], ⟨.lparen, "(", 1⟩,
      [⟨.ident, "Foo", 3⟩, ⟨.op, "&", 3⟩, ⟨.ident, "X", 3⟩, ⟨.comma, ",", 3⟩, ⟨.ident, "int", 3⟩,
        ⟨.ident, "N", 3⟩, ⟨.equals, "=", 3⟩, ⟨.number, "3", 3⟩],
      ⟨.rparen, ")", 3⟩, [⟨.ident, "const", 3⟩]⟩
  have hclassified : (SourceLine.classify "void F(\n/// d\nFoo& X, int N = 3) const;").map
      (fun lines =>
        (Piece.ofLines lines (CommentBlock.group lines), Piece.code lines, Piece.firstLine lines)) =
      .ok ([.token ⟨.ident, "void", 1⟩, .token ⟨.ident, "F", 1⟩, .token ⟨.lparen, "(", 1⟩,
        .doc ⟨2, [.markdown "d"], []⟩, .token ⟨.ident, "Foo", 3⟩, .token ⟨.op, "&", 3⟩,
        .token ⟨.ident, "X", 3⟩, .token ⟨.comma, ",", 3⟩, .token ⟨.ident, "int", 3⟩,
        .token ⟨.ident, "N", 3⟩, .token ⟨.equals, "=", 3⟩, .token ⟨.number, "3", 3⟩,
        .token ⟨.rparen, ")", 3⟩, .token ⟨.ident, "const", 3⟩, .token ⟨.semi, ";", 3⟩],
        "void F(\n\nFoo& X, int N = 3) const;", 1) := by
    cbv
  obtain ⟨lines, hlines, hmade⟩ := Except.map_eq_ok.1 hclassified
  obtain ⟨hpieces, hmade⟩ := Prod.mk.inj hmade
  obtain ⟨hcode, hfirstLine⟩ := Prod.mk.inj hmade
  have hfound : (Scope.Contents.ofLines lines (CommentBlock.group lines)).result = .ok ⟨[d], []⟩ := by
    have hturn : (Scope.turn .file Scope.file.start (.token ⟨.ident, "void", 1⟩)
        [.token ⟨.ident, "F", 1⟩, .token ⟨.lparen, "(", 1⟩, .doc ⟨2, [.markdown "d"], []⟩,
          .token ⟨.ident, "Foo", 3⟩, .token ⟨.op, "&", 3⟩, .token ⟨.ident, "X", 3⟩,
          .token ⟨.comma, ",", 3⟩, .token ⟨.ident, "int", 3⟩, .token ⟨.ident, "N", 3⟩,
          .token ⟨.equals, "=", 3⟩, .token ⟨.number, "3", 3⟩, .token ⟨.rparen, ")", 3⟩,
          .token ⟨.ident, "const", 3⟩, .token ⟨.semi, ";", 3⟩]).result =
        .ok (.continues ⟨.everyone, {}, [d], []⟩ []) := by
      cbv
    refine Scope.Contents.result_ofLines_eq_ok.2 ⟨[], ?_⟩
    rw [hpieces]
    exact .continues hturn (.ends rfl)
  have hclean : (scan "void F(\n\nFoo& X, int N = 3) const;".toList).all (·.kind ≠ .stray) = true := by
    cbv
  have htokens : Token.tokenize "void F(\n\nFoo& X, int N = 3) const;" 1 =
      c.tokens ++ [⟨.semi, ";", 3⟩] := by
    cbv
  have hread : Token.reading d.signature = c.tokens.map Token.shape := by
    cbv
  have hc : c.Heads d.toDeclared shape :=
    ⟨rfl, rfl, by decide +kernel, rfl, rfl, ⟨[(3, ⟨2, [.markdown "d"], []⟩)], 3, by decide +kernel⟩,
      by decide +kernel⟩
  have hplain : c.IsPlain := by
    refine ⟨?_, ?_, by decide +kernel⟩
    · cbv
    · cbv
  have hagree := (function_printings_agree_iff hfound (by rw [hcode]; simpa using hclean)
    (Declaration.mem_walkAll (List.mem_singleton_self d)) rfl (by simp [shape])).2 c hc
    (by rw [hcode, hfirstLine, htokens]; exact List.subset_append_left ..) hread 0
  exact ⟨lines, hlines, hfound, hagree.2 (hagree.1.2 hplain)⟩

/-- The extents of an array are printed in front of its name. -/
theorem exists_not_readsAlike :
    ∃ lines found d shape, SourceLine.classify "void F(int A[4]);" = .ok lines ∧
      (Scope.Contents.ofLines lines (CommentBlock.group lines)).result = .ok found ∧
      d ∈ Declaration.walkAll found.declarations ∧ d.item = .function shape ∧ shape.params ≠ [] ∧
      Token.reading (printed (shape.headerLines 0 d.name)) ≠
        Token.reading d.signature ++ [(.semi, ";")] := by
  let shape : FunctionShape := ⟨some "void", [⟨some "A", "int[4]", none, none⟩], none, false, false⟩
  let d : Declaration := ⟨⟨"F", "F", 1, .everyone, none, none, "void F(int A[4])", none,
    .function shape, false⟩, []⟩
  have hpieces : (SourceLine.classify "void F(int A[4]);").map
      (fun lines => Piece.ofLines lines (CommentBlock.group lines)) =
      .ok [.token ⟨.ident, "void", 1⟩, .token ⟨.ident, "F", 1⟩, .token ⟨.lparen, "(", 1⟩,
        .token ⟨.ident, "int", 1⟩, .token ⟨.ident, "A", 1⟩, .token ⟨.lbracket, "[", 1⟩,
        .token ⟨.number, "4", 1⟩, .token ⟨.rbracket, "]", 1⟩, .token ⟨.rparen, ")", 1⟩,
        .token ⟨.semi, ";", 1⟩] := by
    cbv
  obtain ⟨lines, hlines, hpieces⟩ := Except.map_eq_ok.1 hpieces
  have hfound : (Scope.Contents.ofLines lines (CommentBlock.group lines)).result = .ok ⟨[d], []⟩ := by
    have hturn : (Scope.turn .file Scope.file.start (.token ⟨.ident, "void", 1⟩)
        [.token ⟨.ident, "F", 1⟩, .token ⟨.lparen, "(", 1⟩, .token ⟨.ident, "int", 1⟩,
          .token ⟨.ident, "A", 1⟩, .token ⟨.lbracket, "[", 1⟩, .token ⟨.number, "4", 1⟩,
          .token ⟨.rbracket, "]", 1⟩, .token ⟨.rparen, ")", 1⟩, .token ⟨.semi, ";", 1⟩]).result =
        .ok (.continues ⟨.everyone, {}, [d], []⟩ []) := by
      cbv
    refine Scope.Contents.result_ofLines_eq_ok.2 ⟨[], ?_⟩
    rw [hpieces]
    exact .continues hturn (.ends rfl)
  have hprinted : Token.reading (printed (shape.headerLines 0 "F")) =
      [(.ident, "void"), (.ident, "F"), (.lparen, "("), (.ident, "int"), (.lbracket, "["), (.number, "4"),
        (.rbracket, "]"), (.ident, "A"), (.rparen, ")"), (.semi, ";")] := by
    cbv
  have hsignature : Token.reading "void F(int A[4])" =
      [(.ident, "void"), (.ident, "F"), (.lparen, "("), (.ident, "int"), (.ident, "A"), (.lbracket, "["),
        (.number, "4"), (.rbracket, "]"), (.rparen, ")")] := by
    cbv
  refine ⟨lines, _, d, shape, hlines, hfound, Declaration.mem_walkAll (List.mem_singleton_self d), rfl,
    by simp [shape], ?_⟩
  show Token.reading (printed (shape.headerLines 0 "F")) ≠ Token.reading "void F(int A[4])" ++ _
  rw [hprinted, hsignature]
  decide

end AnnotatedHeader
