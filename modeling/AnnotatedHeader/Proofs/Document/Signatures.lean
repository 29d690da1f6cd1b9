import AnnotatedHeader.Proofs.DocBlock.Raw
import AnnotatedHeader.Proofs.Document.Injection
import AnnotatedHeader.Proofs.Numbering.Fragments
import AnnotatedHeader.Proofs.Region.Distinct
import AnnotatedHeader.Proofs.Scope.Pauses
import AnnotatedHeader.Proofs.Token.LineByLine

/-! The signature of an injected member.

A proxy's code is read as a whole, and the member that it describes is what the code declares first.
The member's signature is the first line of the code as it stands there. Whether the line declares
the same by itself depends on what is behind it. It does if the line ends where reading pauses, and
nothing behind it is merged into the member (`Declaration.signature_reads`). The first line of a
parameter list does not (`Declaration.exists_signature_unread`). -/
namespace AnnotatedHeader

/-- The first line of a proxy's code has the head of the member that it describes. -/
structure Region.HeadedBy (r : Region) (owner : String) (member : Declaration) : Prop where
  /-- In front of the line's code is nothing that the code would have as a token. -/
  line : ∃ before rest, r.lines = .ofList (before ++ member.signature.toList) :: rest ∧
    ∀ c ∈ before, Lexeme.isGap c = true
  /-- No preprocessor line goes on behind it. -/
  ends : '#' ∈ member.signature.toList → member.signature.toList.getLast? ≠ some '\\'
  /-- Where there is code on later lines, reading pauses in front of it, and no declaration made from
  there on is of the member's entity. -/
  pauses : ∀ p ps, (Token.tokenize r.text (r.line + 1)).filter (r.line + 1 < ·.line) = p :: ps →
    ∃ after rest log,
      Scope.Pauses (.token p :: ps.map .token) (.ofFragment owner) (Scope.ofFragment owner).start
        ((Token.tokenize r.text (r.line + 1)).map .token) after rest ∧
      Scope.Logs (.ofFragment owner) after rest log ∧ ∀ o ∈ log.made, o.entity ≠ member.entity

/-! ### Numbers -/

theorem Item.renumber_of_docs {g : Nat → Nat} {item : Item} (h : ∀ b ∈ item.docs, False) :
    renumber g item = item := by
  cases item with
  | function shape =>
    have hdoc (p : Param) (hp : p ∈ shape.params) : renumber g p = p := by
      cases hpdoc : p.doc with
      | some b => exact absurd (List.mem_filterMap.2 ⟨p, hp, hpdoc⟩) (h b)
      | none =>
        show { p with doc := renumber g p.doc } = p
        rw [hpdoc, renumber_option, Option.map_none, ← hpdoc]
    have hparams : shape.params.map (renumber g) = shape.params :=
      (List.map_congr_left hdoc).trans (List.map_id' _)
    exact congrArg (fun params => Item.function { shape with params }) hparams
  | enumeration | record | property | variant => rfl

namespace Declaration

/-- The number of a fragment's first line makes no difference to what the fragment declares. -/
theorem exists_ofFragment_at {text owner : String} {first : Nat} {d : Declaration}
    {ds : List Declaration} (h : (ofFragment text first owner).result = .ok (d :: ds)) (line : Nat) :
    ∃ d' ds', (ofFragment text line owner).result = .ok (d' :: ds') ∧ d'.name = d.name ∧
      d'.kind = d.kind ∧ d'.item = d.item := by
  have hnumbered (n : Nat) : (ofFragment text n owner).result =
      renumber (fun k => n + k) (ofFragment text 0 owner).result :=
    result_ofFragment_renumber (g := fun k => n + k) (fun _ _ h => Nat.add_lt_add_left h n)
      (fun j _ => (Nat.add_assoc n 0 j).symm) owner
  cases hzero : (ofFragment text 0 owner).result with
  | error f =>
    rw [hnumbered first, hzero] at h
    cases h
  | ok found =>
    cases found with
    | nil =>
      rw [hnumbered first, hzero] at h
      cases h
    | cons d₀ ds₀ =>
      have hown := (every_iff.1 (docsIn_of_ofFragment (fun _ => False) hzero d₀
        List.mem_cons_self)).1
      have hitem (g : Nat → Nat) : (renumber g d₀).item = d₀.item := by
        rw [toDeclared_renumber, Declared.item_renumber]
        exact Item.renumber_of_docs (Declared.docsIn_iff.1 hown).2
      have hname (g : Nat → Nat) : (renumber g d₀).name = d₀.name := by
        rw [toDeclared_renumber, Declared.name_renumber]
      rw [hnumbered first, hzero] at h
      cases h
      refine ⟨_, _, (hnumbered line).trans (by rw [hzero]; rfl), ?_, ?_, ?_⟩
      · rw [hname, hname]
      · rw [kind, kind, hitem, hitem]
      · rw [hitem, hitem]

end Declaration

/-! ### The first line -/

/-- The tokens of a proxy's first line, and those behind it. -/
theorem Region.HeadedBy.tokens {r : Region} {owner : String} {member : Declaration}
    (h : r.HeadedBy owner member) (unbroken : ∀ l ∈ r.lines, '\n' ∉ l.toList) :
    ∃ later, Token.tokenize r.text (r.line + 1) =
        Token.tokenize member.signature (r.line + 1) ++ later ∧
      ∀ t ∈ later, r.line + 1 < t.line := by
  obtain ⟨before, rest, hlines, hgap⟩ := h.line
  have hfirst := unbroken (.ofList (before ++ member.signature.toList)) (by simp [hlines])
  rw [String.toList_ofList, List.mem_append, not_or] at hfirst
  have hgaps (cs : List Char) : Lexeme.tokens (r.line + 1) (Lexeme.scan (before ++ cs)) =
      Lexeme.tokens (r.line + 1) (Lexeme.scan cs) := by
    rw [Lexeme.tokens_scan_append_of_isGap hgap, List.count_eq_zero.2 hfirst.1, Nat.add_zero]
  unfold Token.tokenize Region.text
  cases rest with
  | nil =>
    refine ⟨[], ?_, by simp⟩
    rw [hlines, Text.joinLines_singleton, String.toList_ofList, hgaps, List.append_nil]
  | cons l rest =>
    obtain ⟨later, hlater, hbehind, -⟩ := Lexeme.exists_tokens_append h.ends (r.line + 1)
      (Text.joinLines (l :: rest)).toList
    rw [List.count_eq_zero.2 hfirst.2, Nat.add_zero] at hbehind
    refine ⟨later, ?_, hbehind⟩
    have htext : (Text.joinLines (.ofList (before ++ member.signature.toList) :: l :: rest)).toList =
        before ++ (member.signature.toList ++ '\n' :: (Text.joinLines (l :: rest)).toList) := by
      rw [← List.singleton_append, Text.joinLines_append (by simp) (by simp), Text.joinLines_singleton]
      simp
    rw [← hlater, hlines, htext, hgaps]

theorem Region.HeadedBy.unbroken {r : Region} {owner : String} {member : Declaration}
    (h : r.HeadedBy owner member) (unbroken : ∀ l ∈ r.lines, '\n' ∉ l.toList) :
    '\n' ∉ member.signature.toList := by
  obtain ⟨before, rest, hlines, -⟩ := h.line
  have hfirst := unbroken (.ofList (before ++ member.signature.toList)) (by simp [hlines])
  rw [String.toList_ofList, List.mem_append, not_or] at hfirst
  exact hfirst.2

/-- Code without a line feed stands on one line. -/
theorem Token.line_of_mem_tokenize {text : String} (unbroken : '\n' ∉ text.toList) {first : Nat}
    {t : Token} (ht : t ∈ tokenize text first) : t.line = first := by
  rw [← Text.joinLines_singleton text] at ht
  obtain ⟨k, l, hl, hline, -⟩ := exists_line_of_mem_tokenize (by simpa using unbroken) ht
  obtain ⟨hk, -⟩ := List.getElem?_eq_some_iff.1 hl
  rw [List.length_singleton] at hk
  omega

/-- Every line of a region is one line. -/
theorem Regions.unbroken_of_extract {source : String} {lines : List SourceLine} {regions : Regions}
    {kind : RegionKind} {name : String} {r : Region}
    (classified : SourceLine.classify source = .ok lines) (extracted : extract lines = .ok regions)
    (found : regions.get? kind name = some r) : ∀ l ∈ r.lines, '\n' ∉ l.toList :=
  (within_of_extract (SourceLine.map_line_of_classifyFrom classified).1
    (SourceLine.unbroken_of_classifyFrom (fun _ => Text.not_mem_of_mem_fileLines) classified)
    extracted r (get?_eq_some found).1).unbroken

/-- **A member's signature declares by itself what the member is**, if the first line of the code
has the head of the member. -/
theorem Declaration.signature_reads {source : String} {lines : List SourceLine} {regions : Regions}
    {proxy : Region} {name : String} {doc : Option DocBlock} {site : InjectSite} {member : Declaration}
    (classified : SourceLine.classify source = .ok lines) (extracted : Regions.extract lines = .ok regions)
    (found : regions.get? .proxy name = some proxy)
    (made : (ofProxy proxy doc site).result = .ok member) (headed : proxy.HeadedBy site.owner member)
    (line : Nat) :
    ∃ d ds, (ofFragment member.signature line site.owner).result = .ok (d :: ds) ∧
      d.name = member.name ∧ d.kind = member.kind ∧ d.item = member.item := by
  have unbroken := Regions.unbroken_of_extract classified extracted found
  obtain ⟨later, htokens, hlater⟩ := headed.tokens unbroken
  obtain ⟨first, others, signature, hfragment, hmember⟩ := result_ofProxy_eq_ok made
  have hname : first.name = member.name := by rw [hmember]
  have hkind : first.kind = member.kind := by rw [hmember]; rfl
  have hitem : first.item = member.item := by rw [hmember]
  have hentity : first.entity = member.entity := by rw [hmember]; rfl
  -- It is enough to read the line with the number that it has as a part of the proxy.
  suffices halone : ∃ d ds, (ofFragment member.signature (proxy.line + 1) site.owner).result =
      .ok (d :: ds) ∧ d.toDeclared = first.toDeclared by
    obtain ⟨d, ds, hd, hsame⟩ := halone
    obtain ⟨d', ds', hd', hname', hkind', hitem'⟩ := exists_ofFragment_at hd line
    refine ⟨d', ds', hd', ?_, ?_, ?_⟩
    · rw [hname', hsame, hname]
    · rw [hkind', kind, hsame, ← hkind, kind]
    · rw [hitem', hsame, hitem]
  rw [result_ofFragment, htokens] at hfragment
  rw [result_ofFragment]
  cases later with
  | nil =>
    rw [List.append_nil] at hfragment
    exact ⟨first, others, hfragment, rfl⟩
  | cons p later =>
    have hline : ∀ x ∈ Token.tokenize member.signature (proxy.line + 1), x.line = proxy.line + 1 :=
      fun x => Token.line_of_mem_tokenize (headed.unbroken unbroken)
    have hbehind : (Token.tokenize proxy.text (proxy.line + 1)).filter (proxy.line + 1 < ·.line) =
        p :: later := by
      rw [htokens, List.filter_append, List.filter_eq_nil_iff.2 fun x hx => by simp [hline x hx],
        List.filter_eq_self.2 fun x hx => by simpa using hlater x hx, List.nil_append]
    obtain ⟨after, rest, log, hpauses, hlogs, hnew⟩ := headed.pauses p later hbehind
    have hlines : ∀ x ∈ Token.tokenize member.signature (proxy.line + 1), x.line < p.line :=
      fun x hx => (hline x hx).trans_lt (hlater p List.mem_cons_self)
    obtain ⟨contents, hread, hdeclared⟩ := Except.map_eq_ok.1 hfragment
    rw [htokens] at hpauses
    rw [List.map_append, List.map_cons] at hread hpauses
    obtain ⟨rest', hreads⟩ := Scope.reads_iff.1 hread
    obtain ⟨alone, halone, hfirst⟩ := hpauses.first (List.forall_mem_map.2 hlines) hreads
    have hsame := hfirst log first hlogs (by rw [hdeclared]; rfl) (hentity ▸ hnew)
    rw [Scope.reads_iff.2 ⟨[], halone⟩]
    obtain ⟨d, hd, hsame⟩ := Option.map_eq_some_iff.1 hsame
    obtain ⟨ds, hds⟩ := List.head?_eq_some_iff.1 hd
    exact ⟨d, ds, congrArg Except.ok hds, hsame⟩

namespace Declaration

/-! ### A record whose body goes on behind its first line -/

def recordProxySource : String :=
  "//// [proxy: p]\n//// struct T \x7b\n//// int A;\n//// \x7d;\n//// [/proxy]\n" ++
    "struct S \x7b\n//// [inject: p]\n\x7d;"

def recordProxyLines : List SourceLine :=
  [⟨1, 0, "//// [proxy: p]", .marker (.opens .proxy "p"), false⟩,
    ⟨2, 16, "//// struct T \x7b", .tool "struct T \x7b", false⟩,
    ⟨3, 32, "//// int A;", .tool "int A;", false⟩, ⟨4, 44, "//// \x7d;", .tool "\x7d;", false⟩,
    ⟨5, 52, "//// [/proxy]", .marker (.closes .proxy), false⟩,
    ⟨6, 66, "struct S \x7b", .code, false⟩,
    ⟨7, 77, "//// [inject: p]", .marker (.inject "p"), false⟩, ⟨8, 94, "\x7d;", .code, false⟩]

def recordProxy : Region := ⟨.proxy, "p", 1, ["struct T \x7b", "int A;", "\x7d;"]⟩

def recordProxyMember : Declaration :=
  ⟨⟨"T", "S::T", 7, .everyone, none, none, "struct T \x7b", none,
      .record .structKey ⟨none, [], true⟩, true⟩,
    [⟨⟨"A", "S::T::A", 3, .everyone, none, none, "int A", none,
      .property ⟨"int", none, none, false⟩, false⟩, []⟩]⟩

theorem classify_recordProxy : SourceLine.classify recordProxySource = .ok recordProxyLines := by
  cbv

theorem extract_recordProxy : Regions.extract recordProxyLines = .ok ⟨[recordProxy]⟩ := by
  cbv

theorem tokenize_recordProxy :
    Token.tokenize recordProxy.text 2 =
      [⟨.ident, "struct", 2⟩, ⟨.ident, "T", 2⟩, ⟨.lbrace, "\x7b", 2⟩, ⟨.ident, "int", 3⟩,
        ⟨.ident, "A", 3⟩, ⟨.semi, ";", 3⟩, ⟨.rbrace, "\x7d", 4⟩, ⟨.semi, ";", 4⟩] := by
  cbv

/-- The body of the record is read to its brace. -/
theorem reads_recordProxy :
    Scope.Reads (.ofRecord "S::T" "T" .structKey) (Scope.ofRecord "S::T" "T" .structKey).start
      [.token ⟨.ident, "int", 3⟩, .token ⟨.ident, "A", 3⟩, .token ⟨.semi, ";", 3⟩,
        .token ⟨.rbrace, "\x7d", 4⟩, .token ⟨.semi, ";", 4⟩]
      ⟨recordProxyMember.members, []⟩ [.token ⟨.semi, ";", 4⟩] := by
  let inner := Scope.ofRecord "S::T" "T" .structKey
  have hturn : (inner.turn inner.start (.token ⟨.ident, "int", 3⟩)
      [.token ⟨.ident, "A", 3⟩, .token ⟨.semi, ";", 3⟩, .token ⟨.rbrace, "\x7d", 4⟩,
        .token ⟨.semi, ";", 4⟩]).result =
      .ok (.continues { inner.start with members := recordProxyMember.members }
        [.token ⟨.rbrace, "\x7d", 4⟩, .token ⟨.semi, ";", 4⟩]) := by
    cbv
  exact .continues hturn (.closes rfl rfl)

theorem ofProxy_recordProxy :
    (ofProxy recordProxy none ⟨"p", "S", 7⟩).result = .ok recordProxyMember := by
  have hread : ((Scope.ofFragment "S").read
      ((Token.tokenize recordProxy.text 2).map .token)).result = .ok ⟨[{ recordProxyMember with
        line := 2, synthetic := false, signature := "struct T" }], []⟩ := by
    rw [tokenize_recordProxy]
    exact Scope.reads_iff.2 ⟨[], .opens rfl reads_recordProxy (.continues rfl (.ends rfl))⟩
  have hfragment := result_ofFragment recordProxy.text 2 "S"
  rw [hread] at hfragment
  show (ofFragment recordProxy.text 2 "S" >>= _ : Outcome _).result = _
  rw [Outcome.result_bind, hfragment]
  rfl

/-- Reading pauses inside the record, and what is left is its members and a semicolon. -/
theorem headedBy_recordProxy : recordProxy.HeadedBy "S" recordProxyMember := by
  refine ⟨⟨[], _, rfl, by simp⟩, by decide, ?_⟩
  intro p ps hlater
  rw [show recordProxy.line + 1 = 2 from rfl, tokenize_recordProxy] at hlater ⊢
  cases hlater
  exact ⟨_, _, _, .inRecord rfl (.here rfl) reads_recordProxy, .continues rfl (.ends rfl), by decide⟩

/-- The head of a record declares the record, which has no members then. -/
theorem signature_reads_record :
    SourceLine.classify recordProxySource = .ok recordProxyLines ∧
      Regions.extract recordProxyLines = .ok ⟨[recordProxy]⟩ ∧
      (ofProxy recordProxy none ⟨"p", "S", 7⟩).result = .ok recordProxyMember ∧
      recordProxy.HeadedBy "S" recordProxyMember ∧
      ∃ d ds, (ofFragment "struct T \x7b" 1 "S").result = .ok (d :: ds) ∧ d.name = "T" ∧
        d.kind = .structType ∧ d.item = .record .structKey ⟨none, [], true⟩ :=
  have found : (⟨[recordProxy]⟩ : Regions).get? .proxy "p" = some recordProxy := rfl
  ⟨classify_recordProxy, extract_recordProxy, ofProxy_recordProxy, headedBy_recordProxy,
    signature_reads classify_recordProxy extract_recordProxy found ofProxy_recordProxy
      headedBy_recordProxy 1⟩

/-! ### A parameter list that goes on behind its first line -/

def splitProxySource : String :=
  "//// [proxy: p]\n//// void F(\n//// int A);\n//// [/proxy]\n" ++
    "struct S \x7b\n//// [inject: p]\n\x7d;"

def splitProxyLines : List SourceLine :=
  [⟨1, 0, "//// [proxy: p]", .marker (.opens .proxy "p"), false⟩,
    ⟨2, 16, "//// void F(", .tool "void F(", false⟩,
    ⟨3, 29, "//// int A);", .tool "int A);", false⟩,
    ⟨4, 42, "//// [/proxy]", .marker (.closes .proxy), false⟩,
    ⟨5, 56, "struct S \x7b", .code, false⟩,
    ⟨6, 67, "//// [inject: p]", .marker (.inject "p"), false⟩, ⟨7, 84, "\x7d;", .code, false⟩]

def splitProxy : Region := ⟨.proxy, "p", 1, ["void F(", "int A);"]⟩

def splitProxyMember : Declaration :=
  ⟨⟨"F", "S::F", 6, .everyone, none, none, "void F(", none,
    .function ⟨some "void", [⟨some "A", "int", none, none⟩], none, false, false⟩, true⟩, []⟩

def splitProxyOwner : Declared :=
  ⟨"S", "S", 5, .everyone, none, none, "struct S", none, .record .structKey ⟨none, [], true⟩, false⟩

theorem result_splitProxy :
    (Document.ofSource "t.h" splitProxySource).result =
      .ok ⟨"t.h", [⟨splitProxyOwner, [splitProxyMember]⟩], []⟩ := by
  have hpieces : Piece.ofLines splitProxyLines [] =
      [.token ⟨.ident, "struct", 5⟩, .token ⟨.ident, "S", 5⟩, .token ⟨.lbrace, "\x7b", 5⟩,
        .inject "p" 6, .token ⟨.rbrace, "\x7d", 7⟩, .token ⟨.semi, ";", 7⟩] := by
    cbv
  have hinside : Scope.Reads (.ofRecord "S" "S" .structKey) (Scope.ofRecord "S" "S" .structKey).start
      [.inject "p" 6, .token ⟨.rbrace, "\x7d", 7⟩, .token ⟨.semi, ";", 7⟩]
      ⟨[], [⟨"p", "S", 6⟩]⟩ [.token ⟨.semi, ";", 7⟩] :=
    .continues rfl (.closes rfl rfl)
  have hfound : (Scope.Contents.ofLines splitProxyLines []).result =
      .ok ⟨[⟨splitProxyOwner, []⟩], [⟨"p", "S", 6⟩]⟩ := by
    refine Scope.Contents.result_ofLines_eq_ok.2 ⟨[], ?_⟩
    rw [hpieces]
    exact .opens rfl hinside (.continues rfl (.ends rfl))
  rw [Document.result_ofSource_of_stages ⟨[splitProxy]⟩ _ (by cbv) (by cbv) (by cbv) hfound]
  cbv

/-- The function's signature is its head as far as the first line has it, which declares
nothing. -/
theorem exists_signature_unread :
    ¬ ∀ (file source : String) (d : Document) (owner member : Declaration),
      (Document.ofSource file source).result = .ok d → owner ∈ d.declarations →
      member ∈ owner.members → member.synthetic = true →
      ∃ first ds, (ofFragment member.signature 1 owner.path).result = .ok (first :: ds) ∧
        first.name = member.name ∧ first.kind = member.kind ∧ first.item = member.item := by
  intro hall
  obtain ⟨first, ds, hread, -⟩ := hall _ _ _ ⟨splitProxyOwner, [splitProxyMember]⟩ splitProxyMember
    result_splitProxy List.mem_cons_self List.mem_cons_self rfl
  have hnothing : (ofFragment splitProxyMember.signature 1 splitProxyOwner.path).result = .ok [] := by
    cbv
  cases hnothing.symm.trans hread

end Declaration

end AnnotatedHeader
