import AnnotatedHeader.Document.Header
import AnnotatedHeader.Proofs.Document.Spelled
import AnnotatedHeader.Proofs.SourceLine.Directives

/-! Printed headers and directives.

Nothing that is printed has the form of a directive, as long as it is spelled as code, in a
doc comment, or ends in a sign. One thing is not: the first line of a proxy, where it is the
head of something with a body (`Declaration.braced`). It is printed as it is, on a line of
its own, and `Document.toHeader_plain_iff` says that nothing else can go wrong. -/
namespace AnnotatedHeader

open Text

/-! ### Lines -/

/-- A line that is printed without being a directive. -/
structure IsPlainLine (line : String) : Prop where
  unbroken : '\n' ∉ line.toList
  plain : isDirective line.toList = false

theorem IsCodeLine.isPlainLine {line : String} (h : IsCodeLine line) : IsPlainLine line := by
  refine ⟨h.unbroken, isDirective_of_toolText? ?_⟩
  cases hlead : afterLead? ['/', '/', '/', '/'] (line.toList.dropWhile isAsciiSpace) with
  | none => rw [toolText?, hlead, Option.map_none]
  | some rest => exact absurd rfl (h.uncommented _ (afterLead?_eq_some_iff.1 hlead))

/-- A text behind which a sign stands. -/
theorem isPlainLine_append {text sign : String} (h : '\n' ∉ text.toList)
    (hsign : '\n' ∉ sign.toList)
    (hends : sign.toList.getLast?.any (fun c => !isSpace c && c != ']') = true) :
    IsPlainLine (text ++ sign) := by
  obtain ⟨c, hc, hvisible⟩ := (Option.any_eq_true _ _).1 hends
  rw [Bool.and_eq_true, Bool.not_eq_true', bne_iff_ne] at hvisible
  refine ⟨by simp [h, hsign], isDirective_of_getLast? ?_ hvisible.1 hvisible.2⟩
  obtain ⟨init, hinit⟩ := List.getLast?_eq_some_iff.1 hc
  rw [String.toList_append, hinit, ← List.append_assoc, List.getLast?_concat]

theorem isPlainLine_terminated {signature : String} (h : '\n' ∉ signature.toList) :
    IsPlainLine (terminated signature) := by
  unfold terminated
  split
  · rename_i hends
    exact ⟨h, isDirective_of_getLast? hends (by decide) (by decide)⟩
  · exact isPlainLine_append h (by decide) (by decide)

theorem isPlainLine_toSource {r : Reflection} (h : '\n' ∉ r.toSource.toList) :
    IsPlainLine r.toSource := by
  refine ⟨h, isDirective_of_getLast? (c := ')') ?_ (by decide) (by decide)⟩
  rw [Metadata.toList_toSource, List.getLast?_concat]

theorem isDirective_indented (depth : Nat) (text : String) :
    isDirective (indented depth text).toList = isDirective text.toList := by
  rw [indented, String.toList_append, String.toList_ofList]
  exact isDirective_append_of_isAsciiSpace (fun c hc => List.eq_of_mem_replicate hc ▸ rfl) _

theorem not_mem_indented {text : String} (h : '\n' ∉ text.toList) (depth : Nat) :
    '\n' ∉ (indented depth text).toList := by
  rw [indented, String.toList_append, String.toList_ofList, List.mem_append, not_or]
  exact ⟨by simp [List.mem_replicate], h⟩

theorem IsPlainLine.indented {text : String} (h : IsPlainLine text) (depth : Nat) :
    IsPlainLine (indented depth text) :=
  ⟨not_mem_indented h.unbroken depth, (isDirective_indented depth text).trans h.plain⟩

/-! ### What is printed around a declaration -/

theorem Text.not_mem_of_mem_lines {s line : String} (h : line ∈ lines s) : '\n' ∉ line.toList := by
  obtain ⟨cs, hcs, rfl⟩ := List.mem_map.1 h
  rw [String.toList_ofList]
  unfold endedLines at hcs
  rcases List.mem_append.1 hcs with hcs | hcs
  · obtain ⟨run, hrun, rfl⟩ := List.mem_map.1 hcs
    have hrun := not_mem_of_mem_splitOn (List.mem_of_mem_dropLast hrun)
    unfold withoutFinal
    split
    · exact fun hmem => hrun (List.mem_of_mem_dropLast hmem)
    · exact hrun
  · split at hcs
    · cases hcs
    · rw [List.mem_singleton.1 hcs, List.getLastD_eq_getLast?]
      cases hlast : (splitOn '\n' s.toList).getLast? with
      | none => exact List.not_mem_nil
      | some run => exact not_mem_of_mem_splitOn (List.mem_of_getLast? hlast)

theorem isPlainLine_of_mem_docLines {depth : Nat} {doc : Option DocBlock} :
    ∀ line ∈ docLines depth doc, IsPlainLine line := by
  cases doc with
  | none => simp [docLines]
  | some b =>
    intro line hline
    obtain ⟨text, htext, rfl⟩ := List.mem_map.1 hline
    refine IsPlainLine.indented ?_ depth
    split
    · exact ⟨by decide, by decide⟩
    · refine ⟨by simpa using not_mem_of_mem_lines htext, isDirective_of_toolText? ?_⟩
      rw [String.toList_append]
      rfl

theorem Param.isPlainLine_of_mem_headerLines {depth : Nat} {ps : List Param}
    (h : ∀ p ∈ ps, IsCodeLine p.signature) : ∀ line ∈ headerLines depth ps, IsPlainLine line := by
  induction ps with
  | nil => simp [headerLines]
  | cons p ps ih =>
    obtain ⟨hp, hps⟩ := List.forall_mem_cons.1 h
    rw [headerLines, List.forall_mem_append, List.forall_mem_cons]
    refine ⟨isPlainLine_of_mem_docLines, IsPlainLine.indented ?_ depth, ih hps⟩
    split
    · rw [String.append_empty]
      exact hp.isPlainLine
    · exact isPlainLine_append hp.unbroken (by decide) (by decide)

theorem FunctionShape.isPlainLine_of_mem_headerLines {depth : Nat} {name : String}
    {shape : FunctionShape} (hname : '\n' ∉ name.toList) (h : shape.Spelled) :
    ∀ line ∈ shape.headerLines depth name, IsPlainLine line := by
  unfold headerLines
  rw [List.forall_mem_append, List.forall_mem_cons, List.forall_mem_singleton]
  refine ⟨⟨IsPlainLine.indented ?_ depth, Param.isPlainLine_of_mem_headerLines h.params⟩,
    IsPlainLine.indented ?_ depth⟩
  · refine isPlainLine_append ?_ (by decide) (by decide)
    cases hlead : shape.lead with
    | none => simpa using hname
    | some lead => simpa using ⟨h.lead lead hlead, hname⟩
  · cases hqualifiers : shape.qualifiers with
    | none => exact ⟨by decide, by decide⟩
    | some qualifiers =>
      refine isPlainLine_append ?_ (by decide) (by decide)
      simpa using h.qualifiers qualifiers hqualifiers

namespace Declaration

theorem isPlainLine_of_mem_leadLines {depth : Nat} {own : Declared} (h : own.Spelled) :
    ∀ line ∈ leadLines depth own, IsPlainLine line := by
  unfold leadLines
  rw [List.forall_mem_append, List.forall_mem_append]
  refine ⟨⟨isPlainLine_of_mem_docLines, ?_⟩, ?_⟩
  · cases hr : own.reflection with
    | none => simp
    | some r =>
      exact List.forall_mem_singleton.2 ((isPlainLine_toSource (h.reflection r hr)).indented depth)
  · cases ht : own.template with
    | none => simp
    | some text =>
      exact List.forall_mem_singleton.2 ((h.template text ht).isPlainLine.indented depth)

theorem isPlainLine_of_mem_variantLines {depth : Nat} {d : Declaration} (h : d.toDeclared.Spelled) :
    ∀ line ∈ variantLines depth d, IsPlainLine line := by
  unfold variantLines
  rw [List.forall_mem_append, List.forall_mem_singleton]
  refine ⟨isPlainLine_of_mem_docLines, IsPlainLine.indented ?_ depth⟩
  refine isPlainLine_append ?_ (by decide) (by decide)
  cases hr : d.reflection with
  | none => simpa using h.signature
  | some r => simpa using ⟨h.signature, h.reflection r hr⟩

/-! ### Trees -/

mutual

/-- The declarations that are printed with a body in braces, and so with their signature on
a line of its own. -/
def braced : Declaration → List Declared
  | ⟨own, members⟩ =>
    match own.item with
    | .enumeration shape => if shape.hasBody then [own] else []
    | .record _ shape =>
      if shape.hasBody || !members.isEmpty then own :: bracedAll members else []
    | _ => []

def bracedAll : List Declaration → List Declared
  | [] => []
  | d :: ds => d.braced ++ bracedAll ds

end

theorem mem_bracedAll {own : Declared} {ds : List Declaration} :
    own ∈ bracedAll ds ↔ ∃ d ∈ ds, own ∈ d.braced := by
  induction ds with
  | nil => simp [bracedAll]
  | cons d ds ih => simp [bracedAll, ih]

/-- The line is plain or the signature of a synthetic declaration among `owns`. -/
def IsPrinted (owns : List Declared) (line : String) : Prop :=
  IsPlainLine line ∨ ∃ own ∈ owns, own.synthetic = true ∧ '\n' ∉ own.signature.toList ∧
    ∃ depth, line = indented depth own.signature

theorem IsPrinted.mono {owns owns' : List Declared} {line : String} (h : IsPrinted owns line)
    (hsubset : owns ⊆ owns') : IsPrinted owns' line :=
  h.imp_right fun ⟨own, hown, more⟩ => ⟨own, hsubset hown, more⟩

theorem isPrinted_signature {owns : List Declared} {own : Declared} (h : own.Spelled)
    (hown : own ∈ owns) (depth : Nat) : IsPrinted owns (indented depth own.signature) := by
  cases hsynthetic : own.synthetic with
  | false => exact .inl ((h.code hsynthetic).isPlainLine.indented depth)
  | true => exact .inr ⟨own, hown, hsynthetic, h.signature, depth, rfl⟩

theorem isPrinted_of_mem_bodied {owns : List Declared} {depth : Nat} {signature : String}
    {body : List String} (hsignature : IsPrinted owns (indented depth signature))
    (hbody : ∀ line ∈ body, IsPrinted owns line) :
    ∀ line ∈ bodied depth signature body, IsPrinted owns line := by
  have hbrace (text : String) (h : IsPlainLine text) : IsPrinted owns (indented depth text) :=
    .inl (h.indented depth)
  unfold bodied
  rw [List.forall_mem_append, List.forall_mem_cons, List.forall_mem_cons, List.forall_mem_singleton]
  exact ⟨⟨hsignature, hbrace _ ⟨by decide, by decide⟩, hbody⟩, hbrace _ ⟨by decide, by decide⟩⟩

theorem isPrinted_of_mem_memberLines {members : List Declaration}
    (each : ∀ m ∈ members, ∀ depth, ∀ line ∈ headerLines depth m, IsPrinted m.braced line)
    (depth : Nat) (current : Visibility) (isFirst : Bool) :
    ∀ line ∈ memberLines depth current isFirst members, IsPrinted (bracedAll members) line := by
  induction members generalizing current isFirst with
  | nil => simp [memberLines]
  | cons m ms ih =>
    obtain ⟨hm, hms⟩ := List.forall_mem_cons.1 each
    rw [memberLines, bracedAll, List.forall_mem_append, List.forall_mem_append]
    refine ⟨⟨?_, ?_⟩, ?_⟩
    · have hlabel : IsPlainLine (m.visibility.word ++ ":") :=
        isPlainLine_append (by cases m.visibility <;> decide) (by decide) (by decide)
      split
      · exact List.forall_mem_singleton.2 (.inl (hlabel.indented depth))
      · split
        · simp
        · exact List.forall_mem_singleton.2 (.inl ⟨by decide, by decide⟩)
    · exact fun line hline => (hm _ line hline).mono (List.subset_append_left ..)
    · exact fun line hline => (ih hms _ _ line hline).mono (List.subset_append_right ..)

/-- **What is printed of a tree** is plain, but for the signatures of what has braces. -/
theorem isPrinted_of_mem_headerLines {depth : Nat} {d : Declaration} (h : d.Every Declared.Spelled) :
    ∀ line ∈ headerLines depth d, IsPrinted d.braced line := by
  induction d using Declaration.induction generalizing depth with
  | step own members ih =>
    obtain ⟨hown, hmembers⟩ := every_iff.1 h
    have hplain (owns : List Declared) :
        ∀ line ∈ [indented depth (terminated own.signature)], IsPrinted owns line :=
      List.forall_mem_singleton.2 (.inl ((isPlainLine_terminated hown.signature).indented depth))
    rw [headerLines, List.forall_mem_append]
    refine ⟨fun line hline => .inl (isPlainLine_of_mem_leadLines hown line hline), ?_⟩
    unfold braced
    cases hitem : own.item with
    | enumeration shape =>
      dsimp only
      split
      · refine isPrinted_of_mem_bodied
          (isPrinted_signature hown (List.mem_singleton_self own) depth) fun line hline => ?_
        obtain ⟨m, hm, hline⟩ := List.mem_flatMap.1 hline
        exact .inl (isPlainLine_of_mem_variantLines (every_iff.1 (hmembers m hm)).1 line hline)
      · exact hplain _
    | record key shape =>
      dsimp only
      split
      · refine isPrinted_of_mem_bodied
          (isPrinted_signature hown (List.mem_cons_self ..) depth) fun line hline => ?_
        have hprinted := isPrinted_of_mem_memberLines
          (fun m hm _ => ih m hm (hmembers m hm)) _ _ _ line hline
        exact hprinted.mono (List.subset_cons_self ..)
      · exact hplain _
    | function shape =>
      dsimp only
      split
      · rename_i hlong
        rw [Bool.and_eq_true, Bool.not_eq_true'] at hlong
        obtain ⟨hname, hshape⟩ := hown.function hlong.1 shape hitem
        exact fun line hline =>
          .inl (FunctionShape.isPlainLine_of_mem_headerLines hname hshape line hline)
      · exact hplain _
    | property | variant => exact hplain _

theorem headerLines_isInfix_memberLines {m : Declaration} {members : List Declaration}
    (hm : m ∈ members) (depth : Nat) (current : Visibility) (isFirst : Bool) :
    headerLines (depth + 1) m <:+: memberLines depth current isFirst members := by
  induction members generalizing current isFirst with
  | nil => cases hm
  | cons n ms ih =>
    rw [memberLines]
    rcases List.mem_cons.1 hm with rfl | hm
    · exact List.infix_append ..
    · exact (ih hm _ _).trans (List.suffix_append ..).isInfix

/-- What has braces has its signature on a line of its own. -/
theorem exists_mem_headerLines {d : Declaration} {own : Declared} (h : own ∈ d.braced) (depth : Nat) :
    ∃ depth', indented depth' own.signature ∈ headerLines depth d := by
  induction d using Declaration.induction generalizing depth with
  | step own' members ih =>
    have hhead (lead body : List String) :
        indented depth own'.signature ∈ lead ++ bodied depth own'.signature body := by
      simp [bodied]
    rw [headerLines]
    unfold braced at h
    cases hitem : own'.item with
    | enumeration shape =>
      simp only [hitem] at h ⊢
      split at h
      · rename_i hbody
        rw [List.mem_singleton.1 h, if_pos hbody]
        exact ⟨depth, hhead _ _⟩
      · cases h
    | record key shape =>
      simp only [hitem] at h ⊢
      split at h
      · rename_i hbody
        rw [if_pos hbody]
        rcases List.mem_cons.1 h with rfl | h
        · exact ⟨depth, hhead _ _⟩
        · obtain ⟨m, hm, h⟩ := mem_bracedAll.1 h
          obtain ⟨depth', hline⟩ := ih m hm h (depth + 1)
          have hmember := (headerLines_isInfix_memberLines hm depth key.visibility true).subset hline
          exact ⟨depth', by simp [bodied, hmember]⟩
      · cases h
    | function | property | variant =>
      simp only [hitem] at h
      cases h

theorem spacedLines_cons_cons (d e : Declaration) (ds : List Declaration) :
    spacedLines (d :: e :: ds) = headerLines 0 d ++ "" :: spacedLines (e :: ds) := rfl

theorem headerLines_subset_spacedLines {d : Declaration} {ds : List Declaration} (hd : d ∈ ds) :
    headerLines 0 d ⊆ spacedLines ds := by
  induction ds with
  | nil => cases hd
  | cons e ds ih =>
    cases ds with
    | nil =>
      rw [List.mem_singleton.1 hd]
      exact List.Subset.refl _
    | cons e' ds =>
      rw [spacedLines_cons_cons]
      rcases List.mem_cons.1 hd with rfl | hd
      · exact List.subset_append_left ..
      · exact fun line hline => List.mem_append_right _ (List.mem_cons_of_mem _ (ih hd hline))

theorem isPrinted_of_mem_spacedLines {ds : List Declaration} (h : ∀ d ∈ ds, d.Every Declared.Spelled) :
    ∀ line ∈ spacedLines ds, IsPrinted (bracedAll ds) line := by
  induction ds with
  | nil => simp [spacedLines]
  | cons d ds ih =>
    obtain ⟨hd, hds⟩ := List.forall_mem_cons.1 h
    have hfirst : ∀ line ∈ headerLines 0 d, IsPrinted (bracedAll (d :: ds)) line :=
      fun line hline => (isPrinted_of_mem_headerLines hd line hline).mono (List.subset_append_left ..)
    cases ds with
    | nil => exact hfirst
    | cons e ds =>
      rw [spacedLines_cons_cons, List.forall_mem_append, List.forall_mem_cons]
      refine ⟨hfirst, .inl ⟨by decide, by decide⟩, fun line hline => ?_⟩
      exact (ih hds line hline).mono (List.subset_append_right ..)

end Declaration

namespace Document

/-- **A printed header holds no directive**, and so no marker and nothing ignored, if and only
if no signature of a synthetic declaration with braces has the form of one. -/
theorem toHeader_plain_iff {file source : String} {d : Document}
    (h : (ofSource file source).result = .ok d) :
    (∃ lines, SourceLine.classify d.toHeader = .ok lines ∧ ∀ l ∈ lines, l.IsPlain) ↔
      ∀ own ∈ Declaration.bracedAll d.declarations, own.synthetic = true →
        isDirective own.signature.toList = false := by
  have hprinted := Declaration.isPrinted_of_mem_spacedLines (spelled_of_ofSource h)
  have hunbroken : ∀ line ∈ Declaration.spacedLines d.declarations, '\n' ∉ line.toList := by
    intro line hline
    rcases hprinted line hline with hplain | ⟨own, -, -, hsignature, depth, rfl⟩
    · exact hplain.unbroken
    · exact not_mem_indented hsignature depth
  refine (SourceLine.classify_plain_iff hunbroken).trans ⟨?_, ?_⟩
  · intro hlines own hown _
    obtain ⟨m, hm, hown⟩ := Declaration.mem_bracedAll.1 hown
    obtain ⟨depth, hline⟩ := Declaration.exists_mem_headerLines hown 0
    rw [← isDirective_indented depth]
    exact hlines _ (Declaration.headerLines_subset_spacedLines hm hline)
  · intro hsignatures line hline
    rcases hprinted line hline with hplain | ⟨own, hown, hsynthetic, -, depth, rfl⟩
    · exact hplain.plain
    · rw [isDirective_indented]
      exact hsignatures own hown hsynthetic

/-! ### A proxy for a member of a struct -/

/-- A struct, and the markers of a member that is written for it. -/
def memberLines (proxy : List SourceLine) : List SourceLine :=
  [⟨1, 0, "struct S \x7b", .code, false⟩,
    ⟨2, 11, "//// [inject: p]", .marker (.inject "p"), false⟩, ⟨3, 28, "\x7d;", .code, false⟩,
    ⟨4, 31, "//// [proxy: p]", .marker (.opens .proxy "p"), false⟩] ++ proxy

/-- The struct, and where the member belongs. -/
def memberSites : Scope.Contents :=
  ⟨[⟨⟨"S", "S", 1, .everyone, none, none, "struct S", none, .record .structKey ⟨none, [], true⟩,
    false⟩, []⟩], [⟨"p", "S", 2⟩]⟩

theorem result_ofSource_of_memberLines {source : String} {proxy : List SourceLine}
    (captured : List String)
    (hlines : SourceLine.classify (Text.withoutMark source) = .ok (memberLines proxy))
    (hregions : Regions.extract (memberLines proxy) = .ok ⟨[⟨.proxy, "p", 4, captured⟩]⟩)
    (hblocks : CommentBlock.group (memberLines proxy) = [])
    (hpieces : Piece.ofLines (memberLines proxy) [] =
      [.token ⟨.ident, "struct", 1⟩, .token ⟨.ident, "S", 1⟩, .token ⟨.lbrace, "\x7b", 1⟩,
        .inject "p" 2, .token ⟨.rbrace, "\x7d", 3⟩, .token ⟨.semi, ";", 3⟩]) :
    (ofSource "t.h" source).result =
      (build "t.h" memberSites ⟨[⟨.proxy, "p", 4, captured⟩]⟩ (proxyDoc? [])).result := by
  have hinside : Scope.Reads (.ofRecord "S" "S" .structKey) (Scope.ofRecord "S" "S" .structKey).start
      [.inject "p" 2, .token ⟨.rbrace, "\x7d", 3⟩, .token ⟨.semi, ";", 3⟩]
      ⟨[], [⟨"p", "S", 2⟩]⟩ [.token ⟨.semi, ";", 3⟩] :=
    .continues rfl (.closes rfl rfl)
  have hfound : (Scope.Contents.ofLines (memberLines proxy) []).result = .ok memberSites := by
    refine Scope.Contents.result_ofLines_eq_ok.2 ⟨[], ?_⟩
    rw [hpieces]
    exact .opens rfl hinside (.continues rfl (.ends rfl))
  exact result_ofSource_of_stages _ memberSites hlines hregions hblocks hfound

/-- The member is an enum. -/
def enumProxySource : String :=
  "struct S \x7b\n//// [inject: p]\n\x7d;\n//// [proxy: p]\n" ++
    "//// enum T\n//// \x7b\x7d;\n//// [/proxy]"

def enumProxy : List SourceLine :=
  [⟨5, 47, "//// enum T", .tool "enum T", false⟩,
    ⟨6, 59, "//// \x7b\x7d;", .tool "\x7b\x7d;", false⟩,
    ⟨7, 68, "//// [/proxy]", .marker (.closes .proxy), false⟩]

theorem classify_enumProxy :
    SourceLine.classify (Text.withoutMark enumProxySource) = .ok (memberLines enumProxy) := by
  cbv

/-- The same with a marker on the first line. -/
def markerProxySource : String :=
  "struct S \x7b\n//// [inject: p]\n\x7d;\n//// [proxy: p]\n" ++
    "//// //// [ignore]\n//// enum T \x7b\x7d;\n//// [/proxy]"

def markerProxy : List SourceLine :=
  [⟨5, 47, "//// //// [ignore]", .tool "//// [ignore]", false⟩,
    ⟨6, 66, "//// enum T \x7b\x7d;", .tool "enum T \x7b\x7d;", false⟩,
    ⟨7, 82, "//// [/proxy]", .marker (.closes .proxy), false⟩]

theorem classify_markerProxy :
    SourceLine.classify (Text.withoutMark markerProxySource) = .ok (memberLines markerProxy) := by
  cbv

theorem toHeader_plain_enumProxy :
    ∃ d, (ofSource "t.h" enumProxySource).result = .ok d ∧
      ∃ lines, SourceLine.classify d.toHeader = .ok lines ∧ ∀ l ∈ lines, l.IsPlain := by
  have hresult : ∃ d, (ofSource "t.h" enumProxySource).result = .ok d ∧
      (Declaration.bracedAll d.declarations).map (·.signature) = ["struct S", "enum T"] := by
    rw [result_ofSource_of_memberLines ["enum T", "\x7b\x7d;"] classify_enumProxy (by cbv)
      (by cbv) (by cbv)]
    refine Except.map_eq_ok.1 ?_
    cbv
  obtain ⟨d, hd, hbraced⟩ := hresult
  refine ⟨d, hd, (toHeader_plain_iff hd).2 fun own hown _ => ?_⟩
  have hmem : own.signature ∈ ["struct S", "enum T"] := hbraced ▸ List.mem_map_of_mem hown
  rcases List.mem_cons.1 hmem with heq | hmem
  · rw [heq]
    decide
  · rw [List.mem_singleton.1 hmem]
    decide

/-- The marker that starts the proxy is printed, and opens an ignored block. -/
theorem exists_not_plain_toHeader :
    ¬ ∀ (file source : String) (d : Document), (ofSource file source).result = .ok d →
      ∃ lines, SourceLine.classify d.toHeader = .ok lines ∧ ∀ l ∈ lines, l.IsPlain := by
  have hresult : ∃ d, (ofSource "t.h" markerProxySource).result = .ok d ∧
      d.toHeader = "struct S\n\x7b\n\t//// [ignore]\n\t\x7b\n\t\x7d;\n\x7d;\n" := by
    rw [result_ofSource_of_memberLines ["//// [ignore]", "enum T \x7b\x7d;"] classify_markerProxy
      (by cbv) (by cbv) (by cbv)]
    refine Except.map_eq_ok.1 ?_
    cbv
  intro hall
  obtain ⟨d, hd, hheader⟩ := hresult
  obtain ⟨lines, hlines, -⟩ := hall _ _ d hd
  rw [hheader] at hlines
  have hfault : SourceLine.classify
      "struct S\n\x7b\n\t//// [ignore]\n\t\x7b\n\t\x7d;\n\x7d;\n" =
      .error ⟨3, .unterminated .ignored⟩ := by
    cbv
  cases hfault.symm.trans hlines

end Document

end AnnotatedHeader
