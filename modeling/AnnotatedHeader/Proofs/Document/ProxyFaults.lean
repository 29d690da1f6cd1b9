import AnnotatedHeader.Proofs.Numbering.Fragments
import AnnotatedHeader.Proofs.Region.Sources

/-! The line of a fault in a proxy's code.

A proxy's code is read as if its lines stood in a row behind the opening marker. But markers,
ignored lines and blank lines in front stand there too and are no part of the text, so a macro in
it stands further down: by as many lines as are left out between the marker and the macro
(`Document.StopsAtProxy.line_add`). -/
namespace AnnotatedHeader

theorem SourceLine.line_of_append {first : Nat} {lines before after : List SourceLine}
    {l : SourceLine} (hlines : lines.map (·.line) = List.range' first lines.length)
    (h : lines = before ++ l :: after) : l.line = first + before.length := by
  have hat := congrArg (·[before.length]?) hlines
  subst h
  simpa using hat

namespace Document

/-- Building the document of a header fails with `f`, which is what reading the code of a proxy
answers: everything in front of that has succeeded. -/
structure StopsAtProxy (source : String) (lines : List SourceLine) (site : InjectSite)
    (proxy : Region) (f : Fault) : Prop where
  classified : SourceLine.classify (Text.withoutMark source) = .ok lines
  reached : ∃ regions found done later ds, Regions.extract lines = .ok regions ∧
    (Scope.Contents.ofLines lines (CommentBlock.group lines)).result = .ok found ∧
    found.injects = done ++ site :: later ∧
    (done.foldlM (Declaration.inject regions (proxyDoc? (CommentBlock.group lines)))
      found.declarations).result = .ok ds ∧
    regions.get? .proxy site.proxy = some proxy
  signed : proxy.firstLine?.isSome
  fails : (Declaration.ofFragment proxy.text (proxy.line + 1) site.owner).result = .error f

namespace StopsAtProxy
variable {source : String} {lines : List SourceLine} {site : InjectSite} {proxy : Region} {f : Fault}

theorem result_ofSource (h : StopsAtProxy source lines site proxy f) (file : String) :
    (ofSource file source).result = .error f := by
  obtain ⟨hclassified, ⟨regions, found, done, later, ds, hregions, hfound, hsites, hdone, hget⟩,
    hsigned, hfails⟩ := h
  obtain ⟨signature, hsignature⟩ := Option.isSome_iff_exists.1 hsigned
  have hrest (docOf : String → Option DocBlock) :
      ((site :: later).foldlM (Declaration.inject regions docOf) ds).result = .error f := by
    rw [List.foldlM_cons, Outcome.result_bind]
    unfold Declaration.inject Declaration.ofProxy
    simp only [hget, hsignature, Outcome.result_bind, hfails]
    rfl
  rw [result_ofSource_of_stages regions found hclassified hregions rfl hfound]
  unfold build
  simp only [Outcome.result_bind, hsites, List.foldlM_append, hdone]
  show (List.foldlM _ ds (site :: later) : Outcome _).result >>= _ = _
  rw [hrest]
  rfl

/-- **The fault of a proxy's code stands too far up**, by as many lines as the proxy's text leaves
out between its marker and the line `l` on which the macro is written. -/
theorem line_add (h : StopsAtProxy source lines site proxy f) (file : String) :
    (ofSource file source).result = .error f ∧
      ∃ inside before l after name, Regions.Holds lines proxy inside ∧
        inside = before ++ l :: after ∧
        Declaration.ofFragmentOn proxy.text ((Regions.sources .proxy inside).map (·.line))
          site.owner = .error ⟨l.line, f.cause⟩ ∧
        f.cause.macroName? = some name ∧ name.toList <:+: l.text.toList ∧
        f.line + (before.filter (· ∉ Regions.sources .proxy inside)).length = l.line := by
  refine ⟨h.result_ofSource file, ?_⟩
  obtain ⟨hclassified, ⟨regions, found, done, later, ds, hregions, -, -, -, hget⟩, -, hfails⟩ := h
  obtain ⟨hmem, hkind, -⟩ := Regions.get?_eq_some hget
  obtain ⟨hnumbers, -⟩ := SourceLine.map_line_of_classifyFrom hclassified
  have hunbroken := SourceLine.unbroken_of_classifyFrom
    (fun raw => Text.not_mem_of_mem_fileLines) hclassified
  have hproxy := (Regions.within_of_extract hnumbers hunbroken hregions proxy hmem).unbroken
  obtain ⟨k, text, name, htext, hline, hname, hinfix, hon⟩ :=
    Declaration.exists_line_of_ofFragment hproxy hfails
  obtain ⟨inside, holds⟩ := Regions.exists_holds hregions hget
  have htaken := holds.text
  obtain ⟨above, b, e, rest, hsplit, -, hb, -⟩ := holds.between
  rw [hkind] at htaken
  obtain ⟨n, htaken⟩ := htaken
  rw [htaken, List.getElem?_map] at htext
  obtain ⟨l, hl, rfl⟩ := Option.map_eq_some_iff.1 htext
  have hsub := Regions.sources_sublist .proxy inside
  have hinside : inside.Sublist lines := by
    rw [hsplit]
    exact ((List.sublist_append_left ..).cons _).trans (List.sublist_append_right ..)
  have hincreasing : (lines.map (·.line)).Pairwise (· < ·) := hnumbers ▸ List.pairwise_lt_range'
  have hnodup : inside.Nodup :=
    (List.Nodup.of_map SourceLine.line (List.nodup_iff_pairwise_ne.2
      (hincreasing.imp Nat.ne_of_lt))).sublist hinside
  obtain ⟨before, after, rfl, hcount⟩ := exists_append_of_sublist hsub hnodup hl
  refine ⟨_, before, l, after, name, holds, rfl, ?_, hname, ?_, ?_⟩
  · refine hon _ (hincreasing.sublist ((hsub.trans hinside).map _)) ?_ l.line ?_
    · rw [htaken, List.length_map, List.length_map]
    · rw [List.getElem?_map, hl]
      rfl
  · have hlines : l ∈ lines := hinside.subset (hsub.subset (List.mem_of_getElem? hl))
    rw [String.toList_ofList] at hinfix
    exact hinfix.trans ((Region.shifted_isInfix n _).trans
      (SourceLine.content_isInfix (SourceLine.read_of_classifyFrom hclassified l hlines) .proxy))
  · have hbline := SourceLine.line_of_append hnumbers hsplit
    have hlsplit : lines = (above ++ b :: before) ++ l :: (after ++ e :: rest) := by
      rw [hsplit]
      simp
    have hlline := SourceLine.line_of_append hnumbers hlsplit
    rw [List.length_append, List.length_cons] at hlline
    omega

end StopsAtProxy

/-! ### A blank line in front of a macro -/

def blankInProxySource : String :=
  "//// [proxy: p]\n\n//// UPROPERTY(X = )\n//// int A;\n//// [/proxy]\n" ++
    "struct S \x7b\n//// [inject: p]\n\x7d;"

def blankInProxyLines : List SourceLine :=
  [⟨1, 0, "//// [proxy: p]", .marker (.opens .proxy "p"), false⟩, ⟨2, 16, "", .code, false⟩,
    ⟨3, 17, "//// UPROPERTY(X = )", .tool "UPROPERTY(X = )", false⟩,
    ⟨4, 38, "//// int A;", .tool "int A;", false⟩,
    ⟨5, 50, "//// [/proxy]", .marker (.closes .proxy), false⟩,
    ⟨6, 64, "struct S \x7b", .code, false⟩,
    ⟨7, 75, "//// [inject: p]", .marker (.inject "p"), false⟩, ⟨8, 92, "\x7d;", .code, false⟩]

def blankInProxy : Region := ⟨.proxy, "p", 1, ["UPROPERTY(X = )", "int A;"]⟩

def blankInProxyFault : Fault := ⟨2, .malformedMetadata "UPROPERTY" (.missingValue "X")⟩

theorem stopsAtProxy_blank :
    StopsAtProxy blankInProxySource blankInProxyLines ⟨"p", "S", 7⟩ blankInProxy
      blankInProxyFault := by
  have hblocks : CommentBlock.group blankInProxyLines = [] := by
    cbv
  have hpieces : Piece.ofLines blankInProxyLines [] =
      [.token ⟨.ident, "struct", 6⟩, .token ⟨.ident, "S", 6⟩, .token ⟨.lbrace, "\x7b", 6⟩,
        .inject "p" 7, .token ⟨.rbrace, "\x7d", 8⟩, .token ⟨.semi, ";", 8⟩] := by
    cbv
  have hinside : Scope.Reads (.ofRecord "S" "S" .structKey) (Scope.ofRecord "S" "S" .structKey).start
      [.inject "p" 7, .token ⟨.rbrace, "\x7d", 8⟩, .token ⟨.semi, ";", 8⟩]
      ⟨[], [⟨"p", "S", 7⟩]⟩ [.token ⟨.semi, ";", 8⟩] :=
    .continues rfl (.closes rfl rfl)
  let found : Scope.Contents :=
    ⟨[⟨⟨"S", "S", 6, .everyone, none, none, "struct S", none,
      .record .structKey ⟨none, [], true⟩, false⟩, []⟩], [⟨"p", "S", 7⟩]⟩
  refine ⟨by cbv, ⟨⟨[blankInProxy]⟩, found, [], [], _, by cbv,
    Scope.Contents.result_ofLines_eq_ok.2 ⟨[], ?_⟩, rfl, rfl, rfl⟩, rfl, by cbv⟩
  rw [hblocks, hpieces]
  exact .opens rfl hinside (.continues rfl (.ends rfl))

/-- The blank line is left out, and the fault is said to be on it. -/
theorem StopsAtProxy.line_add_blank :
    (ofSource "t.h" blankInProxySource).result = .error blankInProxyFault ∧
      ∃ inside before l after name, Regions.Holds blankInProxyLines blankInProxy inside ∧
        inside = before ++ l :: after ∧
        Declaration.ofFragmentOn blankInProxy.text
          ((Regions.sources .proxy inside).map (·.line)) "S" =
          .error ⟨l.line, blankInProxyFault.cause⟩ ∧
        blankInProxyFault.cause.macroName? = some name ∧ name.toList <:+: l.text.toList ∧
        2 + (before.filter (· ∉ Regions.sources .proxy inside)).length = l.line :=
  stopsAtProxy_blank.line_add "t.h"

/-- No macro is written on the line of that fault. -/
theorem exists_stopsAtProxy_elsewhere :
    ¬ ∀ (source : String) (lines : List SourceLine) (site : InjectSite) (proxy : Region)
      (f : Fault) (name : String), StopsAtProxy source lines site proxy f →
      f.cause.macroName? = some name →
      ∃ l ∈ lines, l.line = f.line ∧ name.toList <:+: l.text.toList := by
  intro hall
  obtain ⟨l, hl, hline, hinfix⟩ := hall _ _ _ _ _ _ stopsAtProxy_blank rfl
  have hblank : ∀ l ∈ blankInProxyLines, l.line = 2 → l.text.toList = [] := by
    decide
  rw [hblank l hl hline, List.infix_nil] at hinfix
  cases hinfix

end Document

end AnnotatedHeader
