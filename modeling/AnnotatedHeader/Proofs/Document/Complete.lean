import AnnotatedHeader.Proofs.Declaration.MapDocs
import AnnotatedHeader.Proofs.DocBlock.Parts
import AnnotatedHeader.Proofs.DocBlock.Raw
import AnnotatedHeader.Proofs.Document.Injection
import AnnotatedHeader.Proofs.Document.OfLines
import AnnotatedHeader.Proofs.Region.Distinct
import AnnotatedHeader.Proofs.Resolution
import Mathlib

/-! A document leaves nothing open.

Blocks are raw when they are read. Resolving gives each of their references a declared
path (`linked_of_resolveDoc`) and filling gives each example its snippet's text
(`shown_of_fill`). `complete_of_ofSource` follows every block of a document back
through both, to the block of a declaration, of a parameter or of a proxy. -/
namespace AnnotatedHeader

/-- The block's references mean declarations of `d`, and its examples show the texts of
snippets of `d`. -/
structure DocBlock.CompleteIn (d : Document) (b : DocBlock) : Prop where
  references : ∀ r ∈ b.references, ∃ m ∈ d.walk, r.target = some m.path
  examples : ∀ x ∈ b.examples, ∃ code, x.code = some code ∧
    ∀ text, (x.snippet, text) ∈ d.snippets ↔ text = code

/-! ### Resolving -/

/-- Every reference of the block means what the table contains; no example has been
filled. -/
structure DocBlock.Linked (table : SymbolTable) (b : DocBlock) : Prop where
  references : ∀ r ∈ b.references, ∃ target, r.target = some target ∧ table.contains target = true
  examples : ∀ x ∈ b.examples, x.code = none

theorem SymbolTable.target_of_resolveReference {table : SymbolTable} {context : String}
    {r r' : CrossReference} (hr : r.target = none)
    (h : (table.resolveReference context r).result = .ok r') :
    ∃ target, r'.target = some target ∧ table.contains target = true := by
  unfold resolveReference at h
  split at h
  · rename_i hsome
    rw [hr] at hsome
    cases hsome
  split at h
  · rename_i target htarget
    obtain ⟨-, -, h⟩ := Outcome.result_bind_eq_ok.1 h
    cases h
    exact ⟨target, rfl, contains_of_resolve htarget⟩
  · cases h
  · cases h

theorem SymbolTable.linked_of_resolveDoc {table : SymbolTable} {context : String}
    {b b' : DocBlock} (hb : b.Raw) (h : (table.resolveDoc b context).result = .ok b') :
    b'.Linked table := by
  obtain ⟨references, hreferences, h⟩ := Outcome.result_bind_eq_ok.1 h
  cases h
  refine ⟨?_, hb.examples⟩
  intro r' hr'
  obtain ⟨r, hr, hresolve⟩ := exists_left_of_forall₂ (Outcome.result_mapM_eq_ok.1 hreferences) hr'
  exact target_of_resolveReference (hb.references r hr) hresolve

/-! ### Filling -/

theorem DocBlock.shown_of_segmentFill {regions : Regions} {referrer : String} {s : Segment}
    {x : Example} (hs : ∀ y, s = .shown y → y.code = none)
    (h : (s.fill regions referrer).result = .ok (.shown x)) :
    ∃ r, regions.get? .snippet x.snippet = some r ∧ x.code = some r.text := by
  cases s with
  | markdown text => cases h
  | shown y =>
    unfold Segment.fill at h
    dsimp only at h
    split at h
    · rename_i hsome
      rw [hs y rfl] at hsome
      cases hsome
    · split at h
      · rename_i r hr
        cases h
        exact ⟨r, hr, rfl⟩
      · cases h

/-- Filling leaves the references and gives every example its snippet's text. -/
theorem DocBlock.shown_of_fill {regions : Regions} {context : String} {b b' : DocBlock}
    (hb : ∀ x ∈ b.examples, x.code = none) (h : (b.fill regions context).result = .ok b') :
    b'.references = b.references ∧
      ∀ x ∈ b'.examples, ∃ r, regions.get? .snippet x.snippet = some r ∧ x.code = some r.text := by
  obtain ⟨segments, hsegments, h⟩ := Outcome.result_bind_eq_ok.1 h
  cases h
  refine ⟨rfl, ?_⟩
  intro x hx
  obtain ⟨s, hs, hfill⟩ :=
    exists_left_of_forall₂ (Outcome.result_mapM_eq_ok.1 hsegments) (mem_examples.1 hx)
  refine shown_of_segmentFill ?_ hfill
  rintro y rfl
  exact hb y (mem_examples.2 hs)

/-! ### Documents -/

namespace Document

theorem docsIn_of_proxyDoc? {D : DocBlock → Prop} {blocks : List CommentBlock} {proxy : String}
    (hblocks : ∀ c ∈ blocks, D c.toDoc) : ∀ b ∈ proxyDoc? blocks proxy, D b := by
  intro b hb
  obtain ⟨c, hc, rfl⟩ := Option.map_eq_some_iff.1 hb
  exact hblocks c (List.mem_reverse.1 (List.mem_of_find?_eq_some hc))

/-- An injected member has its proxy's doc block, and nothing in it has any. -/
theorem docsIn_of_ofProxy {D : DocBlock → Prop} {proxy : Region} {doc : Option DocBlock}
    {site : InjectSite} {member : Declaration} (hdoc : ∀ b ∈ doc, D b)
    (h : (Declaration.ofProxy proxy doc site).result = .ok member) :
    member.Every (Declared.DocsIn D) := by
  obtain ⟨first, others, signature, hfragment, rfl⟩ := Declaration.result_ofProxy_eq_ok h
  have hfirst := Declaration.docsIn_of_ofFragment D hfragment first (List.mem_cons_self ..)
  obtain ⟨hown, hmembers⟩ := Declaration.every_iff.1 hfirst
  exact Declaration.every_iff.2
    ⟨Declared.docsIn_iff.2 ⟨hdoc, (Declared.docsIn_iff.1 hown).2⟩, hmembers⟩

theorem docsIn_of_injects {D : DocBlock → Prop} {regions : Regions}
    {docOf : String → Option DocBlock} {ds ds' : List Declaration} {sites : List InjectSite}
    (hdocs : ∀ proxy, ∀ b ∈ docOf proxy, D b) (hds : ∀ d ∈ ds, d.Every (Declared.DocsIn D))
    (h : (sites.foldlM (Declaration.inject regions docOf) ds).result = .ok ds') :
    ∀ d ∈ ds', d.Every (Declared.DocsIn D) :=
  Declaration.every_of_injects (fun _ hmade => docsIn_of_ofProxy (hdocs _) hmade) hds h

theorem complete_of_build {file : String} {found : Scope.Contents} {regions : Regions}
    {docOf : String → Option DocBlock} {d : Document} (hregions : regions.Distinct)
    (hfound : ∀ m ∈ found.declarations, m.Every (Declared.DocsIn DocBlock.Raw))
    (hdocs : ∀ proxy, ∀ b ∈ docOf proxy, b.Raw)
    (h : (build file found regions docOf).result = .ok d) :
    ∀ m ∈ d.walk, ∀ e ∈ m.toDeclared.docs, e.1.CompleteIn d := by
  obtain ⟨injected, resolved, hinjected, hresolved, hfilled, hsnippets⟩ := result_build_eq_ok h
  have hraw := Declaration.forall_mem_walkAll.2 (docsIn_of_injects hdocs hfound hinjected)
  have hpaths : (Declaration.walkAll injected).map (·.path) = d.walk.map (·.path) :=
    (Declaration.paths_of_mapDocsAll hresolved).trans (Declaration.paths_of_mapDocsAll hfilled)
  intro m hm e he
  obtain ⟨m₁, hm₁, e₁, he₁, -, hfill⟩ := Declaration.exists_doc_of_mapDocsAll hfilled hm he
  obtain ⟨m₀, hm₀, e₀, he₀, -, hresolve⟩ := Declaration.exists_doc_of_mapDocsAll hresolved hm₁ he₁
  have hlinked := SymbolTable.linked_of_resolveDoc (hraw m₀ hm₀ e₀ he₀) hresolve
  obtain ⟨hreferences, hshown⟩ := DocBlock.shown_of_fill hlinked.examples hfill
  refine ⟨?_, ?_⟩
  · rw [hreferences]
    intro r hr
    obtain ⟨target, htarget, hcontains⟩ := hlinked.references r hr
    rw [SymbolTable.contains_ofTrees, hpaths] at hcontains
    obtain ⟨n, hn, rfl⟩ := List.mem_map.1 hcontains
    exact ⟨n, hn, htarget⟩
  · intro x hx
    obtain ⟨r, hr, hcode⟩ := hshown x hx
    refine ⟨r.text, hcode, ?_⟩
    rw [hsnippets]
    exact Regions.mem_ofKind_iff hregions hr

/-- **In a document every reference means one of its declarations and every example
shows its snippet.** No block is left out: not of a parameter, not of a member, not of
an injected one. -/
theorem complete_of_ofSource {file source : String} {d : Document}
    (h : (ofSource file source).result = .ok d) :
    ∀ m ∈ d.walk, ∀ e ∈ m.toDeclared.docs, e.1.CompleteIn d := by
  obtain ⟨lines, regions, found, -, hregions, hfound, h⟩ := result_ofSource_eq_ok.1 h
  exact complete_of_build (Regions.distinct_of_extract hregions)
    (Scope.Contents.raw_of_ofLines hfound)
    (fun _ => docsIn_of_proxyDoc? fun _ _ => DocBlock.raw_ofLines _) h

/-- A class that refers to itself. -/
theorem complete_of_ofSource_class :
    ∃ d, (ofSource "t.h" "/// [\x60class: C\x60]()\nclass C;").result = .ok d ∧
      d.walk.flatMap (·.toDeclared.docs) =
        [(⟨1, [.markdown "[\x60class: C\x60]()"], [⟨.classType, "C", 1, some "C"⟩]⟩, "C")] ∧
      ∀ m ∈ d.walk, ∀ e ∈ m.toDeclared.docs, e.1.CompleteIn d := by
  have hdoc : DocBlock.ofLines [(1, "[\x60class: C\x60]()")] =
      ⟨1, [.markdown "[\x60class: C\x60]()"], [⟨.classType, "C", 1, none⟩]⟩ :=
    DocBlock.ofLines_link "\x60class: C\x60]()".toList ⟨"class", "C"⟩ rfl
      (by cbv) (by cbv) (by cbv) (by cbv)
  have hpieces : Piece.ofLines
        [⟨1, 0, "/// [\x60class: C\x60]()", .doc "[\x60class: C\x60]()", false⟩,
          ⟨2, 19, "class C;", .code, false⟩]
        [⟨[(1, "[\x60class: C\x60]()")], none⟩] =
      [.doc ⟨1, [.markdown "[\x60class: C\x60]()"], [⟨.classType, "C", 1, none⟩]⟩,
        .token ⟨.ident, "class", 2⟩, .token ⟨.ident, "C", 2⟩, .token ⟨.semi, ";", 2⟩] := by
    rw [Piece.ofLines_of_block _ hdoc]
    cbv
  have hfound : (Scope.Contents.ofLines
        [⟨1, 0, "/// [\x60class: C\x60]()", .doc "[\x60class: C\x60]()", false⟩,
          ⟨2, 19, "class C;", .code, false⟩]
        [⟨[(1, "[\x60class: C\x60]()")], none⟩]).result =
      .ok ⟨[⟨⟨"C", "C", 2, .everyone, none, none, "class C",
        some ⟨1, [.markdown "[\x60class: C\x60]()"], [⟨.classType, "C", 1, none⟩]⟩,
        .record .classKey ⟨none, [], false⟩, false⟩, []⟩], []⟩ := by
    refine Scope.Contents.result_ofLines_eq_ok.2 ⟨[], ?_⟩
    rw [hpieces]
    exact .continues rfl (.continues rfl (.ends rfl))
  have hresult : (ofSource "t.h" "/// [\x60class: C\x60]()\nclass C;").result =
      .ok ⟨"t.h", [⟨⟨"C", "C", 2, .everyone, none, none, "class C",
        some ⟨1, [.markdown "[\x60class: C\x60]()"], [⟨.classType, "C", 1, some "C"⟩]⟩,
        .record .classKey ⟨none, [], false⟩, false⟩, []⟩], []⟩ := by
    rw [result_ofSource_of_stages {} _ (by cbv) (by cbv) (by cbv) hfound]
    cbv
  exact ⟨_, hresult, rfl, complete_of_ofSource hresult⟩

end Document

end AnnotatedHeader
