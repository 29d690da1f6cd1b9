import AnnotatedHeader.Proofs.Document.Comments
import AnnotatedHeader.Proofs.Document.Unplaced
import Mathlib

/-! What a document says.

Declarations say what they are called and, in their doc blocks, to what they refer. Building
a document from what was read leaves that as it is (`Document.said_of_resolve`,
`Document.said_of_fill`) and gives each reference the target that the document's own table has
for it. So what the references mean depends on nothing else (`Document.targets_eq_of_said`). -/
namespace AnnotatedHeader


/-! ### Declarations -/

/-- What a declaration is called, and the kinds and paths that its blocks refer to. -/
structure Saying where
  name : String
  path : String
  links : List (Kind × String)

def Declared.said (own : Declared) : Saying := ⟨own.name, own.path, own.blocks.flatMap DocBlock.links⟩

theorem Declared.mem_docs_of_mem_blocks {own : Declared} {b : DocBlock} (hb : b ∈ own.blocks) :
    (b, own.path) ∈ own.docs := by
  obtain ⟨e, he, rfl⟩ := List.mem_map.1 hb
  have hpath : e.2 = own.path := by
    obtain ⟨b, -, rfl⟩ := List.mem_map.1 he
    rfl
  rw [← hpath]
  exact he

/-- Resolving blocks and filling them leaves what is said. -/
theorem Declared.Mapped.said {f : DocBlock → String → Outcome DocBlock} {d d' : Declared}
    (hf : ∀ b context b', (f b context).result = .ok b' → b'.links = b.links) (h : d.Mapped f d') :
    d.said = d'.said := by
  have hlinks : d.blocks.flatMap DocBlock.links = d'.blocks.flatMap DocBlock.links := by
    have hdocs := h.docs
    unfold Declared.blocks
    generalize d.docs = es, d'.docs = es' at hdocs
    induction hdocs with
    | nil => rfl
    | cons he _ ih =>
      rw [List.map_cons, List.map_cons, List.flatMap_cons, List.flatMap_cons, hf _ _ _ he.2, ih]
  have hname : d'.name = d.name := by rw [h.own]
  rw [Declared.said, Declared.said, hname, h.path, hlinks]

/-- All blocks of the trees can be mapped if each of them can. -/
theorem Declaration.exists_mapDocsAll (f : DocBlock → String → Outcome DocBlock) (ds : List Declaration)
    (each : ∀ m ∈ walkAll ds, ∀ e ∈ m.toDeclared.docs, ∃ b, (f e.1 e.2).result = .ok b) :
    ∃ ds', (mapDocsAll f ds).result = .ok ds' := by
  have hdocs : ∀ e ∈ ds.flatMap docs, ∃ b, (f e.1 e.2).result = .ok b := by
    intro e he
    obtain ⟨d, hd, he⟩ := List.mem_flatMap.1 he
    obtain ⟨m, hm, he⟩ := List.mem_flatMap.1 he
    refine each m ?_ e he
    rw [walkAll_eq_flatMap]
    exact List.mem_flatMap_of_mem hd hm
  obtain ⟨bs, hbs⟩ := Outcome.exists_result_mapM_iff.2 hdocs
  refine ⟨withDocsAll ds bs, ?_⟩
  rw [mapDocsAll_eq_of_each f fun d _ => mapDocs_eq f d, map_eq_pure_bind]
  exact Outcome.result_bind_eq_ok.2 ⟨bs, hbs, rfl⟩

/-! ### Tables -/

/-- The target that a table gives to a path. -/
def SymbolTable.target? (table : SymbolTable) (path context : String) : Option String :=
  match table.resolve path context with
  | .found target => some target
  | .ambiguous _ | .unresolved => none

/-- What the references of a declaration mean. -/
def SymbolTable.meant (table : SymbolTable) (e : Saying) : List (String × String × Option String) :=
  e.links.map fun link => (e.path, link.2, table.target? link.2 e.path)

/-- Every reference of the declaration has a target. -/
def SymbolTable.Finds (table : SymbolTable) (e : Saying) : Prop :=
  ∀ link ∈ e.links, ∃ target, table.resolve link.2 e.path = .found target

/-- A block without examples is filled whatever there is to fill it with. -/
theorem DocBlock.exists_fill_of_bare {b : DocBlock} (regions : Regions) (context : String)
    (h : b.examples = []) : ∃ b', (b.fill regions context).result = .ok b' := by
  have hsegments : ∀ s ∈ b.segments, ∃ s', (Segment.fill regions context s).result = .ok s' := by
    intro s hs
    cases s with
    | markdown text => exact ⟨_, rfl⟩
    | shown x => simpa [h] using mem_examples.2 hs
  obtain ⟨segments, hfilled⟩ := Outcome.exists_result_mapM_iff.2 hsegments
  refine ⟨{ b with segments }, ?_⟩
  unfold fill
  rw [Outcome.result_bind, hfilled]
  rfl

/-! ### Documents -/

namespace Document
variable {file source : String} {d : Document}

/-- What a document says. -/
def said (d : Document) : List Saying := d.walk.map fun m => m.toDeclared.said

/-- A table of a document answers by what the document says. -/
theorem resolve_eq_of_said {ds ds' : List Declaration}
    (h : (Declaration.walkAll ds).map (·.toDeclared.said) = (Declaration.walkAll ds').map (·.toDeclared.said)) :
    (SymbolTable.ofTrees ds).resolve = (SymbolTable.ofTrees ds').resolve := by
  refine (SymbolTable.answers_of_perm (List.Perm.of_eq ?_)).2.2.2
  have hnames := congrArg (List.map fun e : Saying => (e.name, e.path)) h
  rwa [List.map_map, List.map_map] at hnames

theorem said_of_resolve {table : SymbolTable} {ds ds' : List Declaration}
    (h : (Declaration.mapDocsAll table.resolveDoc ds).result = .ok ds') :
    (Declaration.walkAll ds).map (·.toDeclared.said) = (Declaration.walkAll ds').map (·.toDeclared.said) :=
  Declaration.map_of_mapDocsAll
    (fun _ _ hm => hm.said fun _ _ _ => SymbolTable.links_of_resolveDoc) h

theorem said_of_fill {regions : Regions} {ds ds' : List Declaration}
    (h : (Declaration.mapDocsAll (DocBlock.fill regions) ds).result = .ok ds') :
    (Declaration.walkAll ds).map (·.toDeclared.said) = (Declaration.walkAll ds').map (·.toDeclared.said) :=
  Declaration.map_of_mapDocsAll (fun _ _ hm => hm.said fun _ _ _ => DocBlock.links_of_fill_eq) h

/-- Declarations that refer to what is there and show nothing can be built. -/
theorem exists_build (file : String) {ds : List Declaration} (regions : Regions) (docOf : String → Option DocBlock)
    (finds : ∀ e ∈ (Declaration.walkAll ds).map (·.toDeclared.said), (SymbolTable.ofTrees ds).Finds e)
    (bare : ∀ m ∈ Declaration.walkAll ds, ∀ b ∈ m.toDeclared.blocks, b.examples = []) :
    ∃ again, (build file ⟨ds, []⟩ regions docOf).result = .ok again ∧
      again.said = (Declaration.walkAll ds).map (·.toDeclared.said) := by
  have hblock {m : Declaration} {e : DocBlock × String} (he : e ∈ m.toDeclared.docs) :
      e.1 ∈ m.toDeclared.blocks ∧ e.2 = m.path := by
    refine ⟨List.mem_map_of_mem he, ?_⟩
    obtain ⟨b, -, rfl⟩ := List.mem_map.1 he
    rfl
  obtain ⟨resolved, hresolved⟩ := Declaration.exists_mapDocsAll (SymbolTable.ofTrees ds).resolveDoc ds
    fun m hm e he => by
      refine SymbolTable.exists_resolveDoc fun r hr _ => ?_
      rw [(hblock he).2]
      exact finds _ (List.mem_map_of_mem hm) (r.kind, r.path)
        (List.mem_flatMap_of_mem (hblock he).1 (List.mem_map_of_mem hr))
  obtain ⟨filled, hfilled⟩ := Declaration.exists_mapDocsAll (DocBlock.fill regions) resolved
    fun m hm e he => by
      obtain ⟨m₀, hm₀, e₀, he₀, -, hresolve⟩ := Declaration.exists_doc_of_mapDocsAll hresolved hm he
      obtain ⟨-, hsegments, -⟩ := SymbolTable.resolveDoc_eq_ok_iff.1 hresolve
      have hexamples : e.1.examples = e₀.1.examples := congrArg (List.filterMap _) hsegments
      exact DocBlock.exists_fill_of_bare regions e.2 (hexamples.trans (bare m₀ hm₀ e₀.1 (hblock he₀).1))
  refine ⟨⟨file, filled, (regions.ofKind .snippet).map fun r => (r.name, r.text)⟩, ?_,
    ((said_of_resolve hresolved).trans (said_of_fill hfilled)).symm⟩
  unfold build
  refine Outcome.result_bind_eq_ok.2 ⟨ds, rfl, Outcome.result_bind_eq_ok.2 ⟨(), rfl, ?_⟩⟩
  exact Outcome.result_bind_eq_ok.2 ⟨resolved, hresolved, Outcome.result_bind_eq_ok.2 ⟨filled, hfilled, rfl⟩⟩

/-- Every reference of a document has the target that the document's own table gives it. -/
theorem resolve_of_build {found : Scope.Contents} {regions : Regions} {docOf : String → Option DocBlock}
    (raw : ∀ m ∈ found.declarations, m.Every (Declared.DocsIn DocBlock.Raw))
    (rawDocs : ∀ proxy, ∀ b ∈ docOf proxy, b.Raw)
    (h : (build file found regions docOf).result = .ok d) :
    ∀ m ∈ d.walk, ∀ b ∈ m.toDeclared.blocks, ∀ r ∈ b.references, ∃ target, r.target = some target ∧
      (SymbolTable.ofTrees d.declarations).resolve r.path m.path = .found target := by
  obtain ⟨injected, resolved, hinjected, hresolved, hfilled, -⟩ := result_build_eq_ok h
  have hmade := Declaration.forall_mem_walkAll.2 (docsIn_of_injects rawDocs raw hinjected)
  have htable := resolve_eq_of_said ((said_of_resolve hresolved).trans (said_of_fill hfilled))
  intro m hm b hb r hr
  obtain ⟨m₁, hm₁, e₁, he₁, hpath₁, hfill⟩ :=
    Declaration.exists_doc_of_mapDocsAll hfilled hm (Declared.mem_docs_of_mem_blocks hb)
  obtain ⟨m₀, hm₀, e₀, he₀, hpath₀, hresolve⟩ := Declaration.exists_doc_of_mapDocsAll hresolved hm₁ he₁
  have hraw := hmade m₀ hm₀ e₀ he₀
  obtain ⟨-, hsegments, hsettles⟩ := SymbolTable.resolveDoc_eq_ok_iff.1 hresolve
  have hexamples : ∀ x ∈ e₁.1.examples, x.code = none := by
    have heq : e₁.1.examples = e₀.1.examples := congrArg (List.filterMap _) hsegments
    rw [heq]
    exact hraw.examples
  rw [(DocBlock.shown_of_fill hexamples hfill).1] at hr
  obtain ⟨r₀, hr₀, hsettle⟩ := exists_left_of_forall₂ hsettles hr
  rw [← htable]
  cases hsettle with
  | kept has => cases (hraw.references r hr₀).symm.trans has
  | given _ found => exact ⟨_, rfl, by rw [← found, ← hpath₀, ← hpath₁]⟩

theorem resolve_of_ofSource (h : (ofSource file source).result = .ok d) :
    ∀ m ∈ d.walk, ∀ b ∈ m.toDeclared.blocks, ∀ r ∈ b.references, ∃ target, r.target = some target ∧
      (SymbolTable.ofTrees d.declarations).resolve r.path m.path = .found target := by
  obtain ⟨lines, regions, found, hlines, hregions, hfound, hbuild⟩ := result_ofSource_eq_ok.1 h
  exact resolve_of_build (Scope.Contents.raw_of_ofLines hfound)
    (fun _ => docsIn_of_proxyDoc? fun c _ => DocBlock.raw_ofLines c.lines) hbuild

theorem finds_of_ofSource (h : (ofSource file source).result = .ok d) :
    ∀ e ∈ d.said, (SymbolTable.ofTrees d.declarations).Finds e := by
  intro e he link hlink
  obtain ⟨m, hm, rfl⟩ := List.mem_map.1 he
  obtain ⟨b, hb, hlink⟩ := List.mem_flatMap.1 hlink
  obtain ⟨r, hr, rfl⟩ := List.mem_map.1 hlink
  obtain ⟨target, -, hfound⟩ := resolve_of_ofSource h m hm b hb r hr
  exact ⟨target, hfound⟩

/-- **What the references of a document mean is told by what it says.** -/
theorem targets_of_ofSource (h : (ofSource file source).result = .ok d) :
    d.targets = d.said.flatMap (SymbolTable.ofTrees d.declarations).meant := by
  unfold targets said
  rw [List.flatMap_map]
  refine List.flatMap_congr fun m hm => ?_
  have hdocs : m.toDeclared.docs = m.toDeclared.blocks.map (·, m.path) := by
    rw [Declared.blocks, Declared.docs, List.map_map, List.map_map]
    rfl
  rw [hdocs, List.flatMap_map, SymbolTable.meant, Declared.said, List.map_flatMap]
  refine List.flatMap_congr fun b hb => ?_
  rw [DocBlock.links, List.map_map]
  refine List.map_congr_left fun r hr => ?_
  obtain ⟨target, htarget, hfound⟩ := resolve_of_ofSource h m hm b hb r hr
  show (m.path, r.path, r.target) = (m.path, r.path, SymbolTable.target? _ r.path m.path)
  rw [htarget, SymbolTable.target?, hfound]

/-- Documents that say the same refer to the same. -/
theorem targets_eq_of_said {file' source' : String} {d' : Document}
    (h : (ofSource file source).result = .ok d) (h' : (ofSource file' source').result = .ok d')
    (same : d'.said = d.said) : d'.targets = d.targets := by
  have htable := resolve_eq_of_said same
  have hmeant : (SymbolTable.ofTrees d'.declarations).meant = (SymbolTable.ofTrees d.declarations).meant := by
    funext e
    unfold SymbolTable.meant SymbolTable.target?
    rw [htable]
  rw [targets_of_ofSource h, targets_of_ofSource h', same, hmeant]

end Document

end AnnotatedHeader
