import AnnotatedHeader.Proofs.Numbering.Scopes
import AnnotatedHeader.Proofs.SymbolTable

/-! Documents of renumbered declarations.

No line decides which record gets a member, which declaration a reference means or which
snippet an example shows. A proxy's declaration is read from the line behind its marker on, so
`g` must keep the steps through the proxy's text (`Document.result_build_renumber`). -/
namespace AnnotatedHeader

variable {g : Nat → Nat}

namespace Outcome
variable {α β : Type} [Numbered α] [Numbered β] {f f' : α → Outcome β}

theorem result_mapM_renumber (hf : ∀ a, (f' (renumber g a)).result = renumber g (f a).result)
    (as : List α) : ((as.map (renumber g)).mapM f').result = renumber g (as.mapM f).result := by
  induction as with
  | nil => rfl
  | cons a as ih =>
    rw [List.map_cons, List.mapM_cons, List.mapM_cons]
    refine result_bind_renumber (hf a) fun b => ?_
    exact result_bind_renumber ih fun bs => rfl

theorem result_optionMapM_renumber
    (hf : ∀ a, (f' (renumber g a)).result = renumber g (f a).result) (o : Option α) :
    ((renumber g o).mapM f').result = renumber g (o.mapM f).result := by
  cases o with
  | none => rfl
  | some a => exact result_bind_renumber (hf a) fun b => rfl

end Outcome

/-! ### Injected members -/

namespace Declaration

theorem withMemberAmong?_of_each (path : String) (member : Declaration) {ds : List Declaration}
    (each : ∀ d ∈ ds, withMember? path (renumber g member) (renumber g d) =
      renumber g (withMember? path member d)) :
    withMemberAmong? path (renumber g member) (ds.map (renumber g)) =
      renumber g (withMemberAmong? path member ds) := by
  induction ds with
  | nil => rfl
  | cons d ds ih =>
    obtain ⟨hd, hds⟩ := List.forall_mem_cons.1 each
    rw [List.map_cons, withMemberAmong?, withMemberAmong?, hd, ih hds]
    cases withMember? path member d with
    | some d' => rfl
    | none => cases withMemberAmong? path member ds <;> rfl

theorem withMember?_renumber (path : String) (member d : Declaration) :
    withMember? path (renumber g member) (renumber g d) =
      renumber g (withMember? path member d) := by
  induction d using Declaration.induction with
  | step own members ih =>
    have hamong := withMemberAmong?_of_each (g := g) path member ih
    rw [renumber_mk, withMember?, withMember?, hamong, Declared.path_renumber]
    split
    · have hmembers : members.map (renumber g) ++ [renumber g member] =
          (members ++ [member]).map (renumber g) := by
        rw [List.map_append, List.map_singleton]
      rw [hmembers, renumber_option, Option.map_some, renumber_mk]
    split
    · cases withMemberAmong? path member members with
      | none => rfl
      | some ms => exact congrArg some (renumber_mk own ms).symm
    · rfl

theorem withMemberAmong?_renumber (path : String) (member : Declaration) (ds : List Declaration) :
    withMemberAmong? path (renumber g member) (ds.map (renumber g)) =
      renumber g (withMemberAmong? path member ds) :=
  withMemberAmong?_of_each path member fun d _ => withMember?_renumber path member d

/-- A proxy's text begins on the line behind its marker. -/
theorem result_ofProxy_renumber (hg : StrictMono g) {proxy : Region}
    (hsteps : Steps g proxy.line (1 + proxy.text.toList.count '\n')) (doc : Option DocBlock)
    (site : InjectSite) :
    (ofProxy (renumber g proxy) (renumber g doc) (renumber g site)).result =
      renumber g (ofProxy proxy doc site).result := by
  have hnext : g proxy.line + 1 = g (proxy.line + 1) := (hsteps 1 (by omega)).symm
  unfold ofProxy
  rw [Region.firstLine?_renumber, Region.text_renumber, Region.line_renumber, hnext]
  cases proxy.firstLine? with
  | none => rfl
  | some signature =>
    refine Outcome.result_bind_renumber
      (result_ofFragment_renumber hg hsteps.add site.owner) fun ds => ?_
    cases ds with
    | nil => rfl
    | cons member ds =>
      obtain ⟨own, members⟩ := member
      rw [renumber_list, List.map_cons, renumber_mk]
      exact congrArg Except.ok (renumber_mk
        { own with line := site.line, visibility := .everyone, signature, doc, synthetic := true }
        members).symm


variable {regions : Regions} {docOf docOf' : String → Option DocBlock}

theorem result_inject_renumber (hg : StrictMono g)
    (hsteps : ∀ r ∈ regions.closed, Steps g r.line (1 + r.text.toList.count '\n'))
    (hdoc : ∀ proxy, docOf' proxy = renumber g (docOf proxy)) (ds : List Declaration)
    (site : InjectSite) :
    (inject (renumber g regions) docOf' (ds.map (renumber g)) (renumber g site)).result =
      renumber g (inject regions docOf ds site).result := by
  have hproxy : (renumber g site).proxy = site.proxy := rfl
  have howner : (renumber g site).owner = site.owner := rfl
  unfold inject
  rw [hproxy, howner, Regions.get?_renumber]
  cases hfound : regions.get? .proxy site.proxy with
  | none => rfl
  | some proxy =>
    have hmem : proxy ∈ regions.closed := List.mem_of_find?_eq_some hfound
    rw [renumber_option, Option.map_some]
    dsimp only
    rw [Region.name_renumber, hdoc]
    refine Outcome.result_bind_renumber
      (result_ofProxy_renumber hg (hsteps proxy hmem) (docOf proxy.name) site) fun member => ?_
    rw [withMemberAmong?_renumber]
    cases withMemberAmong? site.owner member ds <;> rfl

theorem result_foldlM_inject_renumber (hg : StrictMono g)
    (hsteps : ∀ r ∈ regions.closed, Steps g r.line (1 + r.text.toList.count '\n'))
    (hdoc : ∀ proxy, docOf' proxy = renumber g (docOf proxy)) (sites : List InjectSite)
    (ds : List Declaration) :
    ((sites.map (renumber g)).foldlM (inject (renumber g regions) docOf') (ds.map (renumber g))).result =
      renumber g (sites.foldlM (inject regions docOf) ds).result := by
  induction sites generalizing ds with
  | nil => rfl
  | cons site sites ih =>
    rw [List.map_cons, List.foldlM_cons, List.foldlM_cons]
    exact Outcome.result_bind_renumber (result_inject_renumber hg hsteps hdoc ds site) ih

theorem walkAll_renumber (ds : List Declaration) :
    walkAll (ds.map (renumber g)) = (walkAll ds).map (renumber g) := by
  have hwalk (d : Declaration) : (renumber g d).walk = d.walk.map (renumber g) := by
    induction d using Declaration.induction with
    | step own members ih =>
      rw [renumber_mk, walk_eq, walk_eq, List.map_cons, renumber_mk, List.flatMap_map,
        List.map_flatMap]
      exact congrArg _ (List.flatMap_congr ih)
  rw [walkAll_eq_flatMap, walkAll_eq_flatMap, List.flatMap_map, List.map_flatMap]
  exact List.flatMap_congr fun d _ => hwalk d

end Declaration

/-! ### References -/

namespace SymbolTable

/-- No line decides what a path means. -/
theorem resolve_ofTrees_renumber (ds : List Declaration) :
    (ofTrees (ds.map (renumber g))).resolve = (ofTrees ds).resolve := by
  have hentries : ((Declaration.walkAll ds).map (renumber g)).map (fun d => (d.name, d.path)) =
      (Declaration.walkAll ds).map fun d => (d.name, d.path) := by
    rw [List.map_map]
    refine List.map_congr_left fun d _ => ?_
    show ((renumber g d).name, (renumber g d).path) = (d.name, d.path)
    rw [Declaration.toDeclared_renumber]
    rfl
  unfold ofTrees
  rw [Declaration.walkAll_renumber]
  exact (answers_of_perm (.of_eq hentries)).2.2.2

variable {table table' : SymbolTable}

theorem result_resolveReference_renumber (h : table'.resolve = table.resolve) (context : String)
    (r : CrossReference) :
    (table'.resolveReference context (renumber g r)).result =
      renumber g (table.resolveReference context r).result := by
  have htarget : (renumber g r).target = r.target := rfl
  have hpath : (renumber g r).path = r.path := rfl
  unfold resolveReference
  rw [htarget, hpath, h]
  split
  · rfl
  · cases table.resolve r.path context <;> rfl

theorem result_resolveDoc_renumber (h : table'.resolve = table.resolve) (b : DocBlock)
    (context : String) :
    (table'.resolveDoc (renumber g b) context).result =
      renumber g (table.resolveDoc b context).result := by
  refine Outcome.result_bind_renumber ?_ fun references => rfl
  exact Outcome.result_mapM_renumber (result_resolveReference_renumber h context) b.references

end SymbolTable

/-! ### Examples -/

theorem Segment.result_fill_renumber (regions : Regions) (referrer : String) (segment : Segment) :
    ((renumber g segment).fill (renumber g regions) referrer).result =
      renumber g (segment.fill regions referrer).result := by
  cases segment with
  | markdown text => rfl
  | shown x =>
    have hshown : renumber g (shown x) = shown (renumber g x) := rfl
    have hcode : (renumber g x).code = x.code := rfl
    have hsnippet : (renumber g x).snippet = x.snippet := rfl
    rw [hshown]
    unfold fill
    dsimp only
    rw [hcode, hsnippet, Regions.get?_renumber]
    split
    · rfl
    · cases regions.get? .snippet x.snippet <;> rfl

theorem DocBlock.result_fill_renumber (regions : Regions) (b : DocBlock) (context : String) :
    (DocBlock.fill (renumber g regions) (renumber g b) context).result =
      renumber g (b.fill regions context).result := by
  refine Outcome.result_bind_renumber ?_ fun segments => rfl
  exact Outcome.result_mapM_renumber (Segment.result_fill_renumber regions context) b.segments

/-! ### Traversals -/

section
variable {f f' : DocBlock → String → Outcome DocBlock}

theorem Declaration.result_mapDocsAll_of_each {ds : List Declaration}
    (each : ∀ d ∈ ds, ((renumber g d).mapDocs f').result = renumber g (d.mapDocs f).result) :
    (mapDocsAll f' (ds.map (renumber g))).result = renumber g (mapDocsAll f ds).result := by
  induction ds with
  | nil => rfl
  | cons d ds ih =>
    obtain ⟨hd, hds⟩ := List.forall_mem_cons.1 each
    rw [List.map_cons, mapDocsAll, mapDocsAll]
    refine Outcome.result_bind_renumber hd fun d => ?_
    exact Outcome.result_bind_renumber (ih hds) fun ds => rfl

variable (hf : ∀ b context, (f' (renumber g b) context).result = renumber g (f b context).result)

include hf

theorem Declared.result_mapDocs_renumber (d : Declared) :
    ((renumber g d).mapDocs f').result = renumber g (d.mapDocs f).result := by
  unfold mapDocs
  refine Outcome.result_bind_renumber
    (Outcome.result_optionMapM_renumber (hf · d.path) d.doc) fun doc => ?_
  refine Outcome.result_bind_renumber (α := Item) ?_ fun item => rfl
  rw [item_renumber, path_renumber]
  cases d.item with
  | function shape =>
    refine Outcome.result_bind_renumber ?_ fun params => rfl
    refine Outcome.result_mapM_renumber (fun p => ?_) shape.params
    exact Outcome.result_bind_renumber
      (Outcome.result_optionMapM_renumber (hf · d.path) p.doc) fun doc => rfl
  | enumeration | record | property | variant => rfl

namespace Declaration

theorem result_mapDocs_renumber (d : Declaration) :
    ((renumber g d).mapDocs f').result = renumber g (d.mapDocs f).result := by
  induction d using Declaration.induction with
  | step own members ih =>
    rw [renumber_mk, mapDocs, mapDocs]
    refine Outcome.result_bind_renumber (Declared.result_mapDocs_renumber hf own) fun own => ?_
    refine Outcome.result_bind_renumber (result_mapDocsAll_of_each ih) fun members => ?_
    exact congrArg Except.ok (renumber_mk own members).symm

theorem result_mapDocsAll_renumber (ds : List Declaration) :
    (mapDocsAll f' (ds.map (renumber g))).result = renumber g (mapDocsAll f ds).result :=
  result_mapDocsAll_of_each fun d _ => result_mapDocs_renumber hf d

end Declaration

end

/-! ### Documents -/

namespace Document

theorem result_build_renumber (hg : StrictMono g) (file : String) (found : Scope.Contents)
    {regions : Regions} {docOf docOf' : String → Option DocBlock}
    (hsteps : ∀ r ∈ regions.closed, Steps g r.line (1 + r.text.toList.count '\n'))
    (hdoc : ∀ proxy, docOf' proxy = renumber g (docOf proxy)) :
    (build file (renumber g found) (renumber g regions) docOf').result =
      renumber g (build file found regions docOf).result := by
  have hsnippets : ((renumber g regions).ofKind .snippet).map (fun r => (r.name, r.text)) =
      (regions.ofKind .snippet).map fun r => (r.name, r.text) := by
    rw [Regions.ofKind_renumber, List.map_map]
    rfl
  unfold build
  rw [hsnippets]
  refine Outcome.result_bind_renumber
    (Declaration.result_foldlM_inject_renumber hg hsteps hdoc found.injects found.declarations)
    fun ds => ?_
  rw [renumber_list]
  refine Outcome.result_bind_renumber (α := Unit) rfl fun _ => ?_
  have hresolve := SymbolTable.resolve_ofTrees_renumber (g := g) ds
  refine Outcome.result_bind_renumber
    (Declaration.result_mapDocsAll_renumber (SymbolTable.result_resolveDoc_renumber hresolve) ds)
    fun ds => ?_
  refine Outcome.result_bind_renumber
    (Declaration.result_mapDocsAll_renumber (DocBlock.result_fill_renumber regions) ds)
    fun ds => rfl

theorem proxyDoc?_renumber {blocks : List CommentBlock} (hblocks : ∀ b ∈ blocks, b.lines ≠ [])
    (proxy : String) :
    proxyDoc? (blocks.map (renumber g)) proxy = renumber g (proxyDoc? blocks proxy) := by
  unfold proxyDoc?
  rw [← List.map_reverse, find?_renumber fun _ => rfl]
  cases hfound : blocks.reverse.find? fun b => b.proxy == some proxy with
  | none => rfl
  | some b =>
    have hmem : b ∈ blocks := List.mem_reverse.1 (List.mem_of_find?_eq_some hfound)
    exact congrArg some (CommentBlock.toDoc_renumber (hblocks b hmem))

end Document

end AnnotatedHeader
