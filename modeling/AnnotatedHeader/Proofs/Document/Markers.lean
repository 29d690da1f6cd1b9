import AnnotatedHeader.Proofs.Declaration.MapDocs
import AnnotatedHeader.Proofs.Document.Injection
import AnnotatedHeader.Proofs.Document.OfLines
import AnnotatedHeader.Proofs.Piece
import AnnotatedHeader.Proofs.Scope.Nodes
import Mathlib

/-! How many markers of injects become members.

Only what is injected is synthetic, one declaration for each recorded site
(`synthetic_of_build`). `synthetic_eq_markers_iff` compares them with the markers in the
header's lines: none is lost if and only if none is met outside the body of a record. -/
namespace AnnotatedHeader

/-! ### Markers in lines -/

/-- Whether the line is the marker of an inject and can be seen. -/
def SourceLine.marksInject (l : SourceLine) : Bool :=
  match l.kind with
  | .marker (.inject _) => l.isVisible
  | _ => false

theorem Piece.isSome_injected? (l : SourceLine) : (injected? l).isSome = l.marksInject := by
  unfold injected? SourceLine.marksInject SourceLine.isVisible
  cases l.ignored <;> rcases l.kind with _ | _ | _ | ⟨_ | _ | _ | _ | _⟩ <;> rfl

theorem Piece.length_markers_ofLines (lines : List SourceLine) (blocks : List CommentBlock) :
    (markers (ofLines lines blocks)).length = lines.countP (·.marksInject) := by
  rw [(perm_markers_ofLines lines blocks).length_eq, List.length_filterMap_eq_countP]
  exact List.countP_congr fun l _ => by rw [isSome_injected?]

theorem Piece.mem_markers_ofLines {lines : List SourceLine} {l : SourceLine} {proxy : String}
    (hl : l ∈ lines) (hkind : l.kind = .marker (.inject proxy)) (hvisible : l.isVisible = true)
    (blocks : List CommentBlock) : (proxy, l.line) ∈ markers (ofLines lines blocks) := by
  have hignored : l.ignored = false := by simpa [SourceLine.isVisible] using hvisible
  refine (perm_markers_ofLines lines blocks).symm.subset (List.mem_filterMap.2 ⟨l, hl, ?_⟩)
  rw [injected?, hkind, hignored]

/-! ### Synthetic declarations -/

/-- No declaration that is read is synthetic. -/
theorem nodeInvariant_real : NodeInvariant (fun _ => True) (fun d => d.synthetic = false) where
  ofHead _ _ _ _ _ _ := rfl
  ofEntry _ hentry := by
    obtain ⟨name, _, _, rfl, -, rfl⟩ := EnumBody.eq_of_variant hentry
    rfl
  inherits _ hw _ := hw

namespace Declaration

theorem countP_synthetic_of_real {ds : List Declaration}
    (h : ∀ d ∈ ds, d.Every (fun d => d.synthetic = false)) : (nodes ds).countP (·.synthetic) = 0 := by
  rw [List.countP_eq_zero]
  intro n hn
  simp [forall_mem_nodes.2 h n hn]

theorem countP_synthetic_of_ofProxy {proxy : Region} {doc : Option DocBlock} {site : InjectSite}
    {member : Declaration} (h : (ofProxy proxy doc site).result = .ok member) :
    (nodes [member]).countP (·.synthetic) = 1 := by
  obtain ⟨first, others, signature, hfragment, rfl⟩ := result_ofProxy_eq_ok h
  obtain ⟨injects, rest, hreads⟩ := reads_of_ofFragment hfragment
  have hfirst := hreads.every_of_start nodeInvariant_real (by simp) first (List.mem_cons_self ..)
  rw [nodes_cons, List.countP_cons, List.countP_append,
    countP_synthetic_of_real (every_iff.1 hfirst).2]
  rfl

/-- There is one synthetic declaration for each site. -/
theorem countP_synthetic_of_injects {regions : Regions} {docOf : String → Option DocBlock}
    {ds ds' : List Declaration} {sites : List InjectSite}
    (hds : ∀ d ∈ ds, d.Every (fun d => d.synthetic = false))
    (h : (sites.foldlM (inject regions docOf) ds).result = .ok ds') :
    (nodes ds').countP (·.synthetic) = sites.length := by
  obtain ⟨members, hmembers, hperm⟩ := perm_of_injects h
  rw [hperm.countP_eq, List.countP_append, countP_synthetic_of_real hds, Nat.add_zero]
  clear hperm h
  induction hmembers with
  | nil => rfl
  | @cons site member sites members hmember _ ih =>
    obtain ⟨proxy, hproxy⟩ := hmember
    rw [← List.singleton_append, nodes_append, List.countP_append,
      countP_synthetic_of_ofProxy hproxy, ih, List.length_cons, Nat.add_comm]

end Declaration

namespace Document

theorem synthetic_of_build {file : String} {found : Scope.Contents} {regions : Regions}
    {docOf : String → Option DocBlock} {d : Document}
    (hfound : ∀ m ∈ found.declarations, m.Every (fun d => d.synthetic = false))
    (h : (build file found regions docOf).result = .ok d) :
    d.walk.countP (·.synthetic) = found.injects.length := by
  obtain ⟨injected, resolved, hinjected, hresolved, hfilled, -⟩ := result_build_eq_ok h
  have hsame := (Declaration.synthetic_of_mapDocsAll hresolved).trans
    (Declaration.synthetic_of_mapDocsAll hfilled)
  rw [← Declaration.countP_synthetic_of_injects hfound hinjected, walk, Declaration.nodes,
    List.countP_map]
  have hcount := congrArg (List.countP id) hsame
  rw [List.countP_map, List.countP_map] at hcount
  exact hcount.symm

/-- Where the reading of a header's lines comes across a marker. -/
def MeetsMarker (lines : List SourceLine) (place : Scope.Place) (m : InjectMarker) : Prop :=
  Scope.Meets .file Scope.file.start (Piece.ofLines lines (CommentBlock.group lines)) place m

/-- **No marker is lost if and only if none is met outside the body of a record.** In a
header that has a document every marker that can be seen is met in such a body, in a
template head, in a macro's arguments or in an enum's entry; anywhere else there is no
document. -/
theorem synthetic_eq_markers_iff {file source : String} {lines : List SourceLine} {d : Document}
    (hlines : SourceLine.classify (Text.withoutMark source) = .ok lines)
    (h : (ofSource file source).result = .ok d) :
    (∀ l ∈ lines, ∀ proxy, l.kind = .marker (.inject proxy) → l.isVisible = true →
      ∃ place, MeetsMarker lines place (proxy, l.line)) ∧
    (d.walk.countP (·.synthetic) = lines.countP (·.marksInject) ↔
      ∀ place m, MeetsMarker lines place m → place = .body) := by
  obtain ⟨lines', regions, found, hlines', -, hfound, hbuild⟩ := result_ofSource_eq_ok.1 h
  cases hlines.symm.trans hlines'
  obtain ⟨rest, hreads⟩ := Scope.Contents.result_ofLines_eq_ok.1 hfound
  obtain ⟨new, lost, haccount⟩ := hreads.account
  have hrest : rest = [] := hreads.rest_of_unbraced rfl
  subst hrest
  have hsites : found.injects = new := haccount.sites
  have hmarkers : (Piece.markers (Piece.ofLines lines (CommentBlock.group lines))).Perm
      (new.map (·.marker) ++ lost) := by
    have hperm := haccount.markers
    rwa [Piece.markers_nil, List.append_nil] at hperm
  have hcount := hmarkers.length_eq
  rw [Piece.length_markers_ofLines, List.length_append, List.length_map] at hcount
  have hsynthetic : d.walk.countP (·.synthetic) = new.length := by
    rw [synthetic_of_build (hreads.every_of_start nodeInvariant_real (by simp)) hbuild, hsites]
  refine ⟨?_, ?_⟩
  · intro l hl proxy hkind hvisible
    have hmem := hmarkers.subset (Piece.mem_markers_ofLines hl hkind hvisible _)
    rcases List.mem_append.1 hmem with hmem | hmem
    · obtain ⟨site, hsite, hmarker⟩ := List.mem_map.1 hmem
      exact ⟨.body, hmarker ▸ haccount.recorded site hsite⟩
    · obtain ⟨place, -, hmeets⟩ := haccount.passed _ hmem
      exact ⟨place, hmeets⟩
  · rw [hsynthetic, hcount]
    constructor
    · intro heq place m hmeets
      by_contra hplace
      have hlost := List.length_pos_of_mem (haccount.missed hmeets hplace)
      omega
    · intro hbody
      cases hlost : lost with
      | nil => rfl
      | cons m ms =>
        obtain ⟨place, hplace, hmeets⟩ := haccount.passed m (by simp [hlost])
        exact absurd (hbody place m hmeets) hplace

/-! ### A marker in an enum's entry -/

theorem exists_document_of_entryMarker :
    ∃ lines d,
      SourceLine.classify (Text.withoutMark "enum E\n\x7b\nA\n//// [inject: p]\n\x7d;") = .ok lines ∧
      (ofSource "t.h" "enum E\n\x7b\nA\n//// [inject: p]\n\x7d;").result = .ok d ∧
      lines.countP (·.marksInject) = 1 ∧ d.walk.countP (·.synthetic) = 0 := by
  have hmarkers : (SourceLine.classify
      (Text.withoutMark "enum E\n\x7b\nA\n//// [inject: p]\n\x7d;")).map
        (fun lines => lines.countP (·.marksInject)) = .ok 1 := by
    cbv
  have hsynthetic : (ofSource "t.h" "enum E\n\x7b\nA\n//// [inject: p]\n\x7d;").result.map
      (fun d => d.walk.countP (·.synthetic)) = .ok 0 := by
    cbv
  obtain ⟨lines, hlines, hmarkers⟩ := Except.map_eq_ok.1 hmarkers
  obtain ⟨d, hd, hsynthetic⟩ := Except.map_eq_ok.1 hsynthetic
  exact ⟨lines, d, hlines, hd, hmarkers, hsynthetic⟩

/-- Behind the name of a variant a marker is lost without a fault. -/
theorem exists_synthetic_ne_markers :
    ¬ ∀ (file source : String) (lines : List SourceLine) (d : Document),
      SourceLine.classify (Text.withoutMark source) = .ok lines →
      (ofSource file source).result = .ok d →
      d.walk.countP (·.synthetic) = lines.countP (·.marksInject) := by
  intro hall
  obtain ⟨lines, d, hlines, hd, hmarkers, hsynthetic⟩ := exists_document_of_entryMarker
  have heq := hall _ _ lines d hlines hd
  rw [hmarkers, hsynthetic] at heq
  cases heq

theorem meets_entryMarker :
    ∃ lines, SourceLine.classify
        (Text.withoutMark "enum E\n\x7b\nA\n//// [inject: p]\n\x7d;") = .ok lines ∧
      ∃ place m, MeetsMarker lines place m ∧ place ≠ .body := by
  obtain ⟨lines, d, hlines, hd, hmarkers, hsynthetic⟩ := exists_document_of_entryMarker
  refine ⟨lines, hlines, ?_⟩
  by_contra hnone
  have heq := (synthetic_eq_markers_iff hlines hd).2.2 fun place m hmeets => by
    by_contra hplace
    exact hnone ⟨place, m, hmeets, hplace⟩
  rw [hmarkers, hsynthetic] at heq
  cases heq

end Document

end AnnotatedHeader
