import AnnotatedHeader.Proofs.Declaration.Survival
import AnnotatedHeader.Proofs.Document.Hosts

/-! Exports of documents.

An export keeps the places that survive and changes nothing there
(`Document.exported_keeps_survivors`). Exporting less of an export gives what exporting less
gives, an export in the order of names is one in source order, sorted, and of a header's
document nothing is lost when everything is asked for (`Document.exported_laws`): whatever is
injected, variants in it stand in enums (`Document.holdsVariants_of_ofSource`). -/
namespace AnnotatedHeader

/-! ### Which places are left -/

namespace Document
open Declaration

/-- The trees in the order that the settings ask for. -/
def arranged (s : Settings) (ds : List Declaration) : List Declaration :=
  if s.sortByName then sortedAll ds else ds

theorem exported_eq (s : Settings) (d : Document) :
    d.exported s =
      { d with declarations := arranged s (exportedAll s.unsorted false d.declarations) } := by
  unfold exported arranged ordered
  split
  · rename_i hsort
    rw [exportedAll_of_sortByName hsort, sortedAll, sortedEach_eq_map]
  · rename_i hsort
    rw [← show s.unsorted = s by cases s; simpa [Settings.unsorted] using hsort]
    rfl

/-- **The export policy.** An export keeps the places that survive, with all that is said
there, in the order asked for, and nothing else of the document changes. -/
theorem exported_keeps_survivors (s : Settings) (d : Document) (h : Housed d.declarations) :
    ∃! left, (placesAll [] left).map Place.labels =
        ((placesAll [] d.declarations).filter (·.Survives s)).map Place.labels ∧
      d.exported s = { d with declarations := arranged s left } := by
  have htells : (placesAll [] (exportedAll s.unsorted false d.declarations)).map Place.labels =
      ((placesAll [] d.declarations).filter (·.Survives s)).map Place.labels := by
    refine tells_of_each fun e he => tells (h.each e he) (by simp) rfl fun hvariant => ?_
    exact absurd hvariant (h.top e he)
  refine ⟨_, ⟨htells, exported_eq s d⟩, ?_⟩
  rintro other ⟨hother, -⟩
  exact eq_of_map_labels (hother.trans htells.symm)

/-- A class and a struct without doc blocks around a documented property, and one that only the
class can see. -/
def nested : Document where
  file := "t.h"
  declarations :=
    [⟨.sample "C" (.record .classKey ⟨none, [], true⟩) .everyone none,
      [⟨.sample "C::hidden" (.property ⟨"int", none, none, false⟩) .self (some ⟨2, [], []⟩), []⟩,
        ⟨.sample "C::S" (.record .structKey ⟨none, [], true⟩) .everyone none,
          [⟨.sample "C::S::x" (.property ⟨"int", none, none, false⟩) .everyone
            (some ⟨5, [], []⟩), []⟩]⟩]⟩,
      ⟨.sample "E" (.enumeration ⟨false, none, true⟩) .everyone (some ⟨8, [], []⟩),
        [⟨.sample "E::A" (.variant none) .everyone none, []⟩]⟩]
  snippets := []

theorem exported_keeps_survivors_nested :
    Housed nested.declarations ∧
      ∃! left, (placesAll [] left).map Place.labels =
          ((placesAll [] nested.declarations).filter (·.Survives {})).map Place.labels ∧
        nested.exported {} = { nested with declarations := arranged {} left } :=
  ⟨by decide, exported_keeps_survivors {} nested (by decide)⟩

example : ((placesAll [] nested.declarations).filter (·.Survives {})).map (·.node.path) =
    ["C", "C::S", "C::S::x", "E", "E::A"] := by decide

end Document

/-! ### Variants stand in enums -/

namespace Declaration

def VariantsInEnum (o : Kind × List Kind) : Prop := .variant ∈ o.2 → o.1 = .enumType

theorem holdsVariants_iff {d : Declaration} :
    d.HoldsVariants ↔ VariantsInEnum (d.outline (·.item.kind)) := by
  unfold HoldsVariants VariantsInEnum outline
  rw [List.mem_map]
  exact ⟨fun h ⟨m, hm, hkind⟩ => h m hm hkind, fun h m hm hkind => h ⟨m, hm, hkind⟩⟩

/-- An injected member is no variant, and variants in it stand in enums. -/
theorem joins_of_ofProxy {proxy : Region} {doc : Option DocBlock} {site : InjectSite}
    {member : Declaration} (h : (ofProxy proxy doc site).result = .ok member) :
    Joins (·.item.kind) VariantsInEnum member := by
  obtain ⟨first, others, signature, hfragment, rfl⟩ := result_ofProxy_eq_ok h
  obtain ⟨injects, rest, hreads⟩ := reads_of_ofFragment hfragment
  have hfits := hreads.fits_of_start.2 first (List.mem_cons_self ..)
  obtain ⟨hown, hbelow⟩ := forall_walk_iff.1 hfits.sound
  refine ⟨fun own said hsaid hvariant => ?_, forall_walk_iff.2 ⟨?_, fun m hm n hn => ?_⟩⟩
  · refine hsaid ((List.mem_append.1 hvariant).resolve_right fun hlast => ?_)
    exact hfits.notVariant (List.mem_singleton.1 hlast).symm
  · exact holdsVariants_iff.1 fun m hm => (hown.variants m hm).1
  · exact holdsVariants_iff.1 fun k hk => ((hbelow m hm n hn).variants k hk).1

theorem kinds_of_mapDocsAll {f : DocBlock → String → Outcome DocBlock} {ds ds' : List Declaration}
    (h : (mapDocsAll f ds).result = .ok ds') :
    ds.map (·.item.kind) = ds'.map (·.item.kind) ∧
      (walkAll ds).map (outline (·.item.kind)) = (walkAll ds').map (outline (·.item.kind)) := by
  have hkind {d d' : Declared} (hd : (d.mapDocs f).result = .ok d') : d.item.kind = d'.item.kind :=
    (Declared.mapped_of_mapDocs hd).kind.symm
  exact outlines_of_each (g := (·.item.kind)) (fun _ _ _ hd => outlines_of_mapDocs hkind hd) h

end Declaration

namespace Document
open Declaration

/-- **Variants of a document are members of enums.** -/
theorem holdsVariants_of_ofSource {file source : String} {d : Document}
    (h : (ofSource file source).result = .ok d) :
    (∀ m ∈ d.declarations, m.kind ≠ .variant) ∧
      ∀ m ∈ d.declarations, ∀ n ∈ m.walk, n.HoldsVariants := by
  obtain ⟨lines, regions, found, -, -, hfound, hbuild⟩ := result_ofSource_eq_ok.1 h
  obtain ⟨injected, resolved, hinjected, hresolved, hfilled, -⟩ := result_build_eq_ok hbuild
  obtain ⟨rest, hreads⟩ := Scope.Contents.result_ofLines_eq_ok.1 hfound
  obtain ⟨-, fits⟩ := hreads.fits_of_start
  have hread : ∀ m ∈ found.declarations, ∀ n ∈ m.walk, VariantsInEnum (n.outline (·.item.kind)) :=
    fun m hm n hn => holdsVariants_iff.1 fun v hv => (((fits m hm).sound n hn).variants v hv).1
  obtain ⟨htop, hwithin⟩ := outlines_of_injects (fun hmade => joins_of_ofProxy hmade) hread hinjected
  obtain ⟨htops, hwalks⟩ := kinds_of_mapDocsAll hresolved
  obtain ⟨htops', hwalks'⟩ := kinds_of_mapDocsAll hfilled
  constructor
  · have hsame := (map_of_map_toDeclared (g := (·.item.kind)) htop).symm.trans (htops.trans htops')
    have hkinds : ∀ kind ∈ d.declarations.map (·.item.kind), kind ≠ .variant := by
      rw [← hsame]
      exact List.forall_mem_map.2 fun m hm => (fits m hm).notVariant
    exact fun m hm => hkinds _ (List.mem_map_of_mem hm)
  · rw [← List.forall_mem_flatMap, ← walkAll_eq_flatMap] at hwithin ⊢
    have houtlines : ∀ o ∈ (walkAll d.declarations).map (outline (·.item.kind)), VariantsInEnum o := by
      rw [← hwalks', ← hwalks]
      exact List.forall_mem_map.2 hwithin
    exact fun m hm => holdsVariants_iff.2 (List.forall_mem_map.1 houtlines m hm)

/-! ### How exports compose -/

theorem exported_of_within {s t : Settings} (h : s.Within t) (hsort : s.sortByName = t.sortByName)
    (d : Document) : (d.exported t).exported s = d.exported s := by
  have hagain : exportedAll s.unsorted false (exportedAll t.unsorted false d.declarations) = _ :=
    exportedAll_exportedAll h d.declarations
  rw [exported_eq, exported_eq, exported_eq]
  unfold arranged
  rw [hsort]
  cases t.sortByName with
  | false => simp only [Bool.false_eq_true, if_false, hagain]
  | true => simp only [if_true, exportedAll_sortedAll, hagain, sortedAll_sortedAll]

/-- The document with each list of siblings in it by name. -/
def sorted (d : Document) : Document := { d with declarations := sortedAll d.declarations }

theorem exported_of_sortByName (s : Settings) (d : Document) :
    d.exported { s with sortByName := true } = (d.exported { s with sortByName := false }).sorted := by
  rw [exported_eq, exported_eq]
  rfl

theorem exported_everything {file source : String} {d : Document}
    (h : (ofSource file source).result = .ok d) : d.exported .everything = d := by
  obtain ⟨htop, hwithin⟩ := holdsVariants_of_ofSource h
  have hall : exportedAll .everything false d.declarations = d.declarations :=
    exportedAll_everything_of_each fun m hm =>
      exported?_everything (hwithin m hm) fun hvariant => absurd hvariant (htop m hm)
  unfold exported
  rw [hall]
  rfl

/-- **How exports compose.** Exporting again changes nothing, sorting can wait until the end,
and an export leaves all that a narrower one would keep. Of a header's document an export of
everything leaves everything. -/
theorem exported_laws (s t : Settings) (d : Document) :
    (d.exported s).exported s = d.exported s ∧
      d.exported { s with sortByName := true } = (d.exported { s with sortByName := false }).sorted ∧
      (s.Within t → s.sortByName = t.sortByName → (d.exported t).exported s = d.exported s) ∧
      ∀ file source, (ofSource file source).result = .ok d → d.exported .everything = d :=
  ⟨exported_of_within (.refl s) rfl d, exported_of_sortByName s d,
    fun h hsort => exported_of_within h hsort d, fun _ _ h => exported_everything h⟩

/-- An enum with its variants, of which a plain export keeps nothing. -/
theorem exported_laws_enum :
    ∃ d, (ofSource "t.h" "enum E \x7b B, A \x7d;").result = .ok d ∧
      d.walk.map (·.path) = ["E", "E::B", "E::A"] ∧ Settings.Within {} .everything ∧
      (d.exported .everything).exported {} = d.exported {} ∧ d.exported .everything = d := by
  have hfound : (Scope.Contents.ofLines [⟨1, 0, "enum E \x7b B, A \x7d;", .code, false⟩] []).result =
      .ok ⟨[⟨⟨"E", "E", 1, .everyone, none, none, "enum E", none,
          .enumeration ⟨false, none, true⟩, false⟩,
        [⟨⟨"B", "E::B", 1, .everyone, none, none, "B", none, .variant none, false⟩, []⟩,
          ⟨⟨"A", "E::A", 1, .everyone, none, none, "A", none, .variant none, false⟩, []⟩]⟩], []⟩ := by
    cbv
  have hresult : (ofSource "t.h" "enum E \x7b B, A \x7d;").result.map (fun d => d.walk.map (·.path)) =
      .ok ["E", "E::B", "E::A"] := by
    rw [result_ofSource_of_stages {} _ (by cbv) (by cbv) (by cbv) hfound]
    cbv
  obtain ⟨d, hd, hwalk⟩ := Except.map_eq_ok.1 hresult
  have hwithin : Settings.Within {} .everything := ⟨fun _ => rfl, fun _ => rfl, fun _ => rfl⟩
  obtain ⟨-, -, hagain, hall⟩ := exported_laws {} .everything d
  exact ⟨d, hd, hwalk, hwithin, hagain hwithin rfl, hall _ _ hd⟩

end Document

end AnnotatedHeader
