import AnnotatedHeader.Proofs.Declaration.MapDocs
import AnnotatedHeader.Proofs.DocBlock.Rewriting
import Mathlib

/-! Comments whose examples show their code.

A filled block is written with the code of its examples between two fences, and read again the
code is read as any other lines are: behind a line of it that starts with three backquotes what
follows is prose. `Enclosed` says of a code that reading it tells nothing and ends where its
fence does; blocks are read again with the references of their comments, whatever the comment,
just when the codes they are filled with are enclosed (`filling_keeps_links_iff`). -/
namespace AnnotatedHeader.DocBlock

open List (Forall₂)
open Text

/-! ### What parts show and refer to -/

def Part.example? : Part → Option Example
  | .shown snippet line => some ⟨snippet, line, none⟩
  | .prose .. | .verbatim _ | .unnamed .. => none

theorem examples_segmentsFrom (run : List String) (ps : List Part) :
    (segmentsFrom run ps).filterMap Segment.example? = ps.filterMap Part.example? := by
  have hend (run : List String) : (segmentsFrom run []).filterMap Segment.example? = [] := by
    rw [segmentsFrom]
    split <;> rfl
  induction ps generalizing run with
  | nil => exact hend run
  | cons p ps ih =>
    cases p with
    | prose line text =>
      rw [segmentsFrom]
      exact ih _
    | verbatim text =>
      rw [segmentsFrom]
      exact ih _
    | unnamed line text =>
      rw [segmentsFrom]
      exact ih _
    | shown snippet line =>
      rw [segmentsFrom_shown, List.filterMap_append, hend, List.nil_append,
        List.filterMap_cons_some (rfl : Segment.example? (.shown ⟨snippet, line, none⟩) = some _),
        ih, List.filterMap_cons_some (rfl : Part.example? (.shown snippet line) = some _)]

theorem examples_ofLines (ls : List NumberedLine) :
    examples (ofLines ls) = (partsOf ls).filterMap Part.example? :=
  examples_segmentsFrom [] (partsOf ls)

/-- The references of a block as its links have them. -/
def links (b : DocBlock) : List (Kind × String) := b.references.map fun r => (r.kind, r.path)

theorem links_ofLines (ls : List NumberedLine) :
    links (ofLines ls) =
      ((partsOf ls).flatMap Part.references).map fun r => (r.kind, r.path) := rfl

/-! ### Code between its fences -/

/-- Code that tells nothing where it is shown. -/
structure Enclosed (code : String) : Prop where
  links : (enclosedParts code).flatMap Part.references = []
  examples : (enclosedParts code).filterMap Part.example? = []
  closed : (enclosedParts code).foldl Part.fenceAfter (some .backquotes) = none

theorem scan_of_not_starts {texts : List String}
    (h : ∀ text ∈ texts, Fence.backquotes.starts (trim text.toList) = false)
    (rest : List NumberedLine) :
    Part.scan (some .backquotes) (unnumbered texts ++ rest) =
      texts.map Part.verbatim ++ Part.scan (some .backquotes) rest := by
  induction texts with
  | nil => rfl
  | cons text texts ih =>
    obtain ⟨htext, htexts⟩ := List.forall_mem_cons.1 h
    show Part.scan (some .backquotes) ((0, text) :: (unnumbered texts ++ rest)) = _
    rw [Part.scan_of_fence, if_neg (by simp [htext]), ih htexts]
    rfl

theorem fenceAfter_of_not_starts {texts : List String}
    (h : ∀ text ∈ texts, Fence.backquotes.starts (trim text.toList) = false) :
    (texts.map Part.verbatim).foldl Part.fenceAfter (some .backquotes) = some .backquotes := by
  induction texts with
  | nil => rfl
  | cons text texts ih =>
    obtain ⟨htext, htexts⟩ := List.forall_mem_cons.1 h
    have hstays : Part.fenceAfter (some .backquotes) (.verbatim text) = some .backquotes := by
      rw [Part.fenceAfter, htext]
      rfl
    rw [List.map_cons, List.foldl_cons, hstays]
    exact ih htexts

/-- Code is enclosed when none of its lines starts with three backquotes. -/
theorem enclosed_of_not_starts {code : String}
    (h : ∀ text ∈ separated code, Fence.backquotes.starts (trim text.toList) = false) :
    Enclosed code := by
  have hparts : enclosedParts code =
      (separated code ++ ["\x60\x60\x60"]).map Part.verbatim := by
    have hlines : unnumbered (separated code ++ ["\x60\x60\x60"]) =
        unnumbered (separated code) ++ [(0, "\x60\x60\x60")] := List.map_append
    rw [enclosedParts, hlines, scan_of_not_starts h, Part.scan_of_fence, if_pos (by decide),
      Part.scan, List.map_append, List.map_singleton]
  refine ⟨?_, ?_, ?_⟩
  · rw [hparts, List.flatMap_map]
    exact List.flatMap_eq_nil_iff.2 fun _ _ => rfl
  · rw [hparts, List.filterMap_map]
    exact List.filterMap_eq_nil_iff.2 fun _ _ => rfl
  · rw [hparts, List.map_append, List.foldl_append, fenceAfter_of_not_starts h]
    decide

/-! ### Blocks filled with code -/

/-- Every example gets code, of those that `T` allows. -/
def CodeOf (T : String → Prop) (code : Option String) : Prop := ∃ text, code = some text ∧ T text

theorem rewrites_codeOf {T : String → Prop} (hT : ∀ code, T code → Enclosed code) {ps : List Part}
    {es : List Reading} (h : Forall₂ (Rewrites (CodeOf T)) ps es) :
    (es.flatMap Reading.parts).flatMap Part.references =
        (ps.flatMap Part.references).map (renumber fun _ => 0) ∧
      (es.flatMap Reading.parts).filterMap Part.example? = [] := by
  induction h with
  | nil => exact ⟨rfl, rfl⟩
  | @cons p e ps es hfirst _ ih =>
    obtain ⟨hreferences, hexamples⟩ := ih
    have he : e.parts.flatMap Part.references = p.references.map (renumber fun _ => 0) ∧
        e.parts.filterMap Part.example? = [] := by
      cases hfirst with
      | kept htext =>
        cases p with
        | prose | verbatim | unnamed =>
          exact ⟨(List.flatMap_singleton ..).trans (references_renumber _), rfl⟩
        | shown => cases htext
      | asked hC =>
        obtain ⟨_, hnone, -⟩ := hC
        cases hnone
      | filled hC =>
        obtain ⟨_, hsome, hcode⟩ := hC
        cases hsome
        exact ⟨(hT _ hcode).links, (hT _ hcode).examples⟩
    rw [List.flatMap_cons, List.flatMap_append, List.filterMap_append, he.1, he.2, hreferences,
      hexamples, List.flatMap_cons, List.map_append]
    exact ⟨rfl, rfl⟩

/-- Shown code, with `texts` behind it. -/
theorem partsOf_fenced (code : String) {texts : List String}
    (hlast : ∀ text ∈ texts.getLast?, isBlank text.toList = false) :
    partsOf (unnumbered (fenceLines "cpp" (separated code) ++ texts)) =
      .verbatim "\x60\x60\x60cpp" :: (enclosedParts code ++
        Part.scan ((enclosedParts code).foldl Part.fenceAfter (some .backquotes))
          (unnumbered texts)) := by
  obtain ⟨hfirst, hclose⟩ :=
    isBlank_of_mem_ends_fenceLines "cpp" (separated code) (by decide)
  have hlast' : ∀ text ∈ (fenceLines "cpp" (separated code) ++ texts).getLast?,
      isBlank text.toList = false := by
    intro text htext
    rw [List.getLast?_append, Option.mem_def, Option.or_eq_some_iff] at htext
    rcases htext with htext | ⟨-, htext⟩
    · exact hlast text htext
    · exact hclose text htext
  have hfirst' : ∀ text ∈ (fenceLines "cpp" (separated code) ++ texts).head?,
      isBlank text.toList = false := hfirst
  rw [partsOf, withoutBlankEnds_unnumbered hfirst' hlast', scan_fenced]

/-- The markdown of a filled block is read with the links of the comment and without examples. -/
def KeepsLinks (C : Option String → Prop) : Prop :=
  ∀ (ls again : List NumberedLine) (b : DocBlock), (∀ l ∈ ls, '\n' ∉ l.2.toList) →
    Forall₂ (Segment.Filled C) (ofLines ls).segments b.segments →
    again.map Prod.snd = separated b.markdown →
    links (ofLines again) = links (ofLines ls) ∧ examples (ofLines again) = []

theorem KeepsLinks.of_enclosed {T : String → Prop} (hT : ∀ code, T code → Enclosed code) :
    KeepsLinks (CodeOf T) := by
  intro ls again b hls hb hagain
  have hC : ∀ code, CodeOf T (some code) →
      (enclosedParts code).foldl Part.fenceAfter (some .backquotes) = none := by
    rintro code ⟨_, hsome, hcode⟩
    cases hsome
    exact (hT code hcode).closed
  obtain ⟨es, hes, -, hparts⟩ := exists_reading hC hls hb hagain
  obtain ⟨hreferences, hexamples⟩ := rewrites_codeOf hT hes
  rw [← hparts] at hreferences hexamples
  constructor
  · rw [flatMap_references_renumber] at hreferences
    have hlinks := congrArg (List.map fun r : CrossReference => (r.kind, r.path)) hreferences
    rw [List.map_map, List.map_map] at hlinks
    exact hlinks
  · rw [examples_ofLines, List.filterMap_eq_nil_iff]
    intro p hp
    have hnone := List.filterMap_eq_nil_iff.1 hexamples _ (List.mem_map_of_mem hp)
    cases p with
    | prose | verbatim | unnamed => rfl
    | shown => cases hnone

/-! ### A comment that tells whether code is enclosed -/

/-- An example, and prose behind it. -/
def exampleThen (texts : List String) : List NumberedLine :=
  unnumbered (fenceLines "snippet" ["x"] ++ texts)

theorem segmentsFrom_prose (run texts : List String) :
    segmentsFrom run (texts.map (Part.prose 0)) = segmentsFrom (run ++ texts) [] := by
  induction texts generalizing run with
  | nil => rw [List.map_nil, List.append_nil]
  | cons text texts ih =>
    calc segmentsFrom run ((text :: texts).map (Part.prose 0))
        = segmentsFrom (run ++ [text]) (texts.map (Part.prose 0)) := by
          rw [List.map_cons]
          conv =>
            lhs
            rw [segmentsFrom]
      _ = segmentsFrom (run ++ text :: texts) [] := by
          rw [ih, List.append_assoc, List.singleton_append]

theorem KeepsLinks.behind_example {code : String} (h : KeepsLinks (· = some code))
    {texts : List String}
    (hunbroken : ∀ text ∈ texts, '\n' ∉ text.toList)
    (hlast : ∀ text ∈ texts.getLast?, isBlank text.toList = false)
    (hparts : partsOf (exampleThen texts) = .shown "x" 0 :: texts.map (Part.prose 0)) :
    let behind := enclosedParts code ++
      Part.scan ((enclosedParts code).foldl Part.fenceAfter (some .backquotes)) (unnumbered texts)
    (behind.flatMap Part.references).map (fun r => (r.kind, r.path)) =
        links (ofLines (exampleThen texts)) ∧
      behind.filterMap Part.example? = [] := by
  have hsegments : (ofLines (exampleThen texts)).segments =
      .shown ⟨"x", 0, none⟩ :: segmentsFrom texts [] := by
    show segmentsFrom [] (partsOf _) = _
    rw [hparts, segmentsFrom_shown, segmentsFrom_prose]
    simp [segmentsFrom]
  have hfilled : Forall₂ (Segment.Filled (· = some code)) (segmentsFrom texts [])
      (segmentsFrom texts []) := by
    rw [segmentsFrom]
    split
    · exact .nil
    · exact .cons (.markdown _) .nil
  have hlines : ∀ text ∈ fenceLines "cpp" (separated code) ++ texts, '\n' ∉ text.toList := by
    refine List.forall_mem_append.2 ⟨?_, hunbroken⟩
    exact not_mem_of_mem_fenceLines (by decide) fun _ => not_mem_of_mem_separated
  have hls : ∀ l ∈ exampleThen texts, '\n' ∉ l.2.toList := by
    refine List.forall_mem_map.2 (List.forall_mem_append.2 ⟨?_, hunbroken⟩)
    decide
  have hmarkdown :
      (Segment.shown ⟨"x", 0, some code⟩ :: segmentsFrom texts []).flatMap Segment.texts =
        fenceLines "cpp" (separated code) ++ texts := by
    rw [List.flatMap_cons, flatMap_texts_of_end hunbroken hfilled]
    rfl
  have hne : fenceLines "cpp" (separated code) ++ texts ≠ [] := List.cons_ne_nil _ _
  obtain ⟨hlinks, hexamples⟩ := h (exampleThen texts)
    (unnumbered (fenceLines "cpp" (separated code) ++ texts))
    ⟨0, .shown ⟨"x", 0, some code⟩ :: segmentsFrom texts [], []⟩ hls
    (by rw [hsegments]; exact .cons (.shown rfl) hfilled)
    (by
      rw [markdown_eq, hmarkdown, separated_joinLines hne hlines, unnumbered, List.map_map]
      exact List.map_id _)
  rw [links_ofLines, partsOf_fenced code hlast] at hlinks
  rw [examples_ofLines, partsOf_fenced code hlast] at hexamples
  exact ⟨hlinks, hexamples⟩

theorem KeepsLinks.enclosed {code : String} (h : KeepsLinks (· = some code)) : Enclosed code := by
  have halone : partsOf (exampleThen []) = [.shown "x" 0] := by decide +kernel
  have hlinked : partsOf (exampleThen ["[\x60struct: S\x60]()"]) =
      [.shown "x" 0, .prose 0 "[\x60struct: S\x60]()"] := by
    decide +kernel
  have hlink : (Part.references (.prose 0 "[\x60struct: S\x60]()")).length = 1 := by decide +kernel
  obtain ⟨hlinks, hexamples⟩ := h.behind_example (by simp) (by simp) halone
  obtain ⟨hlinks', -⟩ := h.behind_example (by decide) (by decide) hlinked
  rw [links_ofLines, halone] at hlinks
  have hscan (fence : Option Fence) : Part.scan fence (unnumbered []) = [] := by
    rw [unnumbered, List.map_nil, Part.scan]
  rw [hscan, List.append_nil] at hlinks hexamples
  have hreferences := List.map_eq_nil_iff.1 hlinks
  refine ⟨hreferences, hexamples, ?_⟩
  -- A fence left open would make the line with the link a line of code.
  cases hopen : (enclosedParts code).foldl Part.fenceAfter (some .backquotes) with
  | none => rfl
  | some f =>
    have hscan' : Part.scan (some f) (unnumbered ["[\x60struct: S\x60]()"]) =
        [.verbatim "[\x60struct: S\x60]()"] := by
      show Part.scan (some f) ((0, _) :: unnumbered []) = _
      rw [Part.scan_of_fence, hscan]
    have hlength := congrArg List.length hlinks'
    rw [links_ofLines, hlinked, hopen, hscan', List.length_map, List.length_map,
      List.flatMap_append, hreferences] at hlength
    have hone : ([Part.shown "x" 0, .prose 0 "[\x60struct: S\x60]()"].flatMap
        Part.references).length = 1 := by
      simpa [Part.references] using hlink
    rw [hone] at hlength
    cases hlength

/-- Filled blocks are read again with the links of their comments and without examples, for every
comment and every code in `T` for its examples, just when all code in `T` is enclosed. -/
theorem filling_keeps_links_iff (T : String → Prop) :
    KeepsLinks (CodeOf T) ↔ ∀ code, T code → Enclosed code := by
  constructor
  · intro h code hcode
    have hone : KeepsLinks (· = some code) := by
      intro ls again b hls hb hagain
      refine h ls again b hls (hb.imp fun s s' hs => ?_) hagain
      cases hs with
      | markdown text => exact .markdown text
      | shown hsome => exact .shown ⟨code, hsome, hcode⟩
    exact hone.enclosed
  · exact KeepsLinks.of_enclosed

/-! ### Filling from the snippets of a header -/

/-- The texts of snippets. -/
def snippetText (regions : Regions) (text : String) : Prop :=
  ∃ name r, regions.get? .snippet name = some r ∧ r.text = text

/-- A block none of whose examples has its code yet is given that of snippets. -/
theorem filled_of_examples {regions : Regions} {b b' : DocBlock} {context : String}
    (hb : ∀ x ∈ b.examples, x.code = none) (h : (b.fill regions context).result = .ok b') :
    Forall₂ (Segment.Filled (CodeOf (snippetText regions))) b.segments b'.segments := by
  obtain ⟨segments, hsegments, h⟩ := Outcome.result_bind_eq_ok.1 h
  cases h
  have hfilled := Outcome.result_mapM_eq_ok.1 hsegments
  refine List.forall₂_iff_zip.2 ⟨hfilled.length_eq, fun {s s'} hzip => ?_⟩
  have hs := List.forall₂_zip hfilled hzip
  cases s with
  | markdown text =>
    cases hs
    exact .markdown text
  | shown x =>
    have hcode := hb x (mem_examples.2 (List.of_mem_zip hzip).1)
    unfold Segment.fill at hs
    dsimp only at hs
    rw [hcode, Option.isSome_none, if_neg (by simp)] at hs
    split at hs
    · rename_i r hr
      cases hs
      exact .shown ⟨r.text, rfl, x.snippet, r, hr, rfl⟩
    · cases hs

theorem filled_of_fill {regions : Regions} {b b' : DocBlock} {context : String} (hb : b.Raw)
    (h : (b.fill regions context).result = .ok b') :
    Forall₂ (Segment.Filled (CodeOf (snippetText regions))) b.segments b'.segments :=
  filled_of_examples hb.examples h

/-- Snippets none of whose lines starts with three backquotes keep the links of a comment. -/
theorem links_of_fill {regions : Regions} {ls again : List NumberedLine} {context : String}
    {b : DocBlock}
    (hregions : ∀ code, snippetText regions code →
      ∀ text ∈ separated code, Fence.backquotes.starts (trim text.toList) = false)
    (hls : ∀ l ∈ ls, '\n' ∉ l.2.toList) (hfill : ((ofLines ls).fill regions context).result = .ok b)
    (hagain : again.map Prod.snd = separated b.markdown) :
    links (ofLines again) = links (ofLines ls) ∧ examples (ofLines again) = [] := by
  have hkeeps : KeepsLinks (CodeOf (snippetText regions)) :=
    KeepsLinks.of_enclosed fun code hcode => enclosed_of_not_starts (hregions code hcode)
  exact hkeeps ls again b hls (filled_of_fill (raw_ofLines ls) hfill) hagain

/-- A header whose snippet is a comment with a fence in it. -/
def fencedSource : String :=
  "//// [snippet: s]\n/*\n\x60\x60\x60\n[\x60struct: T\x60]()\n\x60\x60\x60\n*/\n//// [/snippet]\n"

def fencedLines : List SourceLine :=
  [⟨1, 0, "//// [snippet: s]", .marker (.opens .snippet "s"), false⟩,
    ⟨2, 18, "/*", .code, false⟩,
    ⟨3, 21, "\x60\x60\x60", .code, false⟩,
    ⟨4, 25, "[\x60struct: T\x60]()", .code, false⟩,
    ⟨5, 41, "\x60\x60\x60", .code, false⟩,
    ⟨6, 45, "*/", .code, false⟩,
    ⟨7, 48, "//// [/snippet]", .marker (.closes .snippet), false⟩]

def fencedSnippet : Region :=
  ⟨.snippet, "s", 1, ["/*", "\x60\x60\x60", "[\x60struct: T\x60]()", "\x60\x60\x60", "*/"]⟩

/-- A comment that shows the snippet, and nothing else. -/
def showingComment : List NumberedLine :=
  [(8, "\x60\x60\x60snippet"), (9, "s"), (10, "\x60\x60\x60")]

/-- The fence in the snippet ends the one around it, and what it holds is prose of the comment. -/
theorem exists_links_changed :
    ¬ ∀ (source : String) (lines : List SourceLine) (regions : Regions)
        (ls again : List NumberedLine) (context : String) (b : DocBlock),
      SourceLine.classify source = .ok lines → Regions.extract lines = .ok regions →
      (∀ l ∈ ls, '\n' ∉ l.2.toList) → ((ofLines ls).fill regions context).result = .ok b →
      again.map Prod.snd = separated b.markdown →
      links (ofLines again) = links (ofLines ls) ∧ examples (ofLines again) = [] := by
  intro hall
  have hlines : SourceLine.classify fencedSource = .ok fencedLines := by cbv
  have hregions : Regions.extract fencedLines = .ok ⟨[fencedSnippet]⟩ := by cbv
  have hblock : ofLines showingComment = ⟨8, [.shown ⟨"s", 9, none⟩], []⟩ := by
    have hparts : partsOf showingComment = [.shown "s" 9] := by decide +kernel
    unfold ofLines
    rw [hparts, segmentsFrom_shown]
    simp [segmentsFrom, Part.references, showingComment]
  let filled : DocBlock := ⟨8, [.shown ⟨"s", 9, some fencedSnippet.text⟩], []⟩
  have hfill : ((ofLines showingComment).fill ⟨[fencedSnippet]⟩ "S").result = .ok filled := by
    rw [hblock]
    rfl
  have hcode : separated fencedSnippet.text = fencedSnippet.lines :=
    separated_joinLines (by decide) (by decide)
  have hmarkdown : separated filled.markdown = fenceLines "cpp" fencedSnippet.lines := by
    have htexts : filled.segments.flatMap Segment.texts = fenceLines "cpp" fencedSnippet.lines := by
      rw [← hcode]
      exact List.flatMap_singleton ..
    rw [markdown_eq, htexts]
    exact separated_joinLines (by decide) (by decide)
  have hparts : partsOf (unnumbered (fenceLines "cpp" fencedSnippet.lines)) =
      [.verbatim "\x60\x60\x60cpp", .verbatim "/*", .verbatim "\x60\x60\x60",
        .prose 0 "[\x60struct: T\x60]()", .verbatim "\x60\x60\x60", .verbatim "*/",
        .verbatim "\x60\x60\x60"] := by
    decide +kernel
  have hlink : (Part.references (.prose 0 "[\x60struct: T\x60]()")).length = 1 := by decide +kernel
  obtain ⟨hlinks, -⟩ := hall fencedSource fencedLines ⟨[fencedSnippet]⟩ showingComment
    (unnumbered (fenceLines "cpp" fencedSnippet.lines)) "S" filled hlines hregions (by decide) hfill
    (by rw [hmarkdown]; decide)
  have hlength := congrArg List.length hlinks
  rw [links_ofLines, hparts, hblock, List.length_map] at hlength
  have hone : ([Part.verbatim "\x60\x60\x60cpp", .verbatim "/*", .verbatim "\x60\x60\x60",
      .prose 0 "[\x60struct: T\x60]()", .verbatim "\x60\x60\x60", .verbatim "*/",
      .verbatim "\x60\x60\x60"].flatMap Part.references).length = 1 := by
    simpa [Part.references] using hlink
  rw [hone] at hlength
  cases hlength

end AnnotatedHeader.DocBlock
