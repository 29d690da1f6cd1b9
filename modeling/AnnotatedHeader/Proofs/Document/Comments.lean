import AnnotatedHeader.Proofs.CommentBlock.Partition
import AnnotatedHeader.Proofs.DocBlock.Filling
import AnnotatedHeader.Proofs.Document.Complete
import AnnotatedHeader.Proofs.Document.Directives
import AnnotatedHeader.Proofs.Numbering.Lines
import AnnotatedHeader.Proofs.Region.Dedent
import AnnotatedHeader.Proofs.Region.Sources
import AnnotatedHeader.Proofs.Resolution.Docs

/-! Printed doc comments.

A doc comment is printed with a sign in front of each line of its markdown, and read without
the sign, one space behind it and the white space at its end. The line comes back as it was if
there is no such white space and no line feed (`IsCommentText`): a comment's own lines are like
that since they have been read, and the code of an example since it has been dedented. So a
block of a document, printed at whatever depth, is read as one comment with the lines of its
markdown (`Document.comments_reread`). -/
namespace AnnotatedHeader

open List (Forall₂)
open Text

/-- A text that is read from behind the sign of a doc comment as it stands. -/
structure IsCommentText (text : String) : Prop where
  unbroken : '\n' ∉ text.toList
  trimmed : trimEnd text.toList = text.toList

theorem isCommentText_empty : IsCommentText "" := ⟨by decide, rfl⟩

/-! ### One line -/

/-- A text as a line of a printed comment. -/
def commentLine (depth : Nat) (text : String) : String :=
  indented depth (if text.isEmpty then "///" else "/// " ++ text)

theorem DocBlock.commentLines_eq (depth : Nat) (b : DocBlock) :
    b.commentLines depth = (Text.lines b.markdown).map (commentLine depth) := rfl

/-- What stands behind the sign. -/
def behindSign (text : String) : List Char := if text.isEmpty then [] else ' ' :: text.toList

theorem toList_commentLine (depth : Nat) (text : String) :
    (commentLine depth text).toList = List.replicate depth '\t' ++ ('/' :: '/' :: '/' :: behindSign text) := by
  unfold commentLine behindSign
  rw [indented, String.toList_append, String.toList_ofList]
  split
  · rfl
  · rw [String.toList_append]
    rfl

theorem dropWhile_commentLine (depth : Nat) (text : String) :
    (commentLine depth text).toList.dropWhile isAsciiSpace = '/' :: '/' :: '/' :: behindSign text := by
  rw [toList_commentLine, List.dropWhile_append_of_pos]
  · rfl
  · intro c hc
    rw [List.eq_of_mem_replicate hc]
    rfl

theorem toolText?_commentLine (depth : Nat) (text : String) :
    toolText? (commentLine depth text).toList = none := by
  rw [toolText?, dropWhile_commentLine, behindSign]
  split <;> rfl

theorem docText?_commentLine (depth : Nat) (text : String) :
    docText? (commentLine depth text).toList = some text.toList := by
  rw [docText?, dropWhile_commentLine]
  cases hempty : text.isEmpty with
  | true =>
    obtain rfl := String.isEmpty_iff.1 hempty
    rfl
  | false =>
    rw [behindSign, hempty]
    rfl

/-- A printed line is the doc comment that says what is printed. -/
theorem read_commentLine {text : String} (h : IsCommentText text) (depth : Nat) :
    LineKind.read (commentLine depth text).toList = .ok (.doc text) := by
  simp only [LineKind.read, toolText?_commentLine, docText?_commentLine, h.trimmed,
    String.ofList_toList]

/-- No carriage return is taken off it. -/
theorem withoutFinal_commentLine {text : String} (h : IsCommentText text) (depth : Nat) :
    withoutFinal '\r' (commentLine depth text).toList = (commentLine depth text).toList := by
  refine if_neg fun hlast => ?_
  have hsign : (commentLine depth text).toList =
      (List.replicate depth '\t' ++ ['/', '/']) ++ '/' :: behindSign text := by
    rw [toList_commentLine, List.append_assoc]
    rfl
  rw [hsign, List.getLast?_append_of_ne_nil _ (List.cons_ne_nil _ _)] at hlast
  cases hempty : text.isEmpty with
  | true =>
    rw [behindSign, hempty] at hlast
    cases hlast
  | false =>
    have hne : text.toList ≠ [] := by simpa using hempty
    rw [behindSign, hempty, if_neg Bool.false_ne_true, List.getLast?_cons_cons,
      List.getLast?_cons_of_ne_nil hne] at hlast
    exact absurd (trimEnd_eq_self_iff.1 h.trimmed _ hlast) (by decide)

/-! ### A comment -/

/-- Lines that read as doc comments are classified as these, and none is ignored. -/
theorem SourceLine.exists_classifyFrom_of_docs {raws : List (List Char)} {texts : List String}
    (h : Forall₂ (fun raw text => LineKind.read (withoutFinal '\r' raw) = .ok (.doc text)) raws texts)
    (line offset : Nat) :
    ∃ ls, classifyFrom none line offset raws = .ok ls ∧ ls.map (·.kind) = texts.map .doc ∧
      ∀ l ∈ ls, l.ignored = false := by
  induction h generalizing line offset with
  | nil => exact ⟨[], rfl, rfl, by simp⟩
  | @cons raw text raws texts hread _ ih =>
    obtain ⟨ls, hls, hkinds, hseen⟩ := ih (line + 1) (offset + byteLength raw)
    refine ⟨⟨line, offset, .ofList (withoutFinal '\r' raw), .doc text, false⟩ :: ls, ?_, ?_, ?_⟩
    · rw [classifyFrom_cons, hread]
      dsimp only
      rw [ignoring_of_not_isMarker rfl]
      dsimp only
      rw [Option.isSome_none, hls]
      rfl
    · rw [List.map_cons, List.map_cons, hkinds]
    · exact List.forall_mem_cons.2 ⟨rfl, hseen⟩

theorem CommentBlock.groupFrom_of_docs {ls : List SourceLine} (h : ∀ l ∈ ls, l.IsDoc)
    {run : List NumberedLine} (hne : run ++ ls.map SourceLine.entry ≠ []) :
    groupFrom run ls = [⟨run ++ ls.map SourceLine.entry, none⟩] := by
  induction ls generalizing run with
  | nil =>
    rw [List.map_nil, List.append_nil] at hne
    rw [groupFrom, if_neg (by simpa using hne), List.map_nil, List.append_nil]
  | cons l ls ih =>
    obtain ⟨⟨text, hkind⟩, hls⟩ := List.forall_mem_cons.1 h
    rw [List.map_cons, List.append_cons, SourceLine.entry_of_doc hkind] at hne ⊢
    rw [groupFrom_cons_of_doc hkind, ih hls hne]

/-- Doc comments in a row are one comment. -/
theorem CommentBlock.exists_group_of_docs {ls : List SourceLine} {texts : List String}
    (hkinds : ls.map (·.kind) = texts.map .doc) (hseen : ∀ l ∈ ls, l.ignored = false)
    (hne : texts ≠ []) :
    ∃ c, group ls = [c] ∧ c.proxy = none ∧ c.lines.map Prod.snd = texts := by
  have hdocs : ∀ l ∈ ls, l.IsDoc := by
    intro l hl
    have hmem : l.kind ∈ texts.map LineKind.doc := hkinds ▸ List.mem_map_of_mem hl
    obtain ⟨text, -, htext⟩ := List.mem_map.1 hmem
    exact ⟨text, htext.symm⟩
  have hvisible : ls.filter (·.isVisible) = ls :=
    List.filter_eq_self.2 fun l hl => by simp [SourceLine.isVisible, hseen l hl]
  have hentries : (ls.map SourceLine.entry).map Prod.snd = texts := by
    rw [← List.forall₂_eq_eq_eq, List.forall₂_map_left_iff, List.forall₂_map_right_iff] at hkinds
    rw [← List.forall₂_eq_eq_eq, List.forall₂_map_left_iff, List.forall₂_map_left_iff]
    refine hkinds.imp fun l text hkind => ?_
    rw [SourceLine.entry_of_doc hkind]
  have hnonempty : [] ++ ls.map SourceLine.entry ≠ [] := by
    rintro hnil
    rw [List.nil_append] at hnil
    rw [hnil] at hentries
    exact hne hentries.symm
  refine ⟨⟨ls.map SourceLine.entry, none⟩, ?_, rfl, hentries⟩
  rw [group, hvisible]
  exact groupFrom_of_docs hdocs hnonempty

/-- A printed comment is read as it was, at whatever depth it stands. -/
theorem comment_reread {texts : List String} (h : ∀ text ∈ texts, IsCommentText text)
    (hne : texts ≠ []) (depth : Nat) :
    ∃ ls c, SourceLine.classify (String.join ((texts.map (commentLine depth)).map (· ++ "\n"))) = .ok ls ∧
      ls.map (·.kind) = texts.map .doc ∧ CommentBlock.group ls = [c] ∧ c.proxy = none ∧
      c.lines.map Prod.snd = texts := by
  have hunbroken : ∀ raw ∈ texts.map fun text => (commentLine depth text).toList, '\n' ∉ raw := by
    refine List.forall_mem_map.2 fun text htext => not_mem_indented ?_ depth
    split
    · decide
    · simpa using (h text htext).unbroken
  have hraws : fileLines (String.join ((texts.map (commentLine depth)).map (· ++ "\n"))).toList =
      texts.map fun text => (commentLine depth text).toList := by
    rw [toList_join_lines, List.map_map]
    exact fileLines_flatMap (by simpa using hne) hunbroken
  have hreads : Forall₂ (fun raw text => LineKind.read (withoutFinal '\r' raw) = .ok (.doc text))
      (texts.map fun text => (commentLine depth text).toList) texts := by
    rw [List.forall₂_map_left_iff]
    refine List.forall₂_same.2 fun text htext => ?_
    rw [withoutFinal_commentLine (h text htext)]
    exact read_commentLine (h text htext) depth
  obtain ⟨ls, hls, hkinds, hseen⟩ := SourceLine.exists_classifyFrom_of_docs hreads 1 0
  obtain ⟨c, hgroup, hproxy, htexts⟩ := CommentBlock.exists_group_of_docs hkinds hseen hne
  refine ⟨ls, c, ?_, hkinds, hgroup, hproxy, htexts⟩
  rw [SourceLine.classify, hraws]
  exact hls

/-! ### The lines of markdown -/

/-- Texts the last of which is not blank are the lines of what they are joined to. -/
theorem lines_joinLines {texts : List String} (h : ∀ text ∈ texts, IsCommentText text)
    (hne : texts ≠ []) (hlast : ∀ text ∈ texts.getLast?, isBlank text.toList = false) :
    Text.lines (joinLines texts) = texts := by
  obtain ⟨init, last, rfl⟩ := (List.eq_nil_or_concat' texts).resolve_left hne
  have hsplit : splitOn '\n' (joinLines (init ++ [last])).toList =
      init.map String.toList ++ [last.toList] := by
    rw [toList_joinLines, splitOn_intercalate (by simp)
      (List.forall_mem_map.2 fun text htext => (h text htext).unbroken), List.map_append]
    rfl
  have hvisible : last.toList.isEmpty = false := by
    refine Bool.eq_false_iff.2 fun hempty => ?_
    have hblank := hlast last (by simp)
    rw [List.isEmpty_iff.1 hempty] at hblank
    cases hblank
  have hkept : (init.map String.toList).map (withoutFinal '\r') = init.map String.toList := by
    rw [List.map_map]
    refine List.map_congr_left fun text htext => if_neg fun hends => ?_
    have htrimmed := (h text (List.mem_append_left _ htext)).trimmed
    exact absurd (trimEnd_eq_self_iff.1 htrimmed _ hends) (by decide)
  unfold Text.lines endedLines
  dsimp only
  rw [hsplit, List.dropLast_concat, List.getLastD_concat, hvisible, hkept]
  simp [Function.comp_def]

/-! ### What a header's comments and snippets say -/

theorem docText?_isSuffix {cs body : List Char} (h : docText? cs = some body) : body <:+ cs := by
  have hbehind {rest : List Char}
      (hlead : afterLead? ['/', '/', '/'] (cs.dropWhile isAsciiSpace) = some rest) : rest <:+ cs :=
    List.IsSuffix.trans ⟨_, (afterLead?_eq_some_iff.1 hlead).symm⟩ (List.dropWhile_suffix isAsciiSpace)
  unfold docText? at h
  split at h
  · cases h
  · rename_i rest hlead
    cases h
    exact (List.suffix_cons ..).trans (hbehind hlead)
  · exact hbehind h

theorem isCommentText_of_read {cs : List Char} {text : String} (hcs : '\n' ∉ cs)
    (h : LineKind.read cs = .ok (.doc text)) : IsCommentText text := by
  unfold LineKind.read at h
  split at h
  · split at h <;> cases h
  · split at h
    · rename_i body hbody
      cases h
      refine ⟨?_, by rw [String.toList_ofList, trimEnd_trimEnd]⟩
      rw [String.toList_ofList]
      exact fun hmem =>
        hcs ((docText?_isSuffix hbody).subset ((trimEnd_isPrefix body).subset hmem))
    · cases h

section Header
variable {source : String} {ls : List SourceLine} {regions : Regions}

theorem SourceLine.unbroken_of_classify (h : classify source = .ok ls) : ∀ l ∈ ls, l.Unbroken :=
  unbroken_of_classifyFrom (fun _ => not_mem_of_mem_fileLines) h

theorem CommentBlock.isCommentText_of_mem_group (h : SourceLine.classify source = .ok ls)
    {c : CommentBlock} (hc : c ∈ group ls) : ∀ l ∈ c.lines, IsCommentText l.2 := by
  have hparted : Parted (ls.filter (·.isVisible)) (group ls) := parted_groupFrom (pending_nil _)
  obtain ⟨front, run, rest, hseen, -, rfl⟩ := hparted.exists_run hc
  refine List.forall_mem_map.2 fun l hl => ?_
  have hmem : l ∈ ls := by
    refine (List.mem_filter.1 (?_ : l ∈ ls.filter (·.isVisible))).1
    rw [hseen]
    exact List.mem_append_right _ (List.mem_append_left _ hl)
  by_cases hdoc : l.IsDoc
  · obtain ⟨text, hkind⟩ := hdoc
    rw [SourceLine.entry_of_doc hkind]
    have hread := SourceLine.read_of_classifyFrom h l hmem
    rw [hkind] at hread
    exact isCommentText_of_read (SourceLine.unbroken_of_classify h l hmem).text hread
  · rw [SourceLine.entry_of_not_isDoc hdoc]
    exact isCommentText_empty

theorem Regions.isCommentText_of_get? (h : SourceLine.classify source = .ok ls)
    (hregions : extract ls = .ok regions) {kind : RegionKind} {name : String} {r : Region}
    (hr : regions.get? kind name = some r) : ∀ text ∈ r.lines, IsCommentText text := by
  intro text htext
  have hwithin := within_of_extract (SourceLine.map_line_of_classifyFrom h).1
    (SourceLine.unbroken_of_classify h) hregions r (get?_eq_some hr).1
  refine ⟨hwithin.unbroken text htext, ?_⟩
  obtain ⟨inside, hholds⟩ := exists_holds hregions hr
  obtain ⟨n, hlines⟩ := hholds.text
  rw [hlines] at htext
  obtain ⟨l, -, rfl⟩ := List.mem_map.1 htext
  rw [String.toList_ofList]
  exact Region.trimEnd_shifted n _

theorem DocBlock.isCommentText_of_snippetText (h : SourceLine.classify source = .ok ls)
    (hregions : Regions.extract ls = .ok regions) {code : String} (hcode : snippetText regions code) :
    ∀ text ∈ separated code, IsCommentText text := by
  obtain ⟨name, r, hr, rfl⟩ := hcode
  have hlines := Regions.isCommentText_of_get? h hregions hr
  by_cases hnil : r.lines = []
  · have hempty : separated r.text = [""] := by
      rw [Region.text, hnil]
      decide
    rw [hempty]
    exact List.forall_mem_singleton.2 isCommentText_empty
  · rw [Region.text, separated_joinLines hnil fun text htext => (hlines text htext).unbroken]
    exact hlines

end Header

/-! ### Filled blocks -/

namespace DocBlock

theorem isCommentText_of_mem_fenceLines {code : List String}
    (hcode : ∀ text ∈ code, IsCommentText text) :
    ∀ text ∈ fenceLines "cpp" code, IsCommentText text := by
  refine List.forall_mem_append.2 ⟨List.forall_mem_cons.2 ⟨?_, hcode⟩, List.forall_mem_singleton.2 ?_⟩
  · exact ⟨by decide, by decide⟩
  · exact ⟨by decide, by decide⟩

/-- A block of a comment, filled with code, is written with texts that are read as they stand, the
last of them one that can be seen. -/
theorem exists_texts_of_filled {ls : List NumberedLine} {T : String → Prop} {b : DocBlock}
    (hls : ∀ l ∈ ls, IsCommentText l.2)
    (hcode : ∀ code, T code → ∀ text ∈ separated code, IsCommentText text)
    (hb : Forall₂ (Segment.Filled (CodeOf T)) (ofLines ls).segments b.segments)
    (hne : b.segments ≠ []) :
    ∃ texts, b.markdown = joinLines texts ∧ texts ≠ [] ∧ (∀ text ∈ texts, IsCommentText text) ∧
      ∀ text ∈ texts.getLast?, isBlank text.toList = false := by
  obtain ⟨spans, es, hkept, hspans, hes, htexts⟩ :=
    exists_written (fun l hl => (hls l hl).unbroken) hb
  refine ⟨es.flatMap Reading.texts, by rw [b.markdown_eq, htexts], ?_, ?_,
    (not_isBlank_ends hkept hspans hes).2⟩
  · rw [← htexts]
    obtain ⟨s, rest, hsegments⟩ := List.exists_cons_of_ne_nil hne
    rw [hsegments, List.flatMap_cons]
    exact List.append_ne_nil_of_left_ne_nil s.texts_ne_nil _
  · refine forall_texts_of_rewrites hspans hes (fun l hl => ?_) (fun hnone => ?_) fun code hsome => ?_
    · rw [← hkept] at hl
      exact hls l (mem_of_mem_withoutBlankEnds hl)
    · obtain ⟨text, htext, -⟩ := hnone
      cases htext
    · obtain ⟨text, htext, hT⟩ := hsome
      cases htext
      exact isCommentText_of_mem_fenceLines (hcode code hT)

end DocBlock

/-- A block that is resolved still refers to what it referred to. -/
theorem SymbolTable.links_of_resolveDoc {table : SymbolTable} {context : String} {b b' : DocBlock}
    (h : (table.resolveDoc b context).result = .ok b') : DocBlock.links b' = DocBlock.links b := by
  obtain ⟨-, -, hsettles⟩ := resolveDoc_eq_ok_iff.1 h
  unfold DocBlock.links
  generalize b.references = rs, b'.references = rs' at hsettles ⊢
  induction hsettles with
  | nil => rfl
  | cons hr _ ih =>
    obtain ⟨target, rfl⟩ := hr.target
    rw [List.map_cons, List.map_cons, ih]

theorem DocBlock.links_of_fill_eq {regions : Regions} {context : String} {b b' : DocBlock}
    (h : (b.fill regions context).result = .ok b') : links b' = links b := by
  obtain ⟨segments, -, h⟩ := Outcome.result_bind_eq_ok.1 h
  cases h
  rfl

/-! ### Documents -/

namespace Document
variable {file source : String} {d : Document}

/-- The blocks of a document are comments of its header, filled with code of its snippets, and refer
to what those refer to. -/
theorem exists_filled_of_build {found : Scope.Contents} {regions : Regions}
    {docOf : String → Option DocBlock} {D : DocBlock → Prop}
    (hD : ∀ b, D b → ∀ x ∈ b.examples, x.code = none)
    (hfound : ∀ m ∈ found.declarations, m.Every (Declared.DocsIn D))
    (hdocs : ∀ proxy, ∀ b ∈ docOf proxy, D b)
    (h : (build file found regions docOf).result = .ok d) :
    ∀ m ∈ d.walk, ∀ e ∈ m.toDeclared.docs, ∃ b, D b ∧
      Forall₂ (Segment.Filled (DocBlock.CodeOf (DocBlock.snippetText regions))) b.segments
        e.1.segments ∧ DocBlock.links e.1 = DocBlock.links b := by
  obtain ⟨injected, resolved, hinjected, hresolved, hfilled, -⟩ := result_build_eq_ok h
  have hmade := Declaration.forall_mem_walkAll.2 (docsIn_of_injects hdocs hfound hinjected)
  intro m hm e he
  obtain ⟨m₁, hm₁, e₁, he₁, -, hfill⟩ := Declaration.exists_doc_of_mapDocsAll hfilled hm he
  obtain ⟨m₀, hm₀, e₀, he₀, -, hresolve⟩ := Declaration.exists_doc_of_mapDocsAll hresolved hm₁ he₁
  have hb := hmade m₀ hm₀ e₀ he₀
  obtain ⟨-, hsegments, -⟩ := SymbolTable.resolveDoc_eq_ok_iff.1 hresolve
  have hexamples : e₁.1.examples = e₀.1.examples := congrArg (List.filterMap _) hsegments
  refine ⟨e₀.1, hb, ?_, (DocBlock.links_of_fill_eq hfill).trans (SymbolTable.links_of_resolveDoc hresolve)⟩
  rw [← hsegments]
  exact DocBlock.filled_of_examples (fun x hx => hD _ hb x (hexamples ▸ hx)) hfill

/-- **A printed doc block is read as one comment, line for line**, at whatever depth it stands and
whatever the header's comments and snippets say: it is doc comments and nothing else, and they say
the lines of the block's markdown. -/
theorem comments_reread (h : (ofSource file source).result = .ok d) :
    ∀ m ∈ d.walk, ∀ e ∈ m.toDeclared.docs, e.1.segments ≠ [] → ∀ depth, ∃ lines c,
      SourceLine.classify (String.join ((e.1.commentLines depth).map (· ++ "\n"))) = .ok lines ∧
        lines.map (·.kind) = (Text.lines e.1.markdown).map .doc ∧
        CommentBlock.group lines = [c] ∧ c.proxy = none ∧
        c.lines.map Prod.snd = Text.lines e.1.markdown := by
  obtain ⟨lines, regions, found, hlines, hregions, hfound, hbuild⟩ := result_ofSource_eq_ok.1 h
  intro m hm e he hne depth
  have hcomments : ∀ c ∈ CommentBlock.group lines,
      ∃ c' ∈ CommentBlock.group lines, c.toDoc = c'.toDoc := fun c hc => ⟨c, hc, rfl⟩
  obtain ⟨_, ⟨c, hc, rfl⟩, hfilled, -⟩ := exists_filled_of_build
    (D := fun b => ∃ c ∈ CommentBlock.group lines, b = c.toDoc)
    (fun _ ⟨_, _, hdoc⟩ => hdoc ▸ (DocBlock.raw_ofLines _).examples) (Scope.Contents.docsIn_of_ofLines hcomments hfound) (fun _ => docsIn_of_proxyDoc? hcomments)
    hbuild m hm e he
  obtain ⟨texts, hmarkdown, htextsNe, htexts, hlast⟩ := DocBlock.exists_texts_of_filled
    (CommentBlock.isCommentText_of_mem_group hlines hc)
    (fun _ => DocBlock.isCommentText_of_snippetText hlines hregions) hfilled hne
  rw [DocBlock.commentLines_eq, hmarkdown, lines_joinLines htexts htextsNe hlast]
  exact comment_reread htexts htextsNe depth

/-- A comment that shows a snippet, and white space at the ends of their lines. -/
def shownSource : String :=
  "//// [snippet: s]\n// plain \n//// [/snippet]\n" ++
    "/// Shows: \n/// \x60\x60\x60snippet\n/// s\n/// \x60\x60\x60\nstruct S;"

def shownLines : List SourceLine :=
  [⟨1, 0, "//// [snippet: s]", .marker (.opens .snippet "s"), false⟩,
    ⟨2, 18, "// plain ", .code, false⟩,
    ⟨3, 28, "//// [/snippet]", .marker (.closes .snippet), false⟩,
    ⟨4, 44, "/// Shows: ", .doc "Shows:", false⟩,
    ⟨5, 56, "/// \x60\x60\x60snippet", .doc "\x60\x60\x60snippet", false⟩,
    ⟨6, 71, "/// s", .doc "s", false⟩,
    ⟨7, 77, "/// \x60\x60\x60", .doc "\x60\x60\x60", false⟩,
    ⟨8, 85, "struct S;", .code, false⟩]

theorem comments_reread_shown :
    ∃ d b, (ofSource "t.h" shownSource).result = .ok d ∧ d.walk.flatMap (·.toDeclared.docs) = [(b, "S")] ∧
      ∃ lines c,
        SourceLine.classify (String.join ((b.commentLines 1).map (· ++ "\n"))) = .ok lines ∧
          CommentBlock.group lines = [c] ∧
          c.lines.map Prod.snd = ["Shows:", "\x60\x60\x60cpp", "// plain", "\x60\x60\x60"] := by
  let comment : List NumberedLine :=
    [(4, "Shows:"), (5, "\x60\x60\x60snippet"), (6, "s"), (7, "\x60\x60\x60")]
  let b (code : Option String) : DocBlock := ⟨4, [.markdown "Shows:", .shown ⟨"s", 6, code⟩], []⟩
  have hparts : DocBlock.partsOf comment = [.prose 4 "Shows:", .shown "s" 6] := by decide +kernel
  have hreferences : DocBlock.Part.references (.prose 4 "Shows:") = [] := by decide +kernel
  have hdoc : DocBlock.ofLines comment = b none := by
    unfold DocBlock.ofLines
    rw [hparts, List.flatMap_cons, hreferences]
    simp [DocBlock.segmentsFrom, DocBlock.Part.references, joinLines, comment, b]
  have hpieces : Piece.ofLines shownLines [⟨comment, none⟩] =
      [.doc (b none), .token ⟨.ident, "struct", 8⟩, .token ⟨.ident, "S", 8⟩,
        .token ⟨.semi, ";", 8⟩] := by
    rw [Piece.ofLines_of_block _ hdoc]
    cbv
  have hfound : (Scope.Contents.ofLines shownLines [⟨comment, none⟩]).result =
      .ok ⟨[⟨⟨"S", "S", 8, .everyone, none, none, "struct S", some (b none),
        .record .structKey ⟨none, [], false⟩, false⟩, []⟩], []⟩ := by
    refine Scope.Contents.result_ofLines_eq_ok.2 ⟨[], ?_⟩
    rw [hpieces]
    exact .continues rfl (.continues rfl (.ends rfl))
  have hresult : (ofSource "t.h" shownSource).result =
      .ok ⟨"t.h", [⟨⟨"S", "S", 8, .everyone, none, none, "struct S", some (b (some "// plain")),
        .record .structKey ⟨none, [], false⟩, false⟩, []⟩], [("s", "// plain")]⟩ := by
    have hregions : Regions.extract shownLines = .ok ⟨[⟨.snippet, "s", 1, ["// plain"]⟩]⟩ := by cbv
    rw [result_ofSource_of_stages _ _ (by cbv) hregions (by cbv) hfound]
    cbv
  have hmarkdown : Text.lines (b (some "// plain")).markdown =
      ["Shows:", "\x60\x60\x60cpp", "// plain", "\x60\x60\x60"] := by
    decide +kernel
  obtain ⟨lines, c, hlines, -, hgroup, -, htexts⟩ := comments_reread hresult _ (List.mem_cons_self ..)
    (b (some "// plain"), "S") (List.mem_cons_self ..) (List.cons_ne_nil _ _) 1
  exact ⟨_, b (some "// plain"), hresult, rfl, lines, c, hlines, hgroup, htexts.trans hmarkdown⟩

end Document

end AnnotatedHeader
