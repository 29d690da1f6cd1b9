import AnnotatedHeader.Proofs.Document.Markers
import AnnotatedHeader.Proofs.Document.Retold
import AnnotatedHeader.Proofs.Document.Said
import AnnotatedHeader.Proofs.Scope.Names
import Mathlib

/-! Documents that are kept.

A document's declarations restate themselves (`Document.Restated`) if, alone, the lines of each
are read as that declaration, if nothing stands in a namespace, and if no example shows code that
ends its fence. Then the header is read as the same declarations again, whose blocks refer to the
same and show nothing (`DocBlock.Rereads`). They say what the document says, so building them
fails nowhere and gives each reference the target it had (`Document.kept_of_restated`). -/
namespace AnnotatedHeader

open List (Forall₂)
open Text

/-! ### Names and blocks of a document -/

/-- A declaration has a name, and the parameters of a proxy have no blocks. -/
structure Declared.Made (own : Declared) : Prop where
  named : own.name ≠ ""
  silent : own.synthetic = true → own.item.docs = []

theorem Scope.Reads.made {s : Scope} {ps rest : List Piece} {found : Contents} {source : String}
    {line : Nat} (hts : ∀ t, .token t ∈ ps → t ∈ Token.tokenize source line)
    (h : Reads s s.start ps found rest) : ∀ d ∈ found.declarations, d.Every Declared.Made := by
  have hnamed := Declaration.forall_mem_walkAll.1 (h.named hts)
  have hreal := h.every_of_start nodeInvariant_real fun _ _ => trivial
  intro d hd m hm
  refine ⟨(hnamed d hd m hm).called.ne_empty, fun hsynthetic => ?_⟩
  cases (hreal d hd m hm).symm.trans hsynthetic

theorem Declaration.made_of_ofProxy {proxy : Region} {doc : Option DocBlock} {site : InjectSite}
    {member : Declaration} (h : (ofProxy proxy doc site).result = .ok member) :
    member.Every Declared.Made := by
  obtain ⟨first, others, signature, hfragment, rfl⟩ := result_ofProxy_eq_ok h
  have hbare := docsIn_of_ofFragment (fun _ => False) hfragment first List.mem_cons_self
  obtain ⟨injects, rest, hreads⟩ := reads_of_ofFragment hfragment
  have hts : ∀ t, .token t ∈ (Token.tokenize proxy.text (proxy.line + 1)).map Piece.token →
      t ∈ Token.tokenize proxy.text (proxy.line + 1) := by simp
  have hmade := hreads.made hts first List.mem_cons_self
  obtain ⟨hown, hmembers⟩ := every_iff.1 hmade
  refine every_iff.2 ⟨⟨hown.named, fun _ => ?_⟩, hmembers⟩
  exact List.eq_nil_iff_forall_not_mem.2 (Declared.docsIn_iff.1 (every_iff.1 hbare).1).2

theorem Declared.made_of_mapDocs {f : DocBlock → String → Outcome DocBlock} {d d' : Declared}
    (h : (d.mapDocs f).result = .ok d') (hd : d.Made) : d'.Made := by
  obtain ⟨doc, -, h⟩ := Outcome.result_bind_eq_ok.1 h
  obtain ⟨item, hitem, h⟩ := Outcome.result_bind_eq_ok.1 h
  cases h
  refine ⟨hd.named, fun hsynthetic => ?_⟩
  have hdocs := (Item.docs_of_mapDocs hitem).2
  rw [hd.silent hsynthetic] at hdocs
  exact List.forall₂_nil_left_iff.1 hdocs

namespace Document
variable {file source : String} {d : Document}

theorem made_of_ofSource (h : (ofSource file source).result = .ok d) :
    ∀ m ∈ d.walk, m.Made := by
  obtain ⟨lines, regions, found, hlines, hregions, hfound, hbuild⟩ := result_ofSource_eq_ok.1 h
  obtain ⟨injected, resolved, hinjected, hresolved, hfilled, -⟩ := result_build_eq_ok hbuild
  obtain ⟨rest, hreads⟩ := Scope.Contents.result_ofLines_eq_ok.1 hfound
  have hmade := Declaration.every_of_injects (fun _ hmember => Declaration.made_of_ofProxy hmember)
    (hreads.made fun t ht => Piece.mem_tokenize_of_mem ht) hinjected
  exact Declaration.forall_mem_walkAll.2 (Declaration.every_of_mapDocsAll Declared.made_of_mapDocs hfilled
    (Declaration.every_of_mapDocsAll Declared.made_of_mapDocs hresolved hmade))

end Document

/-! ### Comments that are read again -/

/-- What is printed of the block is a comment that refers to the same and shows nothing. -/
structure DocBlock.Rereads (b : DocBlock) : Prop where
  printable : b.Printable
  silent : Text.lines b.markdown = [] → b.links = []
  again : Text.lines b.markdown ≠ [] → ∀ b', Passage.IsReading (Text.lines b.markdown) b' →
    b'.links = b.links ∧ b'.examples = []

/-- The code that a block's examples show. -/
def DocBlock.Shows (b : DocBlock) (code : String) : Prop := ∃ x ∈ b.examples, x.code = some code

namespace DocBlock
variable {ls : List NumberedLine} {T : String → Prop} {b : DocBlock}

theorem filled_shows {segments : List Segment}
    (h : Forall₂ (Segment.Filled (CodeOf T)) segments b.segments) :
    Forall₂ (Segment.Filled (CodeOf b.Shows)) segments b.segments := by
  have hmem : ∀ s ∈ b.segments, ∀ x, s = .shown x → x ∈ b.examples := by
    rintro s hs x rfl
    exact mem_examples.2 hs
  unfold Shows
  generalize b.segments = filled at h hmem
  induction h with
  | nil => exact .nil
  | cons hs _ ih =>
    obtain ⟨hx, hmem⟩ := List.forall_mem_cons.1 hmem
    refine .cons ?_ (ih hmem)
    cases hs with
    | markdown text => exact .markdown text
    | shown hcode =>
      obtain ⟨code, rfl, -⟩ := hcode
      exact .shown ⟨code, rfl, _, hx _ rfl, rfl⟩

theorem segmentsFrom_ne_nil {run : List String} {ps : List Part} (h : run ≠ [] ∨ ps ≠ []) :
    segmentsFrom run ps ≠ [] := by
  induction ps generalizing run with
  | nil =>
    have hrun : run.isEmpty = false := by simpa using h
    rw [segmentsFrom, hrun]
    exact List.cons_ne_nil _ _
  | cons p ps ih =>
    cases p with
    | shown snippet line =>
      rw [segmentsFrom_shown]
      exact List.append_ne_nil_of_right_ne_nil _ (List.cons_ne_nil _ _)
    | prose | verbatim | unnamed =>
      rw [segmentsFrom]
      exact ih (.inl (by simp))

/-- A comment that is filled with code that stays in its fence is read again as it was. -/
theorem rereads_of_filled (hls : ∀ l ∈ ls, IsCommentText l.2)
    (hcode : ∀ code, T code → ∀ text ∈ separated code, IsCommentText text)
    (hb : Forall₂ (Segment.Filled (CodeOf T)) (ofLines ls).segments b.segments)
    (hlinks : b.links = links (ofLines ls)) (enclosed : ∀ code, b.Shows code → Enclosed code) :
    b.Rereads := by
  by_cases hne : b.segments = []
  · have hlines : Text.lines b.markdown = [] := by
      rw [markdown, hne]
      decide
    refine ⟨by rw [Printable, hlines]; simp, fun _ => ?_, fun h => absurd hlines h⟩
    rw [hne, List.forall₂_nil_right_iff] at hb
    have hparts : partsOf ls = [] := by
      by_contra hparts
      exact segmentsFrom_ne_nil (.inr hparts) hb
    rw [hlinks, links_ofLines, hparts]
    rfl
  · obtain ⟨texts, hmarkdown, htexts, heach, hlast⟩ := exists_texts_of_filled hls hcode hb hne
    have hlines : Text.lines b.markdown = texts := by
      rw [hmarkdown]
      exact lines_joinLines heach htexts hlast
    have hseparated : separated b.markdown = texts := by
      rw [hmarkdown]
      exact separated_joinLines htexts fun text htext => (heach text htext).unbroken
    refine ⟨by rwa [Printable, hlines], fun h => absurd (hlines.symm.trans h) htexts, ?_⟩
    rintro - b' ⟨n, rfl⟩
    rw [hlinks]
    refine KeepsLinks.of_enclosed enclosed ls _ b (fun l hl => (hls l hl).unbroken) (filled_shows hb) ?_
    rw [map_snd_numbered, hlines, hseparated]

end DocBlock

/-! ### Declarations that are read again -/

/-- Blocks that are read from the printed comments of others refer to the same. -/
theorem links_of_readings {bs bs' : List DocBlock}
    (h : Forall₂ Passage.IsReading (printedTexts bs) bs') (rereads : ∀ b ∈ bs, b.Rereads) :
    bs'.flatMap DocBlock.links = bs.flatMap DocBlock.links := by
  induction bs generalizing bs' with
  | nil =>
    cases h
    rfl
  | cons b bs ih =>
    obtain ⟨hb, hbs⟩ := List.forall_mem_cons.1 rereads
    by_cases hlines : Text.lines b.markdown = []
    · have hskip : printedTexts (b :: bs) = printedTexts bs := by simp [printedTexts, hlines]
      rw [hskip] at h
      rw [List.flatMap_cons, hb.silent hlines, List.nil_append, ih h hbs]
    · have hkeep : printedTexts (b :: bs) = Text.lines b.markdown :: printedTexts bs := by
        simp [printedTexts, hlines]
      rw [hkeep, List.forall₂_cons_left_iff] at h
      obtain ⟨b', bs', hb', hbs', rfl⟩ := h
      rw [List.flatMap_cons, List.flatMap_cons, (hb.again hlines b' hb').1, ih hbs' hbs]

theorem Declared.Again.said {own own' : Declared} (h : own.Again own')
    (rereads : ∀ b ∈ own.blocks, b.Rereads) : own'.said = own.said := by
  rw [Declared.said, Declared.said, h.name, h.path, links_of_readings h.docs rereads]

theorem Declaration.walk_of_again {ds ds' : List Declaration} (h : Forall₂ Again ds ds') :
    Forall₂ (fun m m' => m.toDeclared.Again m'.toDeclared) (walkAll ds) (walkAll ds') := by
  rw [walkAll_eq_flatMap, walkAll_eq_flatMap]
  exact List.rel_flatMap h fun _ _ hagain => hagain.walk

theorem Declaration.said_of_again {ds ds' : List Declaration} (h : Forall₂ Again ds ds')
    (rereads : ∀ m ∈ walkAll ds, ∀ b ∈ m.toDeclared.blocks, b.Rereads) :
    (walkAll ds').map (·.toDeclared.said) = (walkAll ds).map (·.toDeclared.said) := by
  have hwalk := walk_of_again h
  generalize walkAll ds = ms, walkAll ds' = ms' at hwalk rereads
  induction hwalk with
  | nil => rfl
  | cons hm _ ih =>
    obtain ⟨hblocks, hrereads⟩ := List.forall_mem_cons.1 rereads
    rw [List.map_cons, List.map_cons, hm.said hblocks, ih hrereads]

/-- Blocks that are read again show nothing. -/
theorem Declaration.bare_of_again {ds ds' : List Declaration} (h : Forall₂ Again ds ds')
    (rereads : ∀ m ∈ walkAll ds, ∀ b ∈ m.toDeclared.blocks, b.Rereads) :
    ∀ m ∈ walkAll ds', ∀ b ∈ m.toDeclared.blocks, b.examples = [] := by
  intro m hm b hb
  obtain ⟨m₀, hm₀, hagain⟩ := exists_left_of_forall₂ (walk_of_again h) hm
  obtain ⟨texts, htexts, hreading⟩ := exists_left_of_forall₂ hagain.docs hb
  obtain ⟨hmem, hne⟩ := List.mem_filter.1 htexts
  obtain ⟨b₀, hb₀, rfl⟩ := List.mem_map.1 hmem
  exact ((rereads m₀ hm₀ b₀ hb₀).again (by simpa using hne) b hreading).2

/-! ### Reading the header again -/

namespace Document
variable {file source : String} {d : Document}

/-- Alone, each declaration's lines are read as that declaration. -/
structure Restated (d : Document) : Prop where
  /-- Nothing stands in a namespace. -/
  top : ∀ m ∈ d.declarations, m.path = m.name ∧ m.RestatesHead none
  apart : Declaration.Apart d.declarations
  members : ∀ m ∈ d.walk, m.RestatesMembers
  /-- What an example shows does not end its fence. -/
  enclosed : ∀ m ∈ d.walk, ∀ b ∈ m.toDeclared.blocks, ∀ code, b.Shows code → DocBlock.Enclosed code

theorem rereads_of_ofSource (h : (ofSource file source).result = .ok d) (restated : d.Restated) :
    ∀ m ∈ d.walk, ∀ b ∈ m.toDeclared.blocks, b.Rereads := by
  obtain ⟨lines, regions, found, hlines, hregions, hfound, hbuild⟩ := result_ofSource_eq_ok.1 h
  have hcomments : ∀ c ∈ CommentBlock.group lines,
      ∃ c' ∈ CommentBlock.group lines, c.toDoc = c'.toDoc := fun c hc => ⟨c, hc, rfl⟩
  intro m hm b hb
  obtain ⟨_, ⟨c, hc, rfl⟩, hfilled, hlinks⟩ := exists_filled_of_build
    (D := fun b => ∃ c ∈ CommentBlock.group lines, b = c.toDoc)
    (fun _ ⟨_, _, hdoc⟩ => hdoc ▸ (DocBlock.raw_ofLines _).examples)
    (Scope.Contents.docsIn_of_ofLines hcomments hfound) (fun _ => docsIn_of_proxyDoc? hcomments)
    hbuild m hm _ (Declared.mem_docs_of_mem_blocks hb)
  exact DocBlock.rereads_of_filled (CommentBlock.isCommentText_of_mem_group hlines hc)
    (fun _ => DocBlock.isCommentText_of_snippetText hlines hregions) hfilled hlinks
    (restated.enclosed m hm b hb)

theorem readable_of_ofSource (h : (ofSource file source).result = .ok d) (restated : d.Restated) :
    ∀ m ∈ d.walk, m.Readable := by
  intro m hm
  have hmade := made_of_ofSource h m hm
  exact ⟨hmade.named, fun b hb => (rereads_of_ofSource h restated m hm b hb).printable, hmade.silent⟩

/-- The header declares the same again, and holds no region and no marker. -/
theorem exists_contents (h : (ofSource file source).result = .ok d) (restated : d.Restated) :
    ∃ ls ds, SourceLine.classify (withoutMark d.toHeader) = .ok ls ∧ Regions.extract ls = .ok {} ∧
      (Scope.Contents.ofLines ls (CommentBlock.group ls)).result = .ok ⟨ds, []⟩ ∧
      Forall₂ Declaration.Again d.declarations ds := by
  have hreadable := readable_of_ofSource h restated
  have hwalk : ∀ m ∈ d.declarations, ∀ p ∈ m.walk, p ∈ d.walk := by
    intro m hm p hp
    rw [walk, Declaration.walkAll_eq_flatMap]
    exact List.mem_flatMap_of_mem hm hp
  have htells : Scope.file.Tells (Declaration.spacedLines d.declarations) d.declarations := by
    refine Scope.tells_spacedLines fun m hm => ?_
    exact Declaration.Restated.tells ⟨(restated.top m hm).1, (restated.top m hm).2,
      fun p hp => restated.members p (hwalk m hm p hp), fun p hp => hreadable p (hwalk m hm p hp)⟩ 0
  obtain ⟨ps, hlines, hps, hread⟩ := htells
  obtain ⟨ls, hclassified, hregions, hpieces⟩ := hps.classified
  obtain ⟨b, ds, hagain, hpending, hinjects, hmembers, hcarries⟩ := hread 1 Scope.file.start rfl
  have hds : b.members = ds := hmembers.trans (Declaration.foldl_merged_again restated.apart hagain)
  have hnone : b.injects = [] := hinjects
  refine ⟨ls, ds, ?_, hregions, ?_, hagain⟩
  · rw [toHeader, ← hlines]
    exact hclassified
  · rw [Scope.Contents.result_ofLines, hpieces, Scope.result_read, ← List.append_nil (Passage.piecesOf 1 ps),
      hcarries, Scope.readOn_nil, Scope.result_finish_eq_ok.2 ⟨by rw [hpending], rfl⟩, hds, hnone]
    rfl

/-- **A document whose declarations restate themselves is kept.** -/
theorem kept_of_restated (h : (ofSource file source).result = .ok d) (restated : d.Restated) :
    d.Kept file := by
  obtain ⟨ls, ds, hclassified, hregions, hfound, hagain⟩ := exists_contents h restated
  have hrereads := rereads_of_ofSource h restated
  have hsaid := Declaration.said_of_again hagain hrereads
  have hfinds : ∀ e ∈ (Declaration.walkAll ds).map (·.toDeclared.said), (SymbolTable.ofTrees ds).Finds e := by
    unfold SymbolTable.Finds
    rw [hsaid, resolve_eq_of_said hsaid]
    exact finds_of_ofSource h
  obtain ⟨again, hbuild, hsame⟩ := exists_build file {} (proxyDoc? (CommentBlock.group ls)) hfinds
    (Declaration.bare_of_again hagain hrereads)
  have hreading : (ofSource file d.toHeader).result = .ok again :=
    result_ofSource_eq_ok.2 ⟨ls, {}, ⟨ds, []⟩, hclassified, hregions, hfound, hbuild⟩
  exact ⟨again, hreading, .of_eq (targets_eq_of_said h hreading (hsame.trans hsaid))⟩

/-! ### A struct whose property refers to it -/

/-- A comment that refers to `S`. -/
def ownerBlock (target : Option String) : DocBlock :=
  ⟨3, [.markdown "[\x60struct: S\x60]()"], [⟨.structType, "S", 3, target⟩]⟩

def owned (target : Option String) : Declaration :=
  ⟨⟨"x", "S::x", 4, .everyone, none, none, "int x", some (ownerBlock target),
    .property ⟨"int", none, none, false⟩, false⟩, []⟩

def owner (target : Option String) : Declaration :=
  ⟨⟨"S", "S", 1, .everyone, none, none, "struct S", none, .record .structKey ⟨none, [], true⟩, false⟩,
    [owned target]⟩

def ownerSource : String := "struct S\n\x7b\n\t/// [\x60struct: S\x60]()\n\tint x;\n\x7d;"

def ownerLines : List SourceLine :=
  [⟨1, 0, "struct S", .code, false⟩, ⟨2, 9, "\x7b", .code, false⟩,
    ⟨3, 11, "\t/// [\x60struct: S\x60]()", .doc "[\x60struct: S\x60]()", false⟩,
    ⟨4, 32, "\tint x;", .code, false⟩, ⟨5, 40, "\x7d;", .code, false⟩]

theorem result_owner : (ofSource "t.h" ownerSource).result = .ok ⟨"t.h", [owner (some "S")], []⟩ := by
  have hblock : DocBlock.ofLines [(3, "[\x60struct: S\x60]()")] = ownerBlock none :=
    DocBlock.ofLines_link "\x60struct: S\x60]()".toList ⟨"struct", "S"⟩ rfl
      (by cbv) (by cbv) (by cbv) (by cbv)
  have hpieces : Piece.ofLines ownerLines [⟨[(3, "[\x60struct: S\x60]()")], none⟩] =
      [.token ⟨.ident, "struct", 1⟩, .token ⟨.ident, "S", 1⟩, .token ⟨.lbrace, "\x7b", 2⟩,
        .doc (ownerBlock none), .token ⟨.ident, "int", 4⟩, .token ⟨.ident, "x", 4⟩,
        .token ⟨.semi, ";", 4⟩, .token ⟨.rbrace, "\x7d", 5⟩, .token ⟨.semi, ";", 5⟩] := by
    rw [Piece.ofLines_of_block _ hblock]
    cbv
  have hfound : (Scope.Contents.ofLines ownerLines [⟨[(3, "[\x60struct: S\x60]()")], none⟩]).result =
      .ok ⟨[owner none], []⟩ := by
    have hinside : Scope.Reads (.ofRecord "S" "S" .structKey) (Scope.ofRecord "S" "S" .structKey).start
        [.doc (ownerBlock none), .token ⟨.ident, "int", 4⟩, .token ⟨.ident, "x", 4⟩,
          .token ⟨.semi, ";", 4⟩, .token ⟨.rbrace, "\x7d", 5⟩, .token ⟨.semi, ";", 5⟩]
        ⟨[owned none], []⟩ [.token ⟨.semi, ";", 5⟩] := by
      let inner := Scope.ofRecord "S" "S" .structKey
      have hturn : (inner.turn { inner.start with pending.doc := some (ownerBlock none) }
          (.token ⟨.ident, "int", 4⟩)
          [.token ⟨.ident, "x", 4⟩, .token ⟨.semi, ";", 4⟩, .token ⟨.rbrace, "\x7d", 5⟩,
            .token ⟨.semi, ";", 5⟩]).result =
          .ok (.continues { inner.start with members := [owned none] }
            [.token ⟨.rbrace, "\x7d", 5⟩, .token ⟨.semi, ";", 5⟩]) := by
        cbv
      exact .continues rfl (.continues hturn (.closes rfl rfl))
    refine Scope.Contents.result_ofLines_eq_ok.2 ⟨[], ?_⟩
    rw [hpieces]
    exact .opens rfl hinside (.continues rfl (.ends rfl))
  rw [result_ofSource_of_stages {} _ (by cbv) (by cbv) (by cbv) hfound]
  cbv

theorem restates_owner : (owner (some "S")).RestatesHead none := by
  have hpieces : Passage.piecesOf 0 (owner (some "S")).head =
      [.token ⟨.ident, "struct", 0⟩, .token ⟨.ident, "S", 0⟩, .token ⟨.lbrace, "\x7b", 1⟩] := by
    cbv
  refine ⟨?_, by simp [owner], by simp [owner], ?_⟩
  · have hcode : (owner (some "S")).lead ++ (owner (some "S")).head = [.code 0 "struct S", .code 0 "\x7b"] := rfl
    rw [hcode]
    simp only [List.mem_cons, List.not_mem_nil, or_false, Passage.code.injEq]
    rintro depth text (⟨-, rfl⟩ | ⟨-, rfl⟩)
    · exact ⟨⟨by decide, by rfl, closed_of_all (by cbv), by decide, by decide⟩, by decide⟩
    · exact ⟨⟨by decide, by rfl, closed_of_all (by cbv), by decide, by decide⟩, by decide⟩
  · rw [hpieces]
    exact ⟨_, _, ⟨⟨⟨.ident, "struct", 0⟩, [.token ⟨.ident, "S", 0⟩], ⟨.lbrace, "\x7b", 1⟩, rfl, by decide,
      by decide, .inl rfl, fun _ => rfl⟩, ⟨.token ⟨.semi, ";", 1⟩, rfl, rfl⟩, rfl⟩, rfl, rfl, rfl, rfl, rfl⟩

theorem restates_owned : (owned (some "S")).RestatesHead (some "S") := by
  have hpieces : Passage.piecesOf 0 (owned (some "S")).head =
      [.token ⟨.ident, "int", 0⟩, .token ⟨.ident, "x", 0⟩, .token ⟨.semi, ";", 0⟩] := by
    cbv
  refine ⟨?_, by simp [owned], by simp [owned], ?_⟩
  · have hcode : (owned (some "S")).lead ++ (owned (some "S")).head =
        [.comment 0 ["[\x60struct: S\x60]()"], .code 0 "int x;"] := by
      cbv
    rw [hcode]
    simp only [List.mem_cons, List.not_mem_nil, or_false, Passage.code.injEq, reduceCtorEq, false_or]
    rintro depth text ⟨-, rfl⟩
    exact ⟨⟨by decide, by rfl, closed_of_all (by cbv), by decide, by decide⟩, by decide⟩
  · rw [hpieces]
    refine ⟨⟨[⟨.ident, "int", 0⟩, ⟨.ident, "x", 0⟩], [], false, 0⟩,
      ⟨"x", "int x", .property ⟨"int", none, none, false⟩⟩, ⟨⟨⟨.ident, "int", 0⟩, [.token ⟨.ident, "x", 0⟩],
        ⟨.semi, ";", 0⟩, rfl, by decide, by decide, .inr (.inr rfl), fun _ => rfl⟩,
        ⟨.token ⟨.semi, ";", 1⟩, rfl, rfl⟩, by cbv⟩, rfl, rfl, rfl, rfl, rfl⟩

theorem restated_owner : Restated ⟨"t.h", [owner (some "S")], []⟩ := by
  have hwalk : walk ⟨"t.h", [owner (some "S")], []⟩ = [owner (some "S"), owned (some "S")] := rfl
  refine ⟨?_, List.nodup_singleton _, ?_, ?_⟩
  · rintro m hm
    cases List.mem_singleton.1 hm
    exact ⟨rfl, restates_owner⟩
  · rw [hwalk, List.forall_mem_cons, List.forall_mem_singleton]
    refine ⟨⟨List.nodup_singleton _, ?_, ?_⟩, ⟨List.nodup_nil, nofun, nofun⟩⟩
    · rintro m hm
      cases List.mem_singleton.1 hm
      rfl
    · rintro m hm
      cases List.mem_singleton.1 hm
      exact .inl ⟨_, _, rfl, restates_owned⟩
  · rw [hwalk, List.forall_mem_cons, List.forall_mem_singleton]
    refine ⟨nofun, fun b hb code hshows => ?_⟩
    cases List.mem_singleton.1 hb
    obtain ⟨x, hx, -⟩ := hshows
    cases hx

/-- Its header is read as the struct and the property again. -/
theorem kept_of_restated_owner :
    (ofSource "t.h" ownerSource).result = .ok ⟨"t.h", [owner (some "S")], []⟩ ∧
      Restated ⟨"t.h", [owner (some "S")], []⟩ ∧ Kept "t.h" ⟨"t.h", [owner (some "S")], []⟩ :=
  ⟨result_owner, restated_owner, kept_of_restated result_owner restated_owner⟩

end Document

end AnnotatedHeader
