import AnnotatedHeader.Document.Header
import AnnotatedHeader.Proofs.Declaration.Refills
import AnnotatedHeader.Proofs.Document.Labels
import AnnotatedHeader.Proofs.Document.Passages
import AnnotatedHeader.Proofs.Numbering.Positions
import AnnotatedHeader.Proofs.Scope.Alone
import Mathlib

/-! Declarations that are read again from their lines.

What is printed of a declaration is passages in front of it and of its head, and, around its
members, the lines of a body. If the declaration's own passages, alone, are read as what is
declared (`Declaration.RestatesHead`, for a variant `RestatesEntry`), then so they are from any
line and with anything behind them. So a scope that reads the declaration's lines, whatever it
holds, holds the declaration again (`Scope.Tells`): by induction over the tree this carries from
members to what they are in (`Declaration.Restated.tells`). Again means under the name and the
path it had, with the doc blocks that its printed comments are read as (`Declared.Again`). -/
namespace AnnotatedHeader

open List (Forall₂)
open Text

/-! ### Passages at any depth and from any line -/

namespace Passage

/-- The passage so much deeper. -/
def indent (k : Nat) : Passage → Passage
  | comment depth texts => comment (k + depth) texts
  | code depth text => code (k + depth) text

/-- The text of a comment. -/
def texts? : Passage → Option (List String)
  | comment _ texts => some texts
  | code .. => none

theorem piecesOf_indent (k n : Nat) (ps : List Passage) :
    piecesOf n (ps.map (indent k)) = piecesOf n ps := by
  induction ps generalizing n with
  | nil => rfl
  | cons p ps ih =>
    have hpieces : (p.indent k).pieces n = p.pieces n := by cases p <;> rfl
    have hlength : (p.indent k).lines.length = p.lines.length := by cases p <;> simp [indent, lines]
    rw [List.map_cons, piecesOf, piecesOf, hpieces, hlength, ih]

theorem Legible.indent {ps : List Passage} (h : Legible ps) (k : Nat) :
    Legible (ps.map (Passage.indent k)) := by
  induction h with
  | nil => exact .nil
  | code row _ ih => exact .code row ih
  | comment hne each visible _ ih => exact .comment hne each visible ih

/-- Passages that start with a line of code, so that a comment can stand in front of them. -/
structure Opens (ps : List Passage) : Prop where
  legible : Legible ps
  row : ∃ depth text more, ps = .code depth text :: more ∧ isBlank text.toList = false

theorem Opens.code {ps : List Passage} {depth : Nat} {text : String}
    (row : IsCodeRow text ∧ isBlank text.toList = false) (h : Legible ps) :
    Opens (.code depth text :: ps) :=
  ⟨.code row.1 h, depth, text, ps, rfl, row.2⟩

theorem map_token_tokenize_add (n k : Nat) (text : String) :
    (Token.tokenize text (n + k)).map Piece.token =
      ((Token.tokenize text n).map Piece.token).map (renumber (· + k)) := by
  have hsteps : Steps (· + k) n (text.toList.count '\n') := fun j _ => Nat.add_right_comm n j k
  rw [Token.tokenize_renumber hsteps, List.map_map, List.map_map]
  rfl

/-- From a later line the pieces are the same with later lines. -/
theorem Legible.piecesOf_add {ps : List Passage} (h : Legible ps) (n k : Nat) :
    piecesOf (n + k) ps = (piecesOf n ps).map (renumber (· + k)) := by
  induction h generalizing n with
  | nil => rfl
  | @code depth text ps row _ ih =>
    rw [piecesOf, piecesOf, List.map_append, ← ih, Nat.add_right_comm]
    exact congrArg (· ++ _) (map_token_tokenize_add n k text)
  | @comment depth depth' texts text ps hne each visible _ ih =>
    have hnumbered : numbered n texts ≠ [] := by
      cases texts with
      | nil => exact absurd rfl hne
      | cons => exact List.cons_ne_nil _ _
    have hcomment : (Passage.comment depth texts).pieces (n + k) =
        ((Passage.comment depth texts).pieces n).map (renumber (· + k)) := by
      rw [pieces, pieces, numbered_renumber, DocBlock.ofLines_renumber hnumbered]
      rfl
    have hcons (m : Nat) : piecesOf m (.comment depth texts :: .code depth' text :: ps) =
        (Passage.comment depth texts).pieces m ++
          piecesOf (m + (texts.map (commentLine depth)).length) (.code depth' text :: ps) := rfl
    rw [hcons, hcons, List.map_append, ← hcomment, ← ih, Nat.add_right_comm]

/-- What a comment's lines are read as. -/
def IsReading (texts : List String) (b : DocBlock) : Prop :=
  ∃ n, b = DocBlock.ofLines (numbered n texts)

theorem forall₂_docs (n : Nat) (ps : List Passage) :
    Forall₂ IsReading (ps.filterMap texts?) (Piece.docs (piecesOf n ps)) := by
  induction ps generalizing n with
  | nil => exact .nil
  | cons p ps ih =>
    cases p with
    | comment depth texts => exact .cons ⟨n, rfl⟩ (ih _)
    | code depth text =>
      have hdocs : Piece.docs (piecesOf n (.code depth text :: ps)) = Piece.docs (piecesOf (n + 1) ps) :=
        Piece.filterMap_map_token (fun _ => rfl) _ _
      rw [hdocs]
      exact ih _

end Passage

/-! ### What is printed of a declaration itself -/

/-- The lines that are printed of each block that has any. -/
def printedTexts (bs : List DocBlock) : List (List String) :=
  (bs.map fun b => Text.lines b.markdown).filter (!·.isEmpty)

theorem printedTexts_append (bs cs : List DocBlock) :
    printedTexts (bs ++ cs) = printedTexts bs ++ printedTexts cs := by
  simp [printedTexts]

/-- The block is printed as comments that can be read again. -/
def DocBlock.Printable (b : DocBlock) : Prop := ∀ text ∈ Text.lines b.markdown, IsCommentText text

def commentsOf (depth : Nat) (doc : Option DocBlock) : List Passage :=
  (printedTexts doc.toList).map (.comment depth)

theorem linesOf_commentsOf (k depth : Nat) (doc : Option DocBlock) :
    Passage.linesOf ((commentsOf depth doc).map (·.indent k)) = docLines (k + depth) doc := by
  cases doc with
  | none => rfl
  | some b =>
    show _ = (Text.lines b.markdown).map (commentLine (k + depth))
    by_cases h : Text.lines b.markdown = []
    · simp [commentsOf, printedTexts, h, Passage.linesOf]
    · simp [commentsOf, printedTexts, h, Passage.linesOf, Passage.indent, Passage.lines]

theorem texts?_commentsOf (depth : Nat) (doc : Option DocBlock) :
    (commentsOf depth doc).filterMap Passage.texts? = printedTexts doc.toList := by
  rw [commentsOf, List.filterMap_map]
  exact List.filterMap_some

theorem legible_commentsOf {doc : Option DocBlock} (hdoc : ∀ b ∈ doc.toList, b.Printable) (depth : Nat)
    {ps : List Passage} (h : Passage.Opens ps) : Passage.Legible (commentsOf depth doc ++ ps) := by
  cases doc with
  | none => exact h.legible
  | some b =>
    by_cases hlines : Text.lines b.markdown = []
    · simpa [commentsOf, printedTexts, hlines] using h.legible
    · have hcomment : commentsOf depth (some b) = [.comment depth (Text.lines b.markdown)] := by
        simp [commentsOf, printedTexts, hlines]
      obtain ⟨depth', text, more, rfl, visible⟩ := h.row
      rw [hcomment]
      exact .comment hlines (hdoc b List.mem_cons_self) visible h.legible

theorem exists_pieces_commentsOf (n depth : Nat) (doc : Option DocBlock) :
    ∃ doc' : Option DocBlock, Passage.piecesOf n (commentsOf depth doc) = doc'.toList.map .doc ∧
      Forall₂ Passage.IsReading (printedTexts doc.toList) doc'.toList := by
  have hnone (h : printedTexts doc.toList = []) : ∃ doc' : Option DocBlock,
      Passage.piecesOf n (commentsOf depth doc) = doc'.toList.map .doc ∧
        Forall₂ Passage.IsReading (printedTexts doc.toList) doc'.toList := by
    refine ⟨none, ?_, ?_⟩ <;> simp [commentsOf, h, Passage.piecesOf]
  cases doc with
  | none => exact hnone rfl
  | some b =>
    by_cases hlines : Text.lines b.markdown = []
    · exact hnone (by simp [printedTexts, hlines])
    · have htexts : printedTexts (some b).toList = [Text.lines b.markdown] := by
        simp [printedTexts, hlines]
      refine ⟨some (DocBlock.ofLines (numbered n (Text.lines b.markdown))), ?_, ?_⟩
      · rw [commentsOf, htexts]
        rfl
      · rw [htexts]
        exact .cons ⟨n, rfl⟩ .nil

def Param.passages : List Param → List Passage
  | [] => []
  | p :: ps =>
    commentsOf 1 p.doc ++
      .code 1 (p.signature ++ if ps.isEmpty then "" else ",") :: passages ps

def FunctionShape.passages (name : String) (shape : FunctionShape) : List Passage :=
  .code 0 (shape.lead.elim "" (· ++ " ") ++ name ++ "(") :: Param.passages shape.params ++
    [.code 0 (shape.qualifiers.elim ");" fun q => ") " ++ q ++ ";")]

namespace Declaration

/-- Whether a body is printed. -/
def isBodied (d : Declaration) : Bool :=
  match d.item with
  | .enumeration shape => shape.hasBody
  | .record _ shape => shape.hasBody || !d.members.isEmpty
  | _ => false

/-- What is printed in front of a declaration. -/
def lead (d : Declaration) : List Passage :=
  commentsOf 0 d.doc ++ (d.reflection.map fun r => Passage.code 0 r.toSource).toList ++
    (d.template.map (Passage.code 0)).toList

/-- The declaration itself, up to its body. -/
def head (d : Declaration) : List Passage :=
  match d.item with
  | .function shape =>
    if !d.synthetic && shape.params.any (·.doc.isSome) then shape.passages d.name
    else [.code 0 (terminated d.signature)]
  | _ =>
    if d.isBodied then [.code 0 d.signature, .code 0 "\x7b"]
    else [.code 0 (terminated d.signature)]

def bodyLines (depth : Nat) (d : Declaration) : List String :=
  match d.item with
  | .enumeration _ =>
    if d.isBodied then d.members.flatMap (variantLines (depth + 1)) ++ [indented depth "\x7d;"] else []
  | .record key _ =>
    if d.isBodied then memberLines depth key.visibility true d.members ++ [indented depth "\x7d;"] else []
  | _ => []

end Declaration

theorem Param.linesOf_passages (depth : Nat) (ps : List Param) :
    Passage.linesOf ((passages ps).map (·.indent depth)) = headerLines (depth + 1) ps := by
  induction ps with
  | nil => rfl
  | cons p ps ih =>
    rw [passages, List.map_append, List.map_cons, Passage.linesOf_append, linesOf_commentsOf,
      headerLines, ← ih]
    rfl

namespace Declaration

theorem headerLines_eq (depth : Nat) (d : Declaration) :
    headerLines depth d =
      Passage.linesOf ((d.lead ++ d.head).map (·.indent depth)) ++ d.bodyLines depth := by
  obtain ⟨own, members⟩ := d
  have hlead : Passage.linesOf ((lead ⟨own, members⟩).map (·.indent depth)) = leadLines depth own := by
    rw [lead, List.map_append, List.map_append, Passage.linesOf_append, Passage.linesOf_append,
      linesOf_commentsOf, leadLines]
    cases own.reflection <;> cases own.template <;> rfl
  rw [headerLines, List.map_append, Passage.linesOf_append, hlead, List.append_assoc]
  refine congrArg (leadLines depth own ++ ·) ?_
  cases hitem : own.item with
  | enumeration shape =>
    simp only [head, bodyLines, isBodied, hitem]
    split <;> simp [Passage.linesOf, Passage.indent, Passage.lines, bodied]
  | record key shape =>
    simp only [head, bodyLines, isBodied, hitem]
    split <;> simp [Passage.linesOf, Passage.indent, Passage.lines, bodied]
  | function shape =>
    simp only [head, bodyLines, hitem]
    split
    · rw [FunctionShape.passages, FunctionShape.headerLines, List.map_append, List.map_cons,
        Passage.linesOf_append, Passage.linesOf_cons, Param.linesOf_passages, List.append_nil]
      rfl
    · simp [Passage.linesOf, Passage.indent, Passage.lines]
  | property shape => simp [head, bodyLines, isBodied, hitem, Passage.linesOf, Passage.indent, Passage.lines]
  | variant value => simp [head, bodyLines, isBodied, hitem, Passage.linesOf, Passage.indent, Passage.lines]

/-! ### Declarations that restate themselves -/

/-- The declaration's own lines are code and, alone, are read as what is declared. -/
structure RestatesHead (record : Option String) (d : Declaration) : Prop where
  rows : ∀ depth text, .code depth text ∈ d.lead ++ d.head →
    IsCodeRow text ∧ isBlank text.toList = false
  reflection : ∀ r ∈ d.reflection,
    Scope.IsMacro d.kind ((Token.tokenize r.toSource 0).map .token)
  template : ∀ text ∈ d.template, Scope.IsTemplate ((Token.tokenize text 0).map .token)
  head : ∃ stmt h, Scope.IsHead record (Passage.piecesOf 0 d.head) stmt h ∧
    stmt.hasBody = d.isBodied ∧ h.name = d.name ∧ h.item.kind = d.kind ∧
    h.item.paramTypes = d.item.paramTypes ∧ h.item.docs = Piece.docs (Passage.piecesOf 0 d.head)

/-- The line of a variant. -/
def entryText (d : Declaration) : String :=
  d.signature ++ d.reflection.elim "" (" " ++ ·.toSource) ++ ","

/-- The variant's line is code and, alone, is read as an entry of its name. -/
structure RestatesEntry (d : Declaration) : Prop where
  row : IsCodeRow d.entryText ∧ isBlank d.entryText.toList = false
  entry : EnumBody.IsEntry d.name ((Token.tokenize d.entryText 0).map .token)
  kind : d.kind = .variant
  alone : d.members = []

/-- The members are told apart and each restates itself; only an enum or a record has any. -/
structure RestatesMembers (d : Declaration) : Prop where
  apart : Apart d.members
  paths : ∀ m ∈ d.members, m.path = QualifiedPath.join d.path m.name
  each : ∀ m ∈ d.members,
    (∃ key shape, d.item = .record key shape ∧ m.RestatesHead (some d.name)) ∨
      (∃ shape, d.item = .enumeration shape ∧ shape.hasBody = true ∧ m.RestatesEntry)

end Declaration

/-- What is so of every declaration of a document. -/
structure Declared.Readable (own : Declared) : Prop where
  named : own.name ≠ ""
  printable : ∀ b ∈ own.blocks, b.Printable
  /-- A proxy's parameters have no blocks. -/
  silent : own.synthetic = true → own.item.docs = []

/-! ### Heads -/

theorem Param.legible_passages {ps : List Param} (hdocs : ∀ b ∈ ps.filterMap (·.doc), b.Printable)
    (rows : ∀ depth text, .code depth text ∈ passages ps →
      IsCodeRow text ∧ isBlank text.toList = false)
    {more : List Passage} (hmore : Passage.Legible more) : Passage.Legible (passages ps ++ more) := by
  induction ps with
  | nil => exact hmore
  | cons p ps ih =>
    rw [filterMap_doc_cons, List.forall_mem_append] at hdocs
    rw [passages] at rows ⊢
    rw [List.append_assoc]
    refine legible_commentsOf hdocs.1 1 (.code (rows 1 _ (by simp)) (ih hdocs.2 fun depth text h => ?_))
    exact rows depth text (List.mem_append_right _ (List.mem_cons_of_mem _ h))

theorem Param.texts?_passages (ps : List Param) :
    (passages ps).filterMap Passage.texts? = printedTexts (ps.filterMap (·.doc)) := by
  induction ps with
  | nil => rfl
  | cons p ps ih =>
    rw [passages, List.filterMap_append, texts?_commentsOf, filterMap_doc_cons, printedTexts_append,
      ← ih]
    rfl

namespace Declaration

theorem docs_of_not_documented {shape : FunctionShape} (h : shape.params.any (·.doc.isSome) = false) :
    shape.params.filterMap (·.doc) = [] := by
  rw [List.filterMap_eq_nil_iff]
  intro p hp
  have hnone := List.any_eq_false.1 h p hp
  simpa using hnone

theorem opens_head {d : Declaration} (hd : d.Readable) {record : Option String}
    (h : d.RestatesHead record) : Passage.Opens d.head := by
  have hrows : ∀ depth text, .code depth text ∈ d.head → IsCodeRow text ∧ isBlank text.toList = false :=
    fun depth text hrow => h.rows depth text (List.mem_append_right _ hrow)
  unfold head at hrows ⊢
  split
  · rename_i shape hitem
    have hdocs : ∀ b ∈ shape.params.filterMap (·.doc), b.Printable := fun b hb =>
      hd.printable b (by rw [Declared.blocks_eq, hitem]; exact List.mem_append_right _ hb)
    split
    · rename_i hparts
      simp only [hitem, if_pos hparts, FunctionShape.passages] at hrows ⊢
      refine .code (hrows 0 _ (by simp)) (Param.legible_passages hdocs (fun depth text hrow => ?_) ?_)
      · exact hrows depth text (by simp [hrow])
      · exact .code (hrows 0 _ (by simp)).1 .nil
    · rename_i hplain
      simp only [hitem, if_neg hplain] at hrows
      exact .code (hrows 0 _ (by simp)) .nil
  · split
    · exact .code (hrows 0 _ (by simp_all)) (.code (hrows 0 _ (by simp_all)).1 .nil)
    · exact .code (hrows 0 _ (by simp_all)) .nil

theorem legible_lead {d : Declaration} (hd : d.Readable) {record : Option String}
    (h : d.RestatesHead record) : Passage.Legible (d.lead ++ d.head) := by
  have hhead := opens_head hd h
  have hrows := h.rows
  have hdoc : ∀ b ∈ d.doc.toList, b.Printable := fun b hb =>
    hd.printable b (by rw [Declared.blocks_eq]; exact List.mem_append_left _ hb)
  unfold lead at hrows ⊢
  rw [List.append_assoc, List.append_assoc] at hrows ⊢
  refine legible_commentsOf hdoc 0 ?_
  have htemplate : Passage.Opens ((d.template.map (Passage.code 0)).toList ++ d.head) := by
    cases htext : d.template with
    | none => exact hhead
    | some text => exact .code (hrows 0 text (by simp [htext])) hhead.legible
  cases hr : d.reflection with
  | none => exact htemplate
  | some r => exact .code (hrows 0 r.toSource (by simp [hr])) htemplate.legible

theorem texts?_head {d : Declaration} (silent : d.synthetic = true → d.item.docs = []) :
    d.head.filterMap Passage.texts? = printedTexts d.item.docs := by
  unfold head
  split
  · rename_i shape hitem
    have hdocs : d.item.docs = shape.params.filterMap (·.doc) := by rw [hitem]; rfl
    split
    · rw [FunctionShape.passages, List.filterMap_append, hdocs, ← Param.texts?_passages]
      simp [Passage.texts?, List.filterMap_cons]
    · rename_i hplain
      have hnone : d.item.docs = [] := by
        cases hsynthetic : d.synthetic with
        | true => exact silent hsynthetic
        | false =>
          rw [hdocs]
          exact docs_of_not_documented (by simpa [hsynthetic] using hplain)
      rw [hnone]
      rfl
  · rename_i hfunction
    have hnone : d.item.docs = [] := by
      cases hitem : d.item with
      | function shape => exact absurd hitem (hfunction shape)
      | enumeration | record | property | variant => rfl
    rw [hnone]
    split <;> rfl

end Declaration

/-! ### What is read again -/

/-- The same declaration, with the doc blocks that its printed comments are read as. -/
structure Declared.Again (own own' : Declared) : Prop where
  name : own'.name = own.name
  path : own'.path = own.path
  docs : Forall₂ Passage.IsReading (printedTexts own.blocks) own'.blocks

structure Declaration.Again (d d' : Declaration) : Prop where
  entity : d'.entity = d.entity
  walk : Forall₂ (fun m m' => m.toDeclared.Again m'.toDeclared) d.walk d'.walk

theorem Declaration.Again.own {d d' : Declaration} (h : d.Again d') :
    d.toDeclared.Again d'.toDeclared := by
  have hwalk := h.walk
  rw [walk_eq, walk_eq] at hwalk
  exact (List.forall₂_cons.1 hwalk).1

theorem Declaration.again_of_members {d d' : Declaration} (own : d.toDeclared.Again d'.toDeclared)
    (entity : d'.entity = d.entity) (members : Forall₂ Again d.members d'.members) : d.Again d' := by
  refine ⟨entity, ?_⟩
  rw [walk_eq, walk_eq]
  exact .cons own (List.rel_flatMap members fun _ _ h => h.walk)

namespace Scope

/-- The lines are passages that add the declarations again to what a scope holds. -/
def Tells (s : Scope) (lines : List String) (ds : List Declaration) : Prop :=
  ∃ ps, Passage.linesOf ps = lines ∧ Passage.Legible ps ∧ ∀ n b, b.pending = {} →
    ∃ b' ds', Forall₂ Declaration.Again ds ds' ∧ b'.pending = {} ∧ b'.injects = b.injects ∧
      b'.members = ds'.foldl Declaration.merged b.members ∧ Carries s b (Passage.piecesOf n ps) b'

theorem Tells.append {s : Scope} {lines lines' : List String} {ds ds' : List Declaration}
    (h : s.Tells lines ds) (h' : s.Tells lines' ds') : s.Tells (lines ++ lines') (ds ++ ds') := by
  obtain ⟨ps, rfl, hps, hread⟩ := h
  obtain ⟨qs, rfl, hqs, hread'⟩ := h'
  refine ⟨ps ++ qs, Passage.linesOf_append ps qs, hps.append hqs, fun n b hb => ?_⟩
  obtain ⟨b₁, ds₁, hds₁, hpending, hinjects, hmembers, hcarries⟩ := hread n b hb
  obtain ⟨b₂, ds₂, hds₂, hpending', hinjects', hmembers', hcarries'⟩ :=
    hread' (n + (Passage.linesOf ps).length) b₁ hpending
  refine ⟨b₂, ds₁ ++ ds₂, List.rel_append hds₁ hds₂, hpending', hinjects'.trans hinjects, ?_, ?_⟩
  · rw [hmembers', hmembers, List.foldl_append]
  · rw [Passage.piecesOf_append]
    exact hcarries.append hcarries'

end Scope

/-! ### One declaration -/

theorem Piece.docs_map_renumber (g : Nat → Nat) (ps : List Piece) :
    docs (ps.map (renumber g)) = (docs ps).map (renumber g) := by
  unfold docs
  rw [List.filterMap_map, List.map_filterMap]
  congr 1
  funext p
  cases p <;> rfl

/-- A heading that says what the declaration's own lines say. -/
structure Heading.Restates (h : Heading) (d : Declaration) : Prop where
  name : h.name = d.name
  kind : h.item.kind = d.kind
  paramTypes : h.item.paramTypes = d.item.paramTypes
  docs : Forall₂ Passage.IsReading (printedTexts d.item.docs) h.item.docs

namespace Declaration
variable {d : Declaration} {record : Option String} {s : Scope} {b : Scope.State}

/-- The head is read from any line as it is alone. -/
theorem RestatesHead.exists_head (h : d.RestatesHead record) (hd : d.Readable) (n : Nat) :
    ∃ stmt heading, Scope.IsHead record (Passage.piecesOf n d.head) stmt heading ∧
      stmt.hasBody = d.isBodied ∧ heading.Restates d := by
  obtain ⟨stmt, heading, hhead, hbody, hname, hkind, htypes, hdocs⟩ := h.head
  have hpieces := (opens_head hd h).legible.piecesOf_add 0 n
  rw [Nat.zero_add] at hpieces
  have hrenumbered := hhead.renumber (g := (· + n)) fun _ _ hlt => Nat.add_lt_add_right hlt n
  rw [← hpieces] at hrenumbered
  refine ⟨_, _, hrenumbered, hbody, hname, ?_, ?_, ?_⟩
  · exact (Item.kind_renumber heading.item).trans hkind
  · exact (Item.paramTypes_renumber heading.item).trans htypes
  · have hread : (renumber (· + n) heading).item.docs = Piece.docs (Passage.piecesOf n d.head) := by
      rw [hpieces, Piece.docs_map_renumber, ← hdocs]
      exact Item.docs_renumber heading.item
    rw [hread, ← texts?_head hd.silent]
    exact Passage.forall₂_docs n d.head

theorem exists_carries_comments (s : Scope) (hb : b.pending = {}) (doc : Option DocBlock) (n depth : Nat) :
    ∃ doc', Scope.Carries s b (Passage.piecesOf n (commentsOf depth doc)) { b with pending.doc := doc' } ∧
      Forall₂ Passage.IsReading (printedTexts doc.toList) doc'.toList := by
  obtain ⟨doc', hpieces, hreadings⟩ := exists_pieces_commentsOf n depth doc
  refine ⟨doc', ?_, hreadings⟩
  rw [hpieces]
  cases doc' with
  | some block => exact Scope.carries_doc s b block
  | none =>
    obtain ⟨visibility, pending, members, injects⟩ := b
    cases hb
    exact Scope.carries_nil s _

/-- What is printed in front of a declaration waits for it. -/
theorem RestatesHead.exists_carries_lead (h : d.RestatesHead record) (hb : b.pending = {}) (n : Nat) :
    ∃ waiting : Scope.Pending,
      Scope.Carries s b (Passage.piecesOf n d.lead) { b with pending := waiting } ∧
      Forall₂ Passage.IsReading (printedTexts d.doc.toList) waiting.doc.toList ∧
      ∀ r ∈ waiting.reflection, Scope.markedKind? r.macroName = some d.kind := by
  obtain ⟨doc, hdoc, hreadings⟩ := exists_carries_comments s hb d.doc n 0
  obtain ⟨visibility, pending, members, injects⟩ := b
  cases hb
  have hmacro (n : Nat) : ∃ reflection : Option Reflection,
      Scope.Carries s ⟨visibility, { doc }, members, injects⟩
        (Passage.piecesOf n (d.reflection.map fun r => Passage.code 0 r.toSource).toList)
        ⟨visibility, { doc, reflection }, members, injects⟩ ∧
      ∀ r ∈ reflection, Scope.markedKind? r.macroName = some d.kind := by
    cases hr : d.reflection with
    | none => exact ⟨none, Scope.carries_nil _ _, by simp⟩
    | some r =>
      have hmarks := (h.reflection r hr).renumber (g := (· + n))
      rw [← Passage.map_token_tokenize_add, Nat.zero_add] at hmarks
      obtain ⟨r', hmarked, hcarries⟩ :=
        hmarks.carries (s := s) (b := ⟨visibility, { doc }, members, injects⟩) rfl
      refine ⟨some r', ?_, by rintro _ ⟨⟩; exact hmarked⟩
      simpa [Passage.piecesOf, Passage.pieces] using hcarries
  have htemplate (n : Nat) (reflection : Option Reflection) : ∃ template : Option String,
      Scope.Carries s ⟨visibility, { doc, reflection }, members, injects⟩
        (Passage.piecesOf n (d.template.map (Passage.code 0)).toList)
        ⟨visibility, { doc, reflection, template }, members, injects⟩ := by
    cases htext : d.template with
    | none => exact ⟨none, Scope.carries_nil _ _⟩
    | some text =>
      have hheads := (h.template text htext).renumber (g := (· + n))
      rw [← Passage.map_token_tokenize_add, Nat.zero_add] at hheads
      obtain ⟨template, hcarries⟩ :=
        hheads.carries (s := s) (b := ⟨visibility, { doc, reflection }, members, injects⟩)
      refine ⟨some template, ?_⟩
      simpa [Passage.piecesOf, Passage.pieces] using hcarries
  rw [lead, Passage.piecesOf_append, Passage.piecesOf_append]
  obtain ⟨reflection, hreflection, hmarked⟩ := hmacro (n + (Passage.linesOf (commentsOf 0 d.doc)).length)
  obtain ⟨template, htold⟩ := htemplate _ reflection
  exact ⟨{ doc, reflection, template }, (hdoc.append hreflection).append htold, hreadings, hmarked⟩

theorem result_checkReflection {h : Heading} {reflection : Option Reflection}
    (marked : ∀ r ∈ reflection, Scope.markedKind? r.macroName = some h.item.kind) :
    (Scope.checkReflection h reflection).result = .ok () := by
  cases reflection with
  | none => rfl
  | some r => rw [Scope.checkReflection, if_pos (marked r rfl)]; rfl

/-- What a heading declares that restates a declaration is the declaration again. -/
theorem again_of_restates {heading : Heading} (restates : heading.Restates d)
    (path : d.path = QualifiedPath.join s.path d.name) {waiting : Scope.Pending}
    (doc : Forall₂ Passage.IsReading (printedTexts d.doc.toList) waiting.doc.toList)
    (v : Visibility) (line : Nat) {members : List Declaration} (hmembers : Forall₂ Again d.members members) :
    d.Again ⟨s.declared v line waiting heading, members⟩ := by
  have hpath : QualifiedPath.join s.path heading.name = d.path := by rw [restates.name, path]
  refine again_of_members ⟨restates.name, hpath, ?_⟩ ?_ hmembers
  · rw [Declared.blocks_eq, Declared.blocks_eq, printedTexts_append]
    exact List.rel_append doc restates.docs
  · exact Prod.ext hpath (Prod.ext restates.kind restates.paramTypes)

end Declaration

/-! ### Bodies -/

/-- The line that ends a body is a brace and a semicolon. -/
theorem piecesOf_close (n depth : Nat) :
    Passage.piecesOf n [.code depth "\x7d;"] =
      [.token ⟨.rbrace, "\x7d", n⟩, .token ⟨.semi, ";", n⟩] := by
  have htokens : Token.tokenize "\x7d;" n = [⟨.rbrace, "\x7d", n⟩, ⟨.semi, ";", n⟩] := by cbv
  rw [Passage.piecesOf, Passage.pieces, htokens]
  rfl

theorem closed_of_all {cs : List Char}
    (h : (Lexeme.scan cs).all (fun l => l.kind != .openComment) = true) :
    ∀ l ∈ Lexeme.scan cs, l.kind ≠ .openComment := by
  simpa using h

theorem isCodeRow_close : IsCodeRow "\x7d;" where
  unbroken := by decide
  code := by rfl
  closed := closed_of_all (by cbv)
  ends := by decide
  unmarked := by decide

theorem isCodeRow_label (v : Visibility) : IsCodeRow (v.word ++ ":") where
  unbroken := by cases v <;> decide
  code := by cases v <;> rfl
  closed := closed_of_all (by cases v <;> cbv)
  ends := by cases v <;> decide
  unmarked := by cases v <;> decide

namespace Scope

theorem tells_of_carries {s : Scope} (ps : List Passage) (legible : Passage.Legible ps)
    (h : ∀ n b, b.pending = {} → ∃ b' : State, b'.pending = {} ∧ b'.injects = b.injects ∧
      b'.members = b.members ∧ Carries s b (Passage.piecesOf n ps) b') :
    s.Tells (Passage.linesOf ps) [] := by
  refine ⟨ps, rfl, legible, fun n b hb => ?_⟩
  obtain ⟨b', hpending, hinjects, hmembers, hcarries⟩ := h n b hb
  exact ⟨b', [], .nil, hpending, hinjects, hmembers, hcarries⟩

theorem tells_nothing (s : Scope) : s.Tells [] [] :=
  tells_of_carries [] .nil fun _ b hb => ⟨b, hb, rfl, rfl, carries_nil s b⟩

theorem tells_empty (s : Scope) : s.Tells [""] [] := by
  refine tells_of_carries [.code 0 ""] (.code isCodeRow_empty .nil) fun n b hb => ⟨b, hb, rfl, rfl, ?_⟩
  rw [Passage.piecesOf, Passage.pieces, Token.tokenize_empty]
  exact carries_nil s b

/-- A label adds nothing. -/
theorem tells_label (s : Scope) (depth : Nat) (v : Visibility) :
    s.Tells [indented depth (v.word ++ ":")] [] := by
  refine tells_of_carries [.code depth (v.word ++ ":")] (.code (isCodeRow_label v) .nil)
    fun n b hb => ⟨{ b with visibility := v }, hb, rfl, rfl, ?_⟩
  have htokens : Token.tokenize (v.word ++ ":") n = [⟨.ident, v.word, n⟩, ⟨.colon, ":", n⟩] := by
    cases v <;> cbv
  rw [Passage.piecesOf, Passage.pieces, htokens]
  exact carries_of_takes fun rest =>
    .label rfl (word_eq_label_iff.2 (label?_of_word rfl rfl rest))

theorem tells_memberLines {s : Scope} {depth : Nat} {members : List Declaration}
    (each : ∀ m ∈ members, s.Tells (m.headerLines (depth + 1)) [m]) (current : Visibility)
    (isFirst : Bool) :
    s.Tells (Declaration.memberLines depth current isFirst members) members := by
  induction members generalizing current isFirst with
  | nil => exact tells_nothing s
  | cons m ms ih =>
    obtain ⟨hm, hms⟩ := List.forall_mem_cons.1 each
    rw [Declaration.memberLines]
    have hgap : s.Tells (if m.visibility ≠ current then [indented depth (m.visibility.word ++ ":")]
        else if isFirst then [] else [""]) [] := by
      split
      · exact tells_label s depth m.visibility
      · split
        · exact tells_nothing s
        · exact tells_empty s
    exact (hgap.append hm).append (ih hms m.visibility false)

theorem tells_spacedLines {s : Scope} {ds : List Declaration}
    (each : ∀ d ∈ ds, s.Tells (d.headerLines 0) [d]) : s.Tells (Declaration.spacedLines ds) ds := by
  induction ds with
  | nil => exact tells_nothing s
  | cons d ds ih =>
    obtain ⟨hd, hds⟩ := List.forall_mem_cons.1 each
    cases ds with
    | nil => exact hd
    | cons e es => exact hd.append ((tells_empty s).append (ih hds))

end Scope

/-! ### Enum bodies -/

namespace EnumBody

/-- The lines are passages that add the variants again to what an enum holds. -/
def Tells (path : String) (lines : List String) (ms : List Declaration) : Prop :=
  ∃ ps, Passage.linesOf ps = lines ∧ Passage.Legible ps ∧ ∀ n members, ∃ ms',
    Forall₂ Declaration.Again ms ms' ∧ ∀ rest,
      (read path members none (Passage.piecesOf n ps ++ rest)).result =
        (read path (ms'.foldl Declaration.merged members) none rest).result

theorem tells_variantLines {m : Declaration} (readable : m.Readable) (h : m.RestatesEntry) {path : String}
    (hpath : m.path = QualifiedPath.join path m.name) (depth : Nat) :
    Tells path (m.variantLines depth) [m] := by
  have hdoc : ∀ b ∈ m.doc.toList, b.Printable := fun b hb =>
    readable.printable b (by rw [Declared.blocks_eq]; exact List.mem_append_left _ hb)
  refine ⟨(commentsOf 0 m.doc ++ [Passage.code 0 m.entryText]).map (Passage.indent depth), ?_,
    (legible_commentsOf hdoc 0 (.code h.row .nil)).indent depth, fun n members => ?_⟩
  · rw [List.map_append, Passage.linesOf_append, linesOf_commentsOf]
    rfl
  obtain ⟨doc, hpieces, hreadings⟩ := exists_pieces_commentsOf n 0 m.doc
  have hentry := h.entry.renumber (g := (· + (n + (Passage.linesOf (commentsOf 0 m.doc)).length)))
  rw [← Passage.map_token_tokenize_add, Nat.zero_add] at hentry
  obtain ⟨member, hname, hpath', hdoc', ⟨value, hitem⟩, hmembers, hread⟩ := hentry.exists_member path doc
  obtain ⟨value', hitem'⟩ : ∃ value', m.item = .variant value' := by
    have hkind : m.item.kind = .variant := h.kind
    cases hm : m.item with
    | variant value' => exact ⟨value', rfl⟩
    | record key shape => cases key <;> rw [hm] at hkind <;> cases hkind
    | enumeration | function | property => rw [hm] at hkind; cases hkind
  have hagain : m.Again member := by
    refine Declaration.again_of_members ⟨hname, hpath'.trans hpath.symm, ?_⟩ ?_ ?_
    · rw [Declared.blocks_eq, Declared.blocks_eq, hdoc', hitem, hitem']
      simpa [Item.docs] using hreadings
    · simp [Declaration.entity, Declaration.kind, hpath', hpath, hitem, hitem', Item.kind, Item.paramTypes]
    · rw [h.alone, hmembers]
      exact .nil
  refine ⟨[member], .cons hagain .nil, fun rest => ?_⟩
  have hcomment (ps : List Piece) : read path members none (doc.toList.map Piece.doc ++ ps) =
      read path members doc ps := by
    cases doc with
    | none => rfl
    | some b => rw [Option.toList_some, List.map_singleton, List.singleton_append, read]
  have hrow (k : Nat) : Passage.piecesOf k [Passage.code 0 m.entryText] =
      (Token.tokenize m.entryText k).map .token := List.append_nil _
  rw [Passage.piecesOf_indent, Passage.piecesOf_append, hpieces, List.append_assoc, hcomment, hrow]
  exact hread members rest

theorem tells_flatMap (path : String) (depth : Nat) {members : List Declaration}
    (each : ∀ m ∈ members, Tells path (m.variantLines depth) [m]) :
    Tells path (members.flatMap (Declaration.variantLines depth)) members := by
  induction members with
  | nil => exact ⟨[], rfl, .nil, fun n members => ⟨[], .nil, fun rest => rfl⟩⟩
  | cons m ms ih =>
    obtain ⟨hm, hms⟩ := List.forall_mem_cons.1 each
    obtain ⟨ps, hlines, hps, hread⟩ := hm
    obtain ⟨qs, hlines', hqs, hread'⟩ := ih hms
    refine ⟨ps ++ qs, ?_, hps.append hqs, fun n members => ?_⟩
    · rw [Passage.linesOf_append, hlines, hlines', List.flatMap_cons]
    · obtain ⟨ms₁, hms₁, hrest⟩ := hread n members
      obtain ⟨ms₂, hms₂, hrest'⟩ := hread' (n + (Passage.linesOf ps).length)
        (ms₁.foldl Declaration.merged members)
      refine ⟨ms₁ ++ ms₂, List.rel_append hms₁ hms₂, fun rest => ?_⟩
      rw [Passage.piecesOf_append, List.append_assoc, hrest, hrest', List.foldl_append]

end EnumBody

/-! ### Trees -/

theorem Item.exists_record {item : Item} {key : RecordKey} (h : item.kind = key.kind) :
    ∃ shape, item = .record key shape := by
  cases item with
  | record key' shape => cases key <;> cases key' <;> cases h <;> exact ⟨shape, rfl⟩
  | enumeration | function | property | variant => cases key <;> cases h

theorem Item.exists_enumeration {item : Item} (h : item.kind = .enumType) :
    ∃ shape, item = .enumeration shape := by
  cases item with
  | enumeration shape => exact ⟨shape, rfl⟩
  | record key => cases key <;> cases h
  | function | property | variant => cases h

namespace Declaration

/-- The tree restates itself in the scope, and so does everything in it. -/
structure Restated (s : Scope) (d : Declaration) : Prop where
  path : d.path = QualifiedPath.join s.path d.name
  head : d.RestatesHead s.record
  members : ∀ p ∈ d.walk, p.RestatesMembers
  readable : ∀ p ∈ d.walk, p.Readable

theorem mem_walk_self (d : Declaration) : d ∈ d.walk := by
  rw [walk_eq]
  exact List.mem_cons_self

theorem mem_walk_of_member {d m p : Declaration} (hm : m ∈ d.members) (hp : p ∈ m.walk) : p ∈ d.walk := by
  rw [walk_eq]
  exact List.mem_cons_of_mem _ (List.mem_flatMap_of_mem hm hp)

theorem Restated.member {s : Scope} {d m : Declaration} (h : d.Restated s) {key : RecordKey}
    {shape : RecordShape} (item : d.item = .record key shape) (hm : m ∈ d.members) :
    m.Restated (.ofRecord d.path d.name key) := by
  have hmembers := h.members d (mem_walk_self d)
  refine ⟨hmembers.paths m hm, ?_, fun p hp => h.members p (mem_walk_of_member hm hp),
    fun p hp => h.readable p (mem_walk_of_member hm hp)⟩
  rcases hmembers.each m hm with ⟨_, _, _, hhead⟩ | ⟨_, henum, _⟩
  · exact hhead
  · cases item.symm.trans henum

theorem again_entities {ds ds' : List Declaration} (h : Forall₂ Again ds ds') :
    ds'.map entity = ds.map entity := by
  induction h with
  | nil => rfl
  | cons hd _ ih => rw [List.map_cons, List.map_cons, hd.entity, ih]

/-- Declarations that are told apart are kept as they are met. -/
theorem foldl_merged_again {ds ds' : List Declaration} (apart : Apart ds) (h : Forall₂ Again ds ds') :
    ds'.foldl merged [] = ds' := by
  refine foldl_merged_of_apart ?_
  rw [Apart, List.nil_append, again_entities h]
  exact apart

/-- A body that is read inside braces, and the semicolon behind it. -/
theorem readOn_close {s : Scope} (braced : s.braced = true) {b : Scope.State} (hb : b.pending = {})
    (n depth : Nat) (rest : List Piece) :
    Scope.readOn s b (Passage.piecesOf n [.code depth "\x7d;"] ++ rest) =
      .ok (⟨b.members, b.injects⟩, .token ⟨.semi, ";", n⟩ :: rest) := by
  have hfinish : (s.finish b).result = .ok ⟨b.members, b.injects⟩ :=
    Scope.result_finish_eq_ok.2 ⟨by rw [hb], rfl⟩
  rw [piecesOf_close]
  refine (Scope.readOn_of_takes (.closes _ _ rfl braced)).trans ?_
  rw [Scope.Turn.readOn, hfinish]
  rfl

/-- What waits is taken by the head, which is read from any line. -/
theorem Restated.exists_reading {s : Scope} {d : Declaration} (h : d.Restated s) {b : Scope.State}
    (hb : b.pending = {}) (n : Nat) :
    ∃ waiting stmt heading,
      Scope.Carries s b (Passage.piecesOf n d.lead) { b with pending := waiting } ∧
      Scope.IsHead s.record (Passage.piecesOf (n + (Passage.linesOf d.lead).length) d.head) stmt heading ∧
      stmt.hasBody = d.isBodied ∧ heading.Restates d ∧
      (Scope.checkReflection heading waiting.reflection).result = .ok () ∧
      ∀ v line members, Forall₂ Again d.members members →
        d.Again ⟨s.declared v line waiting heading, members⟩ := by
  obtain ⟨waiting, hlead, hdoc, hmarked⟩ := h.head.exists_carries_lead (s := s) hb n
  obtain ⟨stmt, heading, hhead, hbody, hrestates⟩ :=
    h.head.exists_head (h.readable d (mem_walk_self d)) (n + (Passage.linesOf d.lead).length)
  refine ⟨waiting, stmt, heading, hlead, hhead, hbody, hrestates,
    result_checkReflection (by rwa [hrestates.kind]), fun v line members hmembers => ?_⟩
  exact again_of_restates hrestates h.path hdoc v line hmembers

/-- A tree is told by its lines when its body's lines are read behind its head. -/
theorem Restated.tells_of_body {s : Scope} {d : Declaration} (h : d.Restated s) (depth : Nat)
    (body : List Passage) (lines : Passage.linesOf body = d.bodyLines depth)
    (legible : Passage.Legible body)
    (read : ∀ {ps : List Piece} {b : Scope.State} {stmt : Statement} {heading : Heading} (n : Nat),
      Scope.IsHead s.record ps stmt heading → stmt.hasBody = d.isBodied → heading.Restates d →
      (Scope.checkReflection heading b.pending.reflection).result = .ok () →
      ∃ members, Forall₂ Again d.members members ∧
        Scope.Carries s b (ps ++ Passage.piecesOf n body) (({ b with pending := {} } : Scope.State).added
          ⟨s.declared b.visibility stmt.line b.pending heading, members⟩)) :
    s.Tells (d.headerLines depth) [d] := by
  have hd := h.readable d (mem_walk_self d)
  refine ⟨(d.lead ++ d.head).map (Passage.indent depth) ++ body, ?_,
    ((legible_lead hd h.head).indent depth).append legible, fun n b hb => ?_⟩
  · rw [Passage.linesOf_append, lines, headerLines_eq]
  obtain ⟨waiting, stmt, heading, hlead, hhead, hbody, hrestates, hchecked, hagain⟩ :=
    h.exists_reading hb n
  obtain ⟨members, hmembers, hcarries⟩ := read (b := { b with pending := waiting })
    (n + (Passage.linesOf ((d.lead ++ d.head).map (Passage.indent depth))).length) hhead hbody hrestates
    hchecked
  let again : Declaration := ⟨s.declared b.visibility stmt.line waiting heading, members⟩
  have hadded : ({ b with pending := {} } : Scope.State).added again =
      { b with pending := {}, members := merged b.members again } := by
    have hnamed : again.name.isEmpty = false := by
      show heading.name.isEmpty = false
      rw [hrestates.name]
      simpa using hd.named
    unfold Scope.State.added
    rw [hnamed]
    rfl
  refine ⟨{ b with pending := {}, members := merged b.members again }, [again],
    .cons (hagain b.visibility stmt.line members hmembers) .nil, rfl, rfl, rfl, ?_⟩
  rw [Passage.piecesOf_append, Passage.piecesOf_indent, Passage.piecesOf_append, List.append_assoc, ← hadded]
  exact hlead.append hcarries

/-- Only what is printed with a body has members. -/
theorem RestatesMembers.eq_nil {d : Declaration} (h : d.RestatesMembers) (hbody : d.isBodied = false) :
    d.members = [] := by
  refine List.eq_nil_iff_forall_not_mem.2 fun m hm => ?_
  rcases h.each m hm with ⟨key, shape, item, -⟩ | ⟨shape, item, hshape, -⟩
  · have hne : d.members.isEmpty = false := List.isEmpty_eq_false_iff.2 (List.ne_nil_of_mem hm)
    simp [isBodied, item, hne] at hbody
  · simp [isBodied, item, hshape] at hbody

theorem RestatesMembers.entry {d m : Declaration} (h : d.RestatesMembers) {shape : EnumShape}
    (item : d.item = .enumeration shape) (hm : m ∈ d.members) : m.RestatesEntry := by
  rcases h.each m hm with ⟨_, _, hrecord, _⟩ | ⟨_, _, _, hentry⟩
  · cases item.symm.trans hrecord
  · exact hentry

/-- What has no body is told by its head. -/
theorem Restated.tells_bodiless {s : Scope} {d : Declaration} (h : d.Restated s)
    (hbody : d.isBodied = false) (depth : Nat) : s.Tells (d.headerLines depth) [d] := by
  have hlines : Passage.linesOf [] = d.bodyLines depth := by
    unfold bodyLines
    rw [hbody]
    cases d.item <;> rfl
  refine h.tells_of_body depth [] hlines .nil fun n head bodiless _ checked => ⟨[], ?_, ?_⟩
  · rw [(h.members d (mem_walk_self d)).eq_nil hbody]
    exact .nil
  · rw [Passage.piecesOf, List.append_nil]
    exact head.carries (bodiless.trans hbody) checked

/-- A record is told by its head and its members, which the record's own scope reads. -/
theorem Restated.tells_record {s : Scope} {d : Declaration} (h : d.Restated s) (hbody : d.isBodied = true)
    {key : RecordKey} {shape : RecordShape} (hitem : d.item = .record key shape) {depth : Nat}
    (told : (Scope.ofRecord d.path d.name key).Tells (memberLines depth key.visibility true d.members)
      d.members) : s.Tells (d.headerLines depth) [d] := by
  obtain ⟨ps, hlines, hps, hread⟩ := told
  refine h.tells_of_body depth (ps ++ [.code depth "\x7d;"]) ?_
    (hps.append (.code isCodeRow_close .nil)) @fun pieces b stmt heading n head body heads checked => ?_
  · rw [Passage.linesOf_append, hlines]
    simp [bodyLines, hitem, hbody, Passage.linesOf, Passage.lines]
  obtain ⟨shape', hitem'⟩ := Item.exists_record (heads.kind.trans (congrArg Item.kind hitem))
  obtain ⟨inner, again, hagain, hpending, hinjects, hmerged, hcarries⟩ :=
    hread n (Scope.ofRecord d.path d.name key).start rfl
  have hapart := (h.members d (mem_walk_self d)).apart
  have hfound : inner.members = again := hmerged.trans (foldl_merged_again hapart hagain)
  have hnone : inner.injects = [] := hinjects
  have hinner : Scope.ofRecord (QualifiedPath.join s.path heading.name) heading.name key =
      .ofRecord d.path d.name key := by rw [heads.name, ← h.path]
  refine ⟨again, hagain, fun rest => ?_⟩
  rw [Passage.piecesOf_append, List.append_assoc, List.append_assoc,
    head.readOn_record (body.trans hbody) checked hitem', hinner, hcarries,
    readOn_close rfl hpending, hfound, hnone]
  refine Eq.trans (Scope.carries_semi rfl s _ rest) ?_
  rw [Scope.Frame.resumed, List.append_nil]

/-- An enum is told by its head and its variants. -/
theorem Restated.tells_enum {s : Scope} {d : Declaration} (h : d.Restated s) (hbody : d.isBodied = true)
    {shape : EnumShape} (hitem : d.item = .enumeration shape) {depth : Nat}
    (told : EnumBody.Tells d.path (d.members.flatMap (variantLines (depth + 1))) d.members) :
    s.Tells (d.headerLines depth) [d] := by
  obtain ⟨ps, hlines, hps, hread⟩ := told
  refine h.tells_of_body depth (ps ++ [.code depth "\x7d;"]) ?_
    (hps.append (.code isCodeRow_close .nil)) @fun pieces b stmt heading n head body heads checked => ?_
  · rw [Passage.linesOf_append, hlines]
    simp [bodyLines, hitem, hbody, Passage.linesOf, Passage.lines]
  obtain ⟨shape', hitem'⟩ := Item.exists_enumeration (heads.kind.trans (congrArg Item.kind hitem))
  obtain ⟨again, hagain, hrest⟩ := hread n []
  have hapart := (h.members d (mem_walk_self d)).apart
  have hentries (m : Nat) (rest : List Piece) :
      (EnumBody.read (QualifiedPath.join s.path heading.name) [] none
        (Passage.piecesOf n ps ++ (Passage.piecesOf m [.code depth "\x7d;"] ++ rest))).result =
          .ok (again, .token ⟨.semi, ";", m⟩ :: rest) := by
    rw [heads.name, ← h.path, hrest, foldl_merged_again hapart hagain, piecesOf_close,
      List.cons_append, EnumBody.read]
    rfl
  refine ⟨again, hagain, fun rest => ?_⟩
  rw [Passage.piecesOf_append, List.append_assoc, List.append_assoc,
    head.readOn_enum (body.trans hbody) checked hitem' (hentries _ rest)]
  exact Scope.carries_semi rfl s _ rest

/-- **A tree that restates itself is told by its lines.** -/
theorem Restated.tells {d : Declaration} {s : Scope} (h : d.Restated s) (depth : Nat) :
    s.Tells (d.headerLines depth) [d] := by
  induction d using Declaration.induction generalizing s depth with
  | step own members ih =>
    have hmembers := h.members _ (mem_walk_self _)
    cases hbody : isBodied ⟨own, members⟩ with
    | false => exact h.tells_bodiless hbody depth
    | true =>
      cases hitem : own.item with
      | function shape | property shape | variant shape => simp [isBodied, hitem] at hbody
      | record key shape =>
        exact h.tells_record hbody hitem (Scope.tells_memberLines
          (fun m hm => ih m hm (h.member hitem hm) (depth + 1)) key.visibility true)
      | enumeration shape =>
        refine h.tells_enum hbody hitem (EnumBody.tells_flatMap own.path (depth + 1) fun m hm => ?_)
        exact EnumBody.tells_variantLines (h.readable m (mem_walk_of_member hm (mem_walk_self m)))
          (hmembers.entry hitem hm) (hmembers.paths m hm) (depth + 1)

end Declaration

end AnnotatedHeader
