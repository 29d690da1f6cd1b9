import AnnotatedHeader.Document.Header
import AnnotatedHeader.Proofs.DocBlock.Parts
import AnnotatedHeader.Proofs.Document.OfLines
import AnnotatedHeader.Proofs.Scope.Reads
import Mathlib

/-! What a printed header does not tell.

A header tells of a declaration neither where it stands nor in which namespaces, and of
a cross-reference only how it is written: `toHeader_unplaced` says that a document
prints as it does with all of this taken out. So a reading of the header cannot tell
documents apart that differ in nothing else (`perm_targets_of_kept`). -/
namespace AnnotatedHeader

/-! ### Without places -/

/-- The block's text alone. -/
def DocBlock.unplaced (b : DocBlock) : DocBlock := { b with line := 0, references := [] }

def Param.unplaced (p : Param) : Param := { p with doc := p.doc.map DocBlock.unplaced }

def Item.unplaced : Item → Item
  | .function shape => .function { shape with params := shape.params.map Param.unplaced }
  | item => item

/-- What a declaration says of itself wherever it stands. -/
def Declared.unplaced (d : Declared) : Declared :=
  { d with
    path := ""
    line := 0
    reflection := d.reflection.map fun r => { r with line := 0 }
    doc := d.doc.map DocBlock.unplaced
    item := d.item.unplaced }

namespace Declaration

mutual

def unplaced : Declaration → Declaration
  | ⟨own, members⟩ => ⟨own.unplaced, unplacedAll members⟩

def unplacedAll : List Declaration → List Declaration
  | [] => []
  | d :: ds => d.unplaced :: unplacedAll ds

end

theorem unplacedAll_eq_map (ds : List Declaration) : unplacedAll ds = ds.map unplaced := by
  induction ds with
  | nil => rfl
  | cons d ds ih => rw [unplacedAll, ih, List.map_cons]

theorem toDeclared_unplaced (d : Declaration) : d.unplaced.toDeclared = d.toDeclared.unplaced := by
  cases d
  rw [unplaced]

end Declaration

/-! ### Printing -/

theorem docLines_unplaced (depth : Nat) (doc : Option DocBlock) :
    docLines depth (doc.map DocBlock.unplaced) = docLines depth doc := by
  cases doc <;> rfl

theorem Param.headerLines_unplaced (depth : Nat) (ps : List Param) :
    headerLines depth (ps.map unplaced) = headerLines depth ps := by
  induction ps with
  | nil => rfl
  | cons p ps ih =>
    rw [List.map_cons, headerLines, headerLines, ih, List.isEmpty_map]
    show docLines depth (p.doc.map DocBlock.unplaced) ++ _ = _
    rw [docLines_unplaced]
    rfl

namespace Declaration

theorem leadLines_unplaced (depth : Nat) (own : Declared) :
    leadLines depth own.unplaced = leadLines depth own := by
  unfold leadLines
  show docLines depth (own.doc.map DocBlock.unplaced) ++ _ ++ _ = _
  rw [docLines_unplaced]
  cases hr : own.reflection <;> simp [Declared.unplaced, hr, Reflection.toSource]

theorem variantLines_unplaced (depth : Nat) (d : Declaration) :
    variantLines depth d.unplaced = variantLines depth d := by
  unfold variantLines
  rw [toDeclared_unplaced]
  show docLines depth (d.doc.map DocBlock.unplaced) ++ _ = _
  rw [docLines_unplaced]
  cases hr : d.reflection <;> simp [Declared.unplaced, hr, Reflection.toSource]

theorem memberLines_unplaced {members : List Declaration}
    (each : ∀ m ∈ members, ∀ depth, headerLines depth m.unplaced = headerLines depth m)
    (depth : Nat) (current : Visibility) (isFirst : Bool) :
    memberLines depth current isFirst (unplacedAll members) =
      memberLines depth current isFirst members := by
  induction members generalizing current isFirst with
  | nil => rfl
  | cons m ms ih =>
    obtain ⟨hm, hms⟩ := List.forall_mem_cons.1 each
    rw [unplacedAll, memberLines, memberLines, hm, ih hms, toDeclared_unplaced]
    rfl

theorem isEmpty_unplacedAll (ds : List Declaration) : (unplacedAll ds).isEmpty = ds.isEmpty := by
  rw [unplacedAll_eq_map, List.isEmpty_map]

theorem headerLines_unplaced (depth : Nat) (d : Declaration) :
    headerLines depth d.unplaced = headerLines depth d := by
  induction d using Declaration.induction generalizing depth with
  | step own members ih =>
    rw [unplaced, headerLines, headerLines, leadLines_unplaced]
    refine congrArg (leadLines depth own ++ ·) ?_
    cases hitem : own.item with
    | enumeration shape =>
      have hvariants : (unplacedAll members).flatMap (variantLines (depth + 1)) =
          members.flatMap (variantLines (depth + 1)) := by
        rw [unplacedAll_eq_map, List.flatMap_map]
        simp only [variantLines_unplaced]
      simp only [Declared.unplaced, hitem, Item.unplaced, hvariants]
    | record key shape =>
      simp only [Declared.unplaced, hitem, Item.unplaced, isEmpty_unplacedAll,
        memberLines_unplaced ih]
    | function shape =>
      have hdocs : (shape.params.map Param.unplaced).any (·.doc.isSome) =
          shape.params.any (·.doc.isSome) := by
        rw [List.any_map]
        simp [Function.comp_def, Param.unplaced]
      simp only [Declared.unplaced, hitem, Item.unplaced, hdocs, FunctionShape.headerLines,
        Param.headerLines_unplaced]
    | property shape => simp only [Declared.unplaced, hitem, Item.unplaced]
    | variant value => simp only [Declared.unplaced, hitem, Item.unplaced]

theorem spacedLines_unplacedAll (ds : List Declaration) :
    spacedLines (unplacedAll ds) = spacedLines ds := by
  induction ds with
  | nil => rfl
  | cons d ds ih =>
    cases ds with
    | nil =>
      show headerLines 0 d.unplaced = headerLines 0 d
      exact headerLines_unplaced 0 d
    | cons e es =>
      show headerLines 0 d.unplaced ++ "" :: spacedLines (unplacedAll (e :: es)) = _
      rw [headerLines_unplaced, ih]
      rfl

end Declaration

namespace Document

def unplaced (d : Document) : Document :=
  { d with declarations := Declaration.unplacedAll d.declarations }

/-- **Nothing of where declarations stand is printed.** -/
theorem toHeader_unplaced (d : Document) : d.unplaced.toHeader = d.toHeader := by
  unfold toHeader
  exact congrArg (fun lines => String.join (lines.map (· ++ "\n")))
    (Declaration.spacedLines_unplacedAll d.declarations)

/-! ### Reading what is printed -/

/-- What each cross-reference of the document means: the path of the declaration it
documents, the path that is written, and the one that is meant. -/
def targets (d : Document) : List (String × String × Option String) :=
  d.walk.flatMap fun m =>
    m.toDeclared.docs.flatMap fun e => e.1.references.map fun r => (e.2, r.path, r.target)

/-- The document's header can be read, and its cross-references mean what they meant. -/
def Kept (file : String) (d : Document) : Prop :=
  ∃ again, (ofSource file d.toHeader).result = .ok again ∧ again.targets.Perm d.targets

/-- Of documents that differ only in where declarations stand, those that are kept mean
the same. -/
theorem perm_targets_of_kept {file : String} {d d' : Document} (same : d.unplaced = d'.unplaced)
    (hd : d.Kept file) (hd' : d'.Kept file) : d.targets.Perm d'.targets := by
  obtain ⟨again, hagain, hperm⟩ := hd
  obtain ⟨again', hagain', hperm'⟩ := hd'
  rw [← toHeader_unplaced d, same, toHeader_unplaced d', hagain'] at hagain
  cases hagain
  exact hperm.symm.trans hperm'

/-! ### A struct in a namespace -/

/-- A comment that refers to `N::S`. -/
def linkBlock (line : Nat) (target : Option String) : DocBlock :=
  ⟨line, [.markdown "[\x60struct: N::S\x60]()"], [⟨.structType, "N::S", line, target⟩]⟩

/-- A struct `S` with such a comment. -/
def linkingStruct (path : String) (line : Nat) (doc : DocBlock) : Declaration :=
  ⟨⟨"S", path, line, .everyone, none, none, "struct S", some doc,
    .record .structKey ⟨none, [], false⟩, false⟩, []⟩

theorem ofLines_linkBlock (line : Nat) :
    DocBlock.ofLines [(line, "[\x60struct: N::S\x60]()")] = linkBlock line none :=
  DocBlock.ofLines_link "\x60struct: N::S\x60]()".toList ⟨"struct", "N::S"⟩ rfl
    (by cbv) (by cbv) (by cbv) (by cbv)

theorem found_inNamespace :
    (Scope.Contents.ofLines
        [⟨1, 0, "namespace N", .code, false⟩, ⟨2, 12, "\x7b", .code, false⟩,
          ⟨3, 14, "/// [\x60struct: N::S\x60]()", .doc "[\x60struct: N::S\x60]()", false⟩,
          ⟨4, 37, "struct S;", .code, false⟩, ⟨5, 47, "\x7d", .code, false⟩]
        [⟨[(3, "[\x60struct: N::S\x60]()")], none⟩]).result =
      .ok ⟨[linkingStruct "N::S" 4 (linkBlock 3 none)], []⟩ := by
  have hpieces : Piece.ofLines
        [⟨1, 0, "namespace N", .code, false⟩, ⟨2, 12, "\x7b", .code, false⟩,
          ⟨3, 14, "/// [\x60struct: N::S\x60]()", .doc "[\x60struct: N::S\x60]()", false⟩,
          ⟨4, 37, "struct S;", .code, false⟩, ⟨5, 47, "\x7d", .code, false⟩]
        [⟨[(3, "[\x60struct: N::S\x60]()")], none⟩] =
      [.token ⟨.ident, "namespace", 1⟩, .token ⟨.ident, "N", 1⟩, .token ⟨.lbrace, "\x7b", 2⟩,
        .doc (linkBlock 3 none), .token ⟨.ident, "struct", 4⟩, .token ⟨.ident, "S", 4⟩,
        .token ⟨.semi, ";", 4⟩, .token ⟨.rbrace, "\x7d", 5⟩] := by
    rw [Piece.ofLines_of_block _ (ofLines_linkBlock 3)]
    cbv
  have hinside : Scope.Reads (Scope.file.inNamespace "N") (Scope.file.inNamespace "N").start
      [.doc (linkBlock 3 none), .token ⟨.ident, "struct", 4⟩, .token ⟨.ident, "S", 4⟩,
        .token ⟨.semi, ";", 4⟩, .token ⟨.rbrace, "\x7d", 5⟩]
      ⟨[linkingStruct "N::S" 4 (linkBlock 3 none)], []⟩ [] :=
    .continues rfl (.continues rfl (.closes rfl rfl))
  refine Scope.Contents.result_ofLines_eq_ok.2 ⟨[], ?_⟩
  rw [hpieces]
  exact .opens rfl hinside (.ends rfl)

theorem result_inNamespace :
    (ofSource "t.h" "namespace N\n\x7b\n/// [\x60struct: N::S\x60]()\nstruct S;\n\x7d").result =
      .ok ⟨"t.h", [linkingStruct "N::S" 4 (linkBlock 3 (some "N::S"))], []⟩ := by
  rw [result_ofSource_of_stages {} _ (by cbv) (by cbv) (by cbv) found_inNamespace]
  cbv

theorem found_printed :
    (Scope.Contents.ofLines
        [⟨1, 0, "/// [\x60struct: N::S\x60]()", .doc "[\x60struct: N::S\x60]()", false⟩,
          ⟨2, 23, "struct S;", .code, false⟩]
        [⟨[(1, "[\x60struct: N::S\x60]()")], none⟩]).result =
      .ok ⟨[linkingStruct "S" 2 (linkBlock 1 none)], []⟩ := by
  have hpieces : Piece.ofLines
        [⟨1, 0, "/// [\x60struct: N::S\x60]()", .doc "[\x60struct: N::S\x60]()", false⟩,
          ⟨2, 23, "struct S;", .code, false⟩]
        [⟨[(1, "[\x60struct: N::S\x60]()")], none⟩] =
      [.doc (linkBlock 1 none), .token ⟨.ident, "struct", 2⟩, .token ⟨.ident, "S", 2⟩,
        .token ⟨.semi, ";", 2⟩] := by
    rw [Piece.ofLines_of_block _ (ofLines_linkBlock 1)]
    cbv
  refine Scope.Contents.result_ofLines_eq_ok.2 ⟨[], ?_⟩
  rw [hpieces]
  exact .continues rfl (.continues rfl (.ends rfl))

theorem result_printed :
    (ofSource "t.h" "/// [\x60struct: N::S\x60]()\nstruct S;\n").result =
      .error ⟨1, .unresolved "N::S" "S"⟩ := by
  rw [result_ofSource_of_stages {} _ (by cbv) (by cbv) (by cbv) found_printed]
  cbv

/-- Its header puts the struct in no namespace, where the path that is written means
nothing. -/
theorem exists_not_kept :
    ¬ ∀ (file source : String) (d : Document), (ofSource file source).result = .ok d → d.Kept file := by
  intro hall
  obtain ⟨again, hagain, -⟩ := hall _ _ _ result_inNamespace
  have hheader : toHeader ⟨"t.h", [linkingStruct "N::S" 4 (linkBlock 3 (some "N::S"))], []⟩ =
      "/// [\x60struct: N::S\x60]()\nstruct S;\n" := by
    rfl
  rw [hheader, result_printed] at hagain
  cases hagain

end Document

end AnnotatedHeader
