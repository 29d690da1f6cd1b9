import AnnotatedHeader.CommandLine.Run
import AnnotatedHeader.Proofs.Numbering.Lines

/-! Every line that is named exists.

The lines in an outcome are those of the header's `n` lines that are renumbered with it. Numbers
that leave `1` to `n` as they are leave the outcome as it is, so none is above `n`; and an
outcome for lines counted from zero has one added to each of its numbers when they are counted
from one, so none is zero (`Document.bounds_of_mem_linesOf`). -/
namespace AnnotatedHeader

variable {g : Nat → Nat}

/-! ### The lines in an outcome -/

def DocBlock.lines (b : DocBlock) : List Nat :=
  b.line :: b.examples.map (·.line) ++ b.references.map (·.line)

/-- The lines of a declaration, of its macro, and of what documents it and its parameters. -/
def Declared.lines (d : Declared) : List Nat :=
  d.line :: d.reflection.toList.map (·.line) ++ d.docs.flatMap (·.1.lines)

def Document.lines (d : Document) : List Nat := d.walk.flatMap (·.toDeclared.lines)

def Cause.lines : Cause → List Nat
  | .duplicateName _ _ firstLine => [firstLine]
  | .nested _ _ outerLine => [outerLine]
  | .insideIgnored _ ignoreLine => [ignoreLine]
  | _ => []

def Fault.lines (e : Fault) : List Nat := e.line :: e.cause.lines

/-- The lines that a document or a fault names. -/
def linesOf : Except Fault Document → List Nat
  | .ok d => d.lines
  | .error e => e.lines

theorem DocBlock.lines_renumber (b : DocBlock) : (renumber g b).lines = b.lines.map g := by
  have hexamples : (renumber g b).examples = b.examples.map (renumber g) := by
    show (b.segments.map (renumber g)).filterMap Segment.example? = _
    unfold examples
    rw [List.filterMap_map, List.map_filterMap]
    refine List.filterMap_congr fun segment _ => ?_
    cases segment <;> rfl
  have hreferences : (renumber g b).references = b.references.map (renumber g) := rfl
  unfold lines
  rw [hexamples, hreferences]
  simp only [List.map_cons, List.map_append, List.map_map, line_renumber]
  rfl

theorem Item.docs_renumber (item : Item) :
    (renumber g item).docs = item.docs.map (renumber g) := by
  cases item with
  | function shape =>
    show (shape.params.map (renumber g)).filterMap (·.doc) = (shape.params.filterMap (·.doc)).map _
    rw [List.filterMap_map, List.map_filterMap]
    rfl
  | enumeration | record | property | variant => rfl

theorem Declared.lines_renumber (d : Declared) : (renumber g d).lines = d.lines.map g := by
  have hreflection : (renumber g d).reflection.toList.map (·.line) =
      (d.reflection.toList.map (·.line)).map g := by
    rw [reflection_renumber]
    cases d.reflection <;> rfl
  have hdocs : (renumber g d).docs.flatMap (·.1.lines) = (d.docs.flatMap (·.1.lines)).map g := by
    have hown : (renumber g d).doc.toList = d.doc.toList.map (renumber g) := by
      rw [doc_renumber]
      cases d.doc <;> rfl
    unfold docs
    rw [hown, item_renumber, Item.docs_renumber, ← List.map_append, List.map_map, List.flatMap_map,
      List.flatMap_map, List.map_flatMap]
    exact List.flatMap_congr fun b _ => b.lines_renumber
  unfold lines
  rw [hreflection, hdocs, List.map_append, List.map_cons]
  rfl

theorem Document.lines_renumber (d : Document) : (renumber g d).lines = d.lines.map g := by
  unfold lines walk
  show (Declaration.walkAll (d.declarations.map (renumber g))).flatMap _ = _
  rw [Declaration.walkAll_renumber, List.flatMap_map, List.map_flatMap]
  refine List.flatMap_congr fun m _ => ?_
  rw [Declaration.toDeclared_renumber, Declared.lines_renumber]

theorem Fault.lines_renumber (e : Fault) : (renumber g e).lines = e.lines.map g := by
  obtain ⟨line, cause⟩ := e
  cases cause <;> rfl

theorem linesOf_renumber (r : Except Fault Document) :
    linesOf (renumber g r) = (linesOf r).map g := by
  cases r with
  | ok d => exact d.lines_renumber
  | error e => exact e.lines_renumber

/-! ### Bounds -/

theorem eq_of_mem_of_map_eq {l : List Nat} (h : l.map g = l) {i : Nat} (hi : i ∈ l) : g i = i := by
  induction l with
  | nil => cases hi
  | cons a l ih =>
    obtain ⟨ha, hl⟩ := List.cons_eq_cons.1 h
    rcases List.mem_cons.1 hi with rfl | hi
    · exact ha
    · exact ih hl hi

/-- The numbers up to `n` as they are, those above moved up. -/
def above (n i : Nat) : Nat := if i ≤ n then i else i + 1

theorem strictMono_above (n : Nat) : StrictMono (above n) := by
  intro i j hij
  unfold above
  split <;> split <;> omega

namespace Document

theorem le_of_mem_linesOf {file : String} {raws : List (List Char)} (hnil : raws ≠ [])
    (hraws : ∀ raw ∈ raws, '\n' ∉ raw) {i : Nat} (hi : i ∈ linesOf (ofRaws file 1 0 raws).result) :
    i ≤ raws.length := by
  have hlength : 0 < raws.length := List.length_pos_iff.2 hnil
  have habove {j : Nat} (hj : j ≤ raws.length) : above raws.length j = j := if_pos hj
  have hsteps : Steps (above raws.length) 1 (raws.length - 1) := by
    intro j hj
    rw [habove (by omega), habove (by omega)]
  have hsame := result_ofRaws_renumber (strictMono_above raws.length) file 0 0 hnil hraws hsteps
  rw [habove hlength] at hsame
  have hfixed := eq_of_mem_of_map_eq ((linesOf_renumber _).symm.trans (congrArg linesOf hsame.symm)) hi
  by_contra hlt
  unfold above at hfixed
  rw [if_neg hlt] at hfixed
  omega

theorem pos_of_mem_linesOf {file : String} {raws : List (List Char)} (hnil : raws ≠ [])
    (hraws : ∀ raw ∈ raws, '\n' ∉ raw) {i : Nat} (hi : i ∈ linesOf (ofRaws file 1 0 raws).result) :
    1 ≤ i := by
  have hsucc : StrictMono Nat.succ := fun _ _ => Nat.succ_lt_succ
  have hsteps : Steps Nat.succ 0 (raws.length - 1) := by
    intro j _
    exact (Nat.succ_add 0 j).symm
  have hmoved := result_ofRaws_renumber hsucc file 0 0 hnil hraws hsteps
  rw [hmoved, linesOf_renumber] at hi
  obtain ⟨j, -, rfl⟩ := List.mem_map.1 hi
  exact Nat.succ_pos j

theorem bounds_of_mem_linesOf {file source : String} {i : Nat}
    (hi : i ∈ linesOf (ofSource file source).result) :
    1 ≤ i ∧ i ≤ (Text.fileLines (Text.withoutMark source).toList).length := by
  have hnil := Text.fileLines_ne_nil (Text.withoutMark source).toList
  have hraws : ∀ raw ∈ Text.fileLines (Text.withoutMark source).toList, '\n' ∉ raw :=
    fun _ => Text.not_mem_of_mem_fileLines
  exact ⟨pos_of_mem_linesOf hnil hraws hi, le_of_mem_linesOf hnil hraws hi⟩

end Document

/-- **Every line that is named exists.** The document of a header's text either fails with a
fault of that file, or there is one; and all lines that the fault or the document names, in
members from proxies too, are among the lines of the text without its byte order mark. -/
theorem Run.document_lines_exist (file source : String) :
    (∃ fault, document file (some source) = .error (.header file fault) ∧
      ∀ i ∈ fault.lines, 1 ≤ i ∧ i ≤ (Text.fileLines (Text.withoutMark source).toList).length) ∨
    ∃ d, document file (some source) = .ok d ∧
      ∀ i ∈ d.lines, 1 ≤ i ∧ i ≤ (Text.fileLines (Text.withoutMark source).toList).length := by
  have hbounds {i : Nat} : i ∈ linesOf (Document.ofSource file source).result → _ :=
    Document.bounds_of_mem_linesOf
  have hdocument : document file (some source) =
      (Document.ofSource file source).result.mapError (.header file) := rfl
  rw [hdocument]
  cases hresult : (Document.ofSource file source).result with
  | error fault =>
    rw [hresult] at hbounds
    exact .inl ⟨fault, rfl, fun i hi => hbounds hi⟩
  | ok d =>
    rw [hresult] at hbounds
    exact .inr ⟨d, rfl, fun i hi => hbounds hi⟩

end AnnotatedHeader
