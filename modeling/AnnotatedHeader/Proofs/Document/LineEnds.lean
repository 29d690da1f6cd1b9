import AnnotatedHeader.Proofs.Numbering.Lines
import AnnotatedHeader.Proofs.SourceLine.IgnoredBlocks

/-! Line ends.

A line is read without the carriage return that it may end in, and nothing but its offset in the
source shows that there was one. So all that becomes of a source, notices and faults included,
depends on the texts of its lines (`Document.ofSource_eq_of_texts`), which are the same texts if
carriage returns are put in front of its line feeds (`Document.ofSource_withReturns`). -/
namespace AnnotatedHeader

open Text

/-! ### Carriage returns -/

namespace Text

def returned (c : Char) : List Char := if c = '\n' then ['\r', '\n'] else [c]

theorem returned_of_ne {c : Char} (h : c ≠ '\n') : returned c = [c] := if_neg h

/-- The text with a carriage return in front of every line feed. -/
def withReturns (s : String) : String := .ofList (s.toList.flatMap returned)

theorem withoutMark_withReturns (s : String) :
    withoutMark (withReturns s) = withReturns (withoutMark s) := by
  unfold withoutMark withReturns
  rw [String.toList_ofList]
  cases hs : s.toList with
  | nil => simp [hs]
  | cons c cs =>
    rw [List.flatMap_cons]
    by_cases hmark : c = '\ufeff'
    · subst hmark
      rw [returned_of_ne (by decide)]
      simp
    · have hfirst (ds : List Char) : returned c ++ cs.flatMap returned ≠ '\ufeff' :: ds := by
        unfold returned
        split
        · intro h
          cases h
        · intro h
          exact hmark (List.cons_eq_cons.1 h).1
      split
      · rename_i h
        exact absurd h (hfirst _)
      · split
        · rename_i h
          exact absurd (List.cons_eq_cons.1 h).1 hmark
        · rw [hs, List.flatMap_cons]

/-- Each run but the last one ends in a carriage return then. -/
theorem splitOn_returned (cs : List Char) :
    ∃ init last, splitOn '\n' cs = init ++ [last] ∧
      splitOn '\n' (cs.flatMap returned) = init.map (· ++ ['\r']) ++ [last] := by
  induction cs with
  | nil => exact ⟨[], [], rfl, rfl⟩
  | cons c cs ih =>
    obtain ⟨init, last, hruns, hreturned⟩ := ih
    rw [List.flatMap_cons]
    by_cases hc : c = '\n'
    · subst hc
      refine ⟨[] :: init, last, ?_, ?_⟩
      · rw [splitOn_separator, hruns]
        rfl
      · show splitOn '\n' (['\r'] ++ '\n' :: cs.flatMap returned) = _
        rw [splitOn_append (by decide), hreturned]
        rfl
    · rw [returned_of_ne hc, List.singleton_append, splitOn_cons hc, splitOn_cons hc, hruns,
        hreturned]
      cases init with
      | nil => exact ⟨[], c :: last, rfl, rfl⟩
      | cons run init => exact ⟨(c :: run) :: init, last, rfl, rfl⟩

theorem withoutFinal_concat (c : Char) (cs : List Char) : withoutFinal c (cs ++ [c]) = cs := by
  rw [withoutFinal, if_pos List.getLast?_concat, List.dropLast_concat]

theorem withoutFinal_of_not_mem {c : Char} {cs : List Char} (h : c ∉ cs) :
    withoutFinal c cs = cs :=
  if_neg fun hlast => h (List.mem_of_getLast? hlast)

theorem mem_of_mem_withoutMark {s : String} {c : Char} (h : c ∈ (withoutMark s).toList) :
    c ∈ s.toList := by
  unfold withoutMark at h
  split at h
  · rename_i rest hrest
    rw [String.toList_ofList] at h
    rw [hrest]
    exact List.mem_cons_of_mem _ h
  · exact h

end Text

/-! ### Texts of lines -/

namespace SourceLine

theorem texts_withReturns {source : String} (h : '\r' ∉ source.toList) :
    texts (withReturns source) = texts source := by
  obtain ⟨init, last, hruns, hreturned⟩ := splitOn_returned source.toList
  have hfree (run : List Char) (hrun : run ∈ init ++ [last]) : '\r' ∉ run :=
    fun hmem => h (mem_of_mem_splitOn (hruns ▸ hrun) hmem)
  have hinit : (init.map (· ++ ['\r'])).map (withoutFinal '\r') = init.map (withoutFinal '\r') := by
    rw [List.map_map]
    refine List.map_congr_left fun run hrun => ?_
    rw [withoutFinal_of_not_mem (hfree run (List.mem_append_left _ hrun))]
    exact withoutFinal_concat '\r' run
  unfold texts withReturns
  rw [String.toList_ofList, fileLines_of_splitOn hruns, fileLines_of_splitOn hreturned]
  simp only [ne_eq, List.map_eq_nil_iff]
  split
  · exact hinit
  · rw [List.map_append, List.map_append, hinit]

/-- What is classified shows where the lines stand, and else their texts alone. -/
theorem classifyFrom_of_texts {raws raws' : List (List Char)}
    (h : raws.map (withoutFinal '\r') = raws'.map (withoutFinal '\r')) (opened : Option Nat)
    (line offset offset' : Nat) :
    (classifyFrom opened line offset raws).map (List.map unplaced) =
      (classifyFrom opened line offset' raws').map (List.map unplaced) := by
  induction raws generalizing raws' opened line offset offset' with
  | nil =>
    rw [List.map_nil, List.nil_eq, List.map_eq_nil_iff] at h
    subst h
    rfl
  | cons raw raws ih =>
    obtain ⟨raw', raws', rfl, htext, hrest⟩ := List.map_eq_cons_iff.1 h.symm
    rw [classifyFrom_cons, classifyFrom_cons, htext]
    cases LineKind.read (withoutFinal '\r' raw) with
    | error cause => rfl
    | ok kind =>
      dsimp only
      cases ignoring opened line (withoutFinal '\r' raw) kind with
      | error cause => rfl
      | ok e =>
        refine (map_unplaced_cons _ _).trans (.trans ?_ (map_unplaced_cons _ _).symm)
        exact congrArg _ (ih hrest.symm e.2 (line + 1) _ _)

end SourceLine

namespace Document

/-- **A document depends on the texts of the lines**, and all that is noticed on the way. -/
theorem ofSource_eq_of_texts {source source' : String} (file : String)
    (h : SourceLine.texts (withoutMark source) = SourceLine.texts (withoutMark source')) :
    ofSource file source = ofSource file source' := by
  rw [ofSource_eq_ofRaws, ofSource_eq_ofRaws, ofRaws_eq_unplaced, ofRaws_eq_unplaced,
    SourceLine.classifyFrom_of_texts h none 1 0 0]

/-- **Line ends do not matter.** -/
theorem ofSource_withReturns (file : String) {source : String} (h : '\r' ∉ source.toList) :
    ofSource file (withReturns source) = ofSource file source := by
  refine ofSource_eq_of_texts file ?_
  rw [withoutMark_withReturns]
  exact SourceLine.texts_withReturns fun hmem => h (mem_of_mem_withoutMark hmem)

/-- The example has its two lines without carriage returns. -/
theorem ofSource_withReturns_snippet :
    '\r' ∉ "//// [snippet: s]\n;\n;\n//// [/snippet]\n".toList ∧
      (ofSource "t.h" "//// [snippet: s]\r\n;\r\n;\r\n//// [/snippet]\r\n").result =
        .ok ⟨"t.h", [], [("s", ";\n;")]⟩ := by
  have hfree : '\r' ∉ "//// [snippet: s]\n;\n;\n//// [/snippet]\n".toList := by decide
  have hfound : (Scope.Contents.ofLines
      [⟨1, 0, "//// [snippet: s]", .marker (.opens .snippet "s"), false⟩, ⟨2, 18, ";", .code, false⟩,
        ⟨3, 20, ";", .code, false⟩, ⟨4, 22, "//// [/snippet]", .marker (.closes .snippet), false⟩]
      []).result = .ok ⟨[], []⟩ := by
    refine Scope.Contents.result_ofLines_eq_ok.2 ⟨[], ?_⟩
    have hpieces : Piece.ofLines
      [⟨1, 0, "//// [snippet: s]", .marker (.opens .snippet "s"), false⟩, ⟨2, 18, ";", .code, false⟩,
        ⟨3, 20, ";", .code, false⟩, ⟨4, 22, "//// [/snippet]", .marker (.closes .snippet), false⟩]
      [] = [.token ⟨.semi, ";", 2⟩, .token ⟨.semi, ";", 3⟩] := by
      cbv
    rw [hpieces]
    exact .continues rfl (.continues rfl (.ends rfl))
  refine ⟨hfree, ?_⟩
  show (ofSource "t.h" (withReturns "//// [snippet: s]\n;\n;\n//// [/snippet]\n")).result = _
  rw [ofSource_withReturns "t.h" hfree, result_ofSource_of_stages ⟨[⟨.snippet, "s", 1, [";", ";"]⟩]⟩ _
    (by cbv) (by cbv) (by cbv) hfound]
  cbv

end Document

end AnnotatedHeader
