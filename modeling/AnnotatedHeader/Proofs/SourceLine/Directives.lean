import AnnotatedHeader.Proofs.Numbering.Lines
import AnnotatedHeader.Proofs.SourceLine.DirectiveForms

/-! Sources without directives.

A line has a directive's form or it has not (`isDirective`), and only where it has can
classifying fail or find a marker. So a text is classified, with no marker in it and nothing
ignored, if and only if none of its lines has that form (`SourceLine.classify_plain_iff`). -/
namespace AnnotatedHeader

open Text

/-- Whether a line has the form of a directive, which it may get wrong. -/
def isDirective (cs : List Char) : Bool :=
  (toolText? cs).any fun content => (Directive.read? (trim content)).isSome

theorem isDirective_of_toolText? {cs : List Char} (h : toolText? cs = none) :
    isDirective cs = false := by
  rw [isDirective, h]
  rfl

/-! ### What is around a directive -/

theorem isDirective_append_of_isAsciiSpace {w : List Char} (h : ∀ c ∈ w, isAsciiSpace c = true)
    (cs : List Char) : isDirective (w ++ cs) = isDirective cs := by
  unfold isDirective toolText?
  rw [List.dropWhile_append_of_pos h]

/-- A carriage return behind a tool comment stays behind its text. -/
theorem toolText?_append_return (cs : List Char) :
    ∃ w, isBlank w = true ∧ toolText? (cs ++ ['\r']) = (toolText? cs).map (· ++ w) := by
  unfold toolText?
  rw [List.dropWhile_append]
  split
  · rename_i hnil
    rw [List.isEmpty_iff.1 hnil]
    exact ⟨[], rfl, rfl⟩
  · cases hlead : afterLead? ['/', '/', '/', '/'] (cs.dropWhile isAsciiSpace) with
    | none =>
      refine ⟨[], rfl, ?_⟩
      cases hmore : afterLead? ['/', '/', '/', '/'] (cs.dropWhile isAsciiSpace ++ ['\r']) with
      | none => rfl
      | some rest =>
        -- The carriage return is no slash, so the four slashes stand in front of it.
        have heq := afterLead?_eq_some_iff.1 hmore
        rcases List.eq_nil_or_concat rest with rfl | ⟨rest, c, rfl⟩
        · exact absurd (congrArg List.getLast? heq) (by simp)
        · rw [List.concat_eq_append, ← List.append_assoc] at heq
          have hsome := afterLead?_eq_some_iff.2 (List.append_inj_left' heq rfl)
          rw [hlead] at hsome
          cases hsome
    | some rest =>
      have heq := afterLead?_eq_some_iff.1 hlead
      rw [heq, List.append_assoc, afterLead?_eq_some_iff.2 rfl]
      cases rest with
      | nil => exact ⟨[], rfl, rfl⟩
      | cons c tail =>
        refine ⟨['\r'], rfl, congrArg some ?_⟩
        show (if isAsciiSpace c then tail ++ ['\r'] else c :: tail ++ ['\r']) =
          (if isAsciiSpace c then tail else c :: tail) ++ ['\r']
        split <;> rfl

theorem isDirective_append_return (cs : List Char) : isDirective (cs ++ ['\r']) = isDirective cs := by
  obtain ⟨w, hw, htool⟩ := toolText?_append_return cs
  unfold isDirective
  rw [htool]
  cases toolText? cs with
  | none => rfl
  | some content => simp only [Option.map_some, Option.any_some, trim_append_of_isBlank content hw]

theorem isDirective_withoutFinal (cs : List Char) :
    isDirective (withoutFinal '\r' cs) = isDirective cs := by
  unfold withoutFinal
  split
  · rename_i h
    rw [← isDirective_append_return, List.dropLast_append_getLast? _ h]
  · rfl

/-! ### Lines that end in something else -/

theorem Text.getLast?_trim {cs : List Char} {c : Char} (h : cs.getLast? = some c)
    (visible : isSpace c = false) : (trim cs).getLast? = some c := by
  obtain ⟨init, rfl⟩ := List.getLast?_eq_some_iff.1 h
  unfold trim trimStart
  rw [List.dropWhile_append]
  split
  · rw [List.dropWhile_cons_of_neg (by simp [visible])]
    simp [trimEnd, visible]
  · rw [trimEnd_append_singleton _ visible, List.getLast?_concat]

/-- What has a directive's form has only tabs and spaces behind its last bracket. -/
theorem Bracket.Spelled.suffix {b : Bracket} {cs : List Char} (h : b.Spelled cs) :
    ∃ tail, ']' :: tail <:+ cs ∧ tail.all isTabOrSpace = true := by
  obtain ⟨-, spaced⟩ := h
  rename_i closing word argument cs
  obtain ⟨parts, hparts⟩ := exists_inside_eq closing word argument
  rw [hparts] at spaced
  obtain ⟨body, gap, rfl, hblank, -, front, rfl⟩ := spaced.exists_body
  refine ⟨gap, ⟨'[' :: front, ?_⟩, List.all_eq_true.2 hblank⟩
  rw [List.append_assoc]
  rfl

/-- A directive ends in a bracket. -/
theorem isDirective_of_getLast? {cs : List Char} {c : Char} (h : cs.getLast? = some c)
    (visible : isSpace c = false) (hc : c ≠ ']') : isDirective cs = false := by
  by_contra hdirective
  rw [Bool.not_eq_false, isDirective, Option.any_eq_true] at hdirective
  obtain ⟨content, hcontent, hread⟩ := hdirective
  rw [Directive.read?, Option.isSome_map] at hread
  obtain ⟨b, hb⟩ := Option.isSome_iff_exists.1 hread
  obtain ⟨tail, htail, hblank⟩ := (Bracket.read?_eq_some_iff.1 hb).suffix
  have hends : (trim content).getLast? = some c := by
    refine getLast?_trim ?_ visible
    obtain ⟨front, rfl⟩ := toolText?_isSuffix hcontent
    cases content with
    | nil => cases hread
    | cons d ds => rwa [List.getLast?_append_of_ne_nil _ (List.cons_ne_nil d ds)] at h
  obtain ⟨front, htrim⟩ := htail
  rw [← htrim, List.getLast?_append_of_ne_nil _ (List.cons_ne_nil _ _)] at hends
  cases tail with
  | nil => exact hc (Option.some.inj hends).symm
  | cons d ds =>
    rw [List.getLast?_cons_cons] at hends
    have htab := List.all_eq_true.1 hblank c (List.mem_of_getLast? hends)
    rw [isSpace_of_isAsciiSpace (isAsciiSpace_of_isTabOrSpace htab)] at visible
    cases visible

/-! ### Classifying -/

theorem LineKind.isMarker_of_read {cs : List Char} {k : LineKind} (h : read cs = .ok k) :
    k.isMarker = isDirective cs := by
  unfold read at h
  unfold isDirective
  split at h
  · rename_i content hcontent
    rw [hcontent, Option.any_some]
    split at h
    · rename_i directive hdirective
      cases h
      rw [hdirective]
      rfl
    · cases h
    · rename_i hnone
      cases h
      rw [hnone]
      rfl
  · rename_i hnone
    rw [hnone]
    split at h <;> cases h <;> rfl

theorem LineKind.exists_of_read {cs : List Char} (h : isDirective cs = false) :
    ∃ k, read cs = .ok k := by
  unfold isDirective at h
  unfold read
  split
  · rename_i content hcontent
    rw [hcontent, Option.any_some] at h
    rw [Option.isSome_eq_false_iff, Option.isNone_iff_eq_none] at h
    rw [h]
    exact ⟨_, rfl⟩
  · split <;> exact ⟨_, rfl⟩

theorem ignoring_of_not_isMarker {k : LineKind} (h : k.isMarker = false) (opened : Option Nat)
    (line : Nat) (text : List Char) : ignoring opened line text k = .ok (opened.isSome, opened) := by
  cases k with
  | marker => cases h
  | code | doc | tool => rfl

namespace SourceLine

/-- The line is no marker, and nothing ignores it. -/
def IsPlain (l : SourceLine) : Prop := l.kind.isMarker = false ∧ l.ignored = false

theorem classifyFrom_plain_iff {line offset : Nat} {raws : List (List Char)} :
    (∃ ls, classifyFrom none line offset raws = .ok ls ∧ ∀ l ∈ ls, l.IsPlain) ↔
      ∀ raw ∈ raws, isDirective raw = false := by
  induction raws generalizing line offset with
  | nil => exact iff_of_true ⟨[], rfl, by simp⟩ (by simp)
  | cons raw raws ih =>
    rw [List.forall_mem_cons, ← isDirective_withoutFinal raw]
    constructor
    · rintro ⟨ls, hls, hplain⟩
      obtain ⟨k, ignored, opened', rest, hk, hignoring, hrest, rfl⟩ := classifyFrom_cons_eq_ok hls
      have hline := (List.forall_mem_cons.1 hplain).1
      rw [ignoring_of_not_isMarker hline.1] at hignoring
      cases hignoring
      refine ⟨(LineKind.isMarker_of_read hk).symm.trans hline.1, ih.1 ⟨rest, hrest, ?_⟩⟩
      exact (List.forall_mem_cons.1 hplain).2
    · rintro ⟨hraw, hraws⟩
      obtain ⟨k, hk⟩ := LineKind.exists_of_read hraw
      have hmarker : k.isMarker = false := (LineKind.isMarker_of_read hk).trans hraw
      obtain ⟨rest, hrest, hplain⟩ := ih.2 hraws
      refine ⟨⟨line, offset, .ofList (withoutFinal '\r' raw), k, false⟩ :: rest, ?_,
        List.forall_mem_cons.2 ⟨⟨hmarker, rfl⟩, hplain⟩⟩
      rw [classifyFrom_cons, hk]
      dsimp only
      rw [ignoring_of_not_isMarker hmarker]
      dsimp only
      rw [Option.isSome_none, hrest]
      rfl

end SourceLine

/-! ### Printed lines -/

theorem Text.toList_join_lines (ls : List String) :
    (String.join (ls.map (· ++ "\n"))).toList = (ls.map String.toList).flatMap (· ++ ['\n']) := by
  rw [String.toList_join, List.flatMap_map, List.flatMap_map]
  simp

/-- **A printed text holds no directive** if and only if none of its lines has the form of one. -/
theorem SourceLine.classify_plain_iff {ls : List String} (h : ∀ l ∈ ls, '\n' ∉ l.toList) :
    (∃ lines, classify (String.join (ls.map (· ++ "\n"))) = .ok lines ∧ ∀ l ∈ lines, l.IsPlain) ↔
      ∀ l ∈ ls, isDirective l.toList = false := by
  unfold classify
  rw [classifyFrom_plain_iff, toList_join_lines]
  cases ls with
  | nil => exact iff_of_true (by decide) (by simp)
  | cons l ls =>
    rw [fileLines_flatMap (by simp) (List.forall_mem_map.2 h), List.forall_mem_map]

end AnnotatedHeader
