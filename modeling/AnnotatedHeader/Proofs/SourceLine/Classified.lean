import AnnotatedHeader.Proofs.Result
import AnnotatedHeader.SourceLine.Classify

/-! What classifying says of a header's lines, one line at a time.

`classifyFrom_cons_eq_ok` takes the first line off a classified text and `ignoring_eq_ok`
says how it moves the block that is open: a line opens it, closes it, or leaves it and
is ignored with it. -/
namespace AnnotatedHeader

open Text

/-- The kind belongs to a line that opens or closes a region. -/
def LineKind.IsBorder (k : LineKind) : Prop :=
  (∃ kind name, k = .marker (.opens kind name)) ∨ ∃ kind, k = .marker (.closes kind)

/-- What a line does to the ignored block that is open. -/
theorem ignoring_eq_ok {opened opened' : Option Nat} {line : Nat} {text : List Char} {k : LineKind}
    {ignored : Bool} (h : ignoring opened line text k = .ok (ignored, opened')) :
    (k = .marker .ignore ∧ opened = none ∧ ignored = true ∧ opened' = some line) ∨
      (k = .marker .endIgnore ∧ opened.isSome = true ∧ ignored = true ∧ opened' = none) ∨
      (k ≠ .marker .ignore ∧ k ≠ .marker .endIgnore ∧ ignored = opened.isSome ∧ opened' = opened ∧
        (k.IsBorder → opened = none)) := by
  unfold ignoring at h
  split at h
  · split at h <;> cases h
    exact .inl ⟨rfl, rfl, rfl, rfl⟩
  · split at h <;> cases h
    exact .inr (.inl ⟨rfl, rfl, rfl, rfl⟩)
  · split at h <;> cases h
    exact .inr (.inr ⟨by simp, by simp, rfl, rfl, fun _ => rfl⟩)
  · split at h <;> cases h
    exact .inr (.inr ⟨by simp, by simp, rfl, rfl, fun _ => rfl⟩)
  · rename_i h₁ h₂ h₃ h₄
    cases h
    refine .inr (.inr ⟨h₁, h₂, rfl, rfl, ?_⟩)
    rintro (⟨kind, name, rfl⟩ | ⟨kind, rfl⟩)
    · exact absurd rfl (h₃ kind name)
    · exact absurd rfl (h₄ kind)

namespace SourceLine

theorem classifyFrom_cons (opened : Option Nat) (line offset : Nat) (raw : List Char)
    (raws : List (List Char)) :
    classifyFrom opened line offset (raw :: raws) =
      match LineKind.read (withoutFinal '\r' raw) with
      | .error cause => .error ⟨line, cause⟩
      | .ok kind =>
        match ignoring opened line (withoutFinal '\r' raw) kind with
        | .error cause => .error ⟨line, cause⟩
        | .ok e => (classifyFrom e.2 (line + 1) (offset + byteLength raw) raws).map
            (⟨line, offset, .ofList (withoutFinal '\r' raw), kind, e.1⟩ :: ·) := by
  rw [classifyFrom]
  dsimp only
  cases LineKind.read (withoutFinal '\r' raw) with
  | error cause => rfl
  | ok kind =>
    dsimp only
    show (ignoring opened line (withoutFinal '\r' raw) kind).mapError _ >>= _ = _
    cases ignoring opened line (withoutFinal '\r' raw) kind with
    | error cause => rfl
    | ok e =>
      dsimp only
      show classifyFrom e.2 (line + 1) (offset + byteLength raw) raws >>= _ = _
      cases classifyFrom e.2 (line + 1) (offset + byteLength raw) raws <;> rfl

/-- A classified text is a classified line and what is classified behind it. -/
theorem classifyFrom_cons_eq_ok {opened : Option Nat} {line offset : Nat} {raw : List Char}
    {raws : List (List Char)} {ls : List SourceLine}
    (h : classifyFrom opened line offset (raw :: raws) = .ok ls) :
    ∃ k ignored opened' rest, LineKind.read (withoutFinal '\r' raw) = .ok k ∧
      ignoring opened line (withoutFinal '\r' raw) k = .ok (ignored, opened') ∧
      classifyFrom opened' (line + 1) (offset + byteLength raw) raws = .ok rest ∧
      ls = ⟨line, offset, .ofList (withoutFinal '\r' raw), k, ignored⟩ :: rest := by
  unfold classifyFrom at h
  obtain ⟨k, hk, h⟩ := Except.bind_eq_ok.1 h
  obtain ⟨⟨ignored, opened'⟩, hi, h⟩ := Except.bind_eq_ok.1 h
  obtain ⟨rest, hrest, h⟩ := Except.bind_eq_ok.1 h
  cases h
  exact ⟨k, ignored, opened', rest, Except.mapError_eq_ok.1 hk, Except.mapError_eq_ok.1 hi, hrest, rfl⟩

theorem classifyFrom_nil_eq_ok {opened : Option Nat} {line offset : Nat} {ls : List SourceLine}
    (h : classifyFrom opened line offset [] = .ok ls) : opened = none ∧ ls = [] := by
  unfold classifyFrom at h
  split at h <;> cases h
  exact ⟨rfl, rfl⟩

/-- Classified lines are numbered in a row. -/
theorem map_line_of_classifyFrom {opened : Option Nat} {line offset : Nat} {raws : List (List Char)}
    {ls : List SourceLine} (h : classifyFrom opened line offset raws = .ok ls) :
    ls.map (·.line) = List.range' line ls.length ∧ ls.length = raws.length := by
  induction raws generalizing opened line offset ls with
  | nil =>
    obtain ⟨-, rfl⟩ := classifyFrom_nil_eq_ok h
    exact ⟨rfl, rfl⟩
  | cons raw raws ih =>
    obtain ⟨k, ignored, opened', rest, -, -, hrest, rfl⟩ := classifyFrom_cons_eq_ok h
    obtain ⟨hlines, hlength⟩ := ih hrest
    rw [List.map_cons, List.length_cons, List.range'_succ, hlines, hlength]
    exact ⟨rfl, rfl⟩

/-- What a classified line is, its text says. -/
theorem read_of_classifyFrom {opened : Option Nat} {line offset : Nat} {raws : List (List Char)}
    {ls : List SourceLine} (h : classifyFrom opened line offset raws = .ok ls) :
    ∀ l ∈ ls, LineKind.read l.text.toList = .ok l.kind := by
  induction raws generalizing opened line offset ls with
  | nil =>
    obtain ⟨-, rfl⟩ := classifyFrom_nil_eq_ok h
    intro l hl
    cases hl
  | cons raw raws ih =>
    obtain ⟨k, ignored, opened', rest, hk, -, hrest, rfl⟩ := classifyFrom_cons_eq_ok h
    refine List.forall_mem_cons.2 ⟨?_, ih hrest⟩
    rw [String.toList_ofList]
    exact hk

/-- No ignored line opens or closes a region. -/
theorem not_isBorder_of_classifyFrom {opened : Option Nat} {line offset : Nat}
    {raws : List (List Char)} {ls : List SourceLine}
    (h : classifyFrom opened line offset raws = .ok ls) :
    ∀ l ∈ ls, l.ignored = true → ¬ l.kind.IsBorder := by
  induction raws generalizing opened line offset ls with
  | nil =>
    obtain ⟨-, rfl⟩ := classifyFrom_nil_eq_ok h
    intro l hl
    cases hl
  | cons raw raws ih =>
    obtain ⟨k, ignored, opened', rest, -, hi, hrest, rfl⟩ := classifyFrom_cons_eq_ok h
    intro l hl hignored hborder
    rcases List.mem_cons.1 hl with rfl | hl
    · rcases ignoring_eq_ok hi with ⟨rfl, -⟩ | ⟨rfl, -⟩ | ⟨-, -, hopen, -, hnone⟩
      · simp [LineKind.IsBorder] at hborder
      · simp [LineKind.IsBorder] at hborder
      · have hnot := hnone hborder
        rw [hnot] at hopen
        rw [hopen] at hignored
        cases hignored
    · exact ih hrest l hl hignored hborder

end SourceLine

end AnnotatedHeader
