import AnnotatedHeader.Document.Build

/-! A document depends on its header's lines.

`Document.ofLines` is what happens to a header once its lines are classified
(`ofSource_eq`); `result_ofSource_eq_ok` names what each of its stages has answered
when there is a document. -/
namespace AnnotatedHeader.Document

/-- The document of classified lines. -/
def ofLines (file : String) (lines : List SourceLine) : Outcome Document := do
  let regions ← Outcome.ofExcept (Regions.extract lines)
  let blocks := CommentBlock.group lines
  Outcome.note (.surveyed lines.length regions.size blocks.length)
  Outcome.noteAll ((proxyBlocks blocks).flatMap (·.notices))
  let found ← Scope.Contents.ofLines lines blocks
  build file found regions (proxyDoc? blocks)

theorem ofSource_eq (file source : String) :
    ofSource file source =
      Outcome.ofExcept (SourceLine.classify (Text.withoutMark source)) >>= ofLines file := rfl

theorem ofSource_eq_of_classify {file source : String} {lines : List SourceLine}
    (h : SourceLine.classify (Text.withoutMark source) = .ok lines) :
    ofSource file source = ofLines file lines := by
  rw [ofSource_eq, h]
  rfl

theorem result_ofLines_eq_ok {file : String} {lines : List SourceLine} {d : Document} :
    (ofLines file lines).result = .ok d ↔
      ∃ regions found, Regions.extract lines = .ok regions ∧
        (Scope.Contents.ofLines lines (CommentBlock.group lines)).result = .ok found ∧
        (build file found regions (proxyDoc? (CommentBlock.group lines))).result = .ok d := by
  unfold ofLines
  constructor
  · intro h
    obtain ⟨regions, hregions, h⟩ := Outcome.result_bind_eq_ok.1 h
    obtain ⟨-, -, h⟩ := Outcome.result_bind_eq_ok.1 h
    obtain ⟨-, -, h⟩ := Outcome.result_bind_eq_ok.1 h
    obtain ⟨found, hfound, h⟩ := Outcome.result_bind_eq_ok.1 h
    exact ⟨regions, found, hregions, hfound, h⟩
  · rintro ⟨regions, found, hregions, hfound, h⟩
    refine Outcome.result_bind_eq_ok.2 ⟨regions, hregions, ?_⟩
    refine Outcome.result_bind_eq_ok.2 ⟨(), rfl, ?_⟩
    refine Outcome.result_bind_eq_ok.2 ⟨(), rfl, ?_⟩
    exact Outcome.result_bind_eq_ok.2 ⟨found, hfound, h⟩

/-- There is a document when every stage succeeds. -/
theorem result_ofSource_eq_ok {file source : String} {d : Document} :
    (ofSource file source).result = .ok d ↔
      ∃ lines regions found, SourceLine.classify (Text.withoutMark source) = .ok lines ∧
        Regions.extract lines = .ok regions ∧
        (Scope.Contents.ofLines lines (CommentBlock.group lines)).result = .ok found ∧
        (build file found regions (proxyDoc? (CommentBlock.group lines))).result = .ok d := by
  rw [ofSource_eq, Outcome.result_bind_eq_ok]
  constructor
  · rintro ⟨lines, hlines, h⟩
    obtain ⟨regions, found, h⟩ := result_ofLines_eq_ok.1 h
    exact ⟨lines, regions, found, hlines, h⟩
  · rintro ⟨lines, regions, found, hlines, h⟩
    exact ⟨lines, hlines, result_ofLines_eq_ok.2 ⟨regions, found, h⟩⟩

/-- A stage's outcome is known from that of the stage before it. -/
theorem result_ofSource_of_stages {file source : String} {lines : List SourceLine}
    {blocks : List CommentBlock} (regions : Regions) (found : Scope.Contents)
    (hlines : SourceLine.classify (Text.withoutMark source) = .ok lines)
    (hregions : Regions.extract lines = .ok regions) (hblocks : CommentBlock.group lines = blocks)
    (hfound : (Scope.Contents.ofLines lines blocks).result = .ok found) :
    (ofSource file source).result = (build file found regions (proxyDoc? blocks)).result := by
  rw [ofSource_eq_of_classify hlines]
  unfold ofLines
  simp only [Outcome.result_bind, Outcome.result_ofExcept, hregions, hblocks, hfound]
  rfl

end AnnotatedHeader.Document
