import AnnotatedHeader.Piece

/-! What the scanners of a comment make of one line or one link, and the readers of
lines of one comment. -/
namespace AnnotatedHeader

theorem Link.scan_of_read? {cs rest : List Char} {link : Link} (h : read? cs = some (link, rest)) :
    scan ('[' :: cs) = link :: scan rest := by
  rw [scan, if_pos rfl]
  split
  · rename_i hread
    rw [h] at hread
    cases hread
    rfl
  · rename_i hread
    rw [h] at hread
    cases hread

namespace DocBlock

namespace Part
variable {line : Nat} {text : String}

theorem scan_of_fence (f : Fence) (line : Nat) (text : String) (ls : List NumberedLine) :
    scan (some f) ((line, text) :: ls) =
      .verbatim text :: scan (if f.starts (Text.trim text.toList) then none else some f) ls := by
  rw [scan]

theorem scan_of_found {ls after : List NumberedLine} {found : NumberedLine}
    (hask : asksForSnippet (Text.trim text.toList) = true)
    (hfound : fencedSnippet? ls = some (found, after)) :
    scan none ((line, text) :: ls) = .shown found.2 found.1 :: scan none after := by
  rw [scan, if_pos hask]
  split
  · rename_i h
    cases hfound.symm.trans h
    rfl
  · rename_i h
    cases hfound.symm.trans h

theorem scan_of_not_found {ls : List NumberedLine}
    (hask : asksForSnippet (Text.trim text.toList) = true) (hnone : fencedSnippet? ls = none) :
    scan none ((line, text) :: ls) = .unnamed line text :: scan (some .backquotes) ls := by
  rw [scan, if_pos hask]
  split
  · rename_i h
    cases hnone.symm.trans h
  · rfl

theorem scan_of_opened {f : Fence} (ls : List NumberedLine)
    (hask : asksForSnippet (Text.trim text.toList) = false)
    (hfence : Fence.opened? (Text.trim text.toList) = some f) :
    scan none ((line, text) :: ls) = .verbatim text :: scan (some f) ls := by
  rw [scan]
  simp only [hask, hfence]
  rfl

theorem scan_of_prose (ls : List NumberedLine)
    (hask : asksForSnippet (Text.trim text.toList) = false)
    (hfence : Fence.opened? (Text.trim text.toList) = none) :
    scan none ((line, text) :: ls) = .prose line text :: scan none ls := by
  rw [scan]
  simp only [hask, hfence]
  rfl

end Part

/-- An example ends the run of text in front of it. -/
theorem segmentsFrom_shown (run : List String) (snippet : String) (line : Nat) (ps : List Part) :
    segmentsFrom run (.shown snippet line :: ps) =
      segmentsFrom run [] ++ .shown ⟨snippet, line, none⟩ :: segmentsFrom [] ps := by
  conv =>
    lhs
    rw [segmentsFrom]

/-- A comment whose only line is a link. -/
theorem ofLines_link {line : Nat} {text : String} (cs : List Char) (link : Link)
    (htext : text.toList = '[' :: cs) (hread : Link.read? cs = some (link, []))
    (hends : withoutBlankEnds [(line, text)] = [(line, text)])
    (hask : asksForSnippet (Text.trim text.toList) = false)
    (hfence : Fence.opened? (Text.trim text.toList) = none) :
    ofLines [(line, text)] = ⟨line, [.markdown text], (link.reference? line).toList⟩ := by
  have hparts : partsOf [(line, text)] = [.prose line text] := by
    rw [partsOf, hends, Part.scan_of_prose [] hask hfence, Part.scan]
  have hscan : Link.scan text.toList = [link] := by
    rw [htext, Link.scan_of_read? hread, Link.scan]
  have hreferences : Part.references (.prose line text) = (link.reference? line).toList := by
    show (Link.scan text.toList).filterMap (·.reference? line) = _
    rw [hscan]
    cases h : link.reference? line <;> simp [h]
  unfold ofLines
  rw [hparts, List.flatMap_singleton, hreferences]
  simp [segmentsFrom, Text.joinLines]

end DocBlock

/-- The pieces of a header with one comment, which documents a declaration. -/
theorem Piece.ofLines_of_block (lines : List SourceLine) {ls : List NumberedLine} {b : DocBlock}
    (h : DocBlock.ofLines ls = b) :
    ofLines lines [⟨ls, none⟩] =
      ((Token.tokenize (code lines) (firstLine lines)).map token ++ [doc b] ++
        lines.filterMap inject?).mergeSort fun p q => p.line ≤ q.line := by
  rw [← h]
  rfl

end AnnotatedHeader
