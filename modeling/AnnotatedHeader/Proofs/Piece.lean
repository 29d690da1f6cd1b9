import AnnotatedHeader.Proofs.CommentBlock.Partition
import AnnotatedHeader.Proofs.Scope.Blocks
import AnnotatedHeader.Proofs.Scope.Markers
import AnnotatedHeader.Proofs.Token.LineByLine

/-! What is read is the header, in order.

Tokens, doc blocks and markers are found apart from one another, each kind in the order of its
lines, and sorted together. A stable sort leaves what is in order as it is, so each kind comes out
as it was found (`Piece.filterMap_ofLines`). No line is both code and a comment or a marker: hence a
block or a marker stands behind the code of all lines in front of it, and in front of the code of
all lines behind it (`Piece.merges_ofLines`). -/
namespace AnnotatedHeader

section Sorting
variable {α : Type} (key : α → Nat)

theorem pairwise_mergeSort_key (l : List α) :
    (l.mergeSort fun a b => key a ≤ key b).Pairwise fun a b => key a ≤ key b := by
  refine (@List.pairwise_mergeSort _ (fun a b => key a ≤ key b) ?_ ?_ l).imp of_decide_eq_true
  · simpa using fun a b c => Nat.le_trans
  · simpa using fun a b => Nat.le_total (key a) (key b)

/-- A stable sort leaves what is in order as it is. -/
theorem sublist_mergeSort_key {part l : List α} (sublist : part.Sublist l)
    (sorted : part.Pairwise fun a b => key a ≤ key b) :
    part.Sublist (l.mergeSort fun a b => key a ≤ key b) := by
  refine List.sublist_mergeSort ?_ ?_ (sorted.imp decide_eq_true) sublist
  · simpa using fun a b c => Nat.le_trans
  · simpa using fun a b => Nat.le_total (key a) (key b)

end Sorting

/-! ### The lines of tokens, lines and blocks -/

theorem Lexeme.pairwise_line_tokens (line : Nat) (ls : List Lexeme) :
    (tokens line ls).Pairwise (·.line ≤ ·.line) := by
  induction ls generalizing line with
  | nil => exact .nil
  | cons l ls ih =>
    rw [tokens]
    split
    · refine List.pairwise_cons.2 ⟨fun t ht => ?_, ih _⟩
      exact Nat.le_trans (Nat.le_add_right ..) (le_line_of_mem_tokens ht)
    · exact ih _

theorem SourceLine.pairwise_line_of_classify {source : String} {lines : List SourceLine}
    (h : classify source = .ok lines) : lines.Pairwise (·.line < ·.line) := by
  refine List.pairwise_map.1 ?_
  rw [(map_line_of_classifyFrom h).1]
  exact List.pairwise_lt_range'

theorem CommentBlock.pairwise_line_group {lines : List SourceLine}
    (h : lines.Pairwise (·.line < ·.line)) : (group lines).Pairwise (·.line < ·.line) := by
  have hlines : ((lines.filter (·.isVisible)).map (·.line)).Pairwise (· < ·) :=
    List.pairwise_map.2 (h.filter _)
  exact List.pairwise_map.1 (hlines.sublist (lines_groupFrom_sublist [] _))

/-- A block begins with one of the doc comments. -/
theorem CommentBlock.exists_first_of_mem_group {lines : List SourceLine} {b : CommentBlock}
    (h : b ∈ group lines) : ∃ l ∈ lines, l.line = b.line ∧ l.IsDoc := by
  have hparted : Parted (lines.filter (·.isVisible)) (group lines) := parted_groupFrom (pending_nil _)
  obtain ⟨front, run, rest, hseen, isRun, rfl⟩ := hparted.exists_run h
  obtain ⟨first, hhead, hdoc⟩ := isRun.head
  have hmem : first ∈ lines.filter (·.isVisible) := by
    rw [hseen]
    exact List.mem_append_right _ (List.mem_append_left _ (List.mem_of_head? hhead))
  exact ⟨first, (List.mem_filter.1 hmem).1, (line_ofRun hhead).symm, hdoc⟩

namespace Piece

def token? : Piece → Option Token
  | .token t => some t
  | _ => none

/-- What the line says is injected. -/
def injected? (l : SourceLine) : Option InjectMarker :=
  match l.kind, l.ignored with
  | .marker (.inject proxy), false => some (proxy, l.line)
  | _, _ => none

/-- The pieces of a header are its code, its blocks and its markers, each kind as it was found, and
put together by line. -/
structure Merges (lines : List SourceLine) (blocks : List CommentBlock) (ps : List Piece) : Prop where
  /-- A token stands in a line of code that is not ignored. -/
  placed : ∀ t, .token t ∈ ps → ∃ l ∈ lines, l.line = t.line ∧ l.kind = .code ∧
    l.ignored = false ∧ t.text.toList <:+: l.text.toList
  tokens : ps.filterMap token? = Token.tokenize (code lines) (firstLine lines)
  docs : docs ps = (blocks.filter (·.proxy = none)).map (·.toDoc)
  injects : markers ps = lines.filterMap injected?
  /-- A block or a marker stands between the code of the lines in front of it and that of the lines
  behind it. -/
  ordered : ∀ before p behind, ps = before ++ p :: behind → p.token? = none →
    (∀ t, .token t ∈ before → t.line < p.line) ∧ ∀ t, .token t ∈ behind → p.line < t.line

variable {lines : List SourceLine} {blocks : List CommentBlock} {p : Piece}

/-! ### Before sorting -/

/-- The pieces of a header, one kind behind the other. -/
def unsorted (lines : List SourceLine) (blocks : List CommentBlock) : List Piece :=
  (Token.tokenize (code lines) (firstLine lines)).map .token ++
    (declarationBlocks blocks).map (fun b => .doc b.toDoc) ++ lines.filterMap inject?

theorem ofLines_eq (lines : List SourceLine) (blocks : List CommentBlock) :
    ofLines lines blocks = (unsorted lines blocks).mergeSort fun a b => a.line ≤ b.line := rfl

theorem inject?_eq (l : SourceLine) : inject? l = (injected? l).map fun m => .inject m.1 m.2 := by
  obtain ⟨line, offset, text, kind, ignored⟩ := l
  unfold inject? injected? SourceLine.isVisible
  cases ignored <;> rcases kind with _ | _ | _ | ⟨_ | _ | _ | _ | _⟩ <;> rfl

theorem filterMap_inject? (lines : List SourceLine) :
    lines.filterMap inject? = (lines.filterMap injected?).map fun m => .inject m.1 m.2 := by
  rw [List.map_filterMap]
  exact List.filterMap_congr fun l _ => inject?_eq l

theorem perm_ofLines (lines : List SourceLine) (blocks : List CommentBlock) :
    (ofLines lines blocks).Perm (unsorted lines blocks) := by
  rw [ofLines_eq]
  exact List.mergeSort_perm ..

theorem perm_tokens_ofLines (lines : List SourceLine) (blocks : List CommentBlock) :
    ((ofLines lines blocks).filterMap token?).Perm (Token.tokenize (code lines) (firstLine lines)) := by
  refine ((perm_ofLines ..).filterMap token?).trans (.of_eq ?_)
  simp [unsorted, filterMap_inject?, List.filterMap_map, Function.comp_def, token?]

theorem perm_markers_ofLines (lines : List SourceLine) (blocks : List CommentBlock) :
    (markers (ofLines lines blocks)).Perm (lines.filterMap injected?) := by
  refine ((perm_ofLines ..).filterMap marker?).trans (.of_eq ?_)
  simp [unsorted, filterMap_inject?, List.filterMap_map, Function.comp_def, marker?]

/-! ### Kinds in order -/

theorem pairwise_line_ofLines (lines : List SourceLine) (blocks : List CommentBlock) :
    (ofLines lines blocks).Pairwise (·.line ≤ ·.line) :=
  pairwise_mergeSort_key line (unsorted lines blocks)

/-- A kind of piece that is in order before the pieces are sorted stays as it is. -/
theorem filterMap_ofLines {β : Type} {f : Piece → Option β} {part : List Piece} {found : List β}
    (sublist : part.Sublist (unsorted lines blocks)) (sorted : part.Pairwise (·.line ≤ ·.line))
    (hpart : part.filterMap f = found) (all : ((ofLines lines blocks).filterMap f).Perm found) :
    (ofLines lines blocks).filterMap f = found := by
  have hstays : part.Sublist (ofLines lines blocks) := sublist_mergeSort_key line sublist sorted
  subst hpart
  exact ((hstays.filterMap f).eq_of_length all.length_eq.symm).symm

theorem filterMap_token?_ofLines (lines : List SourceLine) (blocks : List CommentBlock) :
    (ofLines lines blocks).filterMap token? = Token.tokenize (code lines) (firstLine lines) := by
  refine filterMap_ofLines ((List.sublist_append_left ..).trans (List.sublist_append_left ..))
    (List.pairwise_map.2 (Lexeme.pairwise_line_tokens ..)) ?_ (perm_tokens_ofLines ..)
  simp [List.filterMap_map, Function.comp_def, token?]

theorem docs_ofLines (h : lines.Pairwise (·.line < ·.line)) :
    docs (ofLines lines (CommentBlock.group lines)) =
      (declarationBlocks (CommentBlock.group lines)).map (·.toDoc) := by
  refine filterMap_ofLines ((List.sublist_append_right ..).trans (List.sublist_append_left ..))
    (List.pairwise_map.2 ?_) ?_ (perm_docs_ofLines ..)
  · exact ((CommentBlock.pairwise_line_group h).filter _).imp Nat.le_of_lt
  · simp [List.filterMap_map, Function.comp_def, doc?]

theorem line_of_injected? {l : SourceLine} {m : InjectMarker} (h : injected? l = some m) :
    m.2 = l.line := by
  unfold injected? at h
  split at h <;> cases h
  rfl

theorem markers_ofLines (h : lines.Pairwise (·.line < ·.line)) (blocks : List CommentBlock) :
    markers (ofLines lines blocks) = lines.filterMap injected? := by
  refine filterMap_ofLines (List.sublist_append_right ..) ?_ ?_ (perm_markers_ofLines ..)
  · rw [filterMap_inject?, List.pairwise_map, List.pairwise_filterMap]
    refine h.imp fun hlt m hm m' hm' => ?_
    show m.2 ≤ m'.2
    rw [line_of_injected? hm, line_of_injected? hm']
    exact Nat.le_of_lt hlt
  · simp [filterMap_inject?, List.filterMap_map, Function.comp_def, marker?]

/-! ### One line, one kind -/

/-- The tokens of a header are those of its code. -/
theorem mem_tokenize_of_mem {t : Token} (h : .token t ∈ ofLines lines blocks) :
    t ∈ Token.tokenize (code lines) (firstLine lines) :=
  (perm_tokens_ofLines lines blocks).subset (List.mem_filterMap.2 ⟨_, h, rfl⟩)

/-- What shows text is a line of code. -/
theorem of_codeOf_ne_nil {l : SourceLine} (h : (codeOf l).toList ≠ []) :
    l.kind = .code ∧ l.ignored = false ∧ codeOf l = l.text := by
  unfold codeOf at h ⊢
  split
  · rename_i hseen
    simpa [SourceLine.isVisible] using hseen
  · rename_i hhidden
    rw [if_neg hhidden] at h
    exact absurd rfl h

theorem exists_line_of_token {source : String} (h : SourceLine.classify source = .ok lines)
    {t : Token} (ht : t ∈ Token.tokenize (code lines) (firstLine lines)) :
    ∃ l ∈ lines, l.line = t.line ∧ l.kind = .code ∧ l.ignored = false ∧
      t.text.toList <:+: l.text.toList := by
  have hunbroken : ∀ l ∈ lines, l.Unbroken :=
    SourceLine.unbroken_of_classifyFrom (fun _ => Text.not_mem_of_mem_fileLines) h
  obtain ⟨k, text, hk, hline, hinfix⟩ :=
    Token.exists_line_of_mem_tokenize (not_mem_codeOf hunbroken) ht
  rw [List.getElem?_map] at hk
  obtain ⟨l, hl, rfl⟩ := Option.map_eq_some_iff.1 hk
  have hne : (codeOf l).toList ≠ [] := fun hnil => by
    rw [hnil] at hinfix
    exact (Token.isCut_of_mem_tokenize t ht).nonempty (List.infix_nil.1 hinfix)
  obtain ⟨hkind, hvisible, htext⟩ := of_codeOf_ne_nil hne
  have hnumbers := (SourceLine.map_line_of_classifyFrom h).1
  have hnumber : (lines.map (·.line))[k]? = some l.line := by rw [List.getElem?_map, hl, Option.map_some]
  rw [hnumbers, List.getElem?_range' (List.getElem?_eq_some_iff.1 hl).1] at hnumber
  have hfirst := firstLine_of_lines (List.ne_nil_of_mem (List.mem_of_getElem? hl)) hnumbers
  rw [hfirst] at hline
  refine ⟨l, List.mem_of_getElem? hl, ?_, hkind, hvisible, htext ▸ hinfix⟩
  rw [hline, ← Option.some.inj hnumber, Nat.one_mul]

/-- A block or a marker is on a line that is no code. -/
theorem exists_line_of_mem_ofLines (h : p ∈ ofLines lines (CommentBlock.group lines))
    (hp : p.token? = none) : ∃ l ∈ lines, l.line = p.line ∧ l.kind ≠ .code := by
  rw [(perm_ofLines ..).mem_iff, unsorted, filterMap_inject?] at h
  rcases List.mem_append.1 h with h | h
  · rcases List.mem_append.1 h with h | h
    · obtain ⟨t, -, rfl⟩ := List.mem_map.1 h
      cases hp
    · obtain ⟨b, hb, rfl⟩ := List.mem_map.1 h
      obtain ⟨l, hl, hline, text, hkind⟩ :=
        CommentBlock.exists_first_of_mem_group (List.mem_filter.1 hb).1
      exact ⟨l, hl, hline, by simp [hkind]⟩
  · obtain ⟨m, hm, rfl⟩ := List.mem_map.1 h
    obtain ⟨l, hl, hinjected⟩ := List.mem_filterMap.1 hm
    refine ⟨l, hl, (line_of_injected? hinjected).symm, fun hkind => ?_⟩
    rw [injected?, hkind] at hinjected
    cases hinjected

/-- No token is on the line of a block or of a marker. -/
theorem line_ne_of_token {source : String} (h : SourceLine.classify source = .ok lines) {t : Token}
    (ht : .token t ∈ ofLines lines (CommentBlock.group lines))
    (hmem : p ∈ ofLines lines (CommentBlock.group lines)) (hp : p.token? = none) :
    t.line ≠ p.line := by
  obtain ⟨l, hl, hline, hcode, -⟩ := exists_line_of_token h (mem_tokenize_of_mem ht)
  obtain ⟨l', hl', hline', hother⟩ := exists_line_of_mem_ofLines hmem hp
  intro heq
  have hnodup : (lines.map (·.line)).Nodup :=
    (List.pairwise_map.2 (SourceLine.pairwise_line_of_classify h)).imp Nat.ne_of_lt
  have hsame : l = l' := List.inj_on_of_nodup_map hnodup hl hl' (by rw [hline, hline', heq])
  exact hother (hsame ▸ hcode)

/-- **The pieces of a header are its code, its doc blocks and its markers, merged by line.** -/
theorem merges_ofLines {source : String} (h : SourceLine.classify source = .ok lines) :
    Merges lines (CommentBlock.group lines) (ofLines lines (CommentBlock.group lines)) := by
  have hincreasing := SourceLine.pairwise_line_of_classify h
  refine ⟨fun t ht => exists_line_of_token h (mem_tokenize_of_mem ht), filterMap_token?_ofLines .., ?_,
    markers_ofLines hincreasing _, ?_⟩
  · rw [docs_ofLines hincreasing, declarationBlocks]
    exact congrArg _ (List.filter_congr fun b _ => by cases b.proxy <;> rfl)
  · intro before p behind heq hp
    obtain ⟨-, hbehind, hbefore⟩ :=
      List.pairwise_append.1 (heq ▸ pairwise_line_ofLines lines (CommentBlock.group lines))
    have hne {t : Token} (ht : .token t ∈ before ++ p :: behind) : t.line ≠ p.line := by
      rw [← heq] at ht
      exact line_ne_of_token h ht (heq ▸ List.mem_append_right _ List.mem_cons_self) hp
    refine ⟨fun t ht => ?_, fun t ht => ?_⟩
    · exact Nat.lt_of_le_of_ne (hbefore _ ht p List.mem_cons_self) (hne (List.mem_append_left _ ht))
    · exact Nat.lt_of_le_of_ne ((List.pairwise_cons.1 hbehind).1 _ ht)
        (hne (List.mem_append_right _ (List.mem_cons_of_mem _ ht))).symm

/-- An ignored block, and a comment and a marker with code before and behind them. -/
theorem merges_ofLines_ignored :
    ∃ lines, SourceLine.classify ("/// a\nint X;\n//// [ignore]\nint Y;\n//// [/ignore]\n" ++
        "//// [inject: p]\nint Z;") = .ok lines ∧
      (ofLines lines (CommentBlock.group lines)).map line = [1, 2, 2, 2, 6, 7, 7, 7] ∧
      Merges lines (CommentBlock.group lines) (ofLines lines (CommentBlock.group lines)) := by
  have hlines : (SourceLine.classify ("/// a\nint X;\n//// [ignore]\nint Y;\n//// [/ignore]\n" ++
      "//// [inject: p]\nint Z;")).map
        (fun lines => (ofLines lines (CommentBlock.group lines)).map line) =
          .ok [1, 2, 2, 2, 6, 7, 7, 7] := by
    cbv
  obtain ⟨lines, hlines, hpieces⟩ := Except.map_eq_ok.1 hlines
  exact ⟨lines, hlines, hpieces, merges_ofLines hlines⟩

end Piece

end AnnotatedHeader
