import AnnotatedHeader.Proofs.Numbering.Lines
import AnnotatedHeader.Proofs.Token.Written

/-! Line numbers are relative.

A header behind `k` empty lines has the outcome that it has alone, with `k` added to the number
of every line in it (`Document.result_ofSource_newlines`). An empty line in front of a header's
lines is seen by none of its readers (`Document.result_ofLines_empty`), so what is left is the
header with other numbers for its lines. -/
namespace AnnotatedHeader

/-! ### Empty lines in front of code -/

namespace Lexeme

/-- A gap counts lines and means nothing else. -/
theorem tokens_scan_dropWhile (line : Nat) (cs : List Char) :
    tokens line (scan cs) =
      tokens (line + (cs.takeWhile isGap).count '\n') (scan (cs.dropWhile isGap)) := by
  cases cs with
  | nil => rfl
  | cons c cs =>
    cases hc : isGap c with
    | false => simp [hc]
    | true =>
      rw [scan_gap hc, List.takeWhile_cons_of_pos hc, List.dropWhile_cons_of_pos hc, tokens]
      rfl

theorem tokens_scan_append_of_isGap {before : List Char} (hgap : ∀ c ∈ before, isGap c = true)
    (line : Nat) (cs : List Char) :
    tokens line (scan (before ++ cs)) = tokens (line + before.count '\n') (scan cs) := by
  rw [tokens_scan_dropWhile, tokens_scan_dropWhile (line + before.count '\n') cs,
    List.takeWhile_append_of_pos hgap, List.dropWhile_append_of_pos hgap, List.count_append,
    Nat.add_assoc]

theorem tokens_scan_newline (line : Nat) (cs : List Char) :
    tokens line (scan ('\n' :: cs)) = tokens (line + 1) (scan cs) :=
  @tokens_scan_append_of_isGap ['\n'] (List.forall_mem_singleton.2 rfl) line cs

end Lexeme

theorem Token.tokenize_newline (source : String) (line : Nat) :
    tokenize ("\n" ++ source) line = tokenize source (line + 1) := by
  unfold tokenize
  rw [String.toList_append]
  exact Lexeme.tokens_scan_newline line source.toList

namespace SourceLine

/-- An empty line. -/
def empty (line offset : Nat) : SourceLine := ⟨line, offset, "", .code, false⟩

theorem classifyFrom_nil_cons (line offset : Nat) (raws : List (List Char)) :
    classifyFrom none line offset ([] :: raws) =
      (classifyFrom none (line + 1) (offset + byteLength []) raws).map (empty line offset :: ·) :=
  classifyFrom_cons none line offset [] raws

end SourceLine

namespace Piece

theorem ofLines_empty {line offset : Nat} {ls : List SourceLine} (hnil : ls ≠ [])
    (hfirst : firstLine ls = line + 1) (blocks : List CommentBlock) :
    ofLines (SourceLine.empty line offset :: ls) blocks = ofLines ls blocks := by
  have hcode : code (SourceLine.empty line offset :: ls) = "\n" ++ code ls := by
    cases ls with
    | nil => exact absurd rfl hnil
    | cons l ls =>
      have hempty : codeOf (SourceLine.empty line offset) = "" := rfl
      unfold code Text.joinLines
      rw [List.map_cons, List.map_cons, String.intercalate_cons_cons, hempty, String.empty_append]
  unfold ofLines
  rw [hcode, hfirst]
  have htokens : Token.tokenize ("\n" ++ code ls) (firstLine (SourceLine.empty line offset :: ls)) =
      Token.tokenize (code ls) (line + 1) := Token.tokenize_newline (code ls) line
  rw [htokens]
  rfl

end Piece

namespace Document

theorem result_ofLines_empty (file : String) {line offset : Nat} {ls : List SourceLine}
    (hnil : ls ≠ []) (hfirst : Piece.firstLine ls = line + 1) :
    (ofLines file (SourceLine.empty line offset :: ls)).result = (ofLines file ls).result := by
  have hregions : Regions.extract (SourceLine.empty line offset :: ls) = Regions.extract ls := rfl
  have hblocks : CommentBlock.group (SourceLine.empty line offset :: ls) = CommentBlock.group ls := rfl
  have hcontents (blocks : List CommentBlock) :
      (Scope.Contents.ofLines (SourceLine.empty line offset :: ls) blocks).result =
        (Scope.Contents.ofLines ls blocks).result := by
    unfold Scope.Contents.ofLines
    rw [Outcome.result_bind, Outcome.result_bind, Piece.ofLines_empty hnil hfirst]
    rfl
  unfold ofLines
  simp only [hregions, hblocks, hcontents, Outcome.result_bind, Outcome.result_note,
    Outcome.result_noteAll]

theorem result_ofRaws_nil_cons (file : String) (first offset : Nat) {raws : List (List Char)}
    (hnil : raws ≠ []) :
    (ofRaws file first offset ([] :: raws)).result =
      (ofRaws file (first + 1) (offset + SourceLine.byteLength []) raws).result := by
  unfold ofRaws
  rw [SourceLine.classifyFrom_nil_cons]
  cases hls : SourceLine.classifyFrom none (first + 1) (offset + SourceLine.byteLength []) raws with
  | error e => rfl
  | ok ls =>
    obtain ⟨hlines, hlength⟩ := SourceLine.map_line_of_classifyFrom hls
    have hne : ls ≠ [] := List.ne_nil_of_length_pos (by rw [hlength]; exact List.length_pos_iff.2 hnil)
    exact result_ofLines_empty file hne (Piece.firstLine_of_lines hne hlines)

/-- Empty lines in front only move a text's first line. -/
theorem result_ofRaws_replicate (file : String) (k first offset : Nat) {raws : List (List Char)}
    (hnil : raws ≠ []) :
    ∃ offset', (ofRaws file first offset (List.replicate k [] ++ raws)).result =
      (ofRaws file (first + k) offset' raws).result := by
  induction k generalizing first offset with
  | zero => exact ⟨offset, rfl⟩
  | succ k ih =>
    have hne : List.replicate k [] ++ raws ≠ [] := by simp [hnil]
    obtain ⟨offset', hrest⟩ := ih (first + 1) (offset + SourceLine.byteLength [])
    refine ⟨offset', ?_⟩
    rw [List.replicate_succ, List.cons_append, result_ofRaws_nil_cons file first offset hne, hrest,
      Nat.add_assoc, Nat.add_comm 1]

theorem result_ofRaws_blank (file : String) (first offset : Nat) :
    (ofRaws file first offset [[]]).result = .ok ⟨file, [], []⟩ := by
  have hpieces : Piece.ofLines [SourceLine.empty first offset] [] = [] := by
    have hcode : Piece.code [SourceLine.empty first offset] = "" := by
      unfold Piece.code Text.joinLines
      rw [List.map_singleton, String.intercalate_singleton]
      rfl
    have htokens : Token.tokenize "" first = [] := by
      unfold Token.tokenize
      rw [String.toList_empty, Lexeme.scan]
      rfl
    unfold Piece.ofLines
    rw [hcode]
    show (((Token.tokenize "" first).map Piece.token ++ [] ++ []).mergeSort _) = []
    rw [htokens]
    exact List.mergeSort_nil
  have hcontents : (Scope.Contents.ofLines [SourceLine.empty first offset] []).result =
      .ok ⟨[], []⟩ := by
    refine Scope.Contents.result_ofLines_eq_ok.2 ⟨[], ?_⟩
    rw [hpieces]
    exact .ends rfl
  have hbuild : (build file ⟨[], []⟩ {} (proxyDoc? [])).result = .ok ⟨file, [], []⟩ := by
    have hsnippets : ({} : Regions).ofKind .snippet = [] := List.mergeSort_nil
    unfold build
    rw [hsnippets]
    rfl
  unfold ofRaws
  rw [SourceLine.classifyFrom_nil_cons]
  exact result_ofLines_eq_ok.2 ⟨{}, ⟨[], []⟩, rfl, hcontents, hbuild⟩

end Document

/-! ### Empty lines in front of a file -/

namespace Text

theorem fileLines_newline {cs : List Char} (h : cs ≠ []) :
    fileLines ('\n' :: cs) = [] :: fileLines cs := by
  obtain ⟨run, runs, hruns⟩ := List.exists_cons_of_ne_nil (splitOn_ne_nil '\n' cs)
  have hcs := intercalate_splitOn '\n' cs
  unfold fileLines
  rw [splitOn_separator, hruns]
  cases runs with
  | nil =>
    -- Only of an empty text the one run is empty.
    rw [hruns, List.intercalate_singleton] at hcs
    have hrun : run ≠ [] := hcs ▸ h
    simp [hrun]
  | cons run' runs =>
    simp only [List.length_cons, List.getLast?_cons_cons, List.dropLast_cons_cons]
    have hlong : 1 < runs.length + 1 + 1 + 1 := by omega
    have hlong' : 1 < runs.length + 1 + 1 := by omega
    simp only [hlong, hlong']
    split <;> rfl

theorem fileLines_newlines (k : Nat) {cs : List Char} (h : cs ≠ []) :
    fileLines (List.replicate k '\n' ++ cs) = List.replicate k [] ++ fileLines cs := by
  induction k with
  | zero => rfl
  | succ k ih =>
    have hne : List.replicate k '\n' ++ cs ≠ [] := by simp [h]
    rw [List.replicate_succ, List.replicate_succ, List.cons_append, List.cons_append,
      fileLines_newline hne, ih]

theorem withoutMark_of_head? {source : String} (h : source.toList.head? ≠ some '\ufeff') :
    withoutMark source = source := by
  unfold withoutMark
  split
  · rename_i hmark
    rw [hmark] at h
    exact absurd rfl h
  · rfl

end Text

namespace Document

/-- **Line numbers are relative.** A header that starts with no byte order mark has, behind `k`
line feeds, the outcome that it has alone, with `k` added to the number of every line: to those
of all declarations, macros, doc blocks, references and examples of its document, or to that of
its fault and those in the fault's cause. -/
theorem result_ofSource_newlines (file source : String) (k : Nat)
    (h : source.toList.head? ≠ some '\ufeff') :
    (ofSource file (.ofList (List.replicate k '\n') ++ source)).result =
      renumber (· + k) (ofSource file source).result := by
  have hg : StrictMono (· + k) := fun _ _ hlt => Nat.add_lt_add_right hlt k
  have hmark : Text.withoutMark (.ofList (List.replicate k '\n') ++ source) =
      .ofList (List.replicate k '\n') ++ source := by
    refine Text.withoutMark_of_head? ?_
    rw [String.toList_append, String.toList_ofList]
    cases k with
    | zero => exact h
    | succ k => simp [List.replicate_succ]
  rw [ofSource_eq_ofRaws, ofSource_eq_ofRaws, hmark, Text.withoutMark_of_head? h,
    String.toList_append, String.toList_ofList]
  by_cases hnil : source.toList = []
  · have hempty : (ofRaws file 1 0 (Text.fileLines (List.replicate k '\n'))).result =
        .ok ⟨file, [], []⟩ := by
      cases k with
      | zero => exact result_ofRaws_blank file 1 0
      | succ k =>
        -- A line feed alone is one empty line, as is an empty file.
        rw [List.replicate_succ', Text.fileLines_newlines k (List.cons_ne_nil _ _)]
        obtain ⟨offset, hmoved⟩ := result_ofRaws_replicate file k 1 0 (List.cons_ne_nil [] [])
        exact hmoved.trans (result_ofRaws_blank file (1 + k) offset)
    rw [hnil, List.append_nil, hempty]
    exact (congrArg (renumber (· + k)) (result_ofRaws_blank file 1 0)).symm
  · rw [Text.fileLines_newlines k hnil]
    obtain ⟨offset, hmoved⟩ := result_ofRaws_replicate file k 1 0
      (Text.fileLines_ne_nil source.toList)
    rw [hmoved]
    refine result_ofRaws_renumber hg file 0 offset (Text.fileLines_ne_nil _)
      (fun raw hraw => Text.not_mem_of_mem_fileLines hraw) fun j _ => ?_
    exact Nat.add_right_comm 1 j k

/-- A class with a macro, behind two empty lines. -/
theorem result_ofSource_newlines_class :
    "UCLASS()\nclass C;".toList.head? ≠ some '\ufeff' ∧
      (ofSource "t.h" (.ofList (List.replicate 2 '\n') ++ "UCLASS()\nclass C;")).result =
        .ok ⟨"t.h", [⟨⟨"C", "C", 4, .everyone, none, some ⟨"UCLASS", [], 3⟩, "class C", none,
          .record .classKey ⟨none, [], false⟩, false⟩, []⟩], []⟩ := by
  have hfound : (Scope.Contents.ofLines
        [⟨1, 0, "UCLASS()", .code, false⟩, ⟨2, 9, "class C;", .code, false⟩] []).result =
      .ok ⟨[⟨⟨"C", "C", 2, .everyone, none, some ⟨"UCLASS", [], 1⟩, "class C", none,
        .record .classKey ⟨none, [], false⟩, false⟩, []⟩], []⟩ := by
    refine Scope.Contents.result_ofLines_eq_ok.2 ⟨[], ?_⟩
    have hpieces : Piece.ofLines
        [⟨1, 0, "UCLASS()", .code, false⟩, ⟨2, 9, "class C;", .code, false⟩] [] =
        [.token ⟨.ident, "UCLASS", 1⟩, .token ⟨.lparen, "(", 1⟩, .token ⟨.rparen, ")", 1⟩,
          .token ⟨.ident, "class", 2⟩, .token ⟨.ident, "C", 2⟩, .token ⟨.semi, ";", 2⟩] := by
      cbv
    rw [hpieces]
    have hmacro : (Scope.turn .file Scope.file.start (.token ⟨.ident, "UCLASS", 1⟩)
        [.token ⟨.lparen, "(", 1⟩, .token ⟨.rparen, ")", 1⟩, .token ⟨.ident, "class", 2⟩,
          .token ⟨.ident, "C", 2⟩, .token ⟨.semi, ";", 2⟩]).result =
        .ok (.continues ⟨.everyone, ⟨none, some ⟨"UCLASS", [], 1⟩, none⟩, [], []⟩
          [.token ⟨.ident, "class", 2⟩, .token ⟨.ident, "C", 2⟩, .token ⟨.semi, ";", 2⟩]) := by
      cbv
    exact .continues hmacro (.continues rfl (.ends rfl))
  have hresult : (ofSource "t.h" "UCLASS()\nclass C;").result =
      .ok ⟨"t.h", [⟨⟨"C", "C", 2, .everyone, none, some ⟨"UCLASS", [], 1⟩, "class C", none,
        .record .classKey ⟨none, [], false⟩, false⟩, []⟩], []⟩ := by
    rw [result_ofSource_of_stages {} _ (by cbv) (by cbv) (by cbv) hfound]
    cbv
  have hmark : "UCLASS()\nclass C;".toList.head? ≠ some '\ufeff' := by decide
  refine ⟨hmark, ?_⟩
  rw [result_ofSource_newlines "t.h" "UCLASS()\nclass C;" 2 hmark, hresult]
  rfl
end Document

end AnnotatedHeader
