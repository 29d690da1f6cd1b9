import AnnotatedHeader.Proofs.Metadata.Entries
import AnnotatedHeader.Proofs.Numbering.Comments
import Mathlib.Order.Monotone.Basic

/-! Tokens and pieces of renumbered lines.

The text of joined tokens and the metadata in tokens do not depend on lines. Tokens count the
line feeds from their first line on, so they are renumbered where `g` keeps these steps
(`Token.tokenize_renumber`), and pieces stay in their order where `g` increases
(`Piece.ofLines_renumber`). -/
namespace AnnotatedHeader

variable {g : Nat → Nat}

theorem Token.join_renumber (ts : List Token) : join (ts.map (renumber g)) = join ts := by
  refine join_congr ?_
  rw [List.map_map]
  rfl

theorem Token.map_text_renumber (ts : List Token) :
    (ts.map (renumber g)).map (·.text) = ts.map (·.text) := List.map_map

/-! ### Metadata -/

namespace Metadata

theorem consToken_renumber (t : Token) (ps : List (List Token)) :
    consToken (renumber g t) (ps.map (renumber g)) = (consToken t ps).map (renumber g) := by
  cases ps <;> rfl

theorem splitTop?_renumber (depth : Nat) (ts : List Token) :
    splitTop? depth (ts.map (renumber g)) = (splitTop? depth ts).map (renumber g) := by
  have hcons (t : Token) (o : Option (List (List Token))) :
      (o.map (renumber g)).map (consToken (renumber g t)) = (o.map (consToken t)).map (renumber g) := by
    cases o with
    | none => rfl
    | some ps => exact congrArg some (consToken_renumber t ps)
  fun_induction splitTop? depth ts with
  | case1 => rfl
  | case2 depth hdepth => simp [splitTop?, hdepth]
  | case3 t ts hkind ih => simp [splitTop?, hkind, ih, Function.comp_def]
  | case4 t ts depth hkind ih =>
    simp only [List.map_cons, splitTop?, Token.kind_renumber, hkind, ih, hcons]
  | case5 t ts hkind => simp [splitTop?, hkind]
  | case6 t ts depth hkind ih =>
    simp only [List.map_cons, splitTop?, Token.kind_renumber, hkind, ih, hcons]
  | case7 t ts depth _ _ _ _ ih =>
    simp only [List.map_cons, splitTop?, Token.kind_renumber, ih, hcons]

theorem insideGroup?_renumber (depth : Nat) (ts : List Token) :
    insideGroup? depth (ts.map (renumber g)) = (insideGroup? depth ts).map (renumber g) := by
  have hcons (t : Token) (o : Option (List Token)) :
      (o.map (renumber g)).map (renumber g t :: ·) = (o.map (t :: ·)).map (renumber g) := by
    cases o <;> rfl
  fun_induction insideGroup? depth ts with
  | case1 => rfl
  | case2 t ts depth hkind ih =>
    simp only [List.map_cons, insideGroup?, Token.kind_renumber, hkind, ih, hcons]
  | case3 t ts hkind hempty => simp [insideGroup?, hkind, hempty]
  | case4 t ts hkind hempty => simp [insideGroup?, hkind, hempty]
  | case5 t ts depth hkind ih =>
    simp only [List.map_cons, insideGroup?, Token.kind_renumber, hkind, ih, hcons]
  | case6 t ts depth _ _ _ ih =>
    simp only [List.map_cons, insideGroup?, Token.kind_renumber, ih, hcons]

theorem group?_renumber (ts : List Token) :
    group? (ts.map (renumber g)) = renumber g (group? ts) := by
  cases ts with
  | nil => rfl
  | cons t ts =>
    rw [List.map_cons, group?, group?, Token.kind_renumber, insideGroup?_renumber]
    split <;> rfl

theorem valueText_renumber (ts : List Token) : valueText (ts.map (renumber g)) = valueText ts := by
  unfold valueText
  cases ts with
  | nil => rfl
  | cons t ts =>
    cases ts with
    | nil => rfl
    | cons u ts => exact Token.join_renumber (t :: u :: ts)

/-- An entry is a key alone, or a key and a value behind the first `=`. -/
theorem readEntries_cons (part : List Token) (parts : List (List Token)) :
    readEntries (part :: parts) =
      if part.isEmpty then readEntries parts
      else
        match part.dropWhile (!isEquals ·) with
        | [] => (readEntries parts).map ((Token.join (part.takeWhile (!isEquals ·)), .flag) :: ·)
        | _ :: value =>
          if (Token.join (part.takeWhile (!isEquals ·))).isEmpty then .error .missingKey
          else if value.isEmpty then
            .error (.missingValue (Token.join (part.takeWhile (!isEquals ·))))
          else do
            let v ← readValue value
            let rest ← readEntries parts
            return (Token.join (part.takeWhile (!isEquals ·)), v) :: rest := by
  conv_lhs => rw [readEntries]
  split
  · rfl
  · dsimp only
    split <;> rename_i h <;> rw [h]

theorem read_renumber (ts : List Token) : read (ts.map (renumber g)) = read ts := by
  have htake (part : List Token) : Token.join ((part.map (renumber g)).takeWhile (!isEquals ·)) =
      Token.join (part.takeWhile (!isEquals ·)) := by
    rw [takeWhile_renumber fun _ => rfl]
    exact Token.join_renumber _
  have hdrop (part : List Token) : (part.map (renumber g)).dropWhile (!isEquals ·) =
      (part.dropWhile (!isEquals ·)).map (renumber g) := dropWhile_renumber (fun _ => rfl) part
  refine read.induct (fun ts => read (ts.map (renumber g)) = read ts)
    (fun ps => readEntries (ps.map (renumber g)) = readEntries ps)
    (fun ts => readValue (ts.map (renumber g)) = readValue ts)
    ?split ?unbalanced ?nil ?empty ?flag ?noKey ?noValue ?value ?group ?text ts
  case split =>
    intro ts parts hparts ih
    have hparts' := splitTop?_renumber (g := g) 0 ts
    rw [hparts] at hparts'
    rw [read, read]
    split <;> rename_i h <;> cases hparts'.symm.trans h
    split <;> rename_i h <;> cases hparts.symm.trans h
    exact ih
  case unbalanced =>
    intro ts hnone
    have hnone' := splitTop?_renumber (g := g) 0 ts
    rw [hnone] at hnone'
    rw [read, read]
    split <;> rename_i h <;> cases hnone'.symm.trans h
    split <;> rename_i h <;> cases hnone.symm.trans h
    rfl
  case nil => rfl
  case empty =>
    intro part parts hempty ih
    simp [readEntries_cons, hempty, ih]
  case flag =>
    intro part parts hempty hflag ih
    simp [readEntries_cons, hempty, htake, hdrop, hflag, ih]
  case noKey =>
    intro part parts hempty key equals value hvalue hkey
    have hkey : Token.join (part.takeWhile (!isEquals ·)) = "" := String.isEmpty_iff.1 hkey
    simp [readEntries_cons, hempty, htake, hdrop, hvalue, hkey]
  case noValue =>
    intro part parts hempty key equals value hvalue hkey hnone
    simp [readEntries_cons, hempty, htake, hdrop, hvalue, hnone]
  case value =>
    intro part parts hempty key equals value hvalue hkey hsome ihValue ih
    simp [readEntries_cons, hempty, htake, hdrop, hvalue, hsome, ihValue, ih]
  case group =>
    intro ts inside hinside ih
    have hinside' := group?_renumber (g := g) ts
    rw [hinside] at hinside'
    rw [readValue, readValue]
    split <;> rename_i h <;> cases hinside'.symm.trans h
    split <;> rename_i h <;> cases hinside.symm.trans h
    exact congrArg _ ih
  case text =>
    intro ts hnone
    have hnone' := group?_renumber (g := g) ts
    rw [hnone] at hnone'
    rw [readValue, readValue]
    split <;> rename_i h <;> cases hnone'.symm.trans h
    split <;> rename_i h <;> cases hnone.symm.trans h
    rw [valueText_renumber]

end Metadata

/-! ### Cutting code -/

/-- The `n` lines behind `line` keep their distance from it. -/
def Steps (g : Nat → Nat) (line n : Nat) : Prop := ∀ j ≤ n, g (line + j) = g line + j

theorem Steps.mono {line m n : Nat} (h : Steps g line n) (hm : m ≤ n) : Steps g line m :=
  fun j hj => h j (Nat.le_trans hj hm)

theorem Steps.add {line m n : Nat} (h : Steps g line (m + n)) : Steps g (line + m) n := by
  intro j hj
  rw [Nat.add_assoc, h (m + j) (by omega), h m (by omega), Nat.add_assoc]

theorem Lexeme.tokens_renumber {line : Nat} {ls : List Lexeme}
    (h : Steps g line ((ls.map newlines).sum)) :
    tokens (g line) ls = (tokens line ls).map (renumber g) := by
  induction ls generalizing line with
  | nil => rfl
  | cons l ls ih =>
    rw [List.map_cons, List.sum_cons] at h
    have hrest := ih h.add
    rw [h l.newlines (by omega)] at hrest
    rw [tokens, tokens, hrest]
    cases l.tokenKind? <;> rfl

theorem Lexeme.sum_newlines_scan (cs : List Char) :
    ((scan cs).map newlines).sum = cs.count '\n' := by
  conv_rhs => rw [← flatMap_text_scan cs]
  rw [List.count_flatMap]
  rfl

/-- Tokens count lines from the first line of their code on. -/
theorem Token.tokenize_renumber {source : String} {line : Nat}
    (h : Steps g line (source.toList.count '\n')) :
    tokenize source (g line) = (tokenize source line).map (renumber g) := by
  refine Lexeme.tokens_renumber ?_
  rwa [Lexeme.sum_newlines_scan]

/-! ### Pieces -/

namespace Piece

theorem code_renumber (lines : List SourceLine) : code (lines.map (renumber g)) = code lines := by
  unfold code
  rw [List.map_map]
  rfl

theorem inject?_renumber (l : SourceLine) : inject? (renumber g l) = renumber g (inject? l) := by
  obtain ⟨line, offset, text, kind, ignored⟩ := l
  cases kind with
  | marker directive =>
    cases directive with
    | inject proxy => cases ignored <;> rfl
    | opens | closes | ignore | endIgnore => rfl
  | code | doc | tool => rfl

theorem mergeSort_renumber (hg : StrictMono g) (ps : List Piece) :
    (ps.map (renumber g)).mergeSort (fun a b => a.line ≤ b.line) =
      (ps.mergeSort fun a b => a.line ≤ b.line).map (renumber g) := by
  refine (List.map_mergeSort fun a _ b _ => ?_).symm
  simp only [line_renumber, hg.le_iff_le]

theorem ofLines_renumber (hg : StrictMono g) {lines : List SourceLine} {blocks : List CommentBlock}
    (hsteps : Steps g (firstLine lines) ((code lines).toList.count '\n')) (hlines : lines ≠ [])
    (hblocks : ∀ b ∈ blocks, b.lines ≠ []) :
    ofLines (lines.map (renumber g)) (blocks.map (renumber g)) =
      (ofLines lines blocks).map (renumber g) := by
  have hfirst : firstLine (lines.map (renumber g)) = g (firstLine lines) := by
    cases lines with
    | nil => exact absurd rfl hlines
    | cons l ls => rfl
  have htokens : (Token.tokenize (code lines) (g (firstLine lines))).map token =
      ((Token.tokenize (code lines) (firstLine lines)).map token).map (renumber g) := by
    rw [Token.tokenize_renumber hsteps, List.map_map, List.map_map]
    rfl
  have hdocs : (declarationBlocks (blocks.map (renumber g))).map (fun b => doc b.toDoc) =
      ((declarationBlocks blocks).map fun b => doc b.toDoc).map (renumber g) := by
    unfold declarationBlocks
    rw [filter_renumber fun _ => rfl, List.map_map, List.map_map]
    refine List.map_congr_left fun b hb => ?_
    exact congrArg doc (CommentBlock.toDoc_renumber (hblocks b (List.mem_filter.1 hb).1))
  have hinjects : (lines.map (renumber g)).filterMap inject? =
      (lines.filterMap inject?).map (renumber g) := by
    rw [List.filterMap_map, List.map_filterMap]
    exact congrArg (fun f => List.filterMap f lines) (funext inject?_renumber)
  unfold ofLines
  simp only [code_renumber, hfirst, htokens, hdocs, hinjects]
  rw [← List.map_append, ← List.map_append, mergeSort_renumber hg]

end Piece

end AnnotatedHeader
