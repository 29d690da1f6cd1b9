import AnnotatedHeader.Proofs.Text.Ends
import AnnotatedHeader.Region
import Mathlib.Data.List.Forall2

/-! What dedenting does.

The lines of a region are shown without the blank lines around them, and together as far to the
left as they go (`Dedented`). How far they are indented where they are captured does not
matter, and lines that are shown like that already are shown as they stand (`dedent_laws`). -/
namespace AnnotatedHeader.Region

open List (Forall₂)
open Text

variable {ls ms : List (List Char)} {l m w : List Char} {n : Nat}

/-! ### Indentation -/

theorem indentation_append (h : isBlank w) (l : List Char) :
    indentation (w ++ l) = w.length + indentation l := by
  unfold indentation
  rw [List.takeWhile_append_of_pos (List.all_eq_true.1 h), List.length_append]

theorem isBlank_take (h : n ≤ indentation l) : isBlank (l.take n) := by
  have htake : l.take n = (l.takeWhile isSpace).take n := by
    conv_lhs => rw [← List.takeWhile_append_dropWhile (p := isSpace) (l := l)]
    exact List.take_append_of_le_length h
  rw [htake]
  exact List.all_eq_true.2 fun c hc => List.mem_takeWhile_imp (List.mem_of_mem_take hc)

theorem level_le (hl : l ∈ ls) (h : isBlank l = false) : level ls ≤ indentation l := by
  have hmem : indentation l ∈ (ls.filter (!isBlank ·)).map indentation :=
    List.mem_map.2 ⟨l, List.mem_filter.2 ⟨hl, by simp [h]⟩, rfl⟩
  unfold level
  cases hmin : ((ls.filter (!isBlank ·)).map indentation).min? with
  | none => exact Nat.zero_le _
  | some k => exact (List.min?_eq_some_iff.1 hmin).2 _ hmem

/-- Some line goes no further to the right than the level. -/
theorem exists_indentation_eq_level (h : ∃ l ∈ ls, isBlank l = false) :
    ∃ l ∈ ls, isBlank l = false ∧ indentation l = level ls := by
  obtain ⟨l, hl, hvisible⟩ := h
  have hmem : l ∈ ls.filter (!isBlank ·) := List.mem_filter.2 ⟨hl, by simp [hvisible]⟩
  unfold level
  cases hmin : ((ls.filter (!isBlank ·)).map indentation).min? with
  | none =>
    rw [List.map_eq_nil_iff.1 (List.min?_eq_none_iff.1 hmin)] at hmem
    cases hmem
  | some k =>
    obtain ⟨l', hl', rfl⟩ := List.mem_map.1 (List.min?_mem hmin)
    obtain ⟨hl', hvisible'⟩ := List.mem_filter.1 hl'
    exact ⟨l', hl', by simpa using hvisible', rfl⟩

/-- Without such a line there is nothing to move. -/
theorem level_of_blank (h : ∀ l ∈ ls, isBlank l = true) : level ls = 0 := by
  have hnil : ls.filter (!isBlank ·) = [] := by simpa using h
  rw [level, hnil]
  rfl

/-! ### Lines moved left -/

/-- What is shown of the line `l` when it is moved `n` characters to the left. -/
structure Moved (n : Nat) (l m : List Char) : Prop where
  empty : isBlank l = true → m = []
  /-- Nothing but white space is left out. -/
  part : isBlank l = false → ∃ indent rest, l = indent ++ (m ++ rest) ∧ indent.length = n ∧
    isBlank indent ∧ isBlank rest
  ended : trimEnd m = m
  trimmed : trim m = trim l

theorem trimEnd_shifted (n : Nat) (l : List Char) : trimEnd (shifted n l) = shifted n l := by
  unfold shifted
  split
  · rfl
  · exact trimEnd_trimEnd _

theorem moved_shifted (h : isBlank l = false → n ≤ indentation l) : Moved n l (shifted n l) := by
  cases hl : isBlank l with
  | true =>
    have hnil : shifted n l = [] := if_pos hl
    refine ⟨fun _ => hnil, fun hvisible => ?_, trimEnd_shifted n l, ?_⟩
    · cases hl.symm.trans hvisible
    · rw [hnil, trim_of_isBlank hl]
      rfl
  | false =>
    have hshifted : shifted n l = trimEnd (l.drop n) := if_neg (by simp [hl])
    have hindent := isBlank_take (h hl)
    obtain ⟨rest, hrest, hblank⟩ := exists_eq_trimEnd_append (l.drop n)
    have hline : l = l.take n ++ (shifted n l ++ rest) := by
      rw [hshifted, ← hrest, List.take_append_drop]
    have hlength : (l.take n).length = n :=
      List.length_take_of_le (Nat.le_trans (h hl) (List.takeWhile_sublist _).length_le)
    refine ⟨fun hblank => ?_, fun _ => ⟨_, rest, hline, hlength, hindent, hblank⟩,
      trimEnd_shifted n l, ?_⟩
    · cases hl.symm.trans hblank
    · conv_rhs => rw [hline, trim_isBlank_append hindent, trim_append_of_isBlank _ hblank]

theorem Moved.isBlank_eq (h : Moved n l m) : isBlank m = isBlank l := by
  cases hl : isBlank l with
  | true =>
    rw [h.empty hl]
    rfl
  | false =>
    obtain ⟨indent, rest, rfl, -, hindent, hrest⟩ := h.part hl
    rw [isBlank_append, isBlank_append, hindent, hrest, Bool.and_true, Bool.true_and] at hl
    exact hl

/-- A line that goes no further to the right than it is moved comes to the left end. -/
theorem Moved.indentation_eq_zero (h : Moved n l m) (hl : isBlank l = false)
    (hn : indentation l = n) : indentation m = 0 := by
  obtain ⟨indent, rest, rfl, rfl, hindent, -⟩ := h.part hl
  rw [indentation_append hindent] at hn
  have hnil : (m ++ rest).takeWhile isSpace = [] := List.eq_nil_of_length_eq_zero (by
    unfold indentation at hn
    omega)
  cases m with
  | nil => rfl
  | cons c cs =>
    rw [List.cons_append, List.takeWhile_cons] at hnil
    unfold indentation
    rw [List.takeWhile_cons]
    split at hnil
    · cases hnil
    · rename_i hc
      rw [if_neg hc]
      rfl

/-! ### Dedented lines -/

/-- The lines `ms` are the lines `ls` without the blank ones around them, all of them moved
equally far to the left, and as far as they go. -/
structure Dedented (ls ms : List (List Char)) : Prop where
  moved : ∃ n kept, Between isBlank ls kept ∧ Forall₂ (Moved n) kept ms
  first : ∀ m ∈ ms.head?, isBlank m = false
  last : ∀ m ∈ ms.getLast?, isBlank m = false
  flush : (∃ l ∈ ls, isBlank l = false) → ∃ m ∈ ms, isBlank m = false ∧ indentation m = 0

theorem between_withoutBlankEnds (ls : List (List Char)) :
    Between isBlank ls (withoutBlankEnds ls) := between_dropWhile isBlank ls

theorem dedented_dedent (ls : List (List Char)) : Dedented ls (dedent ls) := by
  have hbetween := between_withoutBlankEnds ls
  have hmoved (l : List Char) (hl : l ∈ withoutBlankEnds ls) :
      Moved (level (withoutBlankEnds ls)) l (shifted (level (withoutBlankEnds ls)) l) :=
    moved_shifted (level_le hl)
  refine ⟨⟨level (withoutBlankEnds ls), _, hbetween, ?_⟩, ?_, ?_, ?_⟩
  · exact List.forall₂_map_right_iff.2 (List.forall₂_same.2 hmoved)
  · intro m hm
    unfold dedent at hm
    rw [List.head?_map] at hm
    obtain ⟨l, hl, rfl⟩ := Option.map_eq_some_iff.1 hm
    rw [(hmoved l (List.mem_of_mem_head? hl)).isBlank_eq]
    exact hbetween.first l hl
  · intro m hm
    unfold dedent at hm
    rw [List.getLast?_map] at hm
    obtain ⟨l, hl, rfl⟩ := Option.map_eq_some_iff.1 hm
    rw [(hmoved l (List.mem_of_getLast? hl)).isBlank_eq]
    exact hbetween.last l hl
  · rintro ⟨l, hl, hvisible⟩
    -- A line that is not blank is not among those that are left out.
    obtain ⟨before, after, hls, hbefore, hafter⟩ := hbetween.ends
    have hkept : l ∈ withoutBlankEnds ls := by
      rw [hls, List.mem_append, List.mem_append] at hl
      rcases hl with (hl | hl) | hl
      · cases hvisible.symm.trans (hbefore l hl)
      · exact hl
      · cases hvisible.symm.trans (hafter l hl)
    obtain ⟨l', hl', hvisible', hlevel⟩ := exists_indentation_eq_level ⟨l, hkept, hvisible⟩
    refine ⟨_, List.mem_map_of_mem hl', ?_, (hmoved l' hl').indentation_eq_zero hvisible' hlevel⟩
    rw [(hmoved l' hl').isBlank_eq, hvisible']

theorem exists_moved_of_mem {kept : List (List Char)} (h : Forall₂ (Moved n) kept ms)
    (hm : m ∈ ms) : ∃ l ∈ kept, Moved n l m := by
  induction h with
  | nil => cases hm
  | cons moved _ ih =>
    rcases List.mem_cons.1 hm with rfl | hm
    · exact ⟨_, List.mem_cons_self .., moved⟩
    · obtain ⟨l, hl, hmoved⟩ := ih hm
      exact ⟨l, List.mem_cons_of_mem _ hl, hmoved⟩

namespace Dedented

theorem exists_moved (h : Dedented ls ms) (hm : m ∈ ms) : ∃ n, ∃ l ∈ ls, Moved n l m := by
  obtain ⟨n, kept, hbetween, hmoved⟩ := h.moved
  obtain ⟨before, after, rfl, -, -⟩ := hbetween.ends
  obtain ⟨l, hl, hlm⟩ := exists_moved_of_mem hmoved hm
  exact ⟨n, l, List.mem_append_left after (List.mem_append_right before hl), hlm⟩

theorem level_eq_zero (h : Dedented ls ms) : level ms = 0 := by
  by_cases hvisible : ∃ m ∈ ms, isBlank m = false
  · obtain ⟨m, hm, hvisible⟩ := hvisible
    obtain ⟨n, l, hl, hlm⟩ := h.exists_moved hm
    rw [hlm.isBlank_eq] at hvisible
    obtain ⟨m', hm', hvisible', hflush⟩ := h.flush ⟨l, hl, hvisible⟩
    exact Nat.eq_zero_of_le_zero (hflush ▸ level_le hm' hvisible')
  · exact level_of_blank (by simpa using hvisible)

/-- Dedented lines are shown as they stand. -/
theorem dedent_eq_self (h : Dedented ls ms) : dedent ms = ms := by
  have hends : withoutBlankEnds ms = ms := dropWhile_ends_eq_self h.first h.last
  have hstays (m : List Char) (hm : m ∈ ms) : shifted 0 m = m := by
    obtain ⟨n, l, -, hlm⟩ := h.exists_moved hm
    cases hl : isBlank l with
    | true =>
      rw [hlm.empty hl]
      rfl
    | false =>
      rw [shifted, hlm.isBlank_eq, hl]
      exact hlm.ended
  unfold dedent
  dsimp only
  rw [hends, h.level_eq_zero]
  exact (List.map_congr_left hstays).trans (List.map_id ms)

end Dedented

/-! ### Lines further to the right -/

/-- A line with `w` in front of it, unless it is blank. -/
def indentedBy (w l : List Char) : List Char := if isBlank l then l else w ++ l

theorem isBlank_indentedBy (h : isBlank w) (l : List Char) :
    isBlank (indentedBy w l) = isBlank l := by
  unfold indentedBy
  split
  · rfl
  · rw [isBlank_append, h, Bool.true_and]

theorem withoutBlankEnds_indentedBy (h : isBlank w) (ls : List (List Char)) :
    withoutBlankEnds (ls.map (indentedBy w)) = (withoutBlankEnds ls).map (indentedBy w) := by
  have hblank : isBlank ∘ indentedBy w = isBlank := funext (isBlank_indentedBy h)
  unfold withoutBlankEnds
  rw [← List.map_reverse, List.dropWhile_map, hblank, ← List.map_reverse, List.dropWhile_map,
    hblank]

theorem level_indentedBy (h : isBlank w) (hvisible : ∃ l ∈ ls, isBlank l = false) :
    level (ls.map (indentedBy w)) = w.length + level ls := by
  have hline (l : List Char) (hl : isBlank l = false) :
      isBlank (indentedBy w l) = false ∧
        indentation (indentedBy w l) = w.length + indentation l := by
    rw [isBlank_indentedBy h, indentedBy, hl]
    exact ⟨rfl, indentation_append h l⟩
  apply Nat.le_antisymm
  · obtain ⟨l, hl, hl', hlevel⟩ := exists_indentation_eq_level hvisible
    rw [← hlevel, ← (hline l hl').2]
    exact level_le (List.mem_map_of_mem hl) (hline l hl').1
  · have hvisible' : ∃ l ∈ ls.map (indentedBy w), isBlank l = false := by
      obtain ⟨l, hl, hl'⟩ := hvisible
      exact ⟨_, List.mem_map_of_mem hl, (hline l hl').1⟩
    obtain ⟨_, hmem, hl', hlevel⟩ := exists_indentation_eq_level hvisible'
    obtain ⟨l, hl, rfl⟩ := List.mem_map.1 hmem
    rw [isBlank_indentedBy h] at hl'
    rw [← hlevel, (hline l hl').2]
    exact Nat.add_le_add_left (level_le hl hl') _

/-- What is put in front of all lines is left out again. -/
theorem dedent_indentedBy (h : isBlank w) (ls : List (List Char)) :
    dedent (ls.map (indentedBy w)) = dedent ls := by
  unfold dedent
  dsimp only
  rw [withoutBlankEnds_indentedBy h, List.map_map]
  refine List.map_congr_left fun l hl => ?_
  unfold Function.comp shifted
  rw [isBlank_indentedBy h]
  cases hvisible : isBlank l with
  | true => rfl
  | false =>
    have hline : indentedBy w l = w ++ l := if_neg (by simp [hvisible])
    rw [level_indentedBy h ⟨l, hl, hvisible⟩, hline, List.drop_length_add_append]

/-- **What is shown of lines does not depend on how far they are indented together**, it is
shown as it stands when it is dedented again, and it is the lines less the blank ones at either
end, moved left as far as they go. -/
theorem dedent_laws (ls : List (List Char)) :
    (∀ w, isBlank w → dedent (ls.map (indentedBy w)) = dedent ls) ∧
      dedent (dedent ls) = dedent ls ∧ Dedented ls (dedent ls) :=
  ⟨fun _ h => dedent_indentedBy h ls, (dedented_dedent ls).dedent_eq_self, dedented_dedent ls⟩

/-- Lines that a tab, wide spaces and blank lines stand in front of and around, captured two
characters further to the right. -/
theorem dedent_laws_wide :
    let ls := ["  ", "\t\u3000if (a) ", "\t", "\t\u3000 \tb();\r", ""].map String.toList
    isBlank "\u2003\t".toList ∧ dedent (ls.map (indentedBy "\u2003\t".toList)) = dedent ls ∧
      dedent (dedent ls) = dedent ls ∧ Dedented ls (dedent ls) ∧
      dedent ls = ["if (a)", "", " \tb();"].map String.toList := by
  intro ls
  have hblank : isBlank "\u2003\t".toList := by decide
  obtain ⟨hindented, hagain, hdedented⟩ := dedent_laws ls
  exact ⟨hblank, hindented _ hblank, hagain, hdedented, by decide⟩

end AnnotatedHeader.Region

namespace AnnotatedHeader.Regions.Open

/-- A region with all its lines further to the right. -/
def indentedBy (w : List Char) (o : Open) : Open :=
  { o with lines := o.lines.map fun l => .ofList (Region.indentedBy w l.toList) }

/-- The text of a region is the same wherever its lines start. -/
theorem close_indentedBy {w : List Char} (h : Text.isBlank w) (kind : RegionKind) (o : Open) :
    (o.indentedBy w).close kind = o.close kind := by
  have hlines : (o.indentedBy w).lines.map String.toList =
      (o.lines.map String.toList).map (Region.indentedBy w) := by
    simp [indentedBy]
  unfold close
  rw [hlines, Region.dedent_indentedBy h]
  rfl

end AnnotatedHeader.Regions.Open
