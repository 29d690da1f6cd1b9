import AnnotatedHeader.Proofs.Numbering.Lines
import AnnotatedHeader.Proofs.Region.Contents

/-! Which lines of a header a region's text is taken from.

A region captures something of some of the lines between its markers, and of those the blank
ones at either end are left out (`Regions.sources`). Each line of its text is part of one of these,
in order (`Regions.exists_holds`), so the lines left out are what moves the text against
the header (`exists_append_of_sublist`). -/
namespace AnnotatedHeader

/-- An element of a sublist is as much further behind in the list as elements in front of it are
left out. -/
theorem exists_append_of_sublist {α : Type} [DecidableEq α] {kept all : List α} {k : Nat} {x : α}
    (hsub : kept.Sublist all) (hall : all.Nodup) (hx : kept[k]? = some x) :
    ∃ before after, all = before ++ x :: after ∧
      k + (before.filter (· ∉ kept)).length = before.length := by
  obtain ⟨before, after, rfl⟩ := List.append_of_mem (hsub.subset (List.mem_of_getElem? hx))
  refine ⟨before, after, rfl, ?_⟩
  have hfilter : (before ++ x :: after).filter (· ∈ kept) = kept := by
    refine (List.Sublist.eq_of_length_le ?_ ?_).symm
    · have hboth := hsub.filter (· ∈ kept)
      rwa [List.filter_eq_self.2 (by simp)] at hboth
    · refine (List.subperm_of_subset (hall.filter _) fun y hy => ?_).length_le
      simpa using (List.mem_filter.1 hy).2
  have hmem : x ∈ kept := List.mem_of_getElem? hx
  have hindex : k = (before.filter (· ∈ kept)).length := by
    have hsplit : before.filter (· ∈ kept) ++ x :: after.filter (· ∈ kept) = kept := by
      rw [List.filter_append, List.filter_cons_of_pos (by simpa using hmem)] at hfilter
      exact hfilter
    have hat : (before.filter (· ∈ kept) ++ x :: after.filter (· ∈ kept))[
        (before.filter (· ∈ kept)).length]? = some x := by simp
    rw [hsplit] at hat
    exact (List.getElem?_inj (List.getElem?_eq_some_iff.1 hx).1 (hall.sublist hsub)).1
      (hx.trans hat.symm)
  have hlength := List.length_eq_length_filter_add (l := before) (· ∈ kept)
  rw [hindex, hlength]
  simp

namespace SourceLine

/-- What a region of that kind captures of the line, nothing where it captures none of it. -/
def content (kind : RegionKind) (l : SourceLine) : List Char := ((l.captured? kind).getD "").toList

/-- What is captured stands on the line. -/
theorem content_isInfix {l : SourceLine} (h : LineKind.read l.text.toList = .ok l.kind)
    (kind : RegionKind) : l.content kind <:+: l.text.toList := by
  unfold content captured?
  split
  · exact List.nil_infix
  · split
    · exact List.infix_rfl
    · exact List.infix_rfl
    · rename_i text hkind
      rw [hkind] at h
      obtain ⟨content, hcontent, rfl⟩ := LineKind.exists_of_read_tool h
      rw [Option.getD_some, String.toList_ofList]
      exact (Text.trimEnd_isPrefix content).isInfix.trans (toolText?_isSuffix hcontent).isInfix
    · exact List.nil_infix

end SourceLine

namespace Regions

/-- The lines that a region's text is taken from, of those between its markers. -/
def sources (kind : RegionKind) (inside : List SourceLine) : List SourceLine :=
  let captured := inside.filter fun l => (l.captured? kind).isSome
  ((captured.reverse.dropWhile fun l => Text.isBlank (l.content kind)).reverse).dropWhile
    fun l => Text.isBlank (l.content kind)

variable {kind : RegionKind} {lines inside : List SourceLine} {rs : Regions} {name : String}
  {r : Region}

theorem sources_sublist (kind : RegionKind) (inside : List SourceLine) :
    (sources kind inside).Sublist inside := by
  refine (List.dropWhile_sublist _).trans ?_
  rw [← List.reverse_sublist, List.reverse_reverse]
  exact (List.dropWhile_sublist _).trans (List.filter_sublist.reverse)

theorem dedent_eq_map_sources (kind : RegionKind) (inside : List SourceLine) :
    ∃ n, Region.dedent ((inside.filterMap (·.captured? kind)).map String.toList) =
      (sources kind inside).map fun l => Region.shifted n (l.content kind) := by
  have hcaptured : (inside.filterMap (·.captured? kind)).map String.toList =
      (inside.filter fun l => (l.captured? kind).isSome).map (·.content kind) := by
    induction inside with
    | nil => rfl
    | cons l inside ih =>
      cases hl : l.captured? kind <;> simp [hl, ih, SourceLine.content]
  unfold Region.dedent Region.withoutBlankEnds
  rw [hcaptured, ← List.map_reverse, List.dropWhile_map, ← List.map_reverse, List.dropWhile_map,
    List.map_map]
  exact ⟨_, rfl⟩

theorem mem_openings_iff {line : Nat} :
    (name, line) ∈ openings kind lines ↔
      ∃ b ∈ lines, b.kind = .marker (.opens kind name) ∧ b.line = line := by
  unfold openings borders
  rw [List.mem_filterMap]
  constructor
  · rintro ⟨border, hborder, hbegun⟩
    obtain ⟨b, hb, hb'⟩ := List.mem_filterMap.1 hborder
    cases border with
    | closes => cases hbegun
    | opens name' line' =>
      cases hbegun
      exact ⟨b, hb, SourceLine.border?_eq_opens_iff.1 hb'⟩
  · rintro ⟨b, hb, his⟩
    exact ⟨_, List.mem_filterMap.2 ⟨b, hb, SourceLine.border?_eq_opens_iff.2 his⟩, rfl⟩

/-- The region is opened and closed around the lines `inside`, and its text is taken from them. -/
structure Holds (lines : List SourceLine) (r : Region) (inside : List SourceLine) : Prop where
  between : ∃ before b e rest, lines = before ++ b :: (inside ++ e :: rest) ∧
    b.kind = .marker (.opens r.kind r.name) ∧ b.line = r.line ∧ e.kind = .marker (.closes r.kind)
  open_inside : ∀ l ∈ inside, l.kind ≠ .marker (.closes r.kind)
  text : ∃ n, r.lines =
    (sources r.kind inside).map fun l => .ofList (Region.shifted n (l.content r.kind))

/-- Where a region stands in the header, and what its text is made from. -/
theorem exists_between (h : extract lines = .ok rs) (hr : rs.get? kind name = some r) :
    ∃ before b inside e rest, lines = before ++ b :: (inside ++ e :: rest) ∧
      b.kind = .marker (.opens r.kind r.name) ∧ b.line = r.line ∧
      e.kind = .marker (.closes r.kind) ∧ (∀ l ∈ inside, l.kind ≠ .marker (.closes r.kind)) ∧
      r.lines = (Region.dedent
        ((inside.filterMap (·.captured? r.kind)).map String.toList)).map .ofList := by
  obtain ⟨-, rfl, rfl⟩ := get?_eq_some hr
  have hopening : (r.name, r.line) ∈ openings r.kind lines := by
    rw [← headings_of_extract h]
    exact (mem_headings_iff (distinct_of_extract h)).2 ⟨r, hr, rfl⟩
  obtain ⟨b, hb, is, hline⟩ := mem_openings_iff.1 hopening
  obtain ⟨before, after, rfl⟩ := List.append_of_mem hb
  obtain ⟨inside, e, rest, rfl, hend, hinside, hget⟩ := get?_of_begin h is
  have hlines := congrArg Region.lines (Option.some.inj (hr.symm.trans hget))
  exact ⟨before, b, inside, e, rest, rfl, is, hline, hend, hinside, hlines⟩

/-- **A region's text line by line**: where it stands in the header, and which lines it is from. -/
theorem exists_holds (h : extract lines = .ok rs) (hr : rs.get? kind name = some r) :
    ∃ inside, Holds lines r inside := by
  obtain ⟨before, b, inside, e, rest, hlines, is, hline, hend, hinside, htext⟩ :=
    exists_between h hr
  obtain ⟨n, hn⟩ := dedent_eq_map_sources r.kind inside
  refine ⟨inside, ⟨before, b, e, rest, hlines, is, hline, hend⟩, hinside, n, htext.trans ?_⟩
  rw [hn, List.map_map]
  rfl

end Regions

end AnnotatedHeader
