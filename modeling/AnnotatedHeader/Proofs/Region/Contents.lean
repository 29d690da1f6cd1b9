import AnnotatedHeader.Proofs.Region.Openings
import AnnotatedHeader.SourceLine.Classify
import Mathlib

/-! What a region holds.

A region is opened by its begin marker and takes what it captures of every line until the first
end marker of its kind, whatever else begins and ends in between. So the regions of a kind are
its begin markers one for one, and a begin marker's region holds the dedented captures of the
lines between that marker and that end (`regions_of_extract`). -/
namespace AnnotatedHeader.Regions
variable {kind : RegionKind} {lines : List SourceLine} {rs : Regions}

namespace Capture
variable {c c' : Capture} {o : Open} {l : SourceLine} {name : String}

/-! ### From the begin marker to the end -/

theorem opened_of_begin (is : l.kind = .marker (.opens kind name)) (h : c.step l = .ok c') :
    c'.opened kind = some { name, line := l.line } := by
  have hopen : c.open kind name l.line = .ok c' := by rw [← h, step, is]
  unfold Capture.open at hopen
  split at hopen
  · cases hopen
  · cases hopen
    rw [opened_setOpened, if_pos rfl]

/-- An open region stays open on every line but an end marker of its kind. -/
theorem opened_step (hopened : c.opened kind = some o) (hend : l.kind ≠ .marker (.closes kind))
    (h : c.step l = .ok c') : c'.opened kind = some (o.taking (l.captured? kind)) := by
  have hsteps := steps_step c l
  rw [h] at hsteps
  cases hsteps with
  | @begins k _ is free =>
    have hne : kind ≠ k := by
      rintro rfl
      rw [hopened] at free
      cases free
    rw [opened_setOpened, if_neg hne, hopened, SourceLine.captured?_marker is, Open.taking_none]
  | @ends k _ is _ _ =>
    have hne : kind ≠ k := by
      rintro rfl
      exact hend is
    show (c.setOpened k none).opened kind = _
    rw [opened_setOpened, if_neg hne, hopened, SourceLine.captured?_marker is, Open.taking_none]
  | captures _ _ =>
    rw [opened_capturing, hopened]
    rfl

theorem opened_of_inside {inside : List SourceLine} (hopened : c.opened kind = some o)
    (hend : ∀ l ∈ inside, l.kind ≠ .marker (.closes kind))
    (h : inside.foldlM step c = .ok c') :
    c'.opened kind = some { o with lines := o.lines ++ inside.filterMap (·.captured? kind) } := by
  induction inside generalizing c o with
  | nil =>
    cases h
    rw [hopened, List.filterMap_nil, List.append_nil]
  | cons l inside ih =>
    obtain ⟨d, hstep, h⟩ := Except.foldlM_cons_eq_ok.1 h
    have hd := opened_step hopened (hend l (List.mem_cons_self ..)) hstep
    rw [ih hd (fun l' hl' => hend l' (List.mem_cons_of_mem l hl')) h, Open.taking]
    cases hl : l.captured? kind <;> simp [hl]

theorem mem_closed_of_end (hopened : c.opened kind = some o)
    (is : l.kind = .marker (.closes kind)) (h : c.step l = .ok c') :
    o.close kind ∈ c'.regions.closed := by
  have hclose : c.close kind l.line = .ok c' := by rw [← h, step, is]
  simp only [close, hopened] at hclose
  split at hclose
  · cases hclose
  · cases hclose
    exact List.mem_append_right _ (List.mem_singleton_self _)

/-! ### What is closed stays -/

theorem closed_step (h : c.step l = .ok c') : c.regions.closed ⊆ c'.regions.closed := by
  have hsteps := steps_step c l
  rw [h] at hsteps
  cases hsteps with
  | begins _ _ =>
    rw [regions_setOpened]
    exact List.Subset.refl _
  | ends _ _ _ => exact List.subset_append_left ..
  | captures _ _ => exact List.Subset.refl _

theorem closed_of_foldlM (h : lines.foldlM step c = .ok c') :
    c.regions.closed ⊆ c'.regions.closed :=
  Except.foldlM_induction (P := fun _ d => c.regions.closed ⊆ d.regions.closed)
    (List.Subset.refl _) (fun _ _ _ _ hd hstep => List.Subset.trans hd (closed_step hstep)) h

end Capture

/-! ### The regions of a header -/

/-- A region holds the captures of the lines between its begin marker and the first end marker of
its kind behind it. -/
theorem get?_of_begin {before after : List SourceLine} {b : SourceLine} {kind : RegionKind}
    {name : String} (h : extract (before ++ b :: after) = .ok rs)
    (is : b.kind = .marker (.opens kind name)) :
    ∃ inside e rest, after = inside ++ e :: rest ∧ e.kind = .marker (.closes kind) ∧
      (∀ l ∈ inside, l.kind ≠ .marker (.closes kind)) ∧
      rs.get? kind name = some
        { kind, name, line := b.line
          lines := (Region.dedent
            ((inside.filterMap (·.captured? kind)).map String.toList)).map .ofList } := by
  have hdistinct := distinct_of_extract h
  obtain ⟨c, hfold, hclosed, rfl⟩ := extract_eq_ok_iff.1 h
  obtain ⟨c₁, _, hfold⟩ := Except.foldlM_append_eq_ok.1 hfold
  obtain ⟨c₂, hbegin, hfold⟩ := Except.foldlM_cons_eq_ok.1 hfold
  have hopened := Capture.opened_of_begin is hbegin
  cases hend : after.find? fun l => l.kind = .marker (.closes kind) with
  | none =>
    -- Without an end the region is still open behind the last line.
    have hne : ∀ l ∈ after, l.kind ≠ .marker (.closes kind) := by
      simpa using List.find?_eq_none.1 hend
    have hstill := Capture.opened_of_inside hopened hne hfold
    rw [hclosed kind] at hstill
    cases hstill
  | some e =>
    obtain ⟨hisEnd, inside, rest, rfl, hinside⟩ := List.find?_eq_some_iff_append.1 hend
    have hisEnd : e.kind = .marker (.closes kind) := by simpa using hisEnd
    have hinside : ∀ l ∈ inside, l.kind ≠ .marker (.closes kind) := by simpa using hinside
    obtain ⟨c₃, hfold₃, hfold⟩ := Except.foldlM_append_eq_ok.1 hfold
    obtain ⟨c₄, hstep, hfold⟩ := Except.foldlM_cons_eq_ok.1 hfold
    have hlast := Capture.opened_of_inside hopened hinside hfold₃
    have hmem := Capture.closed_of_foldlM hfold (Capture.mem_closed_of_end hlast hisEnd hstep)
    exact ⟨inside, e, rest, rfl, hisEnd, hinside, get?_of_mem hdistinct hmem⟩

/-- The begin markers of a kind are those of its regions. -/
theorem headings_of_extract (h : extract lines = .ok rs) (kind : RegionKind) :
    rs.headings kind = openings kind lines := by
  obtain ⟨c, hfold, hclosed, rfl⟩ := extract_eq_ok_iff.1 h
  exact (Capture.follows_of_foldlM hfold kind).headings_eq (hclosed kind)

/-- The regions of a kind are its begin markers, their names differ, and each holds the captures
of the lines between its begin marker and the first end marker of its kind behind it. -/
theorem regions_of_extract (h : extract lines = .ok rs) (kind : RegionKind) :
    rs.headings kind = openings kind lines ∧ ((rs.headings kind).map Prod.fst).Nodup ∧
      ∀ before b after name, lines = before ++ b :: after →
        b.kind = .marker (.opens kind name) →
        ∃ inside e rest, after = inside ++ e :: rest ∧ e.kind = .marker (.closes kind) ∧
          (∀ l ∈ inside, l.kind ≠ .marker (.closes kind)) ∧
          rs.get? kind name = some
            { kind, name, line := b.line
              lines := (Region.dedent
                ((inside.filterMap (·.captured? kind)).map String.toList)).map .ofList } := by
  refine ⟨headings_of_extract h kind, nodup_headings (distinct_of_extract h) kind, ?_⟩
  rintro before b after name rfl is
  exact get?_of_begin h is

/-- A proxy that begins inside a snippet, holds an ignored block, and ends behind the snippet. -/
def overlapping : List SourceLine :=
  [⟨1, 0, "//// [snippet: a]", .marker (.opens .snippet "a"), false⟩,
    ⟨2, 18, "  int x;", .code, false⟩,
    ⟨3, 27, "//// [proxy: a]", .marker (.opens .proxy "a"), false⟩,
    ⟨4, 43, "////   int y;", .tool "  int y;", false⟩,
    ⟨5, 57, "//// [ignore]", .marker .ignore, true⟩,
    ⟨6, 71, "  int z;", .code, true⟩,
    ⟨7, 80, "//// [/ignore]", .marker .endIgnore, true⟩,
    ⟨8, 95, "//// [/snippet]", .marker (.closes .snippet), false⟩,
    ⟨9, 111, "  int w;", .code, false⟩,
    ⟨10, 120, "//// [/proxy]", .marker (.closes .proxy), false⟩]

/-- `overlapping` is read from a header, and its proxy holds the lines 4 and 9. -/
theorem regions_of_extract_overlapping :
    SourceLine.classify
        ("//// [snippet: a]\n  int x;\n//// [proxy: a]\n////   int y;\n//// [ignore]\n  int z;\n" ++
          "//// [/ignore]\n//// [/snippet]\n  int w;\n//// [/proxy]\n") =
      .ok overlapping ∧
    ∃ rs, extract overlapping = .ok rs ∧ rs.headings .proxy = openings .proxy overlapping ∧
      ((rs.headings .proxy).map Prod.fst).Nodup ∧
      ∃ inside e rest, overlapping.drop 3 = inside ++ e :: rest ∧
        e.kind = .marker (.closes .proxy) ∧ (∀ l ∈ inside, l.kind ≠ .marker (.closes .proxy)) ∧
        rs.get? .proxy "a" = some
          { kind := .proxy, name := "a", line := 3
            lines := (Region.dedent
              ((inside.filterMap (·.captured? .proxy)).map String.toList)).map .ofList } ∧
        rs.get? .proxy "a" = some ⟨.proxy, "a", 3, ["int y;", "int w;"]⟩ := by
  have hextract : extract overlapping =
      .ok ⟨[⟨.snippet, "a", 1, ["int x;"]⟩, ⟨.proxy, "a", 3, ["int y;", "int w;"]⟩]⟩ := by
    cbv
  obtain ⟨hheadings, hnames, hregions⟩ := regions_of_extract hextract .proxy
  obtain ⟨inside, e, rest, hafter, hend, hinside, hregion⟩ :=
    hregions (overlapping.take 2) overlapping[2] (overlapping.drop 3) "a" rfl rfl
  exact ⟨by cbv, _, hextract, hheadings, hnames, inside, e, rest, hafter, hend, hinside, hregion,
    rfl⟩

end AnnotatedHeader.Regions
