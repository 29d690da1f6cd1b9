import AnnotatedHeader.Proofs.Region.Distinct

/-! Capturing follows the borders.

Whatever has been read, an open region is the one that the last border of its kind has left open,
and it and those that are closed are all that were begun (`Capture.Follows`). -/
namespace AnnotatedHeader.Regions
variable {kind : RegionKind}

/-- The names and the lines of the closed regions of a kind. -/
def headings (rs : Regions) (kind : RegionKind) : List (String × Nat) :=
  (rs.closed.filter (·.kind = kind)).map fun r => (r.name, r.line)

/-- The name and the line of the region that is open. -/
def Open.heading (o : Open) : String × Nat := (o.name, o.line)

theorem nodup_headings {rs : Regions} (h : rs.Distinct) (kind : RegionKind) :
    ((rs.headings kind).map Prod.fst).Nodup := by
  unfold headings
  rw [List.map_map, List.nodup_iff_pairwise_ne, List.pairwise_map]
  refine (List.Pairwise.filter _ h).imp_of_mem ?_
  intro a b ha hb hne hname
  have ha : a.kind = kind := by simpa using (List.mem_filter.1 ha).2
  have hb : b.kind = kind := by simpa using (List.mem_filter.1 hb).2
  exact hne ⟨ha.trans hb.symm, hname⟩

/-- A closed region is found by its name. -/
theorem mem_headings_iff {rs : Regions} (h : rs.Distinct) {name : String} {line : Nat} :
    (name, line) ∈ rs.headings kind ↔ ∃ r, rs.get? kind name = some r ∧ r.line = line := by
  unfold headings
  rw [List.mem_map]
  constructor
  · rintro ⟨r, hr, heading⟩
    obtain ⟨hr, hkind⟩ := List.mem_filter.1 hr
    have hget := get?_of_mem h hr
    rw [of_decide_eq_true hkind] at hget
    cases heading
    exact ⟨r, hget, rfl⟩
  · rintro ⟨r, hget, rfl⟩
    obtain ⟨hmem, hkind, rfl⟩ := get?_eq_some hget
    exact ⟨r, List.mem_filter.2 ⟨hmem, decide_eq_true hkind⟩, rfl⟩

theorem headings_close (closed : List Region) (o : Open) (kind kind' : RegionKind) :
    headings ⟨closed ++ [o.close kind']⟩ kind =
      headings ⟨closed⟩ kind ++ if kind = kind' then [o.heading] else [] := by
  unfold headings
  rw [List.filter_append, List.map_append]
  by_cases h : kind = kind'
  · simp [h, Open.close, Open.heading]
  · simp [h, Ne.symm h, Open.close]

/-! ### What is captured and what is begun -/

namespace Capture
variable {c c' : Capture} {o : Open} {before : List SourceLine} {l : SourceLine} {name : String}
  {line : Nat}

/-- What has been captured of the lines agrees with their borders of a kind. -/
structure Follows (before : List SourceLine) (c : Capture) (kind : RegionKind) : Prop where
  opened : (c.opened kind).map Open.heading = opened? kind before
  openings : c.regions.headings kind ++ (opened? kind before).toList = openings kind before
  alternate : Border.Alternating (borders kind before)

theorem follows_nil (kind : RegionKind) : Follows [] {} kind := by
  refine ⟨?_, rfl, Border.alternating_nil⟩
  cases kind <;> rfl

theorem Follows.opened_eq (hc : c.Follows before kind) (h : c.opened kind = some o) :
    opened? kind before = some o.heading := by
  rw [← hc.opened, h]
  rfl

/-- A line that is no border of the kind, and that opens and closes no region of it. -/
theorem Follows.of_passed (hc : c.Follows before kind) (hborder : l.border? kind = none)
    (hopened : (c'.opened kind).map Open.heading = (c.opened kind).map Open.heading)
    (hclosed : c'.regions.headings kind = c.regions.headings kind) :
    c'.Follows (before ++ [l]) kind := by
  refine ⟨?_, ?_, ?_⟩
  · rw [hopened, hc.opened, opened?_of_passed hborder]
  · rw [hclosed, opened?_of_passed hborder, hc.openings, openings_of_passed hborder]
  · rw [borders_of_passed hborder]
    exact hc.alternate

theorem Follows.opened_eq_none_iff (hc : c.Follows before kind) :
    c.opened kind = none ↔ opened? kind before = none := by
  rw [← hc.opened, Option.map_eq_none_iff]

/-- The region that is begun is the open one. -/
theorem Follows.of_begin (hc : c.Follows before kind)
    (hborder : l.border? kind = some (.opens name line)) (free : c.opened kind = none) :
    (c.setOpened kind (some { name, line })).Follows (before ++ [l]) kind := by
  have hfree := hc.opened_eq_none_iff.1 free
  have hopenings := hc.openings
  rw [hfree, Option.toList_none, List.append_nil] at hopenings
  refine ⟨?_, ?_, ?_⟩
  · rw [opened_setOpened, if_pos rfl, opened?_of_begin hborder]
    rfl
  · rw [regions_setOpened, hopenings, opened?_of_begin hborder, openings_of_begin hborder]
    rfl
  · rw [borders_concat, hborder]
    refine Border.alternating_concat_iff.2 ⟨hc.alternate, ?_⟩
    show true = (opened? kind before).isNone
    rw [hfree]
    rfl

/-- The region that was open is the last one closed. -/
theorem Follows.of_end (hc : c.Follows before kind) (hborder : l.border? kind = some .closes)
    (opened : c.opened kind = some o) (hopened : c'.opened kind = none)
    (hclosed : c'.regions.headings kind = c.regions.headings kind ++ [o.heading]) :
    c'.Follows (before ++ [l]) kind := by
  have hlast := hc.opened_eq opened
  refine ⟨?_, ?_, ?_⟩
  · rw [hopened, opened?_of_end hborder]
    rfl
  · have hopenings := hc.openings
    rw [hlast, Option.toList_some] at hopenings
    rw [hclosed, hopenings, opened?_of_end hborder, openings_of_end hborder, Option.toList_none,
      List.append_nil]
  · rw [borders_concat, hborder]
    refine Border.alternating_concat_iff.2 ⟨hc.alternate, ?_⟩
    show false = (opened? kind before).isNone
    rw [hlast]
    rfl

theorem follows_step (hc : ∀ kind, c.Follows before kind) (h : c.step l = .ok c')
    (kind : RegionKind) : c'.Follows (before ++ [l]) kind := by
  have hsteps := steps_step c l
  rw [h] at hsteps
  cases hsteps with
  | @begins k name is free =>
    have hborder : l.border? k = some (.opens name l.line) :=
      SourceLine.border?_eq_opens_iff.2 ⟨is, rfl⟩
    by_cases hk : kind = k
    · subst hk
      exact (hc kind).of_begin hborder free
    · refine (hc kind).of_passed (SourceLine.border?_of_ne hborder hk) ?_ ?_
      · rw [opened_setOpened, if_neg hk]
      · rw [regions_setOpened]
  | @ends k o is opened fresh =>
    have hborder : l.border? k = some .closes := SourceLine.border?_eq_closes_iff.2 is
    have hopened : (c.setOpened k none).opened kind = if kind = k then none else c.opened kind :=
      opened_setOpened c k kind none
    have hclosed := headings_close c.regions.closed o kind k
    by_cases hk : kind = k
    · subst hk
      rw [if_pos rfl] at hopened hclosed
      exact (hc kind).of_end hborder opened hopened hclosed
    · rw [if_neg hk] at hopened hclosed
      rw [List.append_nil] at hclosed
      exact (hc kind).of_passed (SourceLine.border?_of_ne hborder hk)
        (congrArg (Option.map Open.heading) hopened) hclosed
  | captures passed _ =>
    refine (hc kind).of_passed (passed kind) ?_ rfl
    rw [opened_capturing, Option.map_map]
    rfl

theorem follows_of_foldlM {lines : List SourceLine} (h : lines.foldlM step {} = .ok c)
    (kind : RegionKind) : c.Follows lines kind :=
  Except.foldlM_induction (P := fun before c => ∀ kind, Follows before c kind) follows_nil
    (fun _ _ _ _ => follows_step) h kind

/-- Where no region of the kind is open all that were begun are closed. -/
theorem Follows.headings_eq (hc : c.Follows before kind) (h : c.opened kind = none) :
    c.regions.headings kind = Regions.openings kind before := by
  rw [← hc.openings, hc.opened_eq_none_iff.1 h, Option.toList_none, List.append_nil]

/-! ### Behind the last line -/

theorem finish_eq_ok_iff {rs : Regions} :
    c.finish = .ok rs ↔ (∀ kind, c.opened kind = none) ∧ c.regions = rs := by
  have hboth : (∀ kind, c.opened kind = none) ↔ c.snippet = none ∧ c.proxy = none :=
    ⟨fun h => ⟨h .snippet, h .proxy⟩, fun h kind => by cases kind <;> simp [opened, h]⟩
  rw [hboth]
  unfold finish
  split <;> simp_all

end Capture

theorem extract_eq_ok_iff {lines : List SourceLine} {rs : Regions} :
    extract lines = .ok rs ↔
      ∃ c, lines.foldlM Capture.step {} = .ok c ∧ (∀ kind, c.opened kind = none) ∧
        c.regions = rs := by
  unfold extract
  rw [Except.bind_eq_ok]
  simp only [Capture.finish_eq_ok_iff]

end AnnotatedHeader.Regions
