import AnnotatedHeader.Proofs.Result
import AnnotatedHeader.Proofs.Region.Steps

/-! Two regions of one kind have two names.

A region whose name is taken never closes, so what is extracted is `Distinct`, and a
name stands for one text. -/
namespace AnnotatedHeader.Regions

/-- Kind and name tell the regions apart. -/
def Distinct (rs : Regions) : Prop :=
  rs.closed.Pairwise fun a b => ¬ (a.kind = b.kind ∧ a.name = b.name)

theorem get?_eq_none {rs : Regions} {kind : RegionKind} {name : String}
    (h : rs.get? kind name = none) : ∀ r ∈ rs.closed, ¬ (r.kind = kind ∧ r.name = name) := by
  intro r hr
  have hnot := List.find?_eq_none.1 h r hr
  simpa using hnot

theorem get?_eq_some {rs : Regions} {kind : RegionKind} {name : String} {r : Region}
    (h : rs.get? kind name = some r) : r ∈ rs.closed ∧ r.kind = kind ∧ r.name = name := by
  have hr := List.find?_some h
  simp only [Bool.and_eq_true, decide_eq_true_eq, beq_iff_eq] at hr
  exact ⟨List.mem_of_find?_eq_some h, hr.1, hr.2⟩

/-! ### Extraction -/

namespace Capture

theorem distinct_step {c c' : Capture} {l : SourceLine} (hc : c.regions.Distinct)
    (h : c.step l = .ok c') : c'.regions.Distinct := by
  have hsteps := steps_step c l
  rw [h] at hsteps
  cases hsteps with
  | begins _ _ =>
    rw [regions_setOpened]
    exact hc
  | @ends kind o _ _ fresh =>
    show List.Pairwise _ (c.regions.closed ++ [o.close kind])
    refine List.pairwise_append.2 ⟨hc, List.pairwise_singleton .., ?_⟩
    intro a ha b hb
    rw [List.mem_singleton] at hb
    subst hb
    exact get?_eq_none fresh a ha
  | captures _ _ => exact hc

theorem distinct_of_foldlM {lines : List SourceLine} {c : Capture}
    (h : lines.foldlM step {} = .ok c) : c.regions.Distinct :=
  Except.foldlM_induction (P := fun _ d => d.regions.Distinct) List.Pairwise.nil
    (fun _ _ _ _ => distinct_step) h

end Capture

theorem distinct_of_extract {lines : List SourceLine} {rs : Regions}
    (h : extract lines = .ok rs) : rs.Distinct := by
  obtain ⟨c, hfold, h⟩ := Except.bind_eq_ok.1 h
  have hc := Capture.distinct_of_foldlM hfold
  unfold Capture.finish at h
  split at h
  · cases h
  · cases h
  · cases h
    exact hc

/-! ### Looking up -/

theorem eq_of_distinct {rs : Regions} (h : rs.Distinct) {a b : Region} (ha : a ∈ rs.closed)
    (hb : b ∈ rs.closed) (kind : a.kind = b.kind) (name : a.name = b.name) : a = b := by
  have hforward : rs.closed.Pairwise fun a b => a.kind = b.kind ∧ a.name = b.name → a = b :=
    h.imp fun hne he => absurd he hne
  have hbackward : rs.closed.Pairwise
      (flip fun (a b : Region) => a.kind = b.kind ∧ a.name = b.name → a = b) :=
    h.imp fun hne he => absurd ⟨he.1.symm, he.2.symm⟩ hne
  exact hforward.forall_of_forall_of_flip (fun _ _ _ => rfl) hbackward ha hb ⟨kind, name⟩

theorem get?_of_mem {rs : Regions} (h : rs.Distinct) {r : Region} (hr : r ∈ rs.closed) :
    rs.get? r.kind r.name = some r := by
  cases hfound : rs.get? r.kind r.name with
  | none => exact absurd ⟨rfl, rfl⟩ (get?_eq_none hfound r hr)
  | some found =>
    obtain ⟨hmem, hkind, hname⟩ := get?_eq_some hfound
    rw [eq_of_distinct h hmem hr hkind hname]

/-- A name is listed with the text of its region and with no other. -/
theorem mem_ofKind_iff {rs : Regions} (h : rs.Distinct) {kind : RegionKind} {name : String}
    {r : Region} (hr : rs.get? kind name = some r) (text : String) :
    (name, text) ∈ (rs.ofKind kind).map (fun r => (r.name, r.text)) ↔ text = r.text := by
  obtain ⟨hmem, hkind, hname⟩ := get?_eq_some hr
  unfold ofKind
  rw [List.mem_map]
  constructor
  · rintro ⟨r', hr', he⟩
    obtain ⟨hr', hk⟩ := List.mem_filter.1 (List.mem_mergeSort.1 hr')
    cases he
    have hk : r'.kind = kind := by simpa using hk
    rw [eq_of_distinct h hr' hmem (hk.trans hkind.symm) hname.symm]
  · rintro rfl
    have hlisted : r ∈ rs.closed.filter (·.kind = kind) :=
      List.mem_filter.2 ⟨hmem, by simpa using hkind⟩
    exact ⟨r, List.mem_mergeSort.2 hlisted, by rw [hname]⟩

end AnnotatedHeader.Regions
