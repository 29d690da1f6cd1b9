import AnnotatedHeader.CommandLine.FilePath

/-! Sorted paths.

Each of the sorted paths precedes those behind it, with other parts than they have
(`pairwise_sorted`). So what is left of sorted paths when some are left out is sorted
(`sorted_eq_self`). -/
namespace AnnotatedHeader.FilePath

variable {α : Type} {r : α → α → Bool} {a b c : String} {paths : List String}

/-! ### Order -/

instance : Std.LawfulEqOrd Part where
  eq_of_compare {a b} h := by
    have hboth : (compare a.rank b.rank).then (compare a.text b.text) = .eq := h
    obtain ⟨hrank, htext⟩ := Ordering.then_eq_eq.1 hboth
    rw [Std.LawfulEqCmp.compare_eq_iff_eq] at hrank htext
    cases a <;> cases b <;> simp_all [Part.rank, Part.text]

/-- In front in the order of the parts. -/
def precedes (a b : String) : Prop := compare (parts a) (parts b) = .lt

theorem notAfter_of_precedes (h : precedes a b) : notAfter a b = true := by
  rw [precedes] at h
  rw [notAfter, h]
  rfl

theorem same_of_precedes (h : precedes a b) : same a b = false := by
  refine beq_eq_false_iff_ne.2 fun heq => ?_
  have hself : compare (parts b) (parts b) = .eq := Std.ReflCmp.compare_self
  rw [precedes, heq, hself] at h
  cases h

theorem precedes_of_not_same (hle : notAfter a b = true) (h : same a b = false) : precedes a b := by
  cases hcompare : compare (parts a) (parts b) with
  | lt => exact hcompare
  | eq => exact absurd (Std.LawfulEqCmp.eq_of_compare hcompare) (beq_eq_false_iff_ne.1 h)
  | gt =>
    rw [notAfter, hcompare] at hle
    cases hle

theorem precedes_of_precedes_of_notAfter (h : precedes a b) (hle : notAfter b c = true) :
    precedes a c := Std.TransCmp.lt_of_lt_of_isLE h hle

/-! ### Repetitions -/

theorem loop_eraseRepsBy (a : α) (as acc : List α) :
    List.eraseRepsBy.loop r a as acc = acc.reverse ++ List.eraseRepsBy.loop r a as [] := by
  induction as generalizing a acc with
  | nil => simp [List.eraseRepsBy.loop]
  | cons b as ih =>
    rw [List.eraseRepsBy.loop, List.eraseRepsBy.loop]
    split
    · exact ih a acc
    · rw [ih b (a :: acc), ih b [a], List.reverse_cons, List.reverse_singleton, List.append_assoc]

theorem eraseRepsBy_cons_cons (x y : α) (zs : List α) :
    (x :: y :: zs).eraseRepsBy r =
      if r x y then (x :: zs).eraseRepsBy r else x :: (y :: zs).eraseRepsBy r := by
  show List.eraseRepsBy.loop r x (y :: zs) [] = _
  rw [List.eraseRepsBy.loop]
  split <;> rename_i h <;> rw [h]
  · rfl
  · exact loop_eraseRepsBy y zs [x]

/-- Of ordered paths, each with the same parts as the one kept before it is left out. -/
theorem exists_eraseRepsBy (h : (a :: paths).Pairwise fun x y => notAfter x y = true) :
    ∃ kept, (a :: paths).eraseRepsBy same = a :: kept ∧ kept ⊆ paths ∧
      (a :: kept).Pairwise precedes := by
  induction paths generalizing a with
  | nil => exact ⟨[], rfl, List.Subset.refl _, List.pairwise_singleton ..⟩
  | cons b paths ih =>
    rw [eraseRepsBy_cons_cons]
    obtain ⟨hfirst, hrest⟩ := List.pairwise_cons.1 h
    cases hsame : same a b with
    | true =>
      have hskipped : (a :: paths).Pairwise fun x y => notAfter x y = true :=
        h.sublist (List.Sublist.cons_cons a (List.sublist_cons_self b paths))
      obtain ⟨kept, heq, hsubset, hkept⟩ := ih hskipped
      exact ⟨kept, heq, fun x hx => List.mem_cons_of_mem b (hsubset hx), hkept⟩
    | false =>
      obtain ⟨kept, heq, hsubset, hkept⟩ := ih hrest
      refine ⟨b :: kept, by simp [heq], List.cons_subset_cons b hsubset, ?_⟩
      refine List.pairwise_cons.2 ⟨fun x hx => ?_, hkept⟩
      have hb : precedes a b := precedes_of_not_same (hfirst b (List.mem_cons_self ..)) hsame
      rcases List.mem_cons.1 hx with rfl | hx
      · exact hb
      · exact precedes_of_precedes_of_notAfter hb ((List.pairwise_cons.1 hrest).1 x (hsubset hx))

theorem eraseRepsBy_eq_self (h : paths.Pairwise precedes) : paths.eraseRepsBy same = paths := by
  cases paths with
  | nil => rfl
  | cons a paths =>
    induction paths generalizing a with
    | nil => rfl
    | cons b paths ih =>
      obtain ⟨hfirst, hrest⟩ := List.pairwise_cons.1 h
      rw [eraseRepsBy_cons_cons, same_of_precedes (hfirst b (List.mem_cons_self ..)), ih b hrest]
      rfl

/-! ### Sorted paths -/

theorem pairwise_mergeSort (paths : List String) :
    (paths.mergeSort notAfter).Pairwise fun x y => notAfter x y = true := by
  have htrans (x y z : String) (hxy : notAfter x y = true) (hyz : notAfter y z = true) :
      notAfter x z = true := notAfter_trans hxy hyz
  exact List.pairwise_mergeSort htrans notAfter_total paths

theorem pairwise_sorted (paths : List String) : (sorted paths).Pairwise precedes := by
  have hpairwise := pairwise_mergeSort paths
  unfold sorted
  cases hmerged : paths.mergeSort notAfter with
  | nil => exact List.Pairwise.nil
  | cons a merged =>
    rw [hmerged] at hpairwise
    obtain ⟨kept, heq, -, hkept⟩ := exists_eraseRepsBy hpairwise
    rw [heq]
    exact hkept

theorem mem_of_mem_sorted (h : a ∈ sorted paths) : a ∈ paths := by
  have hpairwise := pairwise_mergeSort paths
  suffices a ∈ paths.mergeSort notAfter from List.mem_mergeSort.1 this
  unfold sorted at h
  cases hmerged : paths.mergeSort notAfter with
  | nil =>
    rw [hmerged] at h
    cases h
  | cons b merged =>
    rw [hmerged] at h hpairwise
    obtain ⟨kept, heq, hsubset, -⟩ := exists_eraseRepsBy hpairwise
    rw [heq] at h
    exact List.cons_subset_cons b hsubset h

theorem sorted_eq_self (h : paths.Pairwise precedes) : sorted paths = paths := by
  rw [sorted, List.mergeSort_of_pairwise (h.imp notAfter_of_precedes), eraseRepsBy_eq_self h]

end AnnotatedHeader.FilePath
