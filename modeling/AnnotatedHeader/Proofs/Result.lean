import AnnotatedHeader.Outcome

/-! When results that may be faults are no faults. -/
namespace AnnotatedHeader.Except
variable {ε ε' α β : Type}

theorem bind_eq_ok {x : Except ε α} {f : α → Except ε β} {b : β} :
    x >>= f = .ok b ↔ ∃ a, x = .ok a ∧ f a = .ok b := by
  cases x with
  | error e => simp [bind, Except.bind]
  | ok a => simp [bind, Except.bind]

theorem bind_eq_error {x : Except ε α} {f : α → Except ε β} {e : ε} :
    x >>= f = .error e ↔ x = .error e ∨ ∃ a, x = .ok a ∧ f a = .error e := by
  cases x with
  | error e => simp [bind, Except.bind]
  | ok a => simp [bind, Except.bind]

theorem map_eq_ok {x : Except ε α} {f : α → β} {b : β} :
    x.map f = .ok b ↔ ∃ a, x = .ok a ∧ f a = b := by
  cases x <;> simp [Except.map]

theorem mapError_eq_ok {x : Except ε α} {f : ε → ε'} {a : α} : x.mapError f = .ok a ↔ x = .ok a := by
  constructor
  · intro h
    cases x with
    | error e => cases h
    | ok b =>
      cases h
      rfl
  · intro h
    rw [h]
    rfl

theorem mapError_eq_error {x : Except ε α} {f : ε → ε'} {e : ε'} :
    x.mapError f = .error e ↔ ∃ e', x = .error e' ∧ f e' = e := by
  constructor
  · intro h
    cases x with
    | error e' =>
      cases h
      exact ⟨e', rfl, rfl⟩
    | ok a => cases h
  · rintro ⟨e', rfl, rfl⟩
    rfl

/-! ### Folds -/

section Fold
variable {f : β → α → Except ε β} {as as' : List α} {a : α} {b c : β} {e : ε}

theorem foldlM_append_eq_ok :
    (as ++ as').foldlM f b = .ok c ↔ ∃ d, as.foldlM f b = .ok d ∧ as'.foldlM f d = .ok c := by
  rw [List.foldlM_append, bind_eq_ok]

theorem foldlM_cons_eq_ok :
    (a :: as).foldlM f b = .ok c ↔ ∃ d, f b a = .ok d ∧ as.foldlM f d = .ok c := by
  rw [List.foldlM_cons, bind_eq_ok]

/-- What holds before the first step and is kept by every step holds behind the last. -/
theorem foldlM_induction {P : List α → β → Prop} (start : P [] b)
    (step : ∀ before a d d', P before d → f d a = .ok d' → P (before ++ [a]) d')
    (h : as.foldlM f b = .ok c) : P as c := by
  have hrun (as before : List α) (d : β) (hd : P before d) (h : as.foldlM f d = .ok c) :
      P (before ++ as) c := by
    induction as generalizing before d with
    | nil =>
      cases h
      rw [List.append_nil]
      exact hd
    | cons a as ih =>
      obtain ⟨d', hstep, h⟩ := foldlM_cons_eq_ok.1 h
      rw [List.append_cons]
      exact ih (before ++ [a]) d' (step before a d d' hd hstep) h
  exact hrun as [] b start h

/-- The fault of a fold is that of its first step that has one. -/
theorem foldlM_eq_error_iff :
    as.foldlM f b = .error e ↔ ∃ before a after c,
      as = before ++ a :: after ∧ before.foldlM f b = .ok c ∧ f c a = .error e := by
  constructor
  · intro h
    induction as generalizing b with
    | nil => cases h
    | cons a as ih =>
      rw [List.foldlM_cons] at h
      cases hstep : f b a with
      | error e' =>
        rw [hstep] at h
        cases h
        exact ⟨[], a, as, b, rfl, rfl, hstep⟩
      | ok d =>
        rw [hstep] at h
        obtain ⟨before, a', after, c, rfl, hbefore, he⟩ := ih h
        exact ⟨a :: before, a', after, c, rfl, foldlM_cons_eq_ok.2 ⟨d, hstep, hbefore⟩, he⟩
  · rintro ⟨before, a, after, c, rfl, hbefore, he⟩
    rw [List.foldlM_append, hbefore]
    show ((a :: after).foldlM f c : Except ε β) = .error e
    rw [List.foldlM_cons, he]
    rfl

section Faults
variable {Breaks : List α → α → ε → Prop}

/-- Where the faults of a step are told by what has been folded before it, a fold has a result
exactly if none of its steps has a fault. -/
theorem exists_foldlM_iff_of_steps
    (step : ∀ before a c e, before.foldlM f b = .ok c → (f c a = .error e ↔ Breaks before a e)) :
    (∃ c, as.foldlM f b = .ok c) ↔
      ∀ before a after e, as = before ++ a :: after → ¬ Breaks before a e := by
  constructor
  · rintro ⟨c, h⟩ before a after e rfl hbreaks
    obtain ⟨d, hfold, h⟩ := foldlM_append_eq_ok.1 h
    obtain ⟨d', hstep, -⟩ := foldlM_cons_eq_ok.1 h
    rw [(step before a d e hfold).2 hbreaks] at hstep
    cases hstep
  · intro hunbroken
    cases h : as.foldlM f b with
    | ok c => exact ⟨c, rfl⟩
    | error e =>
      obtain ⟨before, a, after, d, rfl, hfold, hstep⟩ := foldlM_eq_error_iff.1 h
      exact absurd ((step before a d e hfold).1 hstep) (hunbroken before a after e rfl)

/-- And its fault is that of the first step that has one. -/
theorem foldlM_eq_error_iff_of_steps
    (step : ∀ before a c e, before.foldlM f b = .ok c → (f c a = .error e ↔ Breaks before a e)) :
    as.foldlM f b = .error e ↔ ∃ before a after, as = before ++ a :: after ∧
      (∀ front x back e, before = front ++ x :: back → ¬ Breaks front x e) ∧ Breaks before a e := by
  rw [foldlM_eq_error_iff]
  constructor
  · rintro ⟨before, a, after, c, heq, hfold, hstep⟩
    exact ⟨before, a, after, heq, (exists_foldlM_iff_of_steps step).1 ⟨c, hfold⟩,
      (step before a c e hfold).1 hstep⟩
  · rintro ⟨before, a, after, heq, hunbroken, hbreaks⟩
    obtain ⟨c, hfold⟩ := (exists_foldlM_iff_of_steps step).2 hunbroken
    exact ⟨before, a, after, c, heq, hfold, (step before a c e hfold).2 hbreaks⟩

end Faults

end Fold

end AnnotatedHeader.Except
