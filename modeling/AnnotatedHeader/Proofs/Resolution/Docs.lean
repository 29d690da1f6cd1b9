import AnnotatedHeader.Proofs.Declaration.MapDocs
import AnnotatedHeader.Proofs.Resolution
import AnnotatedHeader.Proofs.Result

/-! Doc blocks with their cross-references resolved.

`Settles` is what becomes of one reference, and `Blames` is the fault of one that has no target
and cannot be given one. Resolving a doc block settles its references one by one and touches
nothing else, or it fails with the fault of the first one that it cannot settle
(`resolveDoc_iff`). What is settled stays as it is, whatever it is resolved against. -/
namespace AnnotatedHeader

open List (Forall₂)

namespace Outcome
variable {α β : Type} {f : α → Outcome β} {xs : List α} {e : Fault}

theorem exists_result_mapM_iff :
    (∃ ys, (xs.mapM f).result = .ok ys) ↔ ∀ x ∈ xs, ∃ y, (f x).result = .ok y := by
  simp only [result_mapM_eq_ok]
  induction xs with
  | nil => exact ⟨fun _ _ hx => absurd hx List.not_mem_nil, fun _ => ⟨[], .nil⟩⟩
  | cons x xs ih =>
    rw [List.forall_mem_cons, ← ih]
    constructor
    · rintro ⟨_, hall⟩
      obtain ⟨y, ys, hy, hys, -⟩ := List.forall₂_cons_left_iff.1 hall
      exact ⟨⟨y, hy⟩, ys, hys⟩
    · rintro ⟨⟨y, hy⟩, ys, hys⟩
      exact ⟨y :: ys, .cons hy hys⟩

/-- A traversal fails with the fault of its first step that has one. -/
theorem result_mapM_eq_error_iff :
    (xs.mapM f).result = .error e ↔ ∃ before x after, xs = before ++ x :: after ∧
      (∀ y ∈ before, ∃ z, (f y).result = .ok z) ∧ (f x).result = .error e := by
  constructor
  · intro h
    induction xs with
    | nil => cases h
    | cons x xs ih =>
      rw [List.mapM_cons] at h
      cases hx : (f x).result with
      | error e' =>
        rw [bind_eq_of_error hx] at h
        cases h
        exact ⟨[], x, xs, rfl, fun _ hy => absurd hy List.not_mem_nil, hx⟩
      | ok z =>
        rw [bind_eq_of_ok hx] at h
        cases hxs : (xs.mapM f).result with
        | error e' =>
          rw [bind_eq_of_error hxs] at h
          cases h
          obtain ⟨before, y, after, rfl, hbefore, hy⟩ := ih hxs
          exact ⟨x :: before, y, after, rfl, List.forall_mem_cons.2 ⟨⟨z, hx⟩, hbefore⟩, hy⟩
        | ok zs =>
          rw [bind_eq_of_ok hxs] at h
          cases h
  · rintro ⟨before, x, after, rfl, hbefore, hx⟩
    obtain ⟨zs, hzs⟩ := exists_result_mapM_iff.2 hbefore
    rw [List.mapM_append, bind_eq_of_ok hzs, List.mapM_cons, bind_eq_of_error hx]
    rfl

end Outcome

namespace SymbolTable
variable {table : SymbolTable} {context : String} {r r' : CrossReference} {fault : Fault}

/-! ### One reference -/

/-- What becomes of a reference: a target that it has is kept, and where it has none it gets the
one that is found. -/
inductive Settles (table : SymbolTable) (context : String) :
    CrossReference → CrossReference → Prop where
  | kept {r : CrossReference} {target : String} (has : r.target = some target) :
      Settles table context r r
  | given {r : CrossReference} {target : String} (bare : r.target = none)
      (found : table.resolve r.path context = .found target) :
      Settles table context r { r with target := some target }

/-- The fault of a reference that has no target and is given none. -/
inductive Blames (table : SymbolTable) (context : String) (r : CrossReference) : Fault → Prop where
  | ambiguous (bare : r.target = none)
      (several : table.resolve r.path context = .ambiguous (table.pathsNamed r.path)) :
      Blames table context r ⟨r.line, .ambiguous r.path context (table.pathsNamed r.path)⟩
  | unresolved (bare : r.target = none)
      (nothing : table.resolve r.path context = .unresolved) :
      Blames table context r ⟨r.line, .unresolved r.path context⟩

/-- A reference that has a target or for which one is found. -/
def IsSettled (table : SymbolTable) (context : String) (r : CrossReference) : Prop :=
  r.target = none → ∃ target, table.resolve r.path context = .found target

/-- The candidates are all that there is of the name. -/
theorem pathsNamed_of_resolve {path : String} {candidates : List String}
    (h : table.resolve path context = .ambiguous candidates) :
    candidates = table.pathsNamed path := by
  unfold resolve exact resolveName at h
  split at h
  · split at h <;> cases h
  split at h
  · cases h
  split at h
  · cases h
  split at h
  · cases h
  split at h
  · cases h
  · cases h
  · cases h
    rfl

theorem resolveReference_of_target {target : String} (h : r.target = some target)
    (context : String) : table.resolveReference context r = pure r :=
  if_pos (by rw [h]; rfl)

theorem result_of_settles (h : Settles table context r r') :
    (table.resolveReference context r).result = .ok r' := by
  cases h with
  | kept has => rw [resolveReference_of_target has, Outcome.result_pure]
  | given bare found =>
    simp only [resolveReference, bare, found, Option.isSome_none, Bool.false_eq_true, if_false]
    rfl

theorem result_of_blames (h : Blames table context r fault) :
    (table.resolveReference context r).result = .error fault := by
  cases h with
  | ambiguous bare several =>
    simp only [resolveReference, bare, several, Option.isSome_none, Bool.false_eq_true, if_false]
    rfl
  | unresolved bare nothing =>
    simp only [resolveReference, bare, nothing, Option.isSome_none, Bool.false_eq_true, if_false]
    rfl

theorem settles_or_blames (table : SymbolTable) (context : String) (r : CrossReference) :
    (∃ r', Settles table context r r') ∨ ∃ fault, Blames table context r fault := by
  cases htarget : r.target with
  | some target => exact .inl ⟨r, .kept htarget⟩
  | none =>
    cases hresolve : table.resolve r.path context with
    | found target => exact .inl ⟨_, .given htarget hresolve⟩
    | ambiguous candidates =>
      obtain rfl := pathsNamed_of_resolve hresolve
      exact .inr ⟨_, .ambiguous htarget hresolve⟩
    | unresolved => exact .inr ⟨_, .unresolved htarget hresolve⟩

theorem resolveReference_eq_ok_iff :
    (table.resolveReference context r).result = .ok r' ↔ Settles table context r r' := by
  refine ⟨fun h => ?_, result_of_settles⟩
  obtain ⟨r'', hsettles⟩ | ⟨fault, hblames⟩ := settles_or_blames table context r
  · rw [result_of_settles hsettles] at h
    cases h
    exact hsettles
  · rw [result_of_blames hblames] at h
    cases h

theorem resolveReference_eq_error_iff :
    (table.resolveReference context r).result = .error fault ↔ Blames table context r fault := by
  refine ⟨fun h => ?_, result_of_blames⟩
  obtain ⟨r', hsettles⟩ | ⟨fault', hblames⟩ := settles_or_blames table context r
  · rw [result_of_settles hsettles] at h
    cases h
  · rw [result_of_blames hblames] at h
    cases h
    exact hblames

theorem exists_settles_iff : (∃ r', Settles table context r r') ↔ IsSettled table context r := by
  constructor
  · rintro ⟨_, hsettles⟩ hbare
    cases hsettles with
    | kept has =>
      rw [has] at hbare
      cases hbare
    | given _ found => exact ⟨_, found⟩
  · intro h
    cases htarget : r.target with
    | some target => exact ⟨r, .kept htarget⟩
    | none =>
      obtain ⟨target, hfound⟩ := h htarget
      exact ⟨_, .given htarget hfound⟩

/-- A settled reference has a target, and that is all that can have changed. -/
theorem Settles.target (h : Settles table context r r') :
    ∃ target, r' = { r with target := some target } := by
  cases h with
  | kept has => exact ⟨_, by rw [← has]⟩
  | given _ _ => exact ⟨_, rfl⟩

/-! ### One doc block -/

theorem mapM_of_isResolved {rs : List CrossReference} (h : ∀ r ∈ rs, r.target.isSome = true)
    (table : SymbolTable) (context : String) :
    rs.mapM (table.resolveReference context) = pure rs := by
  induction rs with
  | nil => rfl
  | cons r rs ih =>
    obtain ⟨hr, hrs⟩ := List.forall_mem_cons.1 h
    obtain ⟨target, htarget⟩ := Option.isSome_iff_exists.1 hr
    rw [List.mapM_cons, resolveReference_of_target htarget, ih hrs]
    rfl

/-- Nothing is left to do for a block that is resolved. -/
theorem resolveDoc_of_isResolved {b : DocBlock} (h : b.isResolved = true) (table : SymbolTable)
    (context : String) : table.resolveDoc b context = pure b := by
  rw [resolveDoc, mapM_of_isResolved (List.all_eq_true.1 h), pure_bind]

theorem isResolved_of_settles {b : DocBlock} {rs : List CrossReference}
    (h : Forall₂ (Settles table context) rs b.references) : b.isResolved = true := by
  refine List.all_eq_true.2 fun r' hr' => ?_
  obtain ⟨r, -, hsettles⟩ := exists_left_of_forall₂ h hr'
  obtain ⟨target, rfl⟩ := hsettles.target
  rfl

theorem resolveDoc_eq_ok_iff {b b' : DocBlock} :
    (table.resolveDoc b context).result = .ok b' ↔
      b'.line = b.line ∧ b'.segments = b.segments ∧
        Forall₂ (Settles table context) b.references b'.references := by
  rw [resolveDoc, Outcome.result_bind_eq_ok]
  simp only [Outcome.result_mapM_eq_ok, resolveReference_eq_ok_iff, Outcome.result_pure]
  constructor
  · rintro ⟨rs, hrs, h⟩
    cases h
    exact ⟨rfl, rfl, hrs⟩
  · rintro ⟨hline, hsegments, hrs⟩
    refine ⟨b'.references, hrs, ?_⟩
    rw [← hline, ← hsegments]

theorem exists_resolveDoc {b : DocBlock} (h : ∀ r ∈ b.references, IsSettled table context r) :
    ∃ b', (table.resolveDoc b context).result = .ok b' := by
  have hsteps : ∀ r ∈ b.references, ∃ r', (table.resolveReference context r).result = .ok r' := by
    intro r hr
    obtain ⟨r', hr'⟩ := exists_settles_iff.2 (h r hr)
    exact ⟨r', result_of_settles hr'⟩
  obtain ⟨rs, hrs⟩ := Outcome.exists_result_mapM_iff.2 hsteps
  refine ⟨{ b with references := rs }, resolveDoc_eq_ok_iff.2 ⟨rfl, rfl, ?_⟩⟩
  exact (Outcome.result_mapM_eq_ok.1 hrs).imp fun _ _ => resolveReference_eq_ok_iff.1

theorem resolveDoc_eq_error_iff {b : DocBlock} :
    (table.resolveDoc b context).result = .error fault ↔
      ∃ before r after, b.references = before ++ r :: after ∧
        (∀ r ∈ before, IsSettled table context r) ∧ Blames table context r fault := by
  have hsteps : (table.resolveDoc b context).result = .error fault ↔
      (b.references.mapM (table.resolveReference context)).result = .error fault := by
    rw [resolveDoc, Outcome.result_bind, Except.bind_eq_error]
    refine or_iff_left ?_
    rintro ⟨rs, -, h⟩
    cases h
  rw [hsteps, Outcome.result_mapM_eq_error_iff]
  simp only [resolveReference_eq_ok_iff, exists_settles_iff, resolveReference_eq_error_iff]

/-- **Resolving a doc block gives a target to every reference that has none.** It has a result
exactly if each of them means one declaration; then it has changed nothing else, and resolving
again, against whatever table, changes nothing. If it has none, it says what is wrong with the
first reference that cannot be settled. -/
theorem resolveDoc_iff (table : SymbolTable) (b : DocBlock) (context : String) :
    ((∃ b', (table.resolveDoc b context).result = .ok b') ↔
        ∀ r ∈ b.references, r.target = none →
          ∃ target, table.resolve r.path context = .found target) ∧
      (∀ b', (table.resolveDoc b context).result = .ok b' ↔
        b'.line = b.line ∧ b'.segments = b.segments ∧
          Forall₂ (Settles table context) b.references b'.references) ∧
      (∀ b', (table.resolveDoc b context).result = .ok b' →
        b'.isResolved = true ∧ ∀ (table' : SymbolTable) (context' : String),
          table'.resolveDoc b' context' = pure b') ∧
      ∀ fault, (table.resolveDoc b context).result = .error fault ↔
        ∃ before r after, b.references = before ++ r :: after ∧
          (∀ r ∈ before, r.target = none →
            ∃ target, table.resolve r.path context = .found target) ∧
          Blames table context r fault := by
  refine ⟨?_, fun b' => resolveDoc_eq_ok_iff, fun b' h => ?_, fun fault => resolveDoc_eq_error_iff⟩
  · constructor
    · rintro ⟨b', h⟩ r hr
      obtain ⟨-, -, hsettles⟩ := resolveDoc_eq_ok_iff.1 h
      obtain ⟨r', -, hr'⟩ := exists_left_of_forall₂ hsettles.flip hr
      exact exists_settles_iff.1 ⟨r', hr'⟩
    · exact exists_resolveDoc
  · obtain ⟨-, -, hsettles⟩ := resolveDoc_eq_ok_iff.1 h
    have hresolved := isResolved_of_settles hsettles
    exact ⟨hresolved, fun table' context' => resolveDoc_of_isResolved hresolved table' context'⟩

/-- A target is kept although nothing of its name is declared, and one of two is found from
inside `N`. From outside the same block fails at its second reference, not at its third. -/
theorem resolveDoc_iff_mixed :
    ∃ (table : SymbolTable) (b b' : DocBlock),
      b.references.map (·.path) = ["A", "B", "N::B"] ∧
      (table.resolveDoc b "N").result = .ok b' ∧
      b'.references.map (·.target) = [some "Gone", some "N::B", some "N::B"] ∧
      (∅ : SymbolTable).resolveDoc b' "M" = pure b' ∧
      (table.resolveDoc b "M").result = .error ⟨2, .ambiguous "B" "M" ["N::B", "O::B"]⟩ := by
  let table := ofTrees [structAt "N::B" "B" 1 [], structAt "O::B" "B" 2 []]
  let reference (path : String) (line : Nat) (target : Option String) : CrossReference :=
    ⟨.structType, path, line, target⟩
  let b : DocBlock := ⟨1, [], [reference "A" 1 (some "Gone"), reference "B" 2 none,
    reference "N::B" 3 none]⟩
  let b' : DocBlock := ⟨1, [], [reference "A" 1 (some "Gone"), reference "B" 2 (some "N::B"),
    reference "N::B" 3 (some "N::B")]⟩
  have hinside : (table.resolveDoc b "N").result = .ok b' := by
    refine ((resolveDoc_iff table b "N").2.1 b').2 ⟨rfl, rfl, ?_⟩
    exact .cons (.kept rfl) (.cons (.given rfl (by decide +kernel))
      (.cons (.given rfl (by decide +kernel)) .nil))
  have hnamed : table.pathsNamed "B" = ["N::B", "O::B"] := by decide +kernel
  have houtside : (table.resolveDoc b "M").result =
      .error ⟨2, .ambiguous "B" "M" ["N::B", "O::B"]⟩ := by
    refine ((resolveDoc_iff table b "M").2.2.2 _).2
      ⟨[reference "A" 1 (some "Gone")], reference "B" 2 none, [reference "N::B" 3 none], rfl, ?_, ?_⟩
    · rintro r hr hbare
      obtain rfl := List.mem_singleton.1 hr
      cases hbare
    · rw [← hnamed]
      exact .ambiguous rfl (by decide +kernel)
  exact ⟨table, b, b', rfl, hinside, rfl,
    ((resolveDoc_iff table b "N").2.2.1 b' hinside).2 ∅ "M", houtside⟩

end SymbolTable

end AnnotatedHeader
