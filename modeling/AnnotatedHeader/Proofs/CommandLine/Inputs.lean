import AnnotatedHeader.Proofs.CommandLine.Answers
import AnnotatedHeader.Proofs.CommandLine.FilePath

/-! The files that inputs stand for.

Finding files only asks, whatever the patterns search. What is found are regular files,
each in front of those behind it (`asks_files`). So files that were found stand for
themselves when they are the inputs, and so do some of them (`answers_files`). -/
namespace AnnotatedHeader

namespace Run

variable {σ : Type} [Files (StateM σ)] {w : σ} {paths : List String}

/-! ### Searching -/

/-- What is asked of a path is read off its kind. -/
theorem asks_ofKind (hsteady : Files.Steady w) (path : String) (g : Option FileKind → Bool) :
    Asks w (Files.kind? path >>= fun kind => pure (g kind) : Run (StateM σ) Bool) fun found =>
      found = g (Files.kindAt w path) :=
  (asks_kind hsteady path).bind fun _ hkind => asks_pure (congrArg g hkind)

theorem asks_filterAuxM_isFile (hsteady : Files.Steady w) (paths : List String) {kept : List String}
    (h : ∀ p ∈ kept, Files.kindAt w p = some .regular) :
    Asks w (paths.filterAuxM (Files.isFile : String → Run (StateM σ) Bool) kept) fun found =>
      ∀ p ∈ found, Files.kindAt w p = some .regular := by
  induction paths generalizing kept with
  | nil => exact asks_pure h
  | cons path paths ih =>
    refine (asks_ofKind hsteady path (· == some .regular)).bind fun found hfound => ih ?_
    cases found with
    | true => exact List.forall_mem_cons.2 ⟨beq_iff_eq.1 hfound.symm, h⟩
    | false => exact h

theorem asks_filterM_isFile (hsteady : Files.Steady w) (paths : List String) :
    Asks w (paths.filterM (Files.isFile : String → Run (StateM σ) Bool)) fun found =>
      ∀ p ∈ found, Files.kindAt w p = some .regular := by
  refine (asks_filterAuxM_isFile hsteady paths (List.forall_mem_nil _)).bind fun found hfound => ?_
  exact asks_pure fun p hp => hfound p (List.mem_reverse.1 hp)

theorem asks_descendants (hsteady : Files.Steady w) (depth : Nat) (directory : String) :
    Asks w (Glob.descendants depth directory : Run (StateM σ) (List String)) fun _ => True := by
  induction depth generalizing directory with
  | zero => exact asks_pure trivial
  | succ depth ih =>
    refine (asks_entries hsteady directory).bind fun names _ => ?_
    exact (asks_mapM fun path _ => ih path).bind fun below _ => asks_pure trivial

theorem asks_next (hsteady : Files.Steady w) (path : String) (s : Glob.Step) :
    Asks w (s.next path : Run (StateM σ) (List String)) fun _ => True := by
  obtain ⟨deep, pattern⟩ := s
  cases deep with
  | true =>
    exact (asks_descendants hsteady Glob.maxDepth path).bind fun _ _ => asks_pure trivial
  | false =>
    cases pattern with
    | literal name =>
      dsimp only [Glob.Step.next]
      split
      · exact (asks_ofKind hsteady path (· == some .directory)).bind fun _ _ => asks_pure trivial
      · exact (asks_ofKind hsteady _ Option.isSome).bind fun _ _ => asks_pure trivial
    | wild atoms =>
      refine (asks_entries hsteady path).bind fun names _ => ?_
      cases names with
      | none => exact asks_pure trivial
      | some names => exact asks_pure trivial

theorem asks_search (hsteady : Files.Steady w) (steps : List Glob.Step) (path : String) :
    Asks w (Glob.search steps path : Run (StateM σ) (List String)) fun _ => True := by
  induction steps generalizing path with
  | nil => exact asks_pure trivial
  | cons s steps ih =>
    refine (asks_next hsteady path s).bind fun paths _ => ?_
    exact (asks_mapM fun path _ => ih path).bind fun _ _ => asks_pure trivial

theorem asks_patternFiles (hsteady : Files.Steady w) (p : Glob.Pattern) :
    Asks w (p.files : Run (StateM σ) (List String)) fun found =>
      ∀ p ∈ found, Files.kindAt w p = some .regular := by
  unfold Glob.Pattern.files
  split
  · exact asks_pure (List.forall_mem_nil _)
  · exact (asks_search hsteady p.steps _).bind fun paths _ => asks_filterM_isFile hsteady paths

/-! ### Inputs -/

theorem asks_headersIn (hsteady : Files.Steady w) (directory : String) :
    Asks w (headersIn directory : Run (StateM σ) (List String)) fun found =>
      ∀ p ∈ found, Files.kindAt w p = some .regular := by
  refine (asks_entries hsteady directory).bind fun names _ => ?_
  cases names with
  | none => exact asks_throw _
  | some names => exact asks_filterM_isFile hsteady _

theorem asks_matching (hsteady : Files.Steady w) (text : String) :
    Asks w (matching text : Run (StateM σ) (List String)) fun found =>
      ∀ p ∈ found, Files.kindAt w p = some .regular := by
  unfold matching
  split
  · exact asks_throw _
  · refine (asks_patternFiles hsteady _).bind fun found hfound => ?_
    split
    · exact (asks_warn _).bind fun _ _ => asks_pure hfound
    · exact asks_pure hfound

theorem asks_filesOf (hsteady : Files.Steady w) (input : String) :
    Asks w (filesOf input : Run (StateM σ) (List String)) fun found =>
      ∀ p ∈ found, Files.kindAt w p = some .regular := by
  refine (asks_kind hsteady input).bind fun kind hkind => ?_
  split
  · exact asks_pure (List.forall_mem_singleton.2 hkind.symm)
  · exact asks_headersIn hsteady input
  · exact asks_matching hsteady input

/-- Finding the files of inputs answers, if only with a failure. They are regular files,
and each precedes those behind it. -/
theorem asks_files (hsteady : Files.Steady w) (inputs : List String) :
    Asks w (files inputs : Run (StateM σ) (List String)) fun paths =>
      paths.Pairwise FilePath.precedes ∧ ∀ p ∈ paths, Files.kindAt w p = some .regular := by
  refine (asks_mapM fun input _ => asks_filesOf hsteady input).bind fun found hfound => ?_
  refine asks_pure ⟨FilePath.pairwise_sorted _, fun p hp => ?_⟩
  obtain ⟨paths, hpaths, hp⟩ := List.mem_flatten.1 (FilePath.mem_of_mem_sorted hp)
  exact hfound paths hpaths p hp

/-- Regular files that stand in order are the files that they stand for. -/
theorem answers_files (hsteady : Files.Steady w) (hordered : paths.Pairwise FilePath.precedes)
    (hregular : ∀ p ∈ paths, Files.kindAt w p = some .regular) :
    Answers w (files paths : Run (StateM σ) (List String)) (.ok paths) [] := by
  have hof (p : String) (hp : p ∈ paths) :
      Answers w (filesOf p : Run (StateM σ) (List String)) (.ok [p]) [] := by
    refine (answers_kind hsteady p).bind ?_
    rw [hregular p hp]
    exact answers_pure w [p]
  have h := (answers_mapM hof).bind_pure fun found => FilePath.sorted found.flatten
  rw [← List.flatMap_def, List.flatMap_singleton', FilePath.sorted_eq_self hordered] at h
  exact h

end Run

end AnnotatedHeader
