import AnnotatedHeader.Proofs.CommandLine.Inputs
import Mathlib

/-! Passing over the files that fail.

A run that keeps going comes to the text that a run on the files that succeed comes to, and
both leave it at the same place; a run that does not keep going stops at the first file that
fails and writes nothing (`keepGoing_laws`). All depends on what each file comes to by itself
(`outcomeAt`), since asking for one leaves the others as they are. -/
namespace AnnotatedHeader

namespace Run

variable {σ : Type} [Files (StateM σ)] {w : σ} {path bad : String} {paths front back : List String}
  {d : Document} {failure : Failure} {keepGoing : Bool}

/-! ### Files by themselves -/

/-- The document of the file at a path, or why there is none. -/
def outcomeAt (w : σ) (path : String) : Except Failure Document :=
  document path (Files.textAt w path)

def succeedsAt (w : σ) (path : String) : Bool := (outcomeAt w path).isOk

/-- The documents of the files that succeed. -/
def documentsAt (w : σ) (paths : List String) : List Document :=
  paths.filterMap fun path => (outcomeAt w path).toOption

/-- A warning for each file that fails. -/
def skippedAt (w : σ) (paths : List String) : List Warning :=
  paths.filterMap fun path =>
    match outcomeAt w path with
    | .ok _ => none
    | .error failure => some (.skipped path failure)

theorem succeedsAt_iff : succeedsAt w path = true ↔ ∃ d, outcomeAt w path = .ok d := by
  unfold succeedsAt
  cases outcomeAt w path with
  | ok d => exact ⟨fun _ => ⟨d, rfl⟩, fun _ => rfl⟩
  | error failure => exact ⟨(nomatch ·), fun ⟨_, h⟩ => nomatch h⟩

theorem documentsAt_cons_of_ok (h : outcomeAt w path = .ok d) :
    documentsAt w (path :: paths) = d :: documentsAt w paths :=
  List.filterMap_cons_some (by rw [h]; rfl)

theorem documentsAt_cons_of_error (h : outcomeAt w path = .error failure) :
    documentsAt w (path :: paths) = documentsAt w paths :=
  List.filterMap_cons_none (by rw [h]; rfl)

theorem skippedAt_cons_of_ok (h : outcomeAt w path = .ok d) :
    skippedAt w (path :: paths) = skippedAt w paths :=
  List.filterMap_cons_none (by rw [h])

theorem skippedAt_cons_of_error (h : outcomeAt w path = .error failure) :
    skippedAt w (path :: paths) = .skipped path failure :: skippedAt w paths :=
  List.filterMap_cons_some (by rw [h])

theorem documentsAt_filter (w : σ) (paths : List String) :
    documentsAt w (paths.filter (succeedsAt w)) = documentsAt w paths := by
  unfold documentsAt
  rw [List.filterMap_filter]
  refine congrFun (congrArg _ (funext fun path => ?_)) paths
  unfold succeedsAt
  cases outcomeAt w path with
  | ok d => rfl
  | error failure => rfl

theorem skippedAt_of_succeed (h : ∀ p ∈ paths, succeedsAt w p = true) : skippedAt w paths = [] := by
  refine List.filterMap_eq_nil_iff.2 fun p hp => ?_
  obtain ⟨d, hd⟩ := succeedsAt_iff.1 (h p hp)
  rw [hd]

/-! ### Their documents -/

theorem answers_documents_of_ok {r : Except Failure (List Document)}
    {found : List Warning} (hsteady : Files.Steady w) (h : outcomeAt w path = .ok d)
    (hrest : Answers w (documents keepGoing paths) r found) :
    Answers w (documents keepGoing (path :: paths)) (r.map (d :: ·)) found := by
  refine (answers_read hsteady path).bind ?_
  rw [← outcomeAt, h]
  cases r with
  | ok documents => exact hrest.bind_pure (d :: ·)
  | error failure => exact hrest.bind_error

theorem answers_documents_of_error {r : Except Failure (List Document)} {found : List Warning}
    (hsteady : Files.Steady w) (h : outcomeAt w path = .error failure)
    (hrest : Answers w (documents true paths) r found) :
    Answers w (documents true (path :: paths)) r (.skipped path failure :: found) := by
  refine (answers_read hsteady path).bind ?_
  rw [← outcomeAt, h]
  exact (answers_warn w _).bind hrest

/-- Of a list of files, the documents are those of the files that succeed, if all do or
those that fail are passed over. -/
theorem answers_documents (hsteady : Files.Steady w) {keepGoing : Bool} {paths : List String}
    (h : keepGoing = true ∨ ∀ p ∈ paths, succeedsAt w p = true) :
    Answers w (documents keepGoing paths) (.ok (documentsAt w paths)) (skippedAt w paths) := by
  induction paths with
  | nil => exact answers_pure w []
  | cons path paths ih =>
    have hrest := ih (h.imp_right fun h p hp => h p (List.mem_cons_of_mem path hp))
    cases houtcome : outcomeAt w path with
    | ok d =>
      rw [documentsAt_cons_of_ok houtcome, skippedAt_cons_of_ok houtcome]
      exact answers_documents_of_ok hsteady houtcome hrest
    | error failure =>
      rw [documentsAt_cons_of_error houtcome, skippedAt_cons_of_error houtcome]
      obtain rfl : keepGoing = true := by
        refine h.resolve_right fun h => ?_
        obtain ⟨d, hd⟩ := succeedsAt_iff.1 (h path (List.mem_cons_self ..))
        rw [hd] at houtcome
        cases houtcome
      exact answers_documents_of_error hsteady houtcome hrest

/-- Without passing over any, the first failure ends it. -/
theorem answers_documents_stop (hsteady : Files.Steady w) (back : List String)
    (hfront : ∀ p ∈ front, succeedsAt w p = true) (hbad : outcomeAt w bad = .error failure) :
    Answers w (documents false (front ++ bad :: back)) (.error failure) [] := by
  induction front with
  | nil =>
    refine (answers_read hsteady bad).bind ?_
    rw [← outcomeAt, hbad]
    exact answers_throw w failure
  | cons path front ih =>
    obtain ⟨hpath, hfront⟩ := List.forall_mem_cons.1 hfront
    obtain ⟨d, hd⟩ := succeedsAt_iff.1 hpath
    exact answers_documents_of_ok hsteady hd (ih hfront)

/-! ### Reports -/

/-- What becomes of a text, and the files then: it goes to standard output or to a file, and
only a file that cannot be written makes that fail. -/
def delivered (output : Option String) (text : String) (w : σ) : Except Failure String × σ :=
  match output with
  | none => (.ok text, w)
  | some path =>
    let (done, w') := (Files.write path text : StateM σ Bool).run w
    (if done then .ok "" else .error (.unwritable path), w')

variable {o : Options} {input : StateM σ (Option String)} {found : List Warning} {t : String}

theorem run_write (path t : String) (found : List Warning) :
    ((Files.write path t : Run (StateM σ) Bool).run.run found).run w =
      ((.ok ((Files.write path t : StateM σ Bool).run w).1, found),
        ((Files.write path t : StateM σ Bool).run w).2) :=
  rfl

theorem run_deliver (o : Options) (t : String) (found : List Warning) :
    ((deliver o t : Run (StateM σ) String).run.run found).run w =
      (((delivered o.output t w).1, found), (delivered o.output t w).2) := by
  unfold delivered deliver
  cases o.output with
  | none => rfl
  | some path =>
    rw [ExceptT.run_bind, StateT.run_bind, StateT.run_bind, run_write]
    dsimp only
    obtain ⟨done, w'⟩ := (Files.write path t : StateM σ Bool).run w
    cases done with
    | true => rfl
    | false => rfl

theorem run_report (o : Options) (input : StateM σ (Option String)) :
    (report o input).run w =
      (fun r => (⟨r.1.2, r.1.1⟩, r.2)) (((text o input >>= deliver o).run.run []).run w) :=
  rfl

theorem report_of_ok (h : Answers w (text o input) (.ok t) found) :
    (report o input).run w = (⟨found, (delivered o.output t w).1⟩, (delivered o.output t w).2) := by
  have hrun : ((text o input >>= deliver o).run.run []).run w =
      (((delivered o.output t w).1, found), (delivered o.output t w).2) := by
    rw [ExceptT.run_bind, StateT.run_bind, StateT.run_bind, h []]
    exact run_deliver o t found
  rw [run_report, hrun]

theorem report_of_error (h : Answers w (text o input) (.error failure) found) :
    (report o input).run w = (⟨found, .error failure⟩, w) := by
  have hrun : ((text o input >>= deliver o).run.run []).run w = ((.error failure, found), w) :=
    h.bind_error []
  rw [run_report, hrun]

/-- With the settings and the files of its inputs, a run comes to its documents' text. -/
theorem answers_text {s : Settings} {r : Except Failure (List Document)} {skipped : List Warning}
    (hsettings : Answers w (settings o) (.ok s) []) (hinputs : o.inputs ≠ [])
    (hfiles : Answers w (files o.inputs) (.ok paths) found) (hpaths : paths ≠ [])
    (hdocuments : Answers w (documents o.keepGoing paths) r skipped) :
    Answers w (text o input)
      (r.map fun documents => print (o.format.getD .json) (documents.map (·.exported s)))
      (found ++ skipped) := by
  rw [← List.nil_append (found ++ skipped)]
  refine hsettings.bind ?_
  rw [if_neg (by rwa [List.isEmpty_iff])]
  refine hfiles.bind ?_
  rw [if_neg (by rwa [List.isEmpty_iff])]
  cases r with
  | ok documents => exact hdocuments.bind_pure _
  | error failure => exact hdocuments.bind_error

/-- Without inputs there are no files. -/
theorem inputs_ne_nil (hsteady : Files.Steady w)
    (hfiles : Answers w (files o.inputs) (.ok paths) found) (hpaths : paths ≠ []) :
    o.inputs ≠ [] := by
  intro hnone
  rw [hnone] at hfiles
  have hnil := answers_files hsteady List.Pairwise.nil (List.forall_mem_nil _)
  exact hpaths (Except.ok.inj (hfiles.unique hnil).1)

theorem exists_first_failure (h : ∃ p ∈ paths, succeedsAt w p = false) :
    ∃ front bad back failure, paths = front ++ bad :: back ∧
      (∀ p ∈ front, succeedsAt w p = true) ∧ outcomeAt w bad = .error failure := by
  obtain ⟨p, hp, hfails⟩ := h
  have hsome : (paths.find? fun p => !succeedsAt w p).isSome :=
    List.find?_isSome.2 ⟨p, hp, by rw [hfails]; rfl⟩
  obtain ⟨bad, hbad⟩ := Option.isSome_iff_exists.1 hsome
  obtain ⟨hfails, front, back, rfl, hfront⟩ := List.find?_eq_some_iff_append.1 hbad
  cases houtcome : outcomeAt w bad with
  | ok d =>
    rw [succeedsAt_iff.2 ⟨d, houtcome⟩] at hfails
    cases hfails
  | error failure =>
    exact ⟨front, bad, back, failure, rfl, fun q hq => by simpa using hfront q hq, houtcome⟩

theorem report_of_documents {s : Settings} (hsteady : Files.Steady w)
    (hsettings : Answers w (settings o) (.ok s) [])
    (hfiles : Answers w (files o.inputs) (.ok paths) found) (hpaths : paths ≠ [])
    (h : o.keepGoing = true ∨ ∀ p ∈ paths, succeedsAt w p = true)
    (ht : t = print (o.format.getD .json) ((documentsAt w paths).map (·.exported s))) :
    (report o input).run w =
      (⟨found ++ skippedAt w paths, (delivered o.output t w).1⟩, (delivered o.output t w).2) := by
  have hinputs : o.inputs ≠ [] := inputs_ne_nil hsteady hfiles hpaths
  subst ht
  exact report_of_ok (answers_text hsettings hinputs hfiles hpaths (answers_documents hsteady h))

theorem report_of_stop {s : Settings} (hsteady : Files.Steady w)
    (hsettings : Answers w (settings o) (.ok s) [])
    (hfiles : Answers w (files o.inputs) (.ok (front ++ bad :: back)) found)
    (hstops : o.keepGoing = false) (hfront : ∀ p ∈ front, succeedsAt w p = true)
    (hbad : outcomeAt w bad = .error failure) :
    (report o input).run w = (⟨found, .error failure⟩, w) := by
  have hpaths : front ++ bad :: back ≠ [] :=
    List.append_ne_nil_of_right_ne_nil front (List.cons_ne_nil bad back)
  have hinputs : o.inputs ≠ [] := inputs_ne_nil hsteady hfiles hpaths
  have hdocuments := answers_documents_stop hsteady back hfront hbad
  rw [← hstops] at hdocuments
  rw [← List.append_nil found]
  exact report_of_error (answers_text hsettings hinputs hfiles hpaths hdocuments)

/-- A run that keeps going comes to what a run on the files that succeed comes to, with a
warning for each of the others; a run that does not stops at the first that fails. -/
theorem keepGoing_laws {s : Settings} (input : StateM σ (Option String)) (hsteady : Files.Steady w)
    (hsettings : Answers w (settings o) (.ok s) [])
    (hfiles : Answers w (files o.inputs) (.ok paths) found) :
    ((∃ p ∈ paths, succeedsAt w p = true) →
      ∃ t, t = print (o.format.getD .json) ((documentsAt w paths).map (·.exported s)) ∧
        (report { o with keepGoing := true } input).run w =
          (⟨found ++ skippedAt w paths, (delivered o.output t w).1⟩, (delivered o.output t w).2) ∧
        (report { o with keepGoing := false, inputs := paths.filter (succeedsAt w) } input).run w =
          (⟨[], (delivered o.output t w).1⟩, (delivered o.output t w).2)) ∧
    ((∃ p ∈ paths, succeedsAt w p = false) →
      ∃ front bad back failure, paths = front ++ bad :: back ∧
        (∀ p ∈ front, FilePath.precedes p bad ∧ succeedsAt w p = true) ∧
        (∀ p ∈ back, FilePath.precedes bad p) ∧ outcomeAt w bad = .error failure ∧
        (report { o with keepGoing := false } input).run w = (⟨found, .error failure⟩, w)) := by
  obtain ⟨hordered, hregular⟩ := (asks_files hsteady o.inputs).of_answers hfiles rfl
  refine ⟨fun ⟨p, hp, hsucceeds⟩ => ⟨_, rfl, ?_, ?_⟩, fun hfails => ?_⟩
  · exact report_of_documents (o := { o with keepGoing := true }) hsteady hsettings hfiles
      (List.ne_nil_of_mem hp) (.inl rfl) rfl
  · have hkept (q : String) (hq : q ∈ paths.filter (succeedsAt w)) : succeedsAt w q = true :=
      (List.mem_filter.1 hq).2
    have hfound := answers_files hsteady (hordered.filter (succeedsAt w))
      fun q hq => hregular q (List.mem_filter.1 hq).1
    rw [← skippedAt_of_succeed hkept]
    exact report_of_documents (o := { o with keepGoing := false, inputs := paths.filter _ })
      hsteady hsettings hfound (List.ne_nil_of_mem (List.mem_filter.2 ⟨hp, hsucceeds⟩)) (.inr hkept)
      (by rw [documentsAt_filter])
  · obtain ⟨front, bad, back, failure, rfl, hfront, hbad⟩ := exists_first_failure hfails
    obtain ⟨-, hback, hcross⟩ := List.pairwise_append.1 hordered
    refine ⟨front, bad, back, failure, rfl, fun q hq => ⟨?_, hfront q hq⟩, ?_, hbad, ?_⟩
    · exact hcross q hq bad (List.mem_cons_self ..)
    · exact (List.pairwise_cons.1 hback).1
    · exact report_of_stop (o := { o with keepGoing := false }) hsteady hsettings hfiles rfl
        hfront hbad

/-! ### A tree with a file that fails -/

/-- Three headers; the second ends a proxy that is not open. -/
def mixedHeaders : FileTree :=
  ⟨[(["a.h"], "class A;"), (["b.h"], "//// [/proxy]"), (["c.h"], "")]⟩

def mixedOptions : Options := { inputs := ["*.h"], output := "out.json" }

def mixedFailure : Failure := .header "b.h" ⟨1, .unmatchedEnd (.region .proxy)⟩

def mixedRun (o : Options) : Report × FileTree :=
  (report (m := StateM FileTree) o (pure none)).run mixedHeaders

theorem keepGoing_laws_mixed :
    Answers mixedHeaders (settings mixedOptions) (.ok {}) [] ∧
    Answers mixedHeaders (files mixedOptions.inputs) (.ok ["a.h", "b.h", "c.h"]) [] ∧
    (∃ t, mixedRun { mixedOptions with keepGoing := true } =
        (⟨[.skipped "b.h" mixedFailure], (delivered "out.json" t mixedHeaders).1⟩,
          (delivered "out.json" t mixedHeaders).2) ∧
      mixedRun { mixedOptions with keepGoing := false, inputs := ["a.h", "c.h"] } =
        (⟨[], (delivered "out.json" t mixedHeaders).1⟩,
          (delivered "out.json" t mixedHeaders).2)) ∧
    mixedRun { mixedOptions with keepGoing := false } =
      (⟨[], .error mixedFailure⟩, mixedHeaders) := by
  have hsettings : Answers mixedHeaders (settings mixedOptions) (.ok {}) [] := answers_pure _ _
  have hfiles :
      Answers mixedHeaders (files mixedOptions.inputs) (.ok ["a.h", "b.h", "c.h"]) [] := by
    refine answers_of_silent fun before => ?_
    cbv
  have ha : succeedsAt mixedHeaders "a.h" = true := by cbv
  have hb : outcomeAt mixedHeaders "b.h" = .error mixedFailure := by cbv
  have hc : succeedsAt mixedHeaders "c.h" = true := by cbv
  have hfails : succeedsAt mixedHeaders "b.h" = false := by rw [succeedsAt, hb]; rfl
  have hskipped : skippedAt mixedHeaders ["a.h", "b.h", "c.h"] = [.skipped "b.h" mixedFailure] := by
    obtain ⟨⟨a, ha⟩, ⟨c, hc⟩⟩ := And.intro (succeedsAt_iff.1 ha) (succeedsAt_iff.1 hc)
    rw [skippedAt_cons_of_ok ha, skippedAt_cons_of_error hb, skippedAt_cons_of_ok hc]
    rfl
  have hkept : ["a.h", "b.h", "c.h"].filter (succeedsAt mixedHeaders) = ["a.h", "c.h"] := by
    simp only [List.filter, ha, hfails, hc]
  obtain ⟨hkeeps, hstops⟩ :=
    keepGoing_laws (pure none) mixedHeaders.steady hsettings hfiles
  obtain ⟨t, -, hall, hsome⟩ := hkeeps ⟨"a.h", by decide, ha⟩
  rw [hskipped] at hall
  rw [hkept] at hsome
  obtain ⟨front, bad, back, failure, hpaths, -, -, hbad, hstop⟩ :=
    hstops ⟨"b.h", by decide, hfails⟩
  have hmem : bad ∈ ["a.h", "b.h", "c.h"] := by
    rw [hpaths]
    exact List.mem_append_right front (List.mem_cons_self ..)
  have hne (p : String) (hp : succeedsAt mixedHeaders p = true) : bad ≠ p := by
    rintro rfl
    rw [succeedsAt, hbad] at hp
    cases hp
  obtain rfl : bad = "b.h" := by simpa [hne _ ha, hne _ hc] using hmem
  obtain rfl : mixedFailure = failure := Except.error.inj (hb.symm.trans hbad)
  exact ⟨hsettings, hfiles, ⟨t, hall, hsome⟩, hstop⟩

end Run

end AnnotatedHeader
