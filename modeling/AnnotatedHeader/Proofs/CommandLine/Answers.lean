import AnnotatedHeader.CommandLine.FileTree
import AnnotatedHeader.CommandLine.Run

/-! What the files answer.

A run asks of the files around it and may write one at its end. Where questions leave
everything as it is (`Files.Steady`), whatever is asked comes to the same each time: it has
a result, gives some warnings on the way, and leaves the files as they are (`Run.Answers`).
`Run.Asks` says this of a computation together with what holds of its result. It is closed
under what runs are made of, up to the files of all inputs (`asks_files`). -/
namespace AnnotatedHeader

namespace Files
variable {σ : Type} [Files (StateM σ)]

/-- No question changes what is asked next. -/
structure Steady (w : σ) : Prop where
  kind (path : String) : ((Files.kind? path : StateM σ (Option FileKind)).run w).2 = w
  entries (path : String) : ((Files.entries? path : StateM σ (Option (List String))).run w).2 = w
  read (path : String) : ((Files.read? path : StateM σ (Option String)).run w).2 = w

def kindAt (w : σ) (path : String) : Option FileKind :=
  ((Files.kind? path : StateM σ (Option FileKind)).run w).1

def entriesAt (w : σ) (path : String) : Option (List String) :=
  ((Files.entries? path : StateM σ (Option (List String))).run w).1

def textAt (w : σ) (path : String) : Option String :=
  ((Files.read? path : StateM σ (Option String)).run w).1

end Files

theorem FileTree.steady (t : FileTree) : Files.Steady t :=
  ⟨fun _ => rfl, fun _ => rfl, fun _ => rfl⟩

namespace Run

variable {σ α β : Type} {w : σ}

/-! ### Answers -/

/-- The computation comes to this result and these warnings, and leaves the files as they are. -/
def Answers (w : σ) (x : Run (StateM σ) α) (r : Except Failure α) (warnings : List Warning) :
    Prop :=
  ∀ before, (x.run.run before).run w = ((r, before ++ warnings), w)

section Answers
variable {x : Run (StateM σ) α} {f : α → Run (StateM σ) β} {r : Except Failure β} {a : α}
  {failure : Failure} {found more : List Warning}

theorem answers_of_silent {r : Except Failure α}
    (h : ∀ before, (x.run.run before).run w = ((r, before), w)) : Answers w x r [] := by
  intro before
  rw [List.append_nil]
  exact h before

theorem answers_pure (w : σ) (a : α) : Answers w (pure a : Run (StateM σ) α) (.ok a) [] :=
  answers_of_silent fun _ => rfl

theorem answers_throw (w : σ) (failure : Failure) :
    Answers w (throw failure : Run (StateM σ) α) (.error failure) [] :=
  answers_of_silent fun _ => rfl

theorem answers_warn (w : σ) (warning : Warning) :
    Answers w (warn warning : Run (StateM σ) Unit) (.ok ()) [warning] :=
  fun _ => rfl

theorem Answers.bind (hx : Answers w x (.ok a) found) (hf : Answers w (f a) r more) :
    Answers w (x >>= f) r (found ++ more) := by
  intro before
  rw [ExceptT.run_bind, StateT.run_bind, StateT.run_bind, hx before]
  show ((f a).run.run (before ++ found)).run w = _
  rw [hf (before ++ found), List.append_assoc]

theorem Answers.bind_error (hx : Answers w x (.error failure) found) :
    Answers w (x >>= f) (.error failure) found := by
  intro before
  rw [ExceptT.run_bind, StateT.run_bind, StateT.run_bind, hx before]
  rfl

theorem Answers.bind_pure (hx : Answers w x (.ok a) found) (g : α → β) :
    Answers w (x >>= fun a => pure (g a)) (.ok (g a)) found := by
  rw [← List.append_nil found]
  exact hx.bind (answers_pure w (g a))

theorem answers_mapM {g : α → β} {xs : List α} (h : ∀ a ∈ xs, Answers w (f a) (.ok (g a)) []) :
    Answers w (xs.mapM f) (.ok (xs.map g)) [] := by
  induction xs with
  | nil => exact answers_pure w []
  | cons a xs ih =>
    rw [List.mapM_cons]
    refine (h a (List.mem_cons_self ..)).bind ?_
    exact (ih fun b hb => h b (List.mem_cons_of_mem a hb)).bind_pure (g a :: ·)

theorem Answers.unique {r s : Except Failure α} (h : Answers w x r found)
    (h' : Answers w x s more) : r = s ∧ found = more := by
  have heq : ((r, [] ++ found), w) = ((s, [] ++ more), w) := (h []).symm.trans (h' [])
  cases heq
  exact ⟨rfl, rfl⟩

end Answers

section Asks
variable {x : Run (StateM σ) α} {f : α → Run (StateM σ) β} {P : α → Prop} {Q : β → Prop}
  {r : Except Failure α} {found : List Warning}

/-- The computation answers, and what it gives satisfies `P`. -/
def Asks (w : σ) (x : Run (StateM σ) α) (P : α → Prop) : Prop :=
  ∃ r found, Answers w x r found ∧ ∀ a, r = .ok a → P a

theorem Asks.of_answers (h : Asks w x P) (hx : Answers w x r found) {a : α} (ha : r = .ok a) :
    P a := by
  obtain ⟨s, more, hs, hP⟩ := h
  obtain ⟨rfl, rfl⟩ := hx.unique hs
  exact hP a ha

theorem asks_pure {a : α} (h : P a) : Asks w (pure a : Run (StateM σ) α) P :=
  ⟨.ok a, [], answers_pure w a, fun _ hb => Except.ok.inj hb ▸ h⟩

theorem asks_throw (failure : Failure) : Asks w (throw failure : Run (StateM σ) α) P :=
  ⟨.error failure, [], answers_throw w failure, fun _ hb => nomatch hb⟩

theorem asks_warn (warning : Warning) :
    Asks w (warn warning : Run (StateM σ) Unit) fun _ => True :=
  ⟨.ok (), [warning], answers_warn w warning, fun _ _ => trivial⟩

theorem Asks.bind (hx : Asks w x P) (hf : ∀ a, P a → Asks w (f a) Q) : Asks w (x >>= f) Q := by
  obtain ⟨r, found, hr, hP⟩ := hx
  cases r with
  | ok a =>
    obtain ⟨s, more, hs, hQ⟩ := hf a (hP a rfl)
    exact ⟨s, found ++ more, hr.bind hs, hQ⟩
  | error failure => exact ⟨.error failure, found, hr.bind_error, fun _ hb => nomatch hb⟩

theorem asks_mapM {xs : List α} (h : ∀ a ∈ xs, Asks w (f a) Q) :
    Asks w (xs.mapM f) fun bs => ∀ b ∈ bs, Q b := by
  induction xs with
  | nil => exact asks_pure fun b hb => nomatch hb
  | cons a xs ih =>
    rw [List.mapM_cons]
    refine (h a (List.mem_cons_self ..)).bind fun b hb => ?_
    refine (ih fun c hc => h c (List.mem_cons_of_mem a hc)).bind fun bs hbs => ?_
    exact asks_pure (List.forall_mem_cons.2 ⟨hb, hbs⟩)

end Asks

/-! ### Questions -/

section Questions
variable [Files (StateM σ)] {path : String}

theorem answers_kind (hsteady : Files.Steady w) (path : String) :
    Answers w (Files.kind? path : Run (StateM σ) (Option FileKind))
      (.ok (Files.kindAt w path)) [] := by
  refine answers_of_silent fun before => ?_
  show ((Except.ok _, before), ((Files.kind? path : StateM σ (Option FileKind)).run w).2) = _
  rw [hsteady.kind]
  rfl

theorem answers_entries (hsteady : Files.Steady w) (path : String) :
    Answers w (Files.entries? path : Run (StateM σ) (Option (List String)))
      (.ok (Files.entriesAt w path)) [] := by
  refine answers_of_silent fun before => ?_
  show ((Except.ok _, before),
    ((Files.entries? path : StateM σ (Option (List String))).run w).2) = _
  rw [hsteady.entries]
  rfl

theorem answers_read (hsteady : Files.Steady w) (path : String) :
    Answers w (Files.read? path : Run (StateM σ) (Option String))
      (.ok (Files.textAt w path)) [] := by
  refine answers_of_silent fun before => ?_
  show ((Except.ok _, before), ((Files.read? path : StateM σ (Option String)).run w).2) = _
  rw [hsteady.read]
  rfl

theorem asks_kind (hsteady : Files.Steady w) (path : String) :
    Asks w (Files.kind? path : Run (StateM σ) (Option FileKind)) (· = Files.kindAt w path) :=
  ⟨_, _, answers_kind hsteady path, fun _ h => (Except.ok.inj h).symm⟩

theorem asks_entries (hsteady : Files.Steady w) (path : String) :
    Asks w (Files.entries? path : Run (StateM σ) (Option (List String)))
      (· = Files.entriesAt w path) :=
  ⟨_, _, answers_entries hsteady path, fun _ h => (Except.ok.inj h).symm⟩

end Questions

end Run

end AnnotatedHeader
