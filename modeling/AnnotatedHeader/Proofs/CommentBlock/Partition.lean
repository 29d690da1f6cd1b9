import AnnotatedHeader.CommentBlock
import AnnotatedHeader.Proofs.SourceLine.Classified
import Mathlib

/-! Comment blocks and the doc comments of a header.

The visible lines of a header are runs that begin and end with a doc comment, and what stands
between them, and each run is a block (`Parted`). Since lines are numbered upwards the numbers of a
block tell which lines are in it, and `partition_group` says in these terms what the blocks are. -/
namespace AnnotatedHeader

namespace SourceLine

def IsDoc (l : SourceLine) : Prop := ∃ text, l.kind = .doc text

/-- The line as a block has it, which keeps of a line only what a doc comment says. -/
def entry (l : SourceLine) : NumberedLine :=
  (l.line, match l.kind with
    | .doc text => text
    | _ => "")

theorem isBlank_eq_false_of_isDoc {l : SourceLine} (h : l.IsDoc) : l.isBlank = false := by
  obtain ⟨text, h⟩ := h
  rw [isBlank, h]
  rfl

theorem entry_of_doc {l : SourceLine} {text : String} (h : l.kind = .doc text) :
    l.entry = (l.line, text) := by
  rw [entry, h]

theorem entry_of_not_isDoc {l : SourceLine} (h : ¬ l.IsDoc) : l.entry = (l.line, "") := by
  unfold entry
  split
  · exact absurd ⟨_, ‹_›⟩ h
  · rfl

end SourceLine

namespace CommentBlock

/-- What a block is among the lines of its header. -/
structure Among (lines : List SourceLine) (b : CommentBlock) : Prop where
  first : ∃ l ∈ lines, l.ignored = false ∧ l.IsDoc ∧ l.line = b.line
  last : ∃ l ∈ lines, l.ignored = false ∧ l.IsDoc ∧ l.line = b.lastLine
  /-- Nothing but doc comments and blank lines is seen in it. -/
  pure : ∀ l ∈ lines, l.ignored = false → b.line ≤ l.line → l.line ≤ b.lastLine →
    l.IsDoc ∨ l.isBlank = true
  /-- It has all that is seen from its first line to its last. -/
  full : b.lines = ((lines.filter (·.isVisible)).filter fun l =>
    b.line ≤ l.line ∧ l.line ≤ b.lastLine).map SourceLine.entry
  /-- The proxy that it documents begins on the first line behind it that is seen and not blank. -/
  target : ∀ name, b.proxy = some name ↔ ∃ l,
    (lines.filter (·.isVisible)).find? (fun l => !l.isBlank ∧ b.lastLine < l.line) = some l ∧
      l.kind = .marker (.opens .proxy name)

/-- What is between two blocks: a line that is seen and could not be in a block. -/
def Apart (lines : List SourceLine) (a b : CommentBlock) : Prop :=
  ∃ l ∈ lines, l.ignored = false ∧ ¬ l.IsDoc ∧ l.isBlank = false ∧
    a.lastLine < l.line ∧ l.line < b.line

structure Partition (lines : List SourceLine) (blocks : List CommentBlock) : Prop where
  ordered : blocks.Pairwise fun a b => a.lastLine < b.line
  among : ∀ b ∈ blocks, b.Among lines
  apart : blocks.IsChain (Apart lines)
  /-- A doc comment that is seen is in one block. -/
  covered : ∀ l ∈ lines, ∀ text, l.ignored = false → l.kind = .doc text →
    ∃! b, b ∈ blocks ∧ (l.line, text) ∈ b.lines

/-! ### Runs -/

/-- A run of doc comments, with the blank lines between them. -/
structure IsRun (run : List SourceLine) : Prop where
  head : ∃ first, run.head? = some first ∧ first.IsDoc
  last : ∃ last, run.getLast? = some last ∧ last.IsDoc
  pure : ∀ l ∈ run, l.IsDoc ∨ l.isBlank = true

/-- The block of a run in front of the rest of the lines. -/
def ofRun (run rest : List SourceLine) : CommentBlock :=
  ⟨run.map SourceLine.entry, proxyAt? (follower? rest)⟩

/-- No doc comment comes next, whatever blank lines there are. -/
def Ended (rest : List SourceLine) : Prop := ∀ text, follower? rest ≠ some (.doc text)

/-- The lines fall into runs and what is between them, and the blocks are those of the runs. -/
inductive Parted : List SourceLine → List CommentBlock → Prop where
  | nil {gap : List SourceLine} (passed : ∀ l ∈ gap, ¬ l.IsDoc) : Parted gap []
  | cons {gap run rest : List SourceLine} {blocks : List CommentBlock}
      (passed : ∀ l ∈ gap, ¬ l.IsDoc) (isRun : IsRun run) (ended : Ended rest)
      (parted : Parted rest blocks) : Parted (gap ++ (run ++ rest)) (ofRun run rest :: blocks)

variable {l : SourceLine} {ls run rest lines : List SourceLine} {b : CommentBlock}
  {blocks : List CommentBlock} {name : String}

/-! ### Grouping -/

theorem Parted.cons_run (isRun : IsRun run) (ended : Ended rest) (parted : Parted rest blocks) :
    Parted (run ++ rest) (ofRun run rest :: blocks) := by
  rw [← List.nil_append (run ++ rest)]
  exact .cons (by simp) isRun ended parted

theorem Parted.cons_gap (h : ¬ l.IsDoc) (hparted : Parted ls blocks) : Parted (l :: ls) blocks := by
  cases hparted with
  | nil passed => exact .nil (List.forall_mem_cons.2 ⟨h, passed⟩)
  | cons passed isRun ended parted => exact .cons (List.forall_mem_cons.2 ⟨h, passed⟩) isRun ended parted

theorem follower?_cons_of_isBlank (h : l.isBlank = true) (ls : List SourceLine) :
    follower? (l :: ls) = follower? ls := by
  unfold follower?
  rw [List.find?_cons_of_neg (by simp [h])]

theorem follower?_cons_of_not_isBlank (h : l.isBlank = false) (ls : List SourceLine) :
    follower? (l :: ls) = some l.kind := by
  unfold follower?
  rw [List.find?_cons_of_pos (by simp [h])]
  rfl

variable {entries : List NumberedLine} {text : String}

theorem groupFrom_cons_of_doc (h : l.kind = .doc text) (entries : List NumberedLine)
    (ls : List SourceLine) : groupFrom entries (l :: ls) = groupFrom (entries ++ [(l.line, text)]) ls := by
  rw [groupFrom, h]

theorem groupFrom_nil_cons (h : ¬ l.IsDoc) (ls : List SourceLine) :
    groupFrom [] (l :: ls) = groupFrom [] ls := by
  rw [groupFrom]
  split
  · exact absurd ⟨_, ‹_›⟩ h
  · rfl

theorem groupFrom_cons_of_next (h : ¬ l.IsDoc) (hne : entries ≠ [])
    (next : follower? (l :: ls) = some (.doc text)) :
    groupFrom entries (l :: ls) = groupFrom (entries ++ [(l.line, "")]) ls := by
  rw [groupFrom]
  split
  · exact absurd ⟨_, ‹_›⟩ h
  · rw [if_neg (by simpa using hne), next]

theorem groupFrom_cons_of_ended (h : ¬ l.IsDoc) (hne : entries ≠ []) (ended : Ended (l :: ls)) :
    groupFrom entries (l :: ls) =
      ⟨entries, proxyAt? (follower? (l :: ls))⟩ :: groupFrom [] ls := by
  rw [groupFrom]
  split
  · exact absurd ⟨_, ‹_›⟩ h
  · rw [if_neg (by simpa using hne)]
    split
    · exact absurd ‹_› (ended _)
    · rfl

/-- What has been read of a block before the lines that come next: nothing, or the beginning of a
run, which ends in a doc comment now or is about to have one. -/
def Pending (run ls : List SourceLine) : Prop :=
  run ≠ [] → (∃ first, run.head? = some first ∧ first.IsDoc) ∧
    (∀ l ∈ run, l.IsDoc ∨ l.isBlank = true) ∧
      ((∃ last, run.getLast? = some last ∧ last.IsDoc) ∨ ∃ text, follower? ls = some (.doc text))

theorem pending_nil (ls : List SourceLine) : Pending [] ls := fun h => absurd rfl h

/-- A run that is pending goes on with a line that may be in one. -/
theorem Pending.concat (h : Pending run (l :: ls)) (hdoc : run = [] → l.IsDoc)
    (hl : l.IsDoc ∨ l.isBlank = true ∧ ∃ text, follower? ls = some (.doc text)) :
    Pending (run ++ [l]) ls := by
  intro _
  refine ⟨?_, ?_, ?_⟩
  · cases run with
    | nil => exact ⟨l, rfl, hdoc rfl⟩
    | cons first run => exact (h (List.cons_ne_nil first run)).1
  · refine List.forall_mem_append.2 ⟨?_, List.forall_mem_singleton.2 (hl.imp_right And.left)⟩
    cases run with
    | nil => exact fun _ hmem => absurd hmem List.not_mem_nil
    | cons first run => exact (h (List.cons_ne_nil first run)).2.1
  · rw [List.getLast?_concat]
    exact hl.imp (fun hl => ⟨l, rfl, hl⟩) And.right

/-- A run that is pending is one where no doc comment comes next. -/
theorem Pending.isRun (h : Pending run ls) (hne : run ≠ []) (hended : Ended ls) : IsRun run := by
  obtain ⟨hhead, hpure, hlast | ⟨text, hnext⟩⟩ := h hne
  · exact ⟨hhead, hlast, hpure⟩
  · exact absurd hnext (hended text)

/-- Grouping parts the lines, those of the block that is pending among them. -/
theorem parted_groupFrom (h : Pending run ls) :
    Parted (run ++ ls) (groupFrom (run.map SourceLine.entry) ls) := by
  induction ls generalizing run with
  | nil =>
    rw [groupFrom, List.isEmpty_map]
    cases run with
    | nil => exact .nil (by simp)
    | cons first run =>
      have hended : Ended [] := fun text => by simp [follower?]
      exact .cons_run (h.isRun (List.cons_ne_nil first run) hended) hended (.nil (by simp))
  | cons l ls ih =>
    by_cases hdoc : l.IsDoc
    · have hmore := ih (h.concat (fun _ => hdoc) (.inl hdoc))
      obtain ⟨text, hkind⟩ := hdoc
      rw [groupFrom_cons_of_doc hkind]
      rwa [List.map_append, List.map_singleton, SourceLine.entry_of_doc hkind, List.append_assoc] at hmore
    · rcases List.eq_nil_or_concat run with rfl | ⟨front, last, hrun⟩
      · rw [List.map_nil, groupFrom_nil_cons hdoc]
        exact (ih (pending_nil ls)).cons_gap hdoc
      · have hne : run ≠ [] := by simp [hrun]
        have hentries : run.map SourceLine.entry ≠ [] := by simpa using hne
        by_cases hended : Ended (l :: ls)
        · rw [groupFrom_cons_of_ended hdoc hentries hended]
          exact .cons_run (h.isRun hne hended) hended ((ih (pending_nil ls)).cons_gap hdoc)
        · obtain ⟨text, hnext⟩ := not_forall_not.1 hended
          have hblank : l.isBlank = true := by
            by_contra hblank
            rw [follower?_cons_of_not_isBlank (by simpa using hblank)] at hnext
            exact hdoc ⟨text, Option.some.inj hnext⟩
          have hmore := ih (h.concat (fun hnil => absurd hnil hne)
            (.inr ⟨hblank, text, follower?_cons_of_isBlank hblank ls ▸ hnext⟩))
          rw [groupFrom_cons_of_next hdoc hentries hnext]
          rwa [List.map_append, List.map_singleton, SourceLine.entry_of_not_isDoc hdoc,
            List.append_assoc] at hmore

/-! ### Numbers -/

theorem proxyAt?_eq_some_iff {next : Option LineKind} :
    proxyAt? next = some name ↔ next = some (.marker (.opens .proxy name)) := by
  unfold proxyAt?
  split <;> simp_all

theorem line_ofRun {first : SourceLine} (h : run.head? = some first) :
    (ofRun run rest).line = first.line := by
  rw [line, ofRun, List.head?_map, h]
  rfl

theorem lastLine_ofRun {last : SourceLine} (h : run.getLast? = some last) :
    (ofRun run rest).lastLine = last.line := by
  rw [lastLine, ofRun, List.getLast?_map, h]
  rfl

/-- The numbers of a run's block tell its lines from those before it and behind it. -/
theorem bounds_ofRun {front : List SourceLine} (isRun : IsRun run)
    (hincreasing : (front ++ (run ++ rest)).Pairwise (·.line < ·.line)) :
    (∀ l ∈ front, l.line < (ofRun run rest).line) ∧
      (∀ l ∈ run, (ofRun run rest).line ≤ l.line ∧ l.line ≤ (ofRun run rest).lastLine) ∧
      ∀ l ∈ rest, (ofRun run rest).lastLine < l.line := by
  obtain ⟨first, hhead, -⟩ := isRun.head
  obtain ⟨last, hlast, -⟩ := isRun.last
  rw [line_ofRun hhead, lastLine_ofRun hlast]
  obtain ⟨-, hrunRest, hfront⟩ := List.pairwise_append.1 hincreasing
  obtain ⟨hrun, -, hrest⟩ := List.pairwise_append.1 hrunRest
  refine ⟨fun l hl => ?_, fun l hl => ⟨?_, ?_⟩, fun l hl => hrest _ (List.mem_of_getLast? hlast) l hl⟩
  · exact hfront l hl first (List.mem_append_left _ (List.mem_of_head? hhead))
  · obtain ⟨tail, rfl⟩ := List.head?_eq_some_iff.1 hhead
    rcases List.mem_cons.1 hl with rfl | hl
    · exact Nat.le_refl _
    · exact Nat.le_of_lt (List.rel_of_pairwise_cons hrun hl)
  · obtain ⟨init, rfl⟩ := List.getLast?_eq_some_iff.1 hlast
    rcases List.mem_append.1 hl with hl | hl
    · exact Nat.le_of_lt ((List.pairwise_append.1 hrun).2.2 l hl last (List.mem_singleton.2 rfl))
    · rw [List.mem_singleton.1 hl]

/-- The lines with the numbers of a run's block are those of the run. -/
theorem filter_ofRun {front : List SourceLine} (isRun : IsRun run)
    (hincreasing : (front ++ (run ++ rest)).Pairwise (·.line < ·.line)) :
    ((front ++ (run ++ rest)).filter fun l =>
      (ofRun run rest).line ≤ l.line ∧ l.line ≤ (ofRun run rest).lastLine) = run := by
  obtain ⟨hfront, hrun, hrest⟩ := bounds_ofRun isRun hincreasing
  have hbefore : front.filter (fun l => (ofRun run rest).line ≤ l.line ∧
      l.line ≤ (ofRun run rest).lastLine) = [] := by
    simp only [List.filter_eq_nil_iff, decide_eq_true_eq, not_and]
    exact fun l hl hlower => absurd hlower (Nat.not_le_of_lt (hfront l hl))
  have hbehind : rest.filter (fun l => (ofRun run rest).line ≤ l.line ∧
      l.line ≤ (ofRun run rest).lastLine) = [] := by
    simp only [List.filter_eq_nil_iff, decide_eq_true_eq, not_and]
    exact fun l hl _ hupper => absurd hupper (Nat.not_le_of_lt (hrest l hl))
  have hinside : run.filter (fun l => (ofRun run rest).line ≤ l.line ∧
      l.line ≤ (ofRun run rest).lastLine) = run := by
    simp only [List.filter_eq_self, decide_eq_true_eq]
    exact hrun
  rw [List.filter_append, List.filter_append, hbefore, hinside, hbehind, List.append_nil,
    List.nil_append]

/-- The first line with a number behind a run's block is the first of the rest. -/
theorem find?_behind_ofRun {front : List SourceLine} (isRun : IsRun run)
    (hincreasing : (front ++ (run ++ rest)).Pairwise (·.line < ·.line)) :
    (front ++ (run ++ rest)).find? (fun l => !l.isBlank ∧ (ofRun run rest).lastLine < l.line) =
      rest.find? (!·.isBlank) := by
  obtain ⟨hfront, hrun, hrest⟩ := bounds_ofRun isRun hincreasing
  obtain ⟨first, hhead, -⟩ := isRun.head
  have hupper : ∀ l ∈ front ++ run, l.line ≤ (ofRun run rest).lastLine := by
    refine List.forall_mem_append.2 ⟨fun l hl => ?_, fun l hl => (hrun l hl).2⟩
    obtain ⟨hlower, hupper⟩ := hrun first (List.mem_of_head? hhead)
    exact Nat.le_of_lt (Nat.lt_of_lt_of_le (hfront l hl) (Nat.le_trans hlower hupper))
  have hnone : (front ++ run).find? (fun l => !l.isBlank ∧ (ofRun run rest).lastLine < l.line) =
      none :=
    List.find?_eq_none.2 fun l hl => by simpa using fun _ => hupper l hl
  rw [← List.append_assoc, List.find?_append, hnone, Option.none_or]
  exact List.find?_congr fun l hl => by simp [hrest l hl]

theorem among_ofRun {front : List SourceLine} (isRun : IsRun run)
    (hseen : lines.filter (·.isVisible) = front ++ (run ++ rest))
    (hincreasing : (lines.filter (·.isVisible)).Pairwise (·.line < ·.line)) :
    (ofRun run rest).Among lines := by
  rw [hseen] at hincreasing
  obtain ⟨hfront, -, hrest⟩ := bounds_ofRun isRun hincreasing
  have hmem (l : SourceLine) : l ∈ lines ∧ l.ignored = false ↔ l ∈ front ++ (run ++ rest) := by
    rw [← hseen, List.mem_filter]
    simp [SourceLine.isVisible]
  have hof {l : SourceLine} (hl : l ∈ run) : l ∈ lines ∧ l.ignored = false :=
    (hmem l).2 (List.mem_append_right _ (List.mem_append_left _ hl))
  obtain ⟨first, hhead, hfirst⟩ := isRun.head
  obtain ⟨last, htail, hlast⟩ := isRun.last
  refine ⟨?_, ?_, ?_, ?_, ?_⟩
  · obtain ⟨hfirstMem, hvisible⟩ := hof (List.mem_of_head? hhead)
    exact ⟨first, hfirstMem, hvisible, hfirst, (line_ofRun hhead).symm⟩
  · obtain ⟨hlastMem, hvisible⟩ := hof (List.mem_of_getLast? htail)
    exact ⟨last, hlastMem, hvisible, hlast, (lastLine_ofRun htail).symm⟩
  · intro l hl hvisible hlower hupper
    rcases List.mem_append.1 ((hmem l).1 ⟨hl, hvisible⟩) with hl | hl
    · exact absurd hlower (Nat.not_le_of_lt (hfront l hl))
    · rcases List.mem_append.1 hl with hl | hl
      · exact isRun.pure l hl
      · exact absurd hupper (Nat.not_le_of_lt (hrest l hl))
  · rw [hseen, filter_ofRun isRun hincreasing]
    rfl
  · intro name
    rw [hseen, find?_behind_ofRun isRun hincreasing]
    show proxyAt? (follower? rest) = some name ↔ _
    rw [proxyAt?_eq_some_iff, follower?, Option.map_eq_some_iff]

/-- A line of a block is numbered from the block's first line to its last. -/
theorem Among.bounds (h : b.Among lines) {n : Nat} (hmem : (n, text) ∈ b.lines) :
    b.line ≤ n ∧ n ≤ b.lastLine := by
  rw [h.full] at hmem
  obtain ⟨l, hl, hentry⟩ := List.mem_map.1 hmem
  obtain rfl : l.line = n := congrArg Prod.fst hentry
  simpa using (List.mem_filter.1 hl).2

/-! ### All blocks -/

theorem Parted.exists_run (h : Parted ls blocks) (hb : b ∈ blocks) :
    ∃ front run rest, ls = front ++ (run ++ rest) ∧ IsRun run ∧ b = ofRun run rest := by
  induction h with
  | nil => exact absurd hb List.not_mem_nil
  | @cons gap run rest blocks passed isRun ended parted ih =>
    rcases List.mem_cons.1 hb with rfl | hb
    · exact ⟨gap, run, rest, rfl, isRun, rfl⟩
    · obtain ⟨front, run', rest', rfl, isRun', rfl⟩ := ih hb
      exact ⟨gap ++ (run ++ front), run', rest', by simp, isRun', rfl⟩

theorem Parted.exists_mem (h : Parted ls blocks) (hl : l ∈ ls) (hdoc : l.IsDoc) :
    ∃ b ∈ blocks, l.entry ∈ b.lines := by
  induction h with
  | nil passed => exact absurd hdoc (passed l hl)
  | @cons gap run rest blocks passed isRun ended parted ih =>
    rcases List.mem_append.1 hl with hl | hl
    · exact absurd hdoc (passed l hl)
    · rcases List.mem_append.1 hl with hl | hl
      · exact ⟨_, List.mem_cons_self, List.mem_map_of_mem hl⟩
      · obtain ⟨b, hb, hentry⟩ := ih hl
        exact ⟨b, List.mem_cons_of_mem _ hb, hentry⟩

theorem Parted.ordered (h : Parted ls blocks) (hincreasing : ls.Pairwise (·.line < ·.line)) :
    blocks.Pairwise fun a b => a.lastLine < b.line := by
  induction h with
  | nil => exact .nil
  | @cons gap run rest blocks passed isRun ended parted ih =>
    obtain ⟨-, -, hbehind⟩ := bounds_ofRun isRun hincreasing
    refine List.pairwise_cons.2 ⟨fun b hb => ?_, ih (List.pairwise_append.1
      (List.pairwise_append.1 hincreasing).2.1).2.1⟩
    obtain ⟨front, run', rest', rfl, isRun', rfl⟩ := parted.exists_run hb
    obtain ⟨first, hhead, -⟩ := isRun'.head
    rw [line_ofRun hhead]
    exact hbehind first (List.mem_append_right _ (List.mem_append_left _ (List.mem_of_head? hhead)))

theorem lt_or_lt_of_ordered {b' : CommentBlock}
    (ordered : blocks.Pairwise fun a b => a.lastLine < b.line) (hb : b ∈ blocks) (hb' : b' ∈ blocks)
    (hne : b ≠ b') : b.lastLine < b'.line ∨ b'.lastLine < b.line := by
  have hsymm : Std.Symm fun a b : CommentBlock => a.lastLine < b.line ∨ b.lastLine < a.line :=
    ⟨fun _ _ => Or.symm⟩
  have hapart : blocks.Pairwise fun a b => a.lastLine < b.line ∨ b.lastLine < a.line :=
    ordered.imp Or.inl
  exact hapart.forall hb hb' hne

/-- Behind a run that has ended comes a line that could not be in it, before the next run. -/
theorem exists_apart {gap : List SourceLine} (ended : Ended (gap ++ (run ++ rest)))
    (passed : ∀ l ∈ gap, ¬ l.IsDoc) (isRun : IsRun run) :
    ∃ l ∈ gap, ¬ l.IsDoc ∧ l.isBlank = false := by
  by_contra hall
  have hblank : ∀ l ∈ gap, l.isBlank = true := fun l hl => by
    by_contra hblank
    exact hall ⟨l, hl, passed l hl, by simpa using hblank⟩
  obtain ⟨first, hhead, text, hkind⟩ := isRun.head
  refine ended text ?_
  have hgap : gap.find? (fun l => !l.isBlank) = none := by
    simpa using hblank
  obtain ⟨tail, rfl⟩ := List.head?_eq_some_iff.1 hhead
  have hvisible : first.isBlank = false := SourceLine.isBlank_eq_false_of_isDoc ⟨text, hkind⟩
  rw [follower?, List.find?_append, hgap, Option.none_or, List.cons_append,
    List.find?_cons_of_pos (by simp [hvisible]), Option.map_some, hkind]

theorem Parted.apart (h : Parted ls blocks) (hincreasing : ls.Pairwise (·.line < ·.line))
    (hseen : ∀ l ∈ ls, l ∈ lines ∧ l.ignored = false) : blocks.IsChain (Apart lines) := by
  induction h with
  | nil => exact .nil
  | @cons gap run rest blocks passed isRun ended parted ih =>
    obtain ⟨-, -, hbehind⟩ := bounds_ofRun isRun hincreasing
    have hincreasingRest := (List.pairwise_append.1 (List.pairwise_append.1 hincreasing).2.1).2.1
    have hseenRest (l : SourceLine) (hl : l ∈ rest) : l ∈ lines ∧ l.ignored = false :=
      hseen l (List.mem_append_right _ (List.mem_append_right _ hl))
    have htail := ih hincreasingRest hseenRest
    cases parted with
    | nil => exact .singleton _
    | @cons gap' run' rest' _ passed' isRun' ended' parted' =>
      obtain ⟨l, hl, hdoc, hblank⟩ := exists_apart ended passed' isRun'
      have hmem := List.mem_append_left (run' ++ rest') hl
      obtain ⟨hlines, hvisible⟩ := hseenRest l hmem
      obtain ⟨hbefore, -, -⟩ := bounds_ofRun isRun' hincreasingRest
      exact .cons_cons ⟨l, hlines, hvisible, hdoc, hblank, hbehind l hmem, hbefore l hl⟩ htail

/-- The blocks of a header come in order, each of them is a run of the lines that are seen, from one
doc comment to another, and every doc comment that is seen is in one of them. Two blocks are two
because of what stands between them, and a block is a proxy's where the proxy begins next. -/
theorem partition_group {source : String} (h : SourceLine.classify source = .ok lines) :
    Partition lines (group lines) := by
  have hparted : Parted (lines.filter (·.isVisible)) (group lines) :=
    parted_groupFrom (pending_nil _)
  have hincreasing : (lines.filter (·.isVisible)).Pairwise (·.line < ·.line) := by
    refine List.Pairwise.filter _ (List.pairwise_map.1 ?_)
    rw [(SourceLine.map_line_of_classifyFrom h).1]
    exact List.pairwise_lt_range'
  have hseen (l : SourceLine) (hl : l ∈ lines.filter (·.isVisible)) :
      l ∈ lines ∧ l.ignored = false := by
    simpa [SourceLine.isVisible] using List.mem_filter.1 hl
  have hordered := hparted.ordered hincreasing
  have hamong (b : CommentBlock) (hb : b ∈ group lines) : b.Among lines := by
    obtain ⟨front, run, rest, heq, isRun, rfl⟩ := hparted.exists_run hb
    exact among_ofRun isRun heq hincreasing
  refine ⟨hordered, hamong, hparted.apart hincreasing hseen, ?_⟩
  intro l hl text hvisible hkind
  have hmem : l ∈ lines.filter (·.isVisible) :=
    List.mem_filter.2 ⟨hl, by simp [SourceLine.isVisible, hvisible]⟩
  obtain ⟨b, hb, hentry⟩ := hparted.exists_mem hmem ⟨text, hkind⟩
  rw [SourceLine.entry_of_doc hkind] at hentry
  refine ⟨b, ⟨hb, hentry⟩, ?_⟩
  rintro b' ⟨hb', hentry'⟩
  by_contra hne
  have hbounds := (hamong b hb).bounds hentry
  have hbounds' := (hamong b' hb').bounds hentry'
  rcases lt_or_lt_of_ordered hordered hb hb' (Ne.symm hne) with hlt | hlt <;> omega

/-- A blank line goes on with a block in front of a proxy. -/
theorem partition_group_proxy :
    ∃ lines, SourceLine.classify "/// a\n\n/// b\n//// [proxy: p]\n//// [/proxy]\n/// c" = .ok lines ∧
      group lines = [⟨[(1, "a"), (2, ""), (3, "b")], some "p"⟩, ⟨[(6, "c")], none⟩] ∧
        Partition lines (group lines) := by
  have h : SourceLine.classify "/// a\n\n/// b\n//// [proxy: p]\n//// [/proxy]\n/// c" =
      .ok [⟨1, 0, "/// a", .doc "a", false⟩, ⟨2, 6, "", .code, false⟩,
        ⟨3, 7, "/// b", .doc "b", false⟩, ⟨4, 13, "//// [proxy: p]", .marker (.opens .proxy "p"), false⟩,
        ⟨5, 29, "//// [/proxy]", .marker (.closes .proxy), false⟩, ⟨6, 43, "/// c", .doc "c", false⟩] := by
    cbv
  exact ⟨_, h, by cbv, partition_group h⟩

end CommentBlock

end AnnotatedHeader
