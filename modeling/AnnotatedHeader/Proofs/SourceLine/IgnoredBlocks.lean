import AnnotatedHeader.Proofs.SourceLine.Classified
import Mathlib

/-! Ignored blocks.

Lines are accepted when each has a meaning of its own, when the begin and end markers of ignored
blocks take turns and the last of them is an end, and when no region begins or ends in a block. A
line can break one of these by what stands before it (`Breaks`), and then the first line that does
is the fault; where none does, it is a block that is left open. `classify_decides` says so of
every source, and which of the lines that are accepted are ignored. -/
namespace AnnotatedHeader

open Text

/-- The texts of a source's lines. -/
def SourceLine.texts (source : String) : List (List Char) :=
  (fileLines source.toList).map (withoutFinal '\r')

namespace IgnoredBlocks

/-! ### Markers -/

/-- The marker of an ignored block that a line is. -/
def mark? (text : List Char) : Option Directive :=
  match LineKind.read text with
  | .ok (.marker .ignore) => some .ignore
  | .ok (.marker .endIgnore) => some .endIgnore
  | _ => none

def marks (texts : List (List Char)) : List Directive := texts.filterMap mark?

/-- Begin and end taking turns, `n` times. -/
def pairs (n : Nat) : List Directive := (List.replicate n [.ignore, .endIgnore]).flatten

/-- The last marker of the lines begins a block, on that line. -/
def Opened (texts : List (List Char)) (line : Nat) : Prop :=
  ∃ before begun after, texts = before ++ begun :: after ∧ mark? begun = some .ignore ∧
    (∀ t ∈ after, mark? t = none) ∧ line = before.length + 1

/-- The first marker of the lines ends a block. -/
def Closes (texts : List (List Char)) : Prop :=
  ∃ before ended after, texts = before ++ ended :: after ∧ mark? ended = some .endIgnore ∧
    ∀ t ∈ before, mark? t = none

/-- The line is a marker of a block, or it stands between the two markers of one. -/
def Ignored (before : List (List Char)) (text : List Char) (after : List (List Char)) : Prop :=
  (mark? text).isSome ∨ (∃ line, Opened before line) ∧ Closes after

/-! ### Rules -/

/-- What a line breaks behind the lines before it. -/
inductive Breaks (before : List (List Char)) (text : List Char) : Cause → Prop where
  | malformed {content : List Char} {flaw : DirectiveFlaw} (tool : toolText? text = some content)
      (flawed : Directive.read? (trim content) = some (.error flaw)) :
      Breaks before text (.malformedDirective (.ofList (trim content)) flaw)
  | nested {line : Nat} (is : mark? text = some .ignore) (opened : Opened before line) :
      Breaks before text (.nested .ignored .ignored line)
  | unmatched (is : mark? text = some .endIgnore) (free : ∀ line, ¬ Opened before line) :
      Breaks before text (.unmatchedEnd .ignore)
  | inside {kind : LineKind} {line : Nat} (is : LineKind.read text = .ok kind)
      (border : kind.IsBorder) (opened : Opened before line) :
      Breaks before text (.insideIgnored (.ofList (trim text)) line)

/-- No line breaks a rule by what stands before it. -/
def Unbroken (texts : List (List Char)) : Prop :=
  ∀ before text after cause, texts = before ++ text :: after → ¬ Breaks before text cause

/-- The rules for all lines together. -/
structure Accepted (texts : List (List Char)) : Prop where
  reads : ∀ t ∈ texts, ∃ kind, LineKind.read t = .ok kind
  alternate : ∃ n, marks texts = pairs n
  clear : ∀ before text after kind, texts = before ++ text :: after →
    (∃ line, Opened before line) → Closes after → LineKind.read text = .ok kind → ¬ kind.IsBorder

variable {texts before after : List (List Char)} {text t : List Char} {line n : Nat} {d : Directive}
  {cause : Cause}

/-! ### One line -/

theorem read_eq_error_iff :
    LineKind.read text = .error cause ↔ ∃ content flaw, toolText? text = some content ∧
      Directive.read? (trim content) = some (.error flaw) ∧
        cause = .malformedDirective (.ofList (trim content)) flaw := by
  unfold LineKind.read
  constructor
  · intro h
    split at h
    · rename_i content htool
      split at h <;> cases h
      exact ⟨content, _, htool, ‹_›, rfl⟩
    · split at h <;> cases h
  · rintro ⟨content, flaw, htool, hflawed, rfl⟩
    rw [htool]
    dsimp only
    rw [hflawed]

theorem mark?_eq_some_iff :
    mark? t = some d ↔ LineKind.read t = .ok (.marker d) ∧ (d = .ignore ∨ d = .endIgnore) := by
  unfold mark?
  constructor
  · intro h
    split at h <;> cases h
    · exact ⟨‹_›, .inl rfl⟩
    · exact ⟨‹_›, .inr rfl⟩
  · rintro ⟨h, rfl | rfl⟩ <;> rw [h]

theorem mark?_of_border {kind : LineKind} (h : LineKind.read t = .ok kind) (border : kind.IsBorder) :
    mark? t = none := by
  unfold mark?
  rw [h]
  obtain ⟨k, name, rfl⟩ | ⟨k, rfl⟩ := border <;> rfl

/-! ### The block that is open -/

theorem not_opened_nil : ¬ Opened [] line := by
  rintro ⟨before, begun, after, heq, -⟩
  exact List.append_ne_nil_of_right_ne_nil before (List.cons_ne_nil begun after) heq.symm

/-- One more line opens a block, or it is no marker and a block stays open. -/
theorem opened_concat_iff :
    Opened (before ++ [text]) line ↔
      mark? text = some .ignore ∧ line = before.length + 1 ∨
        mark? text = none ∧ Opened before line := by
  constructor
  · rintro ⟨front, begun, back, heq, hbegun, hback, rfl⟩
    rcases List.eq_nil_or_concat back with rfl | ⟨back, last, rfl⟩
    · obtain ⟨rfl, hlast⟩ := List.append_inj' heq rfl
      cases hlast
      exact .inl ⟨hbegun, rfl⟩
    · rw [List.concat_eq_append, ← List.cons_append, ← List.append_assoc] at heq
      obtain ⟨rfl, hlast⟩ := List.append_inj' heq rfl
      cases hlast
      rw [List.concat_eq_append, List.forall_mem_append] at hback
      exact .inr ⟨hback.2 text (List.mem_singleton.2 rfl), front, begun, back, rfl, hbegun, hback.1, rfl⟩
  · rintro (⟨hmark, rfl⟩ | ⟨hmark, front, begun, back, rfl, hbegun, hback, rfl⟩)
    · exact ⟨before, text, [], rfl, hmark, by simp, rfl⟩
    · refine ⟨front, begun, back ++ [text], by simp, hbegun, ?_, rfl⟩
      exact List.forall_mem_append.2 ⟨hback, List.forall_mem_singleton.2 hmark⟩

theorem marks_append (texts texts' : List (List Char)) :
    marks (texts ++ texts') = marks texts ++ marks texts' :=
  List.filterMap_append

theorem marks_concat_of_mark? (h : mark? text = some d) (texts : List (List Char)) :
    marks (texts ++ [text]) = marks texts ++ [d] := by
  rw [marks_append, marks, marks, List.filterMap_cons_some h, List.filterMap_nil]

theorem marks_concat_of_none (h : mark? text = none) (texts : List (List Char)) :
    marks (texts ++ [text]) = marks texts := by
  rw [marks_append, marks, marks, List.filterMap_cons_none h, List.filterMap_nil, List.append_nil]

theorem marks_split (h : mark? text = some d) (before after : List (List Char)) :
    marks (before ++ text :: after) = marks before ++ d :: marks after := by
  rw [marks_append, marks, marks, marks, List.filterMap_cons_some h]

theorem exists_opened_iff :
    (∃ line, Opened texts line) ↔ (marks texts).getLast? = some .ignore := by
  induction texts using List.reverseRecOn with
  | nil => simp [not_opened_nil, marks]
  | append_singleton texts text ih =>
    simp only [opened_concat_iff]
    cases h : mark? text with
    | none =>
      rw [marks_concat_of_none h, ← ih]
      simp
    | some d =>
      rw [marks_concat_of_mark? h, List.getLast?_concat]
      simp

/-! ### Markers that take turns -/

theorem pairs_succ (n : Nat) : pairs (n + 1) = .ignore :: .endIgnore :: pairs n := rfl

theorem pairs_concat (n : Nat) : pairs n ++ [.ignore, .endIgnore] = pairs (n + 1) := by
  unfold pairs
  rw [List.replicate_succ', List.flatten_concat]

theorem getLast?_pairs (n : Nat) : (pairs n).getLast? ≠ some .ignore := by
  cases n with
  | zero => simp [pairs]
  | succ n => simp [← pairs_concat]

/-- Where markers that take turns are split, the one behind the split tells what is before it. -/
theorem eq_pairs_of_split {front back : List Directive} (h : front ++ d :: back = pairs n) :
    (d = .ignore ∧ ∃ k, front = pairs k) ∨ (d = .endIgnore ∧ ∃ k, front = pairs k ++ [.ignore]) := by
  induction n generalizing front with
  | zero => simp [pairs] at h
  | succ n ih =>
    rw [pairs_succ] at h
    rcases front with _ | ⟨e, _ | ⟨e', front⟩⟩
    · cases h
      exact .inl ⟨rfl, 0, rfl⟩
    · cases h
      exact .inr ⟨rfl, 0, rfl⟩
    · simp only [List.cons_append, List.cons.injEq] at h
      obtain ⟨rfl, rfl, h⟩ := h
      rcases ih h with ⟨rfl, k, rfl⟩ | ⟨rfl, k, rfl⟩
      · exact .inl ⟨rfl, k + 1, rfl⟩
      · exact .inr ⟨rfl, k + 1, rfl⟩

/-- A block that is open is ended by the next marker. -/
theorem closes_of_opened (turns : marks (before ++ after) = pairs n) (opened : Opened before line) :
    Closes after := by
  have hlast := exists_opened_iff.1 ⟨line, opened⟩
  rw [marks_append] at turns
  obtain ⟨front, hfront⟩ := List.getLast?_eq_some_iff.1 hlast
  cases hafter : marks after with
  | nil =>
    rw [hafter, List.append_nil] at turns
    exact absurd (turns ▸ hlast) (getLast?_pairs n)
  | cons d rest =>
    rw [hafter] at turns
    rcases eq_pairs_of_split turns with ⟨-, k, hk⟩ | ⟨rfl, -⟩
    · exact absurd (hk ▸ hlast) (getLast?_pairs k)
    · obtain ⟨skipped, ended, back, rfl, hskipped, hended, -⟩ := List.filterMap_eq_cons_iff.1 hafter
      exact ⟨skipped, ended, back, rfl, hended, hskipped⟩

/-! ### Acceptance -/

theorem Unbroken.of_append {texts' : List (List Char)} (h : Unbroken (texts ++ texts')) :
    Unbroken texts := by
  rintro before text after cause rfl
  exact h before text (after ++ texts') cause (by simp)

/-- Where no line breaks a rule the markers have taken turns so far. -/
theorem Unbroken.turns (h : Unbroken texts) :
    ∃ n, marks texts = pairs n ∨ marks texts = pairs n ++ [.ignore] := by
  induction texts using List.reverseRecOn with
  | nil => exact ⟨0, .inl rfl⟩
  | append_singleton texts text ih =>
    obtain ⟨n, hn⟩ := ih h.of_append
    have hlast := h texts text []
    cases hmark : mark? text with
    | none =>
      rw [marks_concat_of_none hmark]
      exact ⟨n, hn⟩
    | some d =>
      rw [marks_concat_of_mark? hmark]
      rcases (mark?_eq_some_iff.1 hmark).2 with rfl | rfl
      · rcases hn with hn | hn
        · exact ⟨n, .inr (by rw [hn])⟩
        · obtain ⟨line, opened⟩ := exists_opened_iff.2 (hn ▸ List.getLast?_concat)
          exact absurd (.nested hmark opened) (hlast _ rfl)
      · rcases hn with hn | hn
        · refine absurd (.unmatched hmark fun line opened => ?_) (hlast _ rfl)
          exact getLast?_pairs n (hn ▸ exists_opened_iff.1 ⟨line, opened⟩)
        · exact ⟨n + 1, .inl (by rw [hn, ← pairs_concat, List.append_assoc]; rfl)⟩

theorem Accepted.unbroken (h : Accepted texts) : Unbroken texts := by
  rintro before text after cause rfl hbreaks
  obtain ⟨n, hn⟩ := h.alternate
  cases hbreaks with
  | malformed tool flawed =>
    obtain ⟨kind, hkind⟩ := h.reads text (by simp)
    rw [read_eq_error_iff.2 ⟨_, _, tool, flawed, rfl⟩] at hkind
    cases hkind
  | nested is opened =>
    rw [marks_split is] at hn
    rcases eq_pairs_of_split hn with ⟨-, k, hk⟩ | ⟨hd, -⟩
    · exact getLast?_pairs k (hk ▸ exists_opened_iff.1 ⟨_, opened⟩)
    · cases hd
  | unmatched is free =>
    rw [marks_split is] at hn
    rcases eq_pairs_of_split hn with ⟨hd, -⟩ | ⟨-, k, hk⟩
    · cases hd
    · obtain ⟨line, opened⟩ := exists_opened_iff.2 (hk ▸ List.getLast?_concat)
      exact free line opened
  | inside is border opened =>
    refine h.clear before text after _ rfl ⟨_, opened⟩ ?_ is border
    have hmarks : marks (text :: after) = marks after :=
      List.filterMap_cons_none (mark?_of_border is border)
    rw [marks_append, hmarks, ← marks_append] at hn
    exact closes_of_opened hn opened

theorem Accepted.not_opened (h : Accepted texts) : ¬ Opened texts line := by
  intro opened
  obtain ⟨n, hn⟩ := h.alternate
  exact getLast?_pairs n (hn ▸ exists_opened_iff.1 ⟨line, opened⟩)

/-- The rules for all lines are those for each of them, and that no block is left open. -/
theorem accepted_iff : Accepted texts ↔ Unbroken texts ∧ ∀ line, ¬ Opened texts line := by
  refine ⟨fun h => ⟨h.unbroken, fun line => h.not_opened⟩, ?_⟩
  rintro ⟨hunbroken, hclosed⟩
  refine ⟨?_, ?_, ?_⟩
  · intro text htext
    obtain ⟨before, after, heq⟩ := List.append_of_mem htext
    cases hread : LineKind.read text with
    | ok kind => exact ⟨kind, rfl⟩
    | error cause =>
      obtain ⟨content, flaw, tool, flawed, rfl⟩ := read_eq_error_iff.1 hread
      exact absurd (.malformed tool flawed) (hunbroken before text after _ heq)
  · obtain ⟨n, hn | hn⟩ := hunbroken.turns
    · exact ⟨n, hn⟩
    · obtain ⟨line, opened⟩ := exists_opened_iff.2 (hn ▸ List.getLast?_concat)
      exact absurd opened (hclosed line)
  · rintro before text after kind heq ⟨line, opened⟩ - hread border
    exact hunbroken before text after _ heq (.inside hread border opened)

/-! ### Reading -/

/-- The block that the reader has open is the one that the lines behind it have left open. -/
def Follows (before : List (List Char)) (opened : Option Nat) : Prop :=
  ∀ line, opened = some line ↔ Opened before line

/-- What the reader makes of one line: whether it is ignored, and the block that is open then. -/
def turn (opened : Option Nat) (line : Nat) (text : List Char) : Except Cause (Bool × Option Nat) := do
  let kind ← LineKind.read text
  ignoring opened line text kind

/-- The block that is open, and the number of the next line. -/
def track (reader : Option Nat × Nat) (text : List Char) : Except Fault (Option Nat × Nat) := do
  let (_, opened) ← (turn reader.1 reader.2 text).mapError (Fault.mk reader.2)
  return (opened, reader.2 + 1)

variable {opened opened' : Option Nat} {ignored : Bool}

theorem follows_nil : Follows [] none := by
  intro line
  exact iff_of_false (by simp) not_opened_nil

theorem Follows.exists_iff (h : Follows before opened) :
    opened.isSome = true ↔ ∃ line, Opened before line := by
  rw [Option.isSome_iff_exists]
  exact exists_congr h

theorem turn_eq_ok_iff {result : Bool × Option Nat} :
    turn opened line text = .ok result ↔
      ∃ kind, LineKind.read text = .ok kind ∧ ignoring opened line text kind = .ok result :=
  Except.bind_eq_ok

/-- A line is refused exactly where it breaks a rule behind the lines that have been read. -/
theorem turn_eq_error_iff (h : Follows before opened) :
    turn opened line text = .error cause ↔ Breaks before text cause := by
  unfold turn
  rw [Except.bind_eq_error]
  constructor
  · rintro (hread | ⟨kind, hread, hignoring⟩)
    · obtain ⟨content, flaw, tool, flawed, rfl⟩ := read_eq_error_iff.1 hread
      exact .malformed tool flawed
    · unfold ignoring at hignoring
      split at hignoring
      · split at hignoring <;> cases hignoring
        exact .nested (mark?_eq_some_iff.2 ⟨hread, .inl rfl⟩) ((h _).1 rfl)
      · split at hignoring <;> cases hignoring
        refine .unmatched (mark?_eq_some_iff.2 ⟨hread, .inr rfl⟩) fun line hopened => ?_
        cases (h line).2 hopened
      · split at hignoring <;> cases hignoring
        exact .inside hread (.inl ⟨_, _, rfl⟩) ((h _).1 rfl)
      · split at hignoring <;> cases hignoring
        exact .inside hread (.inr ⟨_, rfl⟩) ((h _).1 rfl)
      · cases hignoring
  · intro hbreaks
    cases hbreaks with
    | malformed tool flawed => exact .inl (read_eq_error_iff.2 ⟨_, _, tool, flawed, rfl⟩)
    | nested is opened =>
      refine .inr ⟨_, (mark?_eq_some_iff.1 is).1, ?_⟩
      rw [(h _).2 opened]
      rfl
    | unmatched is free =>
      refine .inr ⟨_, (mark?_eq_some_iff.1 is).1, ?_⟩
      rw [Option.eq_none_iff_forall_ne_some.2 fun line hopened => free line ((h line).1 hopened)]
      rfl
    | inside is border opened =>
      refine .inr ⟨_, is, ?_⟩
      rw [(h _).2 opened]
      obtain ⟨kind, name, rfl⟩ | ⟨kind, rfl⟩ := border <;> rfl

theorem mark?_eq_none_of_read {kind : LineKind} (h : LineKind.read text = .ok kind)
    (begins : kind ≠ .marker .ignore) (ends : kind ≠ .marker .endIgnore) : mark? text = none := by
  refine Option.eq_none_iff_forall_ne_some.2 fun d hmark => ?_
  obtain ⟨hread, rfl | rfl⟩ := mark?_eq_some_iff.1 hmark
  · exact begins (Except.ok.inj (h.symm.trans hread))
  · exact ends (Except.ok.inj (h.symm.trans hread))

/-- A line that is read keeps the block that is open, and is ignored if it is in it or marks it. -/
theorem follows_turn (h : Follows before opened)
    (hturn : turn opened (before.length + 1) text = .ok (ignored, opened')) :
    Follows (before ++ [text]) opened' ∧
      (ignored = true ↔ (mark? text).isSome ∨ ∃ line, Opened before line) := by
  obtain ⟨kind, hread, hignoring⟩ := turn_eq_ok_iff.1 hturn
  rcases ignoring_eq_ok hignoring with ⟨rfl, rfl, rfl, rfl⟩ | ⟨rfl, hopen, rfl, rfl⟩ |
    ⟨begins, ends, rfl, rfl, -⟩
  · have hmark : mark? text = some .ignore := mark?_eq_some_iff.2 ⟨hread, .inl rfl⟩
    refine ⟨fun line => ?_, iff_of_true rfl (.inl (by rw [hmark]; rfl))⟩
    rw [opened_concat_iff, hmark]
    simp [eq_comm]
  · have hmark : mark? text = some .endIgnore := mark?_eq_some_iff.2 ⟨hread, .inr rfl⟩
    refine ⟨fun line => ?_, iff_of_true rfl (.inl (by rw [hmark]; rfl))⟩
    rw [opened_concat_iff, hmark]
    simp
  · have hmark := mark?_eq_none_of_read hread begins ends
    refine ⟨fun line => ?_, ?_⟩
    · rw [opened_concat_iff, hmark, h line]
      simp
    · rw [hmark, h.exists_iff]
      simp

/-! ### The first line that breaks a rule -/

variable {f : Fault} {offset next : Nat} {raws : List (List Char)} {source : String}

theorem track_eq_error_iff (h : Follows before opened) :
    track (opened, before.length + 1) text = .error f ↔
      ∃ cause, Breaks before text cause ∧ f = ⟨before.length + 1, cause⟩ := by
  unfold track
  rw [Except.bind_eq_error, Except.mapError_eq_error]
  simp only [turn_eq_error_iff h, eq_comm (a := f)]
  exact or_iff_left fun ⟨_, _, hok⟩ => by cases hok

theorem track_eq_ok_iff {reader : Option Nat × Nat} :
    track (opened, line) text = .ok reader ↔
      ∃ ignored opened', turn opened line text = .ok (ignored, opened') ∧
        reader = (opened', line + 1) := by
  unfold track
  rw [Except.bind_eq_ok]
  simp only [Except.mapError_eq_ok, Prod.exists]
  exact exists₂_congr fun _ _ => and_congr_right fun _ => ⟨fun h => (Except.ok.inj h).symm, by rintro rfl; rfl⟩

theorem follows_of_foldlM (h : texts.foldlM track (none, 1) = .ok (opened, next)) :
    Follows texts opened ∧ next = texts.length + 1 := by
  refine Except.foldlM_induction (P := fun before reader =>
    Follows before reader.1 ∧ reader.2 = before.length + 1) ⟨follows_nil, rfl⟩ ?_ h
  rintro before text ⟨opened, next⟩ reader ⟨hfollows, rfl⟩ htrack
  obtain ⟨ignored, opened', hturn, rfl⟩ := track_eq_ok_iff.1 htrack
  exact ⟨(follows_turn hfollows hturn).1, by simp⟩

/-- What a line breaks, as the fault that the reader answers there. -/
def Faulty (before : List (List Char)) (text : List Char) (f : Fault) : Prop :=
  ∃ cause, Breaks before text cause ∧ f = ⟨before.length + 1, cause⟩

theorem unbroken_iff :
    Unbroken texts ↔ ∀ before text after f, texts = before ++ text :: after → ¬ Faulty before text f := by
  constructor
  · rintro h before text after f heq ⟨cause, hbreaks, -⟩
    exact h before text after cause heq hbreaks
  · intro h before text after cause heq hbreaks
    exact h before text after _ heq ⟨cause, hbreaks, rfl⟩

theorem faulty_iff (before : List (List Char)) (text : List Char) (reader : Option Nat × Nat)
    (f : Fault) (h : before.foldlM track (none, 1) = .ok reader) :
    track reader text = .error f ↔ Faulty before text f := by
  obtain ⟨opened, next⟩ := reader
  obtain ⟨hfollows, rfl⟩ := follows_of_foldlM h
  exact track_eq_error_iff hfollows

theorem exists_foldlM_iff :
    (∃ reader, texts.foldlM track (none, 1) = .ok reader) ↔ Unbroken texts :=
  (Except.exists_foldlM_iff_of_steps faulty_iff).trans unbroken_iff.symm

theorem foldlM_eq_error_iff :
    texts.foldlM track (none, 1) = .error f ↔ ∃ before text after cause,
      texts = before ++ text :: after ∧ Unbroken before ∧ Breaks before text cause ∧
        f = ⟨before.length + 1, cause⟩ := by
  rw [Except.foldlM_eq_error_iff_of_steps faulty_iff]
  simp only [← unbroken_iff]
  simp only [Faulty, exists_and_left]

/-! ### Classifying -/

/-- A line is refused before those behind it are looked at, and else they are classified with the
block that it leaves open. -/
theorem classifyFrom_cons_eq_error_iff {raw : List Char} :
    SourceLine.classifyFrom opened line offset (raw :: raws) = .error f ↔
      track (opened, line) (withoutFinal '\r' raw) = .error f ∨
        ∃ opened' next, track (opened, line) (withoutFinal '\r' raw) = .ok (opened', next) ∧
          SourceLine.classifyFrom opened' next (offset + SourceLine.byteLength raw) raws = .error f := by
  rw [SourceLine.classifyFrom_cons]
  unfold track turn
  cases LineKind.read (withoutFinal '\r' raw) with
  | error cause => simp [bind, Except.bind, Except.mapError]
  | ok kind =>
    cases h : ignoring opened line (withoutFinal '\r' raw) kind with
    | error cause => simp [h, bind, Except.bind, Except.mapError]
    | ok e =>
      simp only [h, bind, Except.bind, Except.mapError, pure, Except.pure, Except.map]
      cases hrest : SourceLine.classifyFrom e.2 (line + 1) (offset + SourceLine.byteLength raw) raws <;>
        simp [hrest]

/-- Classifying fails where reading the lines does, or where it leaves a block open. -/
theorem classifyFrom_eq_error_iff :
    SourceLine.classifyFrom opened line offset raws = .error f ↔
      (raws.map (withoutFinal '\r')).foldlM track (opened, line) = .error f ∨
        ∃ outer next, (raws.map (withoutFinal '\r')).foldlM track (opened, line) =
          .ok (some outer, next) ∧ f = ⟨outer, .unterminated .ignored⟩ := by
  induction raws generalizing opened line offset with
  | nil =>
    unfold SourceLine.classifyFrom
    cases opened <;> simp [pure, Except.pure, eq_comm]
  | cons raw raws ih =>
    rw [classifyFrom_cons_eq_error_iff, List.map_cons, List.foldlM_cons, Except.bind_eq_error]
    simp only [ih, Except.bind_eq_ok, Prod.exists, or_assoc]
    refine or_congr_right ?_
    constructor
    · rintro ⟨opened', next, htrack, hfold | ⟨outer, last, hfold, rfl⟩⟩
      · exact .inl ⟨opened', next, htrack, hfold⟩
      · exact .inr ⟨outer, last, ⟨opened', next, htrack, hfold⟩, rfl⟩
    · rintro (⟨opened', next, htrack, hfold⟩ | ⟨outer, last, ⟨opened', next, htrack, hfold⟩, rfl⟩)
      · exact ⟨opened', next, htrack, .inl hfold⟩
      · exact ⟨opened', next, htrack, .inr ⟨outer, last, hfold, rfl⟩⟩

/-- A line that is classified is ignored if it marks a block or is in the one that is open. -/
theorem ignored_of_classifyFrom {lines : List SourceLine} (hfollows : Follows before opened)
    (h : SourceLine.classifyFrom opened (before.length + 1) offset raws = .ok lines)
    {front after : List (List Char)} {text : List Char}
    (heq : raws.map (withoutFinal '\r') = front ++ text :: after) :
    ∃ l, lines[front.length]? = some l ∧
      (l.ignored = true ↔ (mark? text).isSome ∨ ∃ line, Opened (before ++ front) line) := by
  induction raws generalizing before opened offset lines front with
  | nil => exact absurd heq (List.ne_nil_of_mem (List.mem_append_right _ List.mem_cons_self)).symm
  | cons raw raws ih =>
    obtain ⟨kind, ignored, opened', rest, hread, hignoring, hrest, rfl⟩ :=
      SourceLine.classifyFrom_cons_eq_ok h
    have hturn := turn_eq_ok_iff.2 ⟨kind, hread, hignoring⟩
    cases front with
    | nil =>
      obtain ⟨rfl, -⟩ := List.cons.inj heq
      rw [List.append_nil]
      exact ⟨_, rfl, (follows_turn hfollows hturn).2⟩
    | cons t front =>
      obtain ⟨rfl, hmore⟩ := List.cons.inj heq
      have hnext := (follows_turn hfollows hturn).1
      obtain ⟨l, hget, hignored⟩ := ih hnext (by simpa using hrest) hmore
      rw [List.append_cons]
      exact ⟨l, hget, hignored⟩

/-! ### Sources -/

/-- Each line of the lines is ignored as its text is in theirs. -/
def Flagged (texts : List (List Char)) (lines : List SourceLine) : Prop :=
  lines.length = texts.length ∧ ∀ before text after, texts = before ++ text :: after →
    ∃ l, lines[before.length]? = some l ∧ (l.ignored = true ↔ Ignored before text after)

theorem classify_eq_error_iff :
    SourceLine.classify source = .error f ↔
      (∃ before text after cause, SourceLine.texts source = before ++ text :: after ∧
        Unbroken before ∧ Breaks before text cause ∧ f = ⟨before.length + 1, cause⟩) ∨
      (Unbroken (SourceLine.texts source) ∧ ∃ line, Opened (SourceLine.texts source) line ∧
        f = ⟨line, .unterminated .ignored⟩) := by
  unfold SourceLine.classify
  rw [classifyFrom_eq_error_iff]
  show (SourceLine.texts source).foldlM track (none, 1) = _ ∨ (∃ outer next,
    (SourceLine.texts source).foldlM track (none, 1) = _ ∧ _) ↔ _
  rw [foldlM_eq_error_iff]
  refine or_congr_right ?_
  constructor
  · rintro ⟨outer, next, hfold, rfl⟩
    exact ⟨exists_foldlM_iff.1 ⟨_, hfold⟩, outer, ((follows_of_foldlM hfold).1 outer).1 rfl, rfl⟩
  · rintro ⟨hunbroken, outer, hopened, rfl⟩
    obtain ⟨⟨opened, next⟩, hfold⟩ := exists_foldlM_iff.2 hunbroken
    obtain rfl := ((follows_of_foldlM hfold).1 outer).2 hopened
    exact ⟨outer, next, hfold, rfl⟩

theorem exists_classify_iff :
    (∃ lines, SourceLine.classify source = .ok lines) ↔ Accepted (SourceLine.texts source) := by
  rw [accepted_iff]
  constructor
  · rintro ⟨lines, h⟩
    have hnone (f : Fault) : SourceLine.classify source ≠ .error f := by
      rw [h]
      exact nofun
    cases hfold : (SourceLine.texts source).foldlM track (none, 1) with
    | error f => exact absurd (classify_eq_error_iff.2 (.inl (foldlM_eq_error_iff.1 hfold))) (hnone f)
    | ok reader =>
      have hunbroken := exists_foldlM_iff.1 ⟨reader, hfold⟩
      refine ⟨hunbroken, fun line opened => ?_⟩
      exact hnone _ (classify_eq_error_iff.2 (.inr ⟨hunbroken, line, opened, rfl⟩))
  · rintro ⟨hunbroken, hclosed⟩
    cases h : SourceLine.classify source with
    | ok lines => exact ⟨lines, rfl⟩
    | error f =>
      obtain ⟨before, text, after, cause, heq, -, hbreaks, -⟩ | ⟨-, line, opened, -⟩ :=
        classify_eq_error_iff.1 h
      · exact absurd hbreaks (hunbroken before text after cause heq)
      · exact absurd opened (hclosed line)

theorem flagged_of_classify {lines : List SourceLine} (h : SourceLine.classify source = .ok lines) :
    Flagged (SourceLine.texts source) lines := by
  have haccepted := exists_classify_iff.1 ⟨lines, h⟩
  refine ⟨?_, fun before text after heq => ?_⟩
  · rw [(SourceLine.map_line_of_classifyFrom h).2, SourceLine.texts, List.length_map]
  · obtain ⟨l, hget, hignored⟩ := ignored_of_classifyFrom follows_nil h heq
    refine ⟨l, hget, hignored.trans ?_⟩
    rw [List.nil_append, Ignored]
    cases hmark : mark? text with
    | some d => simp
    | none =>
      obtain ⟨n, hn⟩ := haccepted.alternate
      have hmarks : marks (text :: after) = marks after := List.filterMap_cons_none hmark
      rw [heq, marks_append, hmarks, ← marks_append] at hn
      refine or_congr_right ⟨?_, And.left⟩
      rintro ⟨line, opened⟩
      exact ⟨⟨line, opened⟩, closes_of_opened hn opened⟩

/-- A source is classified exactly when its lines are accepted, and then those are ignored that
mark a block or stand in one. Else the fault is that of the first line that breaks a rule, or that
of the block that is left open where no line does. -/
theorem classify_decides (source : String) :
    ((∃ lines, SourceLine.classify source = .ok lines) ↔ Accepted (SourceLine.texts source)) ∧
      (∀ lines, SourceLine.classify source = .ok lines → Flagged (SourceLine.texts source) lines) ∧
      ∀ f, SourceLine.classify source = .error f ↔
        (∃ before text after cause, SourceLine.texts source = before ++ text :: after ∧
          Unbroken before ∧ Breaks before text cause ∧ f = ⟨before.length + 1, cause⟩) ∨
        (Unbroken (SourceLine.texts source) ∧ ∃ line, Opened (SourceLine.texts source) line ∧
          f = ⟨line, .unterminated .ignored⟩) :=
  ⟨exists_classify_iff, fun _ => flagged_of_classify, fun _ => classify_eq_error_iff⟩

/-- A doc comment in a block is ignored, and code behind it is not. -/
theorem classify_decides_block :
    SourceLine.classify "//// [ignore]\n/// a\n//// [/ignore]\nb;" =
        .ok [⟨1, 0, "//// [ignore]", .marker .ignore, true⟩, ⟨2, 14, "/// a", .doc "a", true⟩,
          ⟨3, 20, "//// [/ignore]", .marker .endIgnore, true⟩, ⟨4, 35, "b;", .code, false⟩] ∧
      Flagged (SourceLine.texts "//// [ignore]\n/// a\n//// [/ignore]\nb;")
        [⟨1, 0, "//// [ignore]", .marker .ignore, true⟩, ⟨2, 14, "/// a", .doc "a", true⟩,
          ⟨3, 20, "//// [/ignore]", .marker .endIgnore, true⟩, ⟨4, 35, "b;", .code, false⟩] := by
  have h : SourceLine.classify "//// [ignore]\n/// a\n//// [/ignore]\nb;" =
      .ok [⟨1, 0, "//// [ignore]", .marker .ignore, true⟩, ⟨2, 14, "/// a", .doc "a", true⟩,
        ⟨3, 20, "//// [/ignore]", .marker .endIgnore, true⟩, ⟨4, 35, "b;", .code, false⟩] := by
    cbv
  exact ⟨h, (classify_decides _).2.1 _ h⟩

end IgnoredBlocks

end AnnotatedHeader
