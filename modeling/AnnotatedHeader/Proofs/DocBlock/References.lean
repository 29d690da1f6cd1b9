import AnnotatedHeader.Proofs.DocBlock.Fences
import AnnotatedHeader.Proofs.DocBlock.Links
import Mathlib

/-! Which lines of a comment have references.

A fence is open from a line that starts with its sign to the next one that does, whether or not it
asks for a snippet (`openFence`), and references come from the lines outside alone
(`references_ofLines`). So a line with links adds them to those of the lines before it, and inside a
fence it adds none (`references_of_linked`). -/
namespace AnnotatedHeader.DocBlock

open Text

/-! ### Fences, line by line -/

/-- The fence that is open behind a line. -/
def Fence.next (fence : Option Fence) (text : String) : Option Fence :=
  match fence with
  | some f => if f.starts (trim text.toList) then none else some f
  | none => Fence.opened? (trim text.toList)

/-- The fence that is open behind the lines. -/
def openFence (ls : List NumberedLine) : Option Fence :=
  ls.foldl (fun fence l => Fence.next fence l.2) none

/-- A line is outside where no fence is open before it and it opens none. -/
def outside (fence : Option Fence) (text : String) : Bool :=
  fence.isNone && (Fence.next fence text).isNone

/-- The references of the lines outside fences. -/
def referencesFrom (fence : Option Fence) : List NumberedLine → List CrossReference
  | [] => []
  | (line, text) :: ls =>
    (if outside fence text then (Part.prose line text).references else []) ++
      referencesFrom (Fence.next fence text) ls

variable {fence : Option Fence} {ls before after : List NumberedLine} {line : Nat} {text : String}

theorem referencesFrom_append (fence : Option Fence) (ls ls' : List NumberedLine) :
    referencesFrom fence (ls ++ ls') = referencesFrom fence ls ++
      referencesFrom (ls.foldl (fun fence l => Fence.next fence l.2) fence) ls' := by
  induction ls generalizing fence with
  | nil => rfl
  | cons l ls ih =>
    rw [List.cons_append, referencesFrom, referencesFrom, ih, List.append_assoc]
    rfl

theorem line_of_mem_referencesFrom {r : CrossReference} (hr : r ∈ referencesFrom fence ls) :
    r.line ∈ ls.map Prod.fst := by
  induction ls generalizing fence with
  | nil => cases hr
  | cons l ls ih =>
    rw [List.map_cons]
    rcases List.mem_append.1 hr with hr | hr
    · split at hr
      · obtain ⟨link, -, hlink⟩ := List.mem_filterMap.1 hr
        obtain ⟨kind, -, rfl⟩ := Option.map_eq_some_iff.1 hlink
        exact List.mem_cons_self
      · cases hr
    · exact List.mem_cons_of_mem _ (ih hr)

/-! ### Blank lines -/

theorem next_of_isBlankLine {l : NumberedLine} (h : isBlankLine l = true) (fence : Option Fence) :
    Fence.next fence l.2 = fence := by
  have hstarts (f : Fence) : f.starts (trim l.2.toList) = false := not_starts_of_isBlank f h
  cases fence with
  | none => simp [Fence.next, Fence.opened?, hstarts]
  | some f => simp [Fence.next, hstarts]

theorem references_prose_of_isBlankLine {l : NumberedLine} (h : isBlankLine l = true) :
    (Part.prose l.1 l.2).references = [] := by
  have hbracket : '[' ∉ l.2.toList := fun hmem =>
    absurd (List.all_eq_true.1 h '[' hmem) (by decide)
  exact (Link.Linked.text hbracket).filterMap_scan l.1

theorem referencesFrom_of_isBlankLine (h : ∀ l ∈ ls, isBlankLine l = true) (fence : Option Fence) :
    referencesFrom fence ls = [] ∧ ls.foldl (fun fence l => Fence.next fence l.2) fence = fence := by
  induction ls with
  | nil => exact ⟨rfl, rfl⟩
  | cons l ls ih =>
    obtain ⟨hl, hls⟩ := List.forall_mem_cons.1 h
    obtain ⟨hreferences, hfence⟩ := ih hls
    rw [referencesFrom, List.foldl_cons, next_of_isBlankLine hl, references_prose_of_isBlankLine hl,
      ite_self, List.nil_append]
    exact ⟨hreferences, hfence⟩

/-! ### Parts -/

theorem opened?_of_asksForSnippet {trimmed : List Char} (h : asksForSnippet trimmed = true) :
    Fence.opened? trimmed = some .backquotes := by
  unfold asksForSnippet at h
  split at h
  · rename_i rest hlead
    have hstarts : Fence.backquotes.starts trimmed = true :=
      List.isPrefixOf_iff_prefix.2 ⟨rest, (afterLead?_eq_some_iff.1 hlead).symm⟩
    simp [Fence.opened?, hstarts]
  · cases h

/-- Inside an open fence no line has references. -/
theorem referencesFrom_some {f : Fence} (h : ∀ l ∈ ls, f.starts (trim l.2.toList) = false)
    (after : List NumberedLine) :
    referencesFrom (some f) (ls ++ after) = referencesFrom (some f) after := by
  induction ls with
  | nil => rfl
  | cons l ls ih =>
    obtain ⟨hl, hls⟩ := List.forall_mem_cons.1 h
    have hnext : Fence.next (some f) l.2 = some f := by simp [Fence.next, hl]
    rw [List.cons_append, referencesFrom, hnext, ih hls]
    rfl

/-- Nothing comes from the inside of a snippet fence, which is closed at its end. -/
theorem referencesFrom_of_fenced {found : NumberedLine} {inside : List NumberedLine}
    (h : Fenced found inside) (after : List NumberedLine) :
    referencesFrom (some .backquotes) (inside ++ after) = referencesFrom none after := by
  obtain ⟨front, close, rfl⟩ := (List.eq_nil_or_concat' inside).resolve_left h.ne_nil
  have hclose : Fence.backquotes.starts (trim close.2.toList) = true := by
    rw [h.trim_close]
    rfl
  have hnext : Fence.next (some .backquotes) close.2 = none := by simp [Fence.next, hclose]
  rw [List.append_assoc, referencesFrom_some h.not_starts, List.singleton_append, referencesFrom, hnext]
  rfl

theorem references_scan (fence : Option Fence) (ls : List NumberedLine) :
    (Part.scan fence ls).flatMap Part.references = referencesFrom fence ls := by
  fun_induction Part.scan fence ls with
  | case1 => rfl
  | case2 line text ls trimmed f ih =>
    rw [dite_eq_ite] at ih
    rw [List.flatMap_cons, ih, referencesFrom]
    rfl
  | case3 line text ls trimmed hask at_ name after hfound ih =>
    obtain ⟨inside, hinside, rfl⟩ := fencedSnippet?_eq_some_iff.1 hfound
    have hnext : Fence.next none text = some .backquotes := opened?_of_asksForSnippet hask
    rw [List.flatMap_cons, ih, referencesFrom, outside, hnext, referencesFrom_of_fenced hinside]
    rfl
  | case4 line text ls trimmed hask hnone ih =>
    have hnext : Fence.next none text = some .backquotes := opened?_of_asksForSnippet hask
    rw [List.flatMap_cons, ih, referencesFrom, outside, hnext]
    rfl
  | case5 line text ls trimmed hask f hopened ih =>
    have hnext : Fence.next none text = some f := hopened
    rw [List.flatMap_cons, ih, referencesFrom, outside, hnext]
    rfl
  | case6 line text ls trimmed hask hopened ih =>
    have hnext : Fence.next none text = none := hopened
    rw [List.flatMap_cons, ih, referencesFrom, outside, hnext]
    rfl

theorem references_ofLines (ls : List NumberedLine) :
    (ofLines ls).references = referencesFrom none ls := by
  obtain ⟨before, after, hls, hbefore, hafter⟩ := (between_dropWhile isBlankLine ls).ends
  show (Part.scan none (withoutBlankEnds ls)).flatMap Part.references = _
  rw [references_scan]
  conv => rhs; rw [hls]
  rw [List.append_assoc, referencesFrom_append, referencesFrom_append,
    (referencesFrom_of_isBlankLine hbefore none).1, (referencesFrom_of_isBlankLine hbefore none).2,
    (referencesFrom_of_isBlankLine hafter _).1, List.append_nil, List.nil_append]
  rfl

/-- A line with links adds them to the references of the lines before it, in order, with their
kinds, their paths without white space, and the line's number. Inside a fence it adds none. -/
theorem references_of_linked {links : List (Kind × List Char)} (h : Link.Linked links text.toList)
    (before after : List NumberedLine) (line : Nat) :
    ∃ more, (ofLines (before ++ (line, text) :: after)).references =
        (ofLines before).references ++
          (if outside (openFence before) text then links.map (Link.referenceTo line) else []) ++
            more ∧
      (∀ r ∈ (ofLines before).references, r.line ∈ before.map Prod.fst) ∧
        ∀ r ∈ more, r.line ∈ after.map Prod.fst := by
  refine ⟨referencesFrom (Fence.next (openFence before) text) after, ?_, ?_, ?_⟩
  · rw [references_ofLines, references_ofLines, referencesFrom_append, referencesFrom,
      List.append_assoc]
    have hlinks : (Part.prose line text).references = links.map (Link.referenceTo line) :=
      h.filterMap_scan line
    rw [hlinks]
    rfl
  · rw [references_ofLines]
    exact fun r hr => line_of_mem_referencesFrom hr
  · exact fun r hr => line_of_mem_referencesFrom hr

/-- Two links behind a fence, with white space in the first. -/
theorem references_of_linked_two :
    (ofLines [(1, "~~~"), (2, "a"), (3, "~~~"),
        (4, "See [\x60enum : A :: B\x60]( ), [\x60class:C\x60]()")]).references =
      [⟨.enumType, "A::B", 4, none⟩, ⟨.classType, "C", 4, none⟩] := by
  have hword (c : Char) (h : isWord c = true) : IsWordRun [c] := ⟨by simp, by simpa using h⟩
  have hnone : IsGap [] := by simp [IsGap]
  have hspace : IsGap [' '] := by simp [IsGap, isAsciiSpace]
  have hpath : Link.IsPath ['A', ' ', ':', ':', ' ', 'B'] :=
    .cons (hword 'A' (by decide)) hspace hspace (.word (hword 'B' (by decide)))
  have hfirst := @Link.Written.intro .enumType _ [] [' '] [' '] [] [] [' '] (by decide) hpath hnone
    hspace hspace hnone hnone hspace
  have hsecond := @Link.Written.intro .classType _ [] [] [] [] [] [] (by decide)
    (.word (hword 'C' (by decide))) hnone hnone hnone hnone hnone hnone
  have hlinked : Link.Linked [(.enumType, ['A', ' ', ':', ':', ' ', 'B']), (.classType, ['C'])]
      "See [\x60enum : A :: B\x60]( ), [\x60class:C\x60]()".toList :=
    .link (t := ['S', 'e', 'e', ' ']) (by decide) hfirst
      (.link (t := [',', ' ']) (by decide) hsecond (.text (t := []) (by decide)))
  obtain ⟨more, hall, -, hmore⟩ :=
    references_of_linked hlinked [(1, "~~~"), (2, "a"), (3, "~~~")] [] 4
  have hnil : more = [] := List.eq_nil_iff_forall_not_mem.2 fun r hr => by simpa using hmore r hr
  rw [hnil, List.append_nil] at hall
  exact hall.trans (by cbv)

end AnnotatedHeader.DocBlock
