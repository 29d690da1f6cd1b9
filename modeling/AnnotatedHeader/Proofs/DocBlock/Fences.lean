import AnnotatedHeader.Proofs.DocBlock.Parts
import AnnotatedHeader.Proofs.Text.Ends
import Mathlib.Data.List.Forall2

/-! Which lines make one part of a comment.

A part is a line, or it is an example, which a snippet fence spans: the line that opens it, a
name and the line that closes it, blank lines apart. The lines of a comment are the spans of
its parts, one behind the other (`Part.exists_spans`). A snippet fence is looked for in the
lines ahead, but never past a line of three backquotes, so lines that end in one are read
without regard to what follows them (`Part.scan_append`). -/
namespace AnnotatedHeader.DocBlock

open List (Forall₂)
open Text

/-! ### Lines that are no fence -/

theorem not_starts_of_not_mem {f : Fence} {cs : List Char} (h : ∀ c ∈ f.sign, c ∉ cs) :
    f.starts (trim cs) = false := by
  have hsubset : trim cs ⊆ cs := by
    intro c hc
    have hstart := List.mem_reverse.1 ((List.dropWhile_sublist _).subset (List.mem_reverse.1 hc))
    exact (List.dropWhile_sublist _).subset hstart
  cases hstarts : f.starts (trim cs) with
  | false => rfl
  | true =>
    obtain ⟨rest, hrest⟩ := List.isPrefixOf_iff_prefix.1 hstarts
    have hfirst (c : Char) (hc : c ∈ f.sign) : c ∈ cs :=
      hsubset (hrest ▸ List.mem_append_left rest hc)
    cases f <;> exact absurd (hfirst _ (List.mem_cons_self ..)) (h _ (List.mem_cons_self ..))

theorem not_starts_of_isBlank (f : Fence) {cs : List Char} (h : isBlank cs = true) :
    f.starts (trim cs) = false := by
  refine not_starts_of_not_mem fun c hc hmem => ?_
  have hspace := List.all_eq_true.1 h c hmem
  cases f <;> simp only [Fence.sign, List.mem_cons, List.not_mem_nil, or_false, or_self] at hc <;>
    subst hc <;> exact absurd hspace (by decide)

/-! ### Names of snippets -/

/-- What a snippet's name is made of. -/
def isNameRest (c : Char) : Bool := isIdentRest c || c == '-'

theorem isRegionName_cons {c : Char} {cs : List Char} :
    isRegionName (c :: cs) = true ↔ isIdentStart c = true ∧ ∀ d ∈ cs, isNameRest d = true := by
  simp [isRegionName, isNameRest]

theorem isNameRest_of_isIdentStart {c : Char} (h : isIdentStart c = true) :
    isNameRest c = true := by
  unfold isIdentStart at h
  unfold isNameRest isIdentRest
  simp only [Bool.or_eq_true] at h ⊢
  tauto

theorem isNameRest_of_isRegionName {cs : List Char} (h : isRegionName cs = true) :
    ∀ c ∈ cs, isNameRest c = true := by
  cases cs with
  | nil => simp
  | cons c cs =>
    obtain ⟨hc, hcs⟩ := isRegionName_cons.1 h
    exact List.forall_mem_cons.2 ⟨isNameRest_of_isIdentStart hc, hcs⟩

/-- A name does not go over the end of a line. -/
theorem not_mem_of_isRegionName {cs : List Char} (h : isRegionName cs = true) : '\n' ∉ cs :=
  fun hmem => absurd (isNameRest_of_isRegionName h _ hmem) (by decide)

theorem not_isSpace_of_isNameRest {c : Char} (h : isNameRest c = true) : isSpace c = false := by
  delta isNameRest isIdentRest Char.isAlpha Char.isUpper Char.isLower Char.isDigit at h
  simp only [Bool.or_eq_true, Bool.and_eq_true, decide_eq_true_eq, beq_iff_eq, ge_iff_le,
    UInt32.le_iff_toNat_le] at h
  have hrange : 32 < c.toNat ∧ c.toNat < 128 := by
    rcases h with (((h | h) | h) | rfl) | rfl
    · exact ⟨Nat.lt_of_lt_of_le (by decide) h.1, Nat.lt_of_le_of_lt h.2 (by decide)⟩
    · exact ⟨Nat.lt_of_lt_of_le (by decide) h.1, Nat.lt_of_le_of_lt h.2 (by decide)⟩
    · exact ⟨Nat.lt_of_lt_of_le (by decide) h.1, Nat.lt_of_le_of_lt h.2 (by decide)⟩
    · decide
    · decide
  simp [isSpace]
  omega

theorem not_isSpace_of_isIdentStart {c : Char} (h : isIdentStart c = true) : isSpace c = false :=
  not_isSpace_of_isNameRest (isNameRest_of_isIdentStart h)

/-- A line that names a snippet holds the name among slashes and white space. -/
theorem snippetName?_eq_some {cs : List Char} {name : String} (h : snippetName? cs = some name) :
    isRegionName name.toList = true ∧
      ∃ before after, cs = before ++ name.toList ++ after ∧
        (∀ c ∈ before, c = '/' ∨ isAsciiSpace c = true) ∧ ∀ c ∈ after, isAsciiSpace c = true := by
  unfold snippetName? at h
  simp only [Option.ite_none_right_eq_some, Bool.and_eq_true, Option.some.injEq] at h
  obtain ⟨⟨hname, hafter⟩, rfl⟩ := h
  rw [String.toList_ofList]
  generalize hrest : cs.dropWhile (fun c => c == '/' || isAsciiSpace c) = rest at hname hafter ⊢
  refine ⟨hname, cs.takeWhile fun c => c == '/' || isAsciiSpace c, _, ?_, ?_,
    List.all_eq_true.1 hafter⟩
  · rw [List.append_assoc,
      List.prefix_iff_eq_append.1 (List.takeWhile_prefix fun c => isIdentRest c || c == '-'),
      ← hrest]
    exact List.takeWhile_append_dropWhile.symm
  · intro c hc
    simpa using List.mem_takeWhile_imp hc

/-- A name alone on its line is that line's name. -/
theorem snippetName?_toList {name : String} (h : isRegionName name.toList = true) :
    snippetName? name.toList = some name := by
  cases hcs : name.toList with
  | nil =>
    rw [hcs] at h
    cases h
  | cons c cs =>
    rw [hcs, isRegionName_cons] at h
    obtain ⟨hc, hcs'⟩ := h
    have hlead : (c == '/' || isAsciiSpace c) = false := by
      have hne : c ≠ '/' := by
        rintro rfl
        exact absurd hc (by decide)
      have hspace : isAsciiSpace c = false := by
        cases hspace : isAsciiSpace c with
        | false => rfl
        | true =>
          exact absurd (isSpace_of_isAsciiSpace hspace) (by simp [not_isSpace_of_isIdentStart hc])
      simp [hne, hspace]
    have hall : (c :: cs).takeWhile (fun c => isIdentRest c || c == '-') = c :: cs := by
      refine List.takeWhile_eq_self_iff.2 ?_
      exact List.forall_mem_cons.2 ⟨isNameRest_of_isIdentStart hc, hcs'⟩
    have hname : isRegionName (c :: cs) = true := isRegionName_cons.2 ⟨hc, hcs'⟩
    unfold snippetName?
    rw [List.dropWhile_cons_of_neg (by simpa using hlead)]
    simp only [hall, hname, List.drop_length, List.all_nil, Bool.and_self, if_true]
    rw [← hcs, String.ofList_toList]

/-! ### The inside of a snippet fence -/

/-- The lines after the one that opens a snippet fence, down to the one that closes it;
`found` is the line of the name, with the name. -/
inductive Fenced (found : NumberedLine) : List NumberedLine → Prop
  | intro {before between : List NumberedLine} {text : String} {close : NumberedLine}
      (hbefore : ∀ l ∈ before, isBlankLine l) (hname : snippetName? text.toList = some found.2)
      (hbetween : ∀ l ∈ between, isBlankLine l)
      (hclose : trim close.2.toList = Fence.backquotes.sign) :
      Fenced found (before ++ (found.1, text) :: (between ++ [close]))

theorem fencedSnippet?_eq_some_iff {ls after : List NumberedLine} {found : NumberedLine} :
    fencedSnippet? ls = some (found, after) ↔
      ∃ inside, Fenced found inside ∧ ls = inside ++ after := by
  constructor
  · intro h
    unfold fencedSnippet? at h
    split at h
    · rename_i line text rest hfirst
      split at h
      · rename_i name at_ close after' hname hsecond
        split at h
        · rename_i hclose
          cases h
          have hblank (ls : List NumberedLine) : ∀ l ∈ ls.takeWhile isBlankLine, isBlankLine l :=
            fun l hl => List.mem_takeWhile_imp hl
          have hinside : Fenced (line, name) (ls.takeWhile isBlankLine ++
              (line, text) :: (rest.takeWhile isBlankLine ++ [(at_, close)])) :=
            .intro (hblank ls) hname (hblank rest) hclose
          refine ⟨_, hinside, ?_⟩
          have hrest := List.takeWhile_append_dropWhile (p := isBlankLine) (l := rest)
          have hls := List.takeWhile_append_dropWhile (p := isBlankLine) (l := ls)
          rw [hsecond] at hrest
          rw [hfirst, ← hrest] at hls
          simpa using hls.symm
        · cases h
      · cases h
    · cases h
  · rintro ⟨_, ⟨hbefore, hname, hbetween, hclose⟩, rfl⟩
    rename_i before between text close
    have hvisible : isBlankLine (found.1, text) = false := by
      cases hblank : isBlankLine (found.1, text) with
      | false => rfl
      | true =>
        obtain ⟨hvalid, front, back, htext, -, -⟩ := snippetName?_eq_some hname
        cases hcs : found.2.toList with
        | nil =>
          rw [hcs] at hvalid
          cases hvalid
        | cons c cs =>
          rw [hcs] at hvalid htext
          have hspace := List.all_eq_true.1 hblank c (by simp [htext])
          exact absurd hspace (by simp [not_isSpace_of_isIdentStart (isRegionName_cons.1 hvalid).1])
    have hclosing : isBlankLine close = false := by
      cases hblank : isBlankLine close with
      | false => rfl
      | true => exact absurd ((trim_of_isBlank hblank).symm.trans hclose) (by decide)
    have hfirst :
        (before ++ (found.1, text) :: (between ++ [close]) ++ after).dropWhile isBlankLine =
          (found.1, text) :: (between ++ close :: after) := by
      rw [List.append_assoc, List.dropWhile_append_of_pos hbefore, List.cons_append,
        List.dropWhile_cons_of_neg (by simp [hvisible]), List.append_assoc, List.singleton_append]
    have hsecond : (between ++ close :: after).dropWhile isBlankLine = close :: after := by
      rw [List.dropWhile_append_of_pos hbetween, List.dropWhile_cons_of_neg (by simp [hclosing])]
    unfold fencedSnippet?
    simp only [hfirst, hname, hsecond, hclose, if_true]

theorem Fenced.isRegionName {found : NumberedLine} {inside : List NumberedLine}
    (h : Fenced found inside) : isRegionName found.2.toList = true := by
  obtain ⟨-, hname, -, -⟩ := h
  exact (snippetName?_eq_some hname).1

/-- A name and three backquotes are the inside of a snippet fence. -/
theorem fencedSnippet?_of_name {name : String} (h : isRegionName name.toList = true)
    (at_ line : Nat) (after : List NumberedLine) :
    fencedSnippet? ((at_, name) :: (line, "\x60\x60\x60") :: after) =
      some ((at_, name), after) := by
  have hclose : trim "\x60\x60\x60".toList = Fence.backquotes.sign := by decide
  have hinside : Fenced (at_, name) ([] ++ (at_, name) :: ([] ++ [(line, "\x60\x60\x60")])) :=
    .intro (by simp) (snippetName?_toList h) (by simp) hclose
  exact fencedSnippet?_eq_some_iff.2 ⟨_, hinside, rfl⟩

/-- No line inside a snippet fence starts another fence of backquotes. -/
theorem Fenced.not_starts {found close : NumberedLine} {inside : List NumberedLine}
    (h : Fenced found (inside ++ [close])) :
    ∀ l ∈ inside, Fence.backquotes.starts (trim l.2.toList) = false := by
  generalize hall : inside ++ [close] = all at h
  obtain ⟨hbefore, hname, hbetween, hclose⟩ := h
  rename_i before between text close'
  have hinside : inside = before ++ (found.1, text) :: between := by
    have hsplit : inside ++ [close] = (before ++ (found.1, text) :: between) ++ [close'] := by
      simpa using hall
    exact (List.append_inj' hsplit rfl).1
  obtain ⟨hvalid, front, back, htext, hfront, hback⟩ := snippetName?_eq_some hname
  have hbackquote : '\x60' ∉ text.toList := by
    rw [htext]
    intro hmem
    rcases List.mem_append.1 hmem with hmem | hmem
    · rcases List.mem_append.1 hmem with hmem | hmem
      · exact absurd (hfront _ hmem) (by decide)
      · exact absurd (isNameRest_of_isRegionName hvalid _ hmem) (by decide)
    · exact absurd (hback _ hmem) (by decide)
  intro l hl
  rw [hinside] at hl
  rcases List.mem_append.1 hl with hl | hl
  · exact not_starts_of_isBlank _ (hbefore l hl)
  · rcases List.mem_cons.1 hl with rfl | hl
    · refine not_starts_of_not_mem fun c hc hmem => hbackquote ?_
      have hsign : c = '\x60' := by simpa [Fence.sign] using hc
      exact hsign ▸ hmem
    · exact not_starts_of_isBlank _ (hbetween l hl)

theorem Fenced.trim_close {found close : NumberedLine} {inside : List NumberedLine}
    (h : Fenced found (inside ++ [close])) : trim close.2.toList = Fence.backquotes.sign := by
  generalize hall : inside ++ [close] = all at h
  obtain ⟨-, -, -, hclose⟩ := h
  rename_i before between text close'
  have hsplit : inside ++ [close] = (before ++ (found.1, text) :: between) ++ [close'] := by
    simpa using hall
  cases (List.append_inj' hsplit rfl).2
  exact hclose

theorem Fenced.ne_nil {found : NumberedLine} {inside : List NumberedLine}
    (h : Fenced found inside) : inside ≠ [] := by
  cases h
  simp

/-- A snippet fence ends at or before the first line of three backquotes. -/
theorem Fenced.prefix_of_append {found close : NumberedLine}
    {inside ls rest after : List NumberedLine} (h : Fenced found inside)
    (hclose : trim close.2.toList = Fence.backquotes.sign)
    (heq : ls ++ close :: rest = inside ++ after) : inside <+: ls ++ [close] := by
  obtain ⟨init, last, rfl⟩ := List.eq_nil_or_concat' inside |>.resolve_left h.ne_nil
  rw [List.append_assoc, List.singleton_append] at heq
  rcases List.append_eq_append_iff.1 heq with ⟨more, hinit, htail⟩ | ⟨more, hls, htail⟩
  · cases more with
    | nil =>
      rw [List.append_nil] at hinit
      rw [List.nil_append] at htail
      cases htail
      exact hinit ▸ List.prefix_rfl
    | cons c more =>
      -- The line of backquotes would stand inside.
      cases htail
      have hstarts := h.not_starts close (by simp [hinit])
      rw [hclose] at hstarts
      exact absurd hstarts (by decide)
  · cases more with
    | nil =>
      rw [List.append_nil] at hls
      cases htail
      exact hls ▸ List.prefix_rfl
    | cons c more =>
      cases htail
      exact ⟨more ++ [close], by simp [hls]⟩

/-! ### Spans -/

/-- The lines that a part is read from. -/
inductive Part.Spans : Part → List NumberedLine → Prop
  | line {p : Part} {line : Nat} {text : String} (h : p.text? = some text) : Spans p [(line, text)]
  | shown {name : String} {line : Nat} {opening : NumberedLine} {inside : List NumberedLine}
      (hopening : asksForSnippet (trim opening.2.toList) = true)
      (hinside : Fenced (line, name) inside) : Spans (.shown name line) (opening :: inside)

/-- A comment's lines are the spans of its parts. -/
theorem Part.exists_spans (fence : Option Fence) (ls : List NumberedLine) :
    ∃ spans : List (List NumberedLine), ls = spans.flatten ∧
      Forall₂ Part.Spans (Part.scan fence ls) spans := by
  have hline {p : Part} {line : Nat} {text : String} {ls : List NumberedLine} {ps : List Part}
      (htext : p.text? = some text)
      (ih : ∃ spans : List (List NumberedLine), ls = spans.flatten ∧ Forall₂ Part.Spans ps spans) :
      ∃ spans : List (List NumberedLine), (line, text) :: ls = spans.flatten ∧
        Forall₂ Part.Spans (p :: ps) spans := by
    obtain ⟨spans, rfl, hspans⟩ := ih
    exact ⟨[(line, text)] :: spans, rfl, .cons (.line htext) hspans⟩
  fun_induction Part.scan fence ls with
  | case1 => exact ⟨[], rfl, .nil⟩
  | case2 line text ls trimmed f ih => exact hline rfl ih
  | case3 line text ls trimmed hask at_ name after hfound ih =>
    obtain ⟨inside, hinside, rfl⟩ := fencedSnippet?_eq_some_iff.1 hfound
    obtain ⟨spans, rfl, hspans⟩ := ih
    exact ⟨((line, text) :: inside) :: spans, rfl, .cons (.shown hask hinside) hspans⟩
  | case4 line text ls trimmed hask hnone ih => exact hline rfl ih
  | case5 line text ls trimmed hask f hopened ih => exact hline rfl ih
  | case6 line text ls trimmed hask hopened ih => exact hline rfl ih

/-! ### Lines in front of others -/

/-- The fence that is open behind a part. -/
def Part.fenceAfter (fence : Option Fence) : Part → Option Fence
  | .verbatim text =>
    match fence with
    | some f => if f.starts (trim text.toList) then none else some f
    | none => Fence.opened? (trim text.toList)
  | .unnamed .. => some .backquotes
  | .prose .. | .shown .. => fence

/-- Lines that end in three backquotes are read without regard to what follows them. -/
theorem Part.scan_append {fence : Option Fence} {ls : List NumberedLine}
    (h : ∀ l ∈ ls.getLast?, trim l.2.toList = Fence.backquotes.sign) (rest : List NumberedLine) :
    Part.scan fence (ls ++ rest) =
      Part.scan fence ls ++ Part.scan ((Part.scan fence ls).foldl Part.fenceAfter fence) rest := by
  have htail {l : NumberedLine} {ls : List NumberedLine}
      (h : ∀ x ∈ (l :: ls).getLast?, trim x.2.toList = Fence.backquotes.sign) :
      ∀ x ∈ ls.getLast?, trim x.2.toList = Fence.backquotes.sign := by
    intro x hx
    refine h x ?_
    rw [List.getLast?_cons, Option.mem_def.1 hx]
    rfl
  fun_induction Part.scan fence ls with
  | case1 => rfl
  | case2 line text ls trimmed f ih =>
    rw [List.cons_append, Part.scan_of_fence]
    exact congrArg _ (ih (htail h))
  | case3 line text ls trimmed hask at_ name after hfound ih =>
    obtain ⟨inside, hinside, rfl⟩ := fencedSnippet?_eq_some_iff.1 hfound
    have hfound' : fencedSnippet? (inside ++ after ++ rest) = some ((at_, name), after ++ rest) :=
      fencedSnippet?_eq_some_iff.2 ⟨inside, hinside, List.append_assoc ..⟩
    have hlast : ∀ x ∈ after.getLast?, trim x.2.toList = Fence.backquotes.sign := by
      intro x hx
      refine htail h x ?_
      rw [List.getLast?_append, Option.mem_def.1 hx]
      rfl
    rw [List.cons_append, Part.scan_of_found hask hfound']
    exact congrArg _ (ih hlast)
  | case4 line text ls trimmed hask hnone ih =>
    -- A look ahead that fails among these lines would have to go past the last of them.
    have hnone' : fencedSnippet? (ls ++ rest) = none := by
      cases hfound : fencedSnippet? (ls ++ rest) with
      | none => rfl
      | some e =>
        obtain ⟨inside, hinside, heq⟩ := fencedSnippet?_eq_some_iff.1 hfound
        rcases List.eq_nil_or_concat' ls with rfl | ⟨init, close, rfl⟩
        · have hsign : trimmed = Fence.backquotes.sign := h (line, text) rfl
          rw [hsign] at hask
          exact absurd hask (by decide)
        · have hclose : trim close.2.toList = Fence.backquotes.sign :=
            htail h close List.getLast?_concat
          rw [List.append_assoc, List.singleton_append] at heq
          obtain ⟨after, hafter⟩ := hinside.prefix_of_append hclose heq
          have hsome := fencedSnippet?_eq_some_iff.2 ⟨inside, hinside, hafter.symm⟩
          cases hnone.symm.trans hsome
    rw [List.cons_append, Part.scan_of_not_found hask hnone']
    exact congrArg _ (ih (htail h))
  | case5 line text ls trimmed hask f hopened ih =>
    have hask' := Bool.eq_false_iff.2 hask
    rw [List.cons_append, Part.scan_of_opened (ls ++ rest) hask' hopened, List.cons_append,
      List.foldl_cons, Part.fenceAfter, hopened]
    exact congrArg _ (ih (htail h))
  | case6 line text ls trimmed hask hopened ih =>
    have hask' := Bool.eq_false_iff.2 hask
    rw [List.cons_append, Part.scan_of_prose (ls ++ rest) hask' hopened]
    exact congrArg _ (ih (htail h))

end AnnotatedHeader.DocBlock
