import AnnotatedHeader.Proofs.DocBlock.Fences
import AnnotatedHeader.Proofs.DocBlock.Raw
import AnnotatedHeader.Proofs.Numbering.Comments
import AnnotatedHeader.Proofs.Text.Lines

/-! Comments written and read again.

The markdown of a doc block is its comment's lines, blank ends apart, with each snippet fence
written anew. `Rewrites` says what is written for a part and what is read from that, with the
code of an example in the place of the fence that asks for it or not; parts that are read one
by one are then read one behind the other (`Part.scan_rewritten`). The step that needs care is
the look ahead behind a line that asks for a snippet: where it failed it fails again, for the
lines it looked at were written as they stood. `normal_form` is that for a block without code:
its markdown is read as the same block. -/
namespace AnnotatedHeader

open List (Forall₂)
open Text

/-! ### The lines of markdown -/

/-- The lines of `fenced`. -/
def fenceLines (language : String) (code : List String) : List String :=
  ("\x60\x60\x60" ++ language) :: code ++ ["\x60\x60\x60"]

theorem fenced_joinLines (language : String) {code : List String} (h : code ≠ []) :
    fenced language (joinLines code) = joinLines (fenceLines language code) := by
  rw [fenceLines, ← List.singleton_append, List.append_assoc,
    joinLines_append (by simp) (by simp [h]), joinLines_append h (by simp), joinLines_singleton,
    joinLines_singleton]
  have hclose : "\n\x60\x60\x60" = "\n" ++ "\x60\x60\x60" := by decide
  show "\x60\x60\x60" ++ language ++ "\n" ++ joinLines code ++ "\n\x60\x60\x60" = _
  rw [hclose]
  simp only [String.append_assoc]

theorem not_mem_of_mem_fenceLines {language : String} {code : List String}
    (hlanguage : '\n' ∉ language.toList) (hcode : ∀ l ∈ code, '\n' ∉ l.toList) :
    ∀ l ∈ fenceLines language code, '\n' ∉ l.toList := by
  intro l hl
  unfold fenceLines at hl
  rcases List.mem_append.1 hl with hl | hl
  · rcases List.mem_cons.1 hl with rfl | hl
    · simpa [String.toList_append] using hlanguage
    · exact hcode l hl
  · rw [List.mem_singleton.1 hl]
    decide

/-- The lines that an example is rendered as. -/
def Example.texts (x : Example) : List String :=
  match x.code with
  | some code => fenceLines "cpp" (separated code)
  | none => fenceLines "snippet" [x.snippet]

theorem Example.texts_ne_nil (x : Example) : x.texts ≠ [] := by
  unfold texts
  split <;> exact List.cons_ne_nil _ _

theorem Example.joinLines_texts (x : Example) : joinLines x.texts = x.markdown := by
  unfold texts markdown
  cases x.code with
  | some code =>
    exact (fenced_joinLines "cpp" (separated_ne_nil code)).symm.trans
      (by rw [joinLines_separated])
  | none =>
    exact (fenced_joinLines "snippet" (List.cons_ne_nil x.snippet [])).symm.trans
      (by rw [joinLines_singleton])

/-- The lines that a segment is rendered as. -/
def Segment.texts : Segment → List String
  | .markdown text => separated text
  | .shown x => x.texts

theorem Segment.texts_ne_nil (s : Segment) : s.texts ≠ [] := by
  cases s with
  | markdown text => exact separated_ne_nil text
  | shown x => exact x.texts_ne_nil

theorem Segment.joinLines_texts (s : Segment) : joinLines s.texts = s.render := by
  cases s with
  | markdown text => exact joinLines_separated text
  | shown x => exact x.joinLines_texts

theorem DocBlock.markdown_eq (b : DocBlock) :
    b.markdown = joinLines (b.segments.flatMap Segment.texts) := by
  have hne : ∀ texts ∈ b.segments.map Segment.texts, texts ≠ [] :=
    List.forall_mem_map.2 fun s _ => s.texts_ne_nil
  rw [List.flatMap_def, joinLines_flatten hne, List.map_map, markdown]
  exact congrArg joinLines (List.map_congr_left fun s _ => s.joinLines_texts.symm)

/-- What `C` lets the examples of a block have: their code, or none yet. -/
inductive Segment.Filled (C : Option String → Prop) : Segment → Segment → Prop
  | markdown (text : String) : Filled C (.markdown text) (.markdown text)
  | shown {x : Example} {code : Option String} (h : C code) :
      Filled C (.shown x) (.shown { x with code := code })

namespace DocBlock

/-! ### Parts written anew -/

/-- The lines of a part in the markdown of its block. -/
def Part.written : Part → List String
  | .shown snippet _ => fenceLines "snippet" [snippet]
  | .prose _ text | .verbatim text | .unnamed _ text => [text]

/-- Lines of which only the texts matter. -/
def unnumbered (texts : List String) : List NumberedLine := texts.map (Prod.mk 0)

/-- The parts of the code behind the line that opens its fence. -/
def enclosedParts (code : String) : List Part :=
  Part.scan (some .backquotes) (unnumbered (separated code ++ ["\x60\x60\x60"]))

/-- Lines that are written, and the parts read from them. -/
structure Reading where
  texts : List String
  parts : List Part

/-- What may be written for a part, and what is read from it. -/
inductive Rewrites (C : Option String → Prop) : Part → Reading → Prop
  | kept {p : Part} {text : String} (h : p.text? = some text) :
      Rewrites C p ⟨[text], [renumber (fun _ => 0) p]⟩
  | asked {snippet : String} {line : Nat} (h : C none) :
      Rewrites C (.shown snippet line) ⟨fenceLines "snippet" [snippet], [.shown snippet 0]⟩
  | filled {snippet : String} {line : Nat} {code : String} (h : C (some code)) :
      Rewrites C (.shown snippet line)
        ⟨fenceLines "cpp" (separated code), .verbatim "\x60\x60\x60cpp" :: enclosedParts code⟩

variable {C : Option String → Prop}

theorem flatMap_texts_of_end {run : List String} {segments : List Segment}
    (hrun : ∀ text ∈ run, '\n' ∉ text.toList)
    (h : Forall₂ (Segment.Filled C) (segmentsFrom run []) segments) :
    segments.flatMap Segment.texts = run := by
  rw [segmentsFrom] at h
  split at h
  · rename_i hempty
    cases h
    exact (List.isEmpty_iff.1 hempty).symm
  · rename_i hempty
    obtain ⟨s, rest, hs, hrest, rfl⟩ := List.forall₂_cons_left_iff.1 h
    cases hrest
    cases hs
    have hne : run ≠ [] := by simpa using hempty
    rw [List.flatMap_singleton, Segment.texts, separated_joinLines hne hrun]

/-- The markdown of a block is what is written for the parts of its comment. -/
theorem exists_rewrites {run : List String} {ps : List Part} {segments : List Segment}
    (hrun : ∀ text ∈ run, '\n' ∉ text.toList)
    (hps : ∀ p ∈ ps, ∀ text ∈ p.text?, '\n' ∉ text.toList)
    (h : Forall₂ (Segment.Filled C) (segmentsFrom run ps) segments) :
    ∃ es, Forall₂ (Rewrites C) ps es ∧
      segments.flatMap Segment.texts = run ++ es.flatMap Reading.texts := by
  induction ps generalizing run segments with
  | nil => exact ⟨[], .nil, by simpa using flatMap_texts_of_end hrun h⟩
  | cons p ps ih =>
    obtain ⟨hp, hps'⟩ := List.forall_mem_cons.1 hps
    have htext {text : String} (htext : p.text? = some text)
        (h : Forall₂ (Segment.Filled C) (segmentsFrom (run ++ [text]) ps) segments) :
        ∃ es, Forall₂ (Rewrites C) (p :: ps) es ∧
          segments.flatMap Segment.texts = run ++ es.flatMap Reading.texts := by
      have hrun' : ∀ t ∈ run ++ [text], '\n' ∉ t.toList :=
        List.forall_mem_append.2 ⟨hrun, by simpa using hp text htext⟩
      obtain ⟨es, hes, htexts⟩ := ih hrun' hps' h
      exact ⟨_ :: es, .cons (.kept htext) hes, by simpa using htexts⟩
    cases p with
    | prose line text => exact htext rfl (by rwa [segmentsFrom] at h)
    | verbatim text => exact htext rfl (by rwa [segmentsFrom] at h)
    | unnamed line text => exact htext rfl (by rwa [segmentsFrom] at h)
    | shown snippet line =>
      rw [segmentsFrom_shown] at h
      have hfront := (List.forall₂_take_append _ _ _ h.flip).flip
      have hback := (List.forall₂_drop_append _ _ _ h.flip).flip
      obtain ⟨s, rest, hs, hrest, hdrop⟩ := List.forall₂_cons_left_iff.1 hback
      obtain ⟨es, hes, htexts⟩ := ih (by simp) hps' hrest
      have hall : segments.flatMap Segment.texts =
          run ++ (s.texts ++ es.flatMap Reading.texts) := by
        rw [← List.take_append_drop (segmentsFrom run []).length segments, List.flatMap_append,
          flatMap_texts_of_end hrun hfront, hdrop, List.flatMap_cons, htexts, List.nil_append]
      cases hs with
      | @shown _ code hC =>
        cases code with
        | none => exact ⟨_ :: es, .cons (.asked hC) hes, hall⟩
        | some code => exact ⟨_ :: es, .cons (.filled hC) hes, hall⟩

/-! ### Reading them again -/

/-- A part that shows its line is written as it stood. -/
theorem exists_kept {p : Part} {ps : List Part} {readings : List Reading} {text : String}
    (h : Forall₂ (Rewrites C) (p :: ps) readings) (htext : p.text? = some text) :
    ∃ es, readings = ⟨[text], [renumber (fun _ => 0) p]⟩ :: es ∧ Forall₂ (Rewrites C) ps es := by
  obtain ⟨e, es, hfirst, hrest, rfl⟩ := List.forall₂_cons_left_iff.1 h
  cases hfirst with
  | kept hkept =>
    cases hkept.symm.trans htext
    exact ⟨es, rfl, hrest⟩
  | asked | filled => cases htext

/-- The lines that a look ahead passes were written as they stood. -/
theorem exists_append_of_rewrites {f : Fence} {ls : List NumberedLine} {es : List Reading}
    {inside after : List NumberedLine} {close : NumberedLine}
    (h : Forall₂ (Rewrites C) (Part.scan (some f) ls) es)
    (htexts : unnumbered (es.flatMap Reading.texts) = inside ++ close :: after)
    (hinside : ∀ l ∈ inside, f.starts (trim l.2.toList) = false) :
    ∃ after, ls.map (renumber fun _ => 0) = inside ++ close :: after := by
  induction inside generalizing ls es with
  | nil =>
    cases ls with
    | nil =>
      rw [Part.scan] at h
      cases h
      cases htexts
    | cons l ls =>
      rw [Part.scan_of_fence] at h
      obtain ⟨es, rfl, -⟩ := exists_kept h rfl
      cases htexts
      exact ⟨ls.map (renumber fun _ => 0), rfl⟩
  | cons first inside ih =>
    obtain ⟨hstarts, hinside'⟩ := List.forall_mem_cons.1 hinside
    cases ls with
    | nil =>
      rw [Part.scan] at h
      cases h
      cases htexts
    | cons l ls =>
      rw [Part.scan_of_fence] at h
      obtain ⟨es, rfl, hrest⟩ := exists_kept h rfl
      obtain ⟨rfl, htail⟩ := List.cons_eq_cons.1 htexts
      rw [if_neg (by simp [hstarts])] at hrest
      obtain ⟨after, hafter⟩ := ih hrest htail hinside'
      exact ⟨after, congrArg (List.cons _) hafter⟩

/-- A look ahead that failed fails again. -/
theorem fencedSnippet?_rewritten {ls : List NumberedLine} {es : List Reading}
    (h : Forall₂ (Rewrites C) (Part.scan (some .backquotes) ls) es)
    (hnone : fencedSnippet? ls = none) :
    fencedSnippet? (unnumbered (es.flatMap Reading.texts)) = none := by
  cases hfound : fencedSnippet? (unnumbered (es.flatMap Reading.texts)) with
  | none => rfl
  | some e =>
    obtain ⟨inside, hinside, htexts⟩ := fencedSnippet?_eq_some_iff.1 hfound
    obtain ⟨init, close, rfl⟩ := (List.eq_nil_or_concat' inside).resolve_left hinside.ne_nil
    rw [List.append_assoc] at htexts
    obtain ⟨after, hafter⟩ := exists_append_of_rewrites h htexts hinside.not_starts
    have hsome : fencedSnippet? (ls.map (renumber fun _ => 0)) = some (e.1, after) :=
      fencedSnippet?_eq_some_iff.2 ⟨_, hinside, by rw [hafter, List.append_assoc]; rfl⟩
    rw [fencedSnippet?_renumber, hnone] at hsome
    cases hsome

/-- Code that is shown leaves its fence, and those it opens itself, as it is read. -/
theorem scan_fenced (code : String) (texts : List String) :
    Part.scan none (unnumbered (fenceLines "cpp" (separated code) ++ texts)) =
      .verbatim "\x60\x60\x60cpp" :: (enclosedParts code ++
        Part.scan ((enclosedParts code).foldl Part.fenceAfter (some .backquotes))
          (unnumbered texts)) := by
  have hlast : ∀ l ∈ (unnumbered (separated code ++ ["\x60\x60\x60"])).getLast?,
      trim l.2.toList = Fence.backquotes.sign := by
    intro l hl
    rw [unnumbered, List.map_append, List.map_singleton, List.getLast?_concat] at hl
    cases hl
    decide
  have hlines : unnumbered (fenceLines "cpp" (separated code) ++ texts) =
      (0, "\x60\x60\x60cpp") ::
        (unnumbered (separated code ++ ["\x60\x60\x60"]) ++ unnumbered texts) := by
    simp [unnumbered, fenceLines]
  have hopened : Fence.opened? (trim "\x60\x60\x60cpp".toList) = some .backquotes := by decide
  rw [hlines, Part.scan_of_opened _ (by decide) hopened, Part.scan_append hlast]
  rfl

/-- Parts that are read one by one are read one behind the other. -/
theorem Part.scan_rewritten
    (hC : ∀ code, C (some code) →
      (enclosedParts code).foldl Part.fenceAfter (some .backquotes) = none)
    (fence : Option Fence) (ls : List NumberedLine) :
    ∀ es, Forall₂ (Rewrites C) (Part.scan fence ls) es →
      Part.scan fence (unnumbered (es.flatMap Reading.texts)) = es.flatMap Reading.parts := by
  fun_induction Part.scan fence ls with
  | case1 =>
    intro es h
    cases h
    rw [List.flatMap_nil, unnumbered, List.map_nil, Part.scan, List.flatMap_nil]
  | case2 line text ls trimmed f ih =>
    intro _ h
    obtain ⟨es, rfl, hrest⟩ := exists_kept h rfl
    show Part.scan (some f) ((0, text) :: unnumbered (es.flatMap Reading.texts)) = _
    rw [Part.scan_of_fence]
    exact congrArg _ (ih es hrest)
  | case3 line text ls trimmed hask at_ name after hfound ih =>
    intro _ h
    cases h with
    | @cons _ _ _ es hfirst hrest =>
      cases hfirst with
      | kept htext => cases htext
      | asked hC' =>
        obtain ⟨_, hinside, -⟩ := fencedSnippet?_eq_some_iff.1 hfound
        have hasked : fencedSnippet?
            ((0, name) :: unnumbered ("\x60\x60\x60" :: es.flatMap Reading.texts)) =
              some ((0, name), unnumbered (es.flatMap Reading.texts)) :=
          fencedSnippet?_of_name hinside.isRegionName 0 0 _
        show Part.scan none ((0, "\x60\x60\x60snippet") :: (0, name) ::
          unnumbered ("\x60\x60\x60" :: es.flatMap Reading.texts)) = _
        rw [Part.scan_of_found (by decide) hasked]
        exact congrArg _ (ih es hrest)
      | @filled _ _ code hcode =>
        show Part.scan none (unnumbered (fenceLines "cpp" (separated code) ++
          es.flatMap Reading.texts)) = _
        rw [scan_fenced, hC code hcode, ih es hrest]
        rfl
  | case4 line text ls trimmed hask hnone ih =>
    intro _ h
    obtain ⟨es, rfl, hrest⟩ := exists_kept h rfl
    show Part.scan none ((0, text) :: unnumbered (es.flatMap Reading.texts)) = _
    rw [Part.scan_of_not_found hask (fencedSnippet?_rewritten hrest hnone)]
    exact congrArg _ (ih es hrest)
  | case5 line text ls trimmed hask f hopened ih =>
    intro _ h
    obtain ⟨es, rfl, hrest⟩ := exists_kept h rfl
    show Part.scan none ((0, text) :: unnumbered (es.flatMap Reading.texts)) = _
    rw [Part.scan_of_opened _ (Bool.eq_false_iff.2 hask) hopened]
    exact congrArg _ (ih es hrest)
  | case6 line text ls trimmed hask hopened ih =>
    intro _ h
    obtain ⟨es, rfl, hrest⟩ := exists_kept h rfl
    show Part.scan none ((0, text) :: unnumbered (es.flatMap Reading.texts)) = _
    rw [Part.scan_of_prose _ (Bool.eq_false_iff.2 hask) hopened]
    exact congrArg _ (ih es hrest)

/-! ### Blank ends -/

/-- Texts that are blank at an end only where the lines are. -/
structure EndsAlike (ls : List NumberedLine) (texts : List String) : Prop where
  empty : texts = [] ↔ ls = []
  first : ∀ text ∈ texts.head?, isBlank text.toList → ∃ l ∈ ls.head?, isBlankLine l
  last : ∀ text ∈ texts.getLast?, isBlank text.toList → ∃ l ∈ ls.getLast?, isBlankLine l

theorem EndsAlike.append {ls ls' : List NumberedLine} {texts texts' : List String}
    (h : EndsAlike ls texts) (h' : EndsAlike ls' texts') :
    EndsAlike (ls ++ ls') (texts ++ texts') where
  empty := by rw [List.append_eq_nil_iff, List.append_eq_nil_iff, h.empty, h'.empty]
  first := by
    intro text htext hblank
    rw [List.head?_append, Option.mem_def, Option.or_eq_some_iff] at htext
    rw [List.head?_append]
    rcases htext with htext | ⟨hnone, htext⟩
    · obtain ⟨l, hl, hblank⟩ := h.first text htext hblank
      exact ⟨l, by rw [Option.mem_def.1 hl]; rfl, hblank⟩
    · have hnil := h.empty.1 (List.head?_eq_none_iff.1 hnone)
      rw [hnil]
      exact h'.first text htext hblank
  last := by
    intro text htext hblank
    rw [List.getLast?_append, Option.mem_def, Option.or_eq_some_iff] at htext
    rw [List.getLast?_append]
    rcases htext with htext | ⟨hnone, htext⟩
    · obtain ⟨l, hl, hblank⟩ := h'.last text htext hblank
      exact ⟨l, by rw [Option.mem_def.1 hl]; rfl, hblank⟩
    · have hnil := h'.empty.1 (List.getLast?_eq_none_iff.1 hnone)
      rw [hnil]
      exact h.last text htext hblank

theorem endsAlike_of_visible {ls : List NumberedLine} {texts : List String} (hls : ls ≠ [])
    (htexts : texts ≠ []) (first : ∀ text ∈ texts.head?, isBlank text.toList = false)
    (last : ∀ text ∈ texts.getLast?, isBlank text.toList = false) : EndsAlike ls texts where
  empty := iff_of_false htexts hls
  first text htext hblank := absurd hblank (by simp [first text htext])
  last text htext hblank := absurd hblank (by simp [last text htext])

theorem withoutBlankEnds_unnumbered {texts : List String}
    (first : ∀ text ∈ texts.head?, isBlank text.toList = false)
    (last : ∀ text ∈ texts.getLast?, isBlank text.toList = false) :
    withoutBlankEnds (unnumbered texts) = unnumbered texts := by
  refine dropWhile_ends_eq_self (fun l hl => ?_) fun l hl => ?_
  · rw [unnumbered, List.head?_map] at hl
    obtain ⟨text, htext, rfl⟩ := Option.map_eq_some_iff.1 hl
    exact first text htext
  · rw [unnumbered, List.getLast?_map] at hl
    obtain ⟨text, htext, rfl⟩ := Option.map_eq_some_iff.1 hl
    exact last text htext

theorem isBlank_of_mem_ends_fenceLines (language : String) (code : List String)
    (hlanguage : isBlank ("\x60\x60\x60" ++ language).toList = false) :
    (∀ text ∈ (fenceLines language code).head?, isBlank text.toList = false) ∧
      ∀ text ∈ (fenceLines language code).getLast?, isBlank text.toList = false := by
  constructor
  · rintro _ ⟨⟩
    exact hlanguage
  · intro text htext
    rw [fenceLines, List.getLast?_concat] at htext
    cases htext
    decide

theorem endsAlike_of_rewrites {p : Part} {span : List NumberedLine} {e : Reading}
    (hspan : p.Spans span) (h : Rewrites C p e) : EndsAlike span e.texts := by
  cases h with
  | kept htext =>
    cases hspan with
    | line htext' =>
      cases htext.symm.trans htext'
      exact ⟨by simp, by simp [isBlankLine], by simp [isBlankLine]⟩
    | shown => cases htext
  | asked =>
    cases hspan with
    | line htext => cases htext
    | shown =>
      obtain ⟨first, last⟩ := isBlank_of_mem_ends_fenceLines "snippet" [_] (by decide)
      exact endsAlike_of_visible (List.cons_ne_nil _ _) (List.cons_ne_nil _ _) first last
  | filled =>
    cases hspan with
    | line htext => cases htext
    | shown =>
      obtain ⟨first, last⟩ := isBlank_of_mem_ends_fenceLines "cpp" (separated _) (by decide)
      exact endsAlike_of_visible (List.cons_ne_nil _ _) (List.cons_ne_nil _ _) first last

theorem endsAlike_flatten {ps : List Part} {spans : List (List NumberedLine)} {es : List Reading}
    (hspans : Forall₂ Part.Spans ps spans) (h : Forall₂ (Rewrites C) ps es) :
    EndsAlike spans.flatten (es.flatMap Reading.texts) := by
  induction hspans generalizing es with
  | nil =>
    cases h
    exact ⟨by simp, by simp, by simp⟩
  | cons hspan _ ih =>
    cases h with
    | cons hfirst hrest => exact (endsAlike_of_rewrites hspan hfirst).append (ih hrest)

/-! ### Blocks -/

theorem mem_of_mem_withoutBlankEnds {ls : List NumberedLine} {l : NumberedLine}
    (h : l ∈ withoutBlankEnds ls) : l ∈ ls := by
  have hkept := (List.dropWhile_sublist _).subset h
  exact List.mem_reverse.1 ((List.dropWhile_sublist _).subset (List.mem_reverse.1 hkept))

theorem text_unbroken {ps : List Part} {spans : List (List NumberedLine)}
    (hspans : Forall₂ Part.Spans ps spans) (hls : ∀ l ∈ spans.flatten, '\n' ∉ l.2.toList) :
    ∀ p ∈ ps, ∀ text ∈ p.text?, '\n' ∉ text.toList := by
  induction hspans with
  | nil => simp
  | cons hspan _ ih =>
    rw [List.flatten_cons] at hls
    obtain ⟨hfirst, hrest⟩ := List.forall_mem_append.1 hls
    refine List.forall_mem_cons.2 ⟨fun text htext => ?_, ih hrest⟩
    cases hspan with
    | line htext' =>
      cases htext'.symm.trans htext
      exact hfirst _ (List.mem_singleton_self _)
    | shown => cases htext

/-- What holds of the comment's lines, of the lines written for a snippet's name and of those of
code holds of all that is written. -/
theorem forall_texts_of_rewrites {P : String → Prop} {ps : List Part}
    {spans : List (List NumberedLine)} {es : List Reading}
    (hspans : Forall₂ Part.Spans ps spans) (h : Forall₂ (Rewrites C) ps es)
    (hkept : ∀ l ∈ spans.flatten, P l.2)
    (hasked : C none → ∀ snippet : String, isRegionName snippet.toList = true →
      ∀ text ∈ fenceLines "snippet" [snippet], P text)
    (hfilled : ∀ code, C (some code) → ∀ text ∈ fenceLines "cpp" (separated code), P text) :
    ∀ text ∈ es.flatMap Reading.texts, P text := by
  induction hspans generalizing es with
  | nil =>
    cases h
    simp
  | cons hspan _ ih =>
    cases h with
    | cons hfirst hrest =>
      rw [List.flatten_cons] at hkept
      obtain ⟨hline, hkept'⟩ := List.forall_mem_append.1 hkept
      rw [List.flatMap_cons]
      refine List.forall_mem_append.2 ⟨?_, ih hrest hkept'⟩
      cases hfirst with
      | kept htext =>
        cases hspan with
        | line htext' =>
          cases htext'.symm.trans htext
          simpa using hline _ (List.mem_singleton_self _)
        | shown => cases htext
      | asked hC =>
        cases hspan with
        | line htext => cases htext
        | shown _ hinside => exact hasked hC _ hinside.isRegionName
      | filled hC => exact hfilled _ hC

theorem texts_unbroken {ps : List Part} {spans : List (List NumberedLine)} {es : List Reading}
    (hspans : Forall₂ Part.Spans ps spans) (h : Forall₂ (Rewrites C) ps es)
    (hls : ∀ l ∈ spans.flatten, '\n' ∉ l.2.toList) :
    ∀ text ∈ es.flatMap Reading.texts, '\n' ∉ text.toList := by
  refine forall_texts_of_rewrites hspans h hls (fun _ snippet hname => ?_) fun code _ => ?_
  · have hunbroken := not_mem_of_isRegionName hname
    exact not_mem_of_mem_fenceLines (by decide) (by simpa using hunbroken)
  · exact not_mem_of_mem_fenceLines (by decide) fun _ => not_mem_of_mem_separated

/-- The markdown of a block is what is written for its comment, between its blank ends. -/
theorem exists_written {ls : List NumberedLine} {b : DocBlock} (hls : ∀ l ∈ ls, '\n' ∉ l.2.toList)
    (hb : Forall₂ (Segment.Filled C) (ofLines ls).segments b.segments) :
    ∃ spans es, withoutBlankEnds ls = spans.flatten ∧ Forall₂ Part.Spans (partsOf ls) spans ∧
      Forall₂ (Rewrites C) (partsOf ls) es ∧
      b.segments.flatMap Segment.texts = es.flatMap Reading.texts := by
  obtain ⟨spans, hkept, hspans⟩ := Part.exists_spans none (withoutBlankEnds ls)
  have hunbroken : ∀ l ∈ spans.flatten, '\n' ∉ l.2.toList := by
    intro l hl
    rw [← hkept] at hl
    exact hls l (mem_of_mem_withoutBlankEnds hl)
  obtain ⟨es, hes, htexts⟩ := exists_rewrites (by simp) (text_unbroken hspans hunbroken) hb
  exact ⟨spans, es, hkept, hspans, hes, by rwa [List.nil_append] at htexts⟩

/-- What is written begins and ends with a line that is not blank. -/
theorem not_isBlank_ends {ls : List NumberedLine} {ps : List Part}
    {spans : List (List NumberedLine)} {es : List Reading}
    (hkept : withoutBlankEnds ls = spans.flatten) (hspans : Forall₂ Part.Spans ps spans)
    (h : Forall₂ (Rewrites C) ps es) :
    (∀ text ∈ (es.flatMap Reading.texts).head?, isBlank text.toList = false) ∧
      ∀ text ∈ (es.flatMap Reading.texts).getLast?, isBlank text.toList = false := by
  have hbetween : Between isBlankLine ls spans.flatten := hkept ▸ between_dropWhile isBlankLine ls
  have hends := endsAlike_flatten hspans h
  constructor
  · intro text htext
    refine Bool.eq_false_iff.2 fun hblank => ?_
    obtain ⟨l, hl, hl'⟩ := hends.first text htext hblank
    exact absurd hl' (by simp [hbetween.first l hl])
  · intro text htext
    refine Bool.eq_false_iff.2 fun hblank => ?_
    obtain ⟨l, hl, hl'⟩ := hends.last text htext hblank
    exact absurd hl' (by simp [hbetween.last l hl])

/-- What is written for a comment is read part by part. -/
theorem exists_reading
    (hC : ∀ code, C (some code) →
      (enclosedParts code).foldl Part.fenceAfter (some .backquotes) = none)
    {ls again : List NumberedLine} {b : DocBlock} (hls : ∀ l ∈ ls, '\n' ∉ l.2.toList)
    (hb : Forall₂ (Segment.Filled C) (ofLines ls).segments b.segments)
    (hagain : again.map Prod.snd = separated b.markdown) :
    ∃ es, Forall₂ (Rewrites C) (partsOf ls) es ∧
      b.markdown = joinLines (es.flatMap Reading.texts) ∧
      (partsOf again).map (renumber fun _ => 0) = es.flatMap Reading.parts := by
  obtain ⟨spans, es, hkept, hspans, hes, htexts⟩ := exists_written hls hb
  refine ⟨es, hes, by rw [b.markdown_eq, htexts], ?_⟩
  have hlines : again.map (renumber fun _ => 0) = unnumbered (separated b.markdown) := by
    rw [← hagain, unnumbered, List.map_map]
    rfl
  rw [← partsOf_renumber, hlines, b.markdown_eq, htexts]
  by_cases hnil : es.flatMap Reading.texts = []
  · -- A comment of blank lines has no parts, and neither has the empty line written for it.
    have hspans' := (endsAlike_flatten hspans hes).empty.1 hnil
    rw [partsOf, hkept, hspans', Part.scan] at hes
    cases hes
    have hempty : withoutBlankEnds (unnumbered (separated (joinLines []))) = [] := by decide
    rw [hnil, partsOf, hempty, Part.scan, List.flatMap_nil]
  · obtain ⟨hfirst, hlast⟩ := not_isBlank_ends hkept hspans hes
    have hunbroken : ∀ l ∈ spans.flatten, '\n' ∉ l.2.toList := by
      intro l hl
      rw [← hkept] at hl
      exact hls l (mem_of_mem_withoutBlankEnds hl)
    rw [separated_joinLines hnil (texts_unbroken hspans hes hunbroken), partsOf,
      withoutBlankEnds_unnumbered hfirst hlast]
    exact Part.scan_rewritten hC none _ es hes

/-! ### The normal form -/

theorem rewrites_none {ps : List Part} {es : List Reading}
    (h : Forall₂ (Rewrites (· = none)) ps es) :
    es.flatMap Reading.texts = ps.flatMap Part.written ∧
      es.flatMap Reading.parts = ps.map (renumber fun _ => 0) := by
  induction h with
  | nil => exact ⟨rfl, rfl⟩
  | @cons p e ps es hfirst _ ih =>
    obtain ⟨htexts, hparts⟩ := ih
    have he : e.texts = p.written ∧ e.parts = [renumber (fun _ => 0) p] := by
      cases hfirst with
      | kept htext =>
        refine ⟨?_, rfl⟩
        cases p with
        | prose | verbatim | unnamed =>
          cases htext
          rfl
        | shown => cases htext
      | asked => exact ⟨rfl, rfl⟩
      | filled hC => cases hC
    rw [List.flatMap_cons, List.flatMap_cons, List.flatMap_cons, htexts, hparts, he.1, he.2]
    exact ⟨rfl, rfl⟩

theorem filled_none {b : DocBlock} (h : b.Raw) :
    Forall₂ (Segment.Filled (· = none)) b.segments b.segments := by
  refine List.forall₂_same.2 fun s hs => ?_
  cases s with
  | markdown text => exact .markdown text
  | shown x =>
    have hcode := h.examples x (mem_examples.2 hs)
    obtain ⟨snippet, line, code⟩ := x
    cases hcode
    exact .shown (x := ⟨snippet, line, none⟩) rfl

/-- The markdown of a comment's block is the comment's lines between its blank ends, in order,
with three lines for each snippet fence: the line that opens it, the name and the line that
closes it. Read again it is the same block, numbers of lines apart. -/
theorem normal_form {ls : List NumberedLine} (hls : ∀ l ∈ ls, '\n' ∉ l.2.toList) :
    (∃ spans : List (List NumberedLine), Between isBlankLine ls spans.flatten ∧
      Forall₂ Part.Spans (partsOf ls) spans ∧
      (ofLines ls).markdown = joinLines ((partsOf ls).flatMap Part.written)) ∧
    ∀ again : List NumberedLine, again.map Prod.snd = separated (ofLines ls).markdown →
      renumber (fun _ => 0) (ofLines again) = renumber (fun _ => 0) (ofLines ls) ∧
        (ofLines again).markdown = (ofLines ls).markdown := by
  have hread {again : List NumberedLine}
      (hagain : again.map Prod.snd = separated (ofLines ls).markdown) :
      (ofLines ls).markdown = joinLines ((partsOf ls).flatMap Part.written) ∧
        (partsOf again).map (renumber fun _ => 0) = (partsOf ls).map (renumber fun _ => 0) := by
    obtain ⟨es, hes, hmarkdown, hparts⟩ :=
      exists_reading (fun _ hC => by cases hC) hls (filled_none (raw_ofLines ls)) hagain
    obtain ⟨htexts, hsame⟩ := rewrites_none hes
    exact ⟨htexts ▸ hmarkdown, hparts.trans hsame⟩
  constructor
  · obtain ⟨spans, hkept, hspans⟩ := Part.exists_spans none (withoutBlankEnds ls)
    have hlines : (unnumbered (separated (ofLines ls).markdown)).map Prod.snd =
        separated (ofLines ls).markdown := by
      simp [unnumbered, Function.comp_def]
    exact ⟨spans, hkept ▸ between_dropWhile isBlankLine ls, hspans, (hread hlines).1⟩
  · intro again hagain
    have hparts := (hread hagain).2
    have hblock : renumber (fun _ => 0) (ofLines again) = renumber (fun _ => 0) (ofLines ls) := by
      show DocBlock.mk 0 ((segmentsFrom [] (partsOf again)).map _)
          (((partsOf again).flatMap Part.references).map _) =
        DocBlock.mk 0 ((segmentsFrom [] (partsOf ls)).map _)
          (((partsOf ls).flatMap Part.references).map _)
      rw [← segmentsFrom_renumber, ← segmentsFrom_renumber, ← flatMap_references_renumber,
        ← flatMap_references_renumber, hparts]
    have hmarkdown := congrArg markdown hblock
    rw [markdown_renumber, markdown_renumber] at hmarkdown
    exact ⟨hblock, hmarkdown⟩

/-- A snippet fence with a blank line in it, and one that names no snippet. -/
def twoFences : List NumberedLine :=
  [(3, " "), (4, "See [\x60struct: S\x60]()"), (5, "\x60\x60\x60 snippet"), (6, ""), (7, "// demo"),
    (8, " \x60\x60\x60"), (9, "\x60\x60\x60snippet"), (10, "no name"), (11, "\x60\x60\x60"),
    (12, "")]

theorem normal_form_twoFences :
    (∀ l ∈ twoFences, '\n' ∉ l.2.toList) ∧
      ∀ again : List NumberedLine,
        again.map Prod.snd = ["See [\x60struct: S\x60]()", "\x60\x60\x60snippet", "demo",
          "\x60\x60\x60", "\x60\x60\x60snippet", "no name", "\x60\x60\x60"] →
        renumber (fun _ => 0) (ofLines again) = renumber (fun _ => 0) (ofLines twoFences) ∧
          (ofLines again).markdown = (ofLines twoFences).markdown := by
  have hls : ∀ l ∈ twoFences, '\n' ∉ l.2.toList := by decide
  have hlines : separated (ofLines twoFences).markdown = ["See [\x60struct: S\x60]()",
      "\x60\x60\x60snippet", "demo", "\x60\x60\x60", "\x60\x60\x60snippet", "no name",
      "\x60\x60\x60"] := by
    have hparts : partsOf twoFences = [.prose 4 "See [\x60struct: S\x60]()", .shown "demo" 7,
        .unnamed 9 "\x60\x60\x60snippet", .verbatim "no name", .verbatim "\x60\x60\x60"] := by
      decide +kernel
    obtain ⟨-, -, -, hmarkdown⟩ := (normal_form hls).1
    rw [hmarkdown, hparts]
    exact separated_joinLines (by decide) (by decide)
  refine ⟨hls, fun again hagain => ?_⟩
  exact (normal_form hls).2 again (hagain.trans hlines.symm)

end DocBlock

end AnnotatedHeader
