import AnnotatedHeader.Proofs.DocBlock.Parts
import AnnotatedHeader.Proofs.Numbering.Renumber
import Mathlib.Data.List.Basic

/-! Comments and regions of renumbered lines.

A doc block takes its line from the first of its comment's lines, so that comment must have
one (`DocBlock.ofLines_renumber`); the comments that lines are grouped into do
(`CommentBlock.lines_ne_nil`). Regions remember the lines of their markers. -/
namespace AnnotatedHeader

variable {g : Nat → Nat}

namespace DocBlock

theorem dropWhile_isBlankLine_renumber (ls : List NumberedLine) :
    (ls.map (renumber g)).dropWhile isBlankLine = (ls.dropWhile isBlankLine).map (renumber g) :=
  dropWhile_renumber (fun _ => rfl) ls

theorem fencedSnippet?_renumber (ls : List NumberedLine) :
    fencedSnippet? (ls.map (renumber g)) = renumber g (fencedSnippet? ls) := by
  unfold fencedSnippet?
  rw [dropWhile_isBlankLine_renumber]
  cases ls.dropWhile isBlankLine with
  | nil => rfl
  | cons l rest =>
    obtain ⟨line, text⟩ := l
    simp only [List.map_cons, renumber_numberedLine, dropWhile_isBlankLine_renumber]
    cases snippetName? text.toList with
    | none => rfl
    | some name =>
      cases rest.dropWhile isBlankLine with
      | nil => rfl
      | cons l after =>
        obtain ⟨_, close⟩ := l
        simp only [List.map_cons, renumber_numberedLine]
        split <;> rfl

theorem Part.scan_renumber (fence : Option Fence) (ls : List NumberedLine) :
    Part.scan fence (ls.map (renumber g)) = (Part.scan fence ls).map (renumber g) := by
  fun_induction Part.scan fence ls with
  | case1 => rw [List.map_nil, Part.scan, List.map_nil]
  | case2 line text ls trimmed f ih =>
    rw [List.map_cons, renumber_numberedLine, Part.scan_of_fence]
    exact congrArg _ ih
  | case3 line text ls trimmed hask at_ name after hfound ih =>
    have hfound' : fencedSnippet? (ls.map (renumber g)) =
        some ((g at_, name), after.map (renumber g)) := by
      rw [fencedSnippet?_renumber, hfound]
      rfl
    rw [List.map_cons, renumber_numberedLine, Part.scan_of_found hask hfound']
    exact congrArg _ ih
  | case4 line text ls trimmed hask hnone ih =>
    have hnone' : fencedSnippet? (ls.map (renumber g)) = none := by
      rw [fencedSnippet?_renumber, hnone]
      rfl
    rw [List.map_cons, renumber_numberedLine, Part.scan_of_not_found hask hnone']
    exact congrArg _ ih
  | case5 line text ls trimmed hask f hopened ih =>
    rw [List.map_cons, renumber_numberedLine,
      Part.scan_of_opened _ (Bool.eq_false_iff.2 hask) hopened]
    exact congrArg _ ih
  | case6 line text ls trimmed hask hopened ih =>
    rw [List.map_cons, renumber_numberedLine,
      Part.scan_of_prose _ (Bool.eq_false_iff.2 hask) hopened]
    exact congrArg _ ih

theorem partsOf_renumber (ls : List NumberedLine) :
    partsOf (ls.map (renumber g)) = (partsOf ls).map (renumber g) := by
  unfold partsOf withoutBlankEnds
  rw [← List.map_reverse, dropWhile_isBlankLine_renumber, ← List.map_reverse,
    dropWhile_isBlankLine_renumber, Part.scan_renumber]

theorem segmentsFrom_renumber (run : List String) (ps : List Part) :
    segmentsFrom run (ps.map (renumber g)) = (segmentsFrom run ps).map (renumber g) := by
  have hend (run : List String) :
      (segmentsFrom run []).map (renumber g) = segmentsFrom run [] := by
    rw [segmentsFrom]
    split <;> rfl
  induction ps generalizing run with
  | nil => exact (hend run).symm
  | cons p ps ih =>
    rw [List.map_cons]
    cases p with
    | prose line text =>
      show segmentsFrom run (.prose (g line) text :: ps.map (renumber g)) = _
      rw [segmentsFrom, segmentsFrom, ih]
    | verbatim text =>
      show segmentsFrom run (.verbatim text :: ps.map (renumber g)) = _
      rw [segmentsFrom, segmentsFrom, ih]
    | unnamed line text =>
      show segmentsFrom run (.unnamed (g line) text :: ps.map (renumber g)) = _
      rw [segmentsFrom, segmentsFrom, ih]
    | shown snippet line =>
      show segmentsFrom run (.shown snippet (g line) :: ps.map (renumber g)) = _
      rw [segmentsFrom_shown, segmentsFrom_shown, List.map_append, List.map_cons, hend, ih]
      rfl

theorem references_renumber (p : Part) :
    Part.references (renumber g p) = (Part.references p).map (renumber g) := by
  cases p with
  | prose line text =>
    show (Link.scan text.toList).filterMap (·.reference? (g line)) = List.map _ (List.filterMap _ _)
    rw [List.map_filterMap]
    refine congrArg (fun f => List.filterMap f _) (funext fun link => ?_)
    unfold Link.reference?
    rw [Option.map_map]
    rfl
  | verbatim | unnamed | shown => rfl

theorem flatMap_references_renumber (ps : List Part) :
    (ps.map (renumber g)).flatMap Part.references =
      (ps.flatMap Part.references).map (renumber g) := by
  rw [List.flatMap_map, List.map_flatMap]
  exact congrArg (fun f => List.flatMap f _) (funext references_renumber)

/-- A comment with a line at all starts at one. -/
theorem ofLines_renumber {ls : List NumberedLine} (h : ls ≠ []) :
    ofLines (ls.map (renumber g)) = renumber g (ofLines ls) := by
  cases ls with
  | nil => exact absurd rfl h
  | cons l ls =>
    unfold ofLines
    rw [partsOf_renumber, segmentsFrom_renumber, flatMap_references_renumber]
    rfl

theorem markdown_renumber (b : DocBlock) : (renumber g b).markdown = b.markdown := by
  have hrender (s : Segment) : (renumber g s).render = s.render := by
    cases s <;> rfl
  unfold markdown
  refine congrArg Text.joinLines ?_
  show (b.segments.map (renumber g)).map Segment.render = _
  rw [List.map_map]
  exact List.map_congr_left fun s _ => hrender s

end DocBlock

/-! ### Comment blocks -/

namespace CommentBlock

theorem follower?_renumber (ls : List SourceLine) :
    follower? (ls.map (renumber g)) = follower? ls := by
  unfold follower?
  rw [find?_renumber fun _ => rfl, renumber_option, Option.map_map]
  rfl

theorem groupFrom_renumber (run : List NumberedLine) (ls : List SourceLine) :
    groupFrom (run.map (renumber g)) (ls.map (renumber g)) =
      (groupFrom run ls).map (renumber g) := by
  induction ls generalizing run with
  | nil =>
    rw [List.map_nil, groupFrom, groupFrom, List.isEmpty_map]
    split <;> rfl
  | cons l ls ih =>
    have hnext := follower?_renumber (g := g) (l :: ls)
    have happend (text : String) :
        run.map (renumber g) ++ [(g l.line, text)] = (run ++ [(l.line, text)]).map (renumber g) := by
      rw [List.map_append]
      rfl
    rw [List.map_cons] at hnext ⊢
    rw [groupFrom, groupFrom, hnext, List.isEmpty_map]
    simp only [SourceLine.kind_renumber, SourceLine.line_renumber, happend, ih]
    split
    · rfl
    · split
      · exact ih []
      · split
        · rfl
        · rw [List.map_cons]
          exact congrArg _ (ih [])

theorem group_renumber (lines : List SourceLine) :
    group (lines.map (renumber g)) = (group lines).map (renumber g) := by
  unfold group
  rw [filter_renumber fun _ => rfl]
  exact groupFrom_renumber [] _

theorem lines_ne_nil_of_mem_groupFrom {run : List NumberedLine} {ls : List SourceLine}
    {b : CommentBlock} (h : b ∈ groupFrom run ls) : b.lines ≠ [] := by
  induction ls generalizing run with
  | nil =>
    rw [groupFrom] at h
    split at h
    · cases h
    · rename_i hrun
      rw [List.mem_singleton.1 h]
      simpa using hrun
  | cons l ls ih =>
    rw [groupFrom] at h
    split at h
    · exact ih h
    · split at h
      · exact ih h
      · rename_i hrun
        split at h
        · exact ih h
        · rcases List.mem_cons.1 h with rfl | h
          · simpa using hrun
          · exact ih h

theorem lines_ne_nil {lines : List SourceLine} : ∀ b ∈ group lines, b.lines ≠ [] :=
  fun _ => lines_ne_nil_of_mem_groupFrom

theorem toDoc_renumber {b : CommentBlock} (h : b.lines ≠ []) :
    (renumber g b).toDoc = renumber g b.toDoc := DocBlock.ofLines_renumber h

end CommentBlock

/-! ### Regions -/

namespace Regions

theorem get?_renumber (rs : Regions) (kind : RegionKind) (name : String) :
    (renumber g rs).get? kind name = renumber g (rs.get? kind name) := by
  unfold get?
  exact find?_renumber (fun _ => rfl) rs.closed

theorem ofKind_renumber (rs : Regions) (kind : RegionKind) :
    (renumber g rs).ofKind kind = (rs.ofKind kind).map (renumber g) := by
  unfold ofKind
  have hnames : ∀ a ∈ rs.closed.filter (·.kind = kind), ∀ b ∈ rs.closed.filter (·.kind = kind),
      decide (a.name ≤ b.name) = decide ((renumber g a).name ≤ (renumber g b).name) :=
    fun _ _ _ _ => rfl
  rw [List.map_mergeSort (s := fun a b => a.name ≤ b.name) hnames]
  exact congrArg (List.mergeSort · _) (filter_renumber (fun _ => rfl) rs.closed)

namespace Capture

theorem opened_renumber (c : Capture) (kind : RegionKind) :
    (renumber g c).opened kind = renumber g (c.opened kind) := by
  cases kind <;> rfl

theorem setOpened_renumber (c : Capture) (kind : RegionKind) (o : Option Open) :
    (renumber g c).setOpened kind (renumber g o) = renumber g (c.setOpened kind o) := by
  cases kind <;> rfl

theorem open_renumber (c : Capture) (kind : RegionKind) (name : String) (line : Nat) :
    (renumber g c).open kind name (g line) = renumber g (c.open kind name line) := by
  unfold Capture.open
  rw [opened_renumber]
  cases c.opened kind with
  | some outer => rfl
  | none => exact congrArg Except.ok (setOpened_renumber c kind (some { name, line }))

theorem close_renumber (c : Capture) (kind : RegionKind) (line : Nat) :
    (renumber g c).close kind (g line) = renumber g (c.close kind line) := by
  have hget (o : Open) : (renumber g c).regions.get? kind (renumber g o).name =
      renumber g (c.regions.get? kind o.name) := get?_renumber c.regions kind o.name
  unfold Capture.close
  rw [opened_renumber]
  cases c.opened kind with
  | none => rfl
  | some o =>
    simp only [renumber_option, Option.map_some, hget]
    cases c.regions.get? kind o.name with
    | some first => rfl
    | none =>
      refine congrArg Except.ok ?_
      have hset := setOpened_renumber (g := g) c kind none
      simp only [renumber_option, Option.map_none] at hset
      rw [hset]
      show _ = Capture.mk _ _ (Regions.mk ((c.regions.closed ++ [o.close kind]).map (renumber g)))
      rw [List.map_append]
      rfl

theorem step_renumber (c : Capture) (l : SourceLine) :
    (renumber g c).step (renumber g l) = renumber g (c.step l) := by
  have hcapture (o : Option Open) (text : String) :
      (renumber g o).map (Open.capture text) = renumber g (o.map (Open.capture text)) := by
    cases o <;> rfl
  obtain ⟨snippet, proxy, regions⟩ := c
  obtain ⟨line, offset, text, kind, ignored⟩ := l
  cases kind with
  | marker directive =>
    cases directive with
    | opens kind name => exact open_renumber ..
    | closes kind => exact close_renumber ..
    | inject | ignore | endIgnore => rfl
  | tool text =>
    cases ignored with
    | true => rfl
    | false => exact congrArg Except.ok (congrArg (Capture.mk _ · _) (hcapture proxy text))
  | doc _ =>
    cases ignored with
    | true => rfl
    | false =>
      cases proxy with
      | some o => rfl
      | none => exact congrArg Except.ok (congrArg (Capture.mk · _ _) (hcapture snippet text))
  | code =>
    cases ignored with
    | true => rfl
    | false =>
      exact congrArg Except.ok
        (congrArg₂ (Capture.mk · · _) (hcapture snippet text) (hcapture proxy text))

theorem finish_renumber (c : Capture) : (renumber g c).finish = renumber g c.finish := by
  obtain ⟨snippet, proxy, regions⟩ := c
  cases snippet <;> cases proxy <;> rfl

end Capture

theorem extract_renumber (lines : List SourceLine) :
    extract (lines.map (renumber g)) = renumber g (extract lines) := by
  have hfold (c : Capture) : (lines.map (renumber g)).foldlM Capture.step (renumber g c) =
      renumber g (lines.foldlM Capture.step c) := by
    induction lines generalizing c with
    | nil => rfl
    | cons l ls ih =>
      rw [List.map_cons, List.foldlM_cons, List.foldlM_cons]
      exact Except.bind_renumber (Capture.step_renumber c l) ih
  exact Except.bind_renumber (hfold {}) Capture.finish_renumber

end Regions

end AnnotatedHeader
