import AnnotatedHeader.Proofs.Document.OfLines
import AnnotatedHeader.Proofs.IgnoredText
import AnnotatedHeader.Proofs.Numbering.Documents
import AnnotatedHeader.Proofs.Text.Ends
import AnnotatedHeader.Proofs.Text.Lines

/-! Headers with other numbers for their lines.

The lines of a header are numbered in a row and hold no line feed. So the code of a region
stands between its two markers (`Regions.within_of_extract`), and all that is counted while a
header is read is counted from one of its lines to another: where `g` increases and keeps the
steps from each line to the next, the outcome for the renumbered lines is the outcome,
renumbered (`Document.result_ofRaws_renumber`). -/
namespace AnnotatedHeader

variable {g : Nat → Nat}

/-! ### Lines in a row -/

namespace SourceLine

/-- No line feed stands in what is read from the line. -/
structure Unbroken (l : SourceLine) : Prop where
  text : '\n' ∉ l.text.toList
  tool : ∀ t, l.kind = .tool t → '\n' ∉ t.toList

end SourceLine

namespace Region

/-- The region lies between `first` and `next`: its markers too, with its lines, which hold
no line feed, between them. -/
structure Within (first next : Nat) (r : Region) : Prop where
  first_le : first ≤ r.line
  lt_next : r.line + r.lines.length + 1 < next
  unbroken : ∀ l ∈ r.lines, '\n' ∉ l.toList

theorem Within.mono {first next next' : Nat} {r : Region} (h : r.Within first next)
    (hnext : next ≤ next') : r.Within first next' :=
  ⟨h.first_le, Nat.lt_of_lt_of_le h.lt_next hnext, h.unbroken⟩

theorem length_dedent_le (ls : List (List Char)) : (dedent ls).length ≤ ls.length := by
  have hend : (ls.reverse.dropWhile Text.isBlank).reverse.length ≤ ls.length := by
    rw [List.length_reverse]
    exact Nat.le_trans (List.dropWhile_sublist _).length_le (Nat.le_of_eq List.length_reverse)
  unfold dedent
  rw [List.length_map]
  exact Nat.le_trans (List.dropWhile_sublist _).length_le hend

/-- A line that is moved left is part of the line. -/
theorem shifted_isInfix (n : Nat) (l : List Char) : shifted n l <:+: l := by
  unfold shifted
  split
  · exact List.nil_infix
  · exact (Text.trimEnd_isPrefix _).isInfix.trans (List.drop_suffix n l).isInfix

theorem exists_subset_of_mem_dedent {ls : List (List Char)} {l : List Char} (h : l ∈ dedent ls) :
    ∃ l' ∈ ls, l ⊆ l' := by
  obtain ⟨l', hl', rfl⟩ := List.mem_map.1 h
  refine ⟨l', ?_, (shifted_isInfix _ l').subset⟩
  have hkept := (List.dropWhile_sublist _).subset hl'
  exact List.mem_reverse.1 ((List.dropWhile_sublist _).subset (List.mem_reverse.1 hkept))

end Region

namespace Regions

/-- What is open lies between `first` and `next`, its lines behind its marker. -/
structure Open.Within (first next : Nat) (o : Open) : Prop where
  first_le : first ≤ o.line
  lt_next : o.line + o.lines.length < next
  unbroken : ∀ l ∈ o.lines, '\n' ∉ l.toList

namespace Open.Within
variable {first next : Nat} {o : Open}

theorem step (h : o.Within first next) : o.Within first (next + 1) :=
  ⟨h.first_le, Nat.lt_succ_of_lt h.lt_next, h.unbroken⟩

theorem capture (h : o.Within first next) {text : String} (htext : '\n' ∉ text.toList) :
    (o.capture text).Within first (next + 1) where
  first_le := h.first_le
  lt_next := by
    have hlt := h.lt_next
    simp only [Open.capture, List.length_append, List.length_singleton]
    omega
  unbroken := by
    intro l hl
    rcases List.mem_append.1 hl with hl | hl
    · exact h.unbroken l hl
    · rw [List.mem_singleton.1 hl]
      exact htext

theorem close (h : o.Within first next) (kind : RegionKind) :
    (o.close kind).Within first (next + 1) where
  first_le := h.first_le
  lt_next := by
    have hlt := h.lt_next
    have hle := Region.length_dedent_le (o.lines.map String.toList)
    rw [List.length_map] at hle
    simp only [Open.close, List.length_map]
    omega
  unbroken := by
    intro l hl
    obtain ⟨cs, hcs, rfl⟩ := List.mem_map.1 hl
    obtain ⟨cs', hcs', hsubset⟩ := Region.exists_subset_of_mem_dedent hcs
    obtain ⟨l', hl', rfl⟩ := List.mem_map.1 hcs'
    rw [String.toList_ofList]
    exact fun hmem => h.unbroken l' hl' (hsubset hmem)

end Open.Within

namespace Capture

/-- All that has been captured lies between `first` and `next`. -/
structure Within (first next : Nat) (c : Capture) : Prop where
  snippet : ∀ o, c.snippet = some o → o.Within first next
  proxy : ∀ o, c.proxy = some o → o.Within first next
  closed : ∀ r ∈ c.regions.closed, r.Within first next

namespace Within
variable {first next : Nat} {c c' : Capture}

theorem opened (h : c.Within first next) {kind : RegionKind} {o : Open}
    (ho : c.opened kind = some o) : o.Within first next := by
  cases kind with
  | snippet => exact h.snippet o ho
  | proxy => exact h.proxy o ho

theorem setOpened (h : c.Within first next) (kind : RegionKind) {o : Option Open}
    (ho : ∀ o', o = some o' → o'.Within first next) : (c.setOpened kind o).Within first next := by
  cases kind with
  | snippet => exact ⟨ho, h.proxy, h.closed⟩
  | proxy => exact ⟨h.snippet, ho, h.closed⟩

/-- What lies before a line lies before the line behind it. -/
theorem skip (h : c.Within first next) : c.Within first (next + 1) where
  snippet o ho := (h.snippet o ho).step
  proxy o ho := (h.proxy o ho).step
  closed r hr := (h.closed r hr).mono (Nat.le_succ next)

theorem opens (h : c.Within first next) {kind : RegionKind} {name : String} (hfirst : first ≤ next)
    (hopen : c.open kind name next = .ok c') : c'.Within first (next + 1) := by
  unfold Capture.open at hopen
  split at hopen <;> cases hopen
  refine h.skip.setOpened kind ?_
  rintro o ⟨⟩
  exact ⟨hfirst, Nat.lt_succ_self next, fun l hl => by cases hl⟩

theorem closes (h : c.Within first next) {kind : RegionKind} {line : Nat}
    (hclose : c.close kind line = .ok c') : c'.Within first (next + 1) := by
  unfold Capture.close at hclose
  split at hclose
  · cases hclose
  rename_i o ho
  split at hclose <;> cases hclose
  have hnone : (c.setOpened kind none).Within first (next + 1) :=
    h.skip.setOpened kind fun o ho => by cases ho
  refine ⟨hnone.snippet, hnone.proxy, fun r hr => ?_⟩
  rcases List.mem_append.1 hr with hr | hr
  · exact h.skip.closed r hr
  · rw [List.mem_singleton.1 hr]
    exact (h.opened ho).close kind

theorem capture {o? : Option Open} (h : ∀ o, o? = some o → o.Within first next) {text : String}
    (htext : '\n' ∉ text.toList) :
    ∀ o, o?.map (·.capture text) = some o → o.Within first (next + 1) := by
  intro o ho
  obtain ⟨o', ho', rfl⟩ := Option.map_eq_some_iff.1 ho
  exact (h o' ho').capture htext

theorem step (h : c.Within first next) {l : SourceLine} (hline : l.line = next)
    (hfirst : first ≤ next) (hl : l.Unbroken) (hstep : c.step l = .ok c') :
    c'.Within first (next + 1) := by
  have hskip := h.skip
  unfold Capture.step at hstep
  split at hstep
  · rw [hline] at hstep
    exact h.opens hfirst hstep
  · exact h.closes hstep
  · cases hstep
    exact hskip
  · rename_i text hkind
    cases hstep
    split
    · exact ⟨hskip.snippet, capture h.proxy (hl.tool text hkind), hskip.closed⟩
    · exact hskip
  · split at hstep
    · split at hstep <;> cases hstep
      exact ⟨capture h.snippet hl.text, hskip.proxy, hskip.closed⟩
    · cases hstep
      exact hskip
  · cases hstep
    split
    · exact ⟨capture h.snippet hl.text, capture h.proxy hl.text, hskip.closed⟩
    · exact hskip

end Within

theorem within_of_foldlM {first next : Nat} {ls : List SourceLine} {c c' : Capture}
    (h : c.Within first next) (hfirst : first ≤ next)
    (hlines : ls.map (·.line) = List.range' next ls.length) (hls : ∀ l ∈ ls, l.Unbroken)
    (hfold : ls.foldlM step c = .ok c') : c'.Within first (next + ls.length) := by
  induction ls generalizing next c with
  | nil =>
    cases hfold
    exact h
  | cons l ls ih =>
    rw [List.map_cons, List.length_cons, List.range'_succ] at hlines
    obtain ⟨hline, hlines⟩ := List.cons_eq_cons.1 hlines
    obtain ⟨hl, hls⟩ := List.forall_mem_cons.1 hls
    rw [List.foldlM_cons] at hfold
    obtain ⟨c₁, hstep, hfold⟩ := Except.bind_eq_ok.1 hfold
    rw [List.length_cons, Nat.add_comm ls.length, ← Nat.add_assoc]
    exact ih (h.step hline hfirst hl hstep) (Nat.le_succ_of_le hfirst) hlines hls hfold

end Capture

/-- A region lies among the lines it is extracted from. -/
theorem within_of_extract {first : Nat} {ls : List SourceLine} {regions : Regions}
    (hlines : ls.map (·.line) = List.range' first ls.length) (hls : ∀ l ∈ ls, l.Unbroken)
    (h : extract ls = .ok regions) : ∀ r ∈ regions.closed, r.Within first (first + ls.length) := by
  obtain ⟨c, hfold, hfinish⟩ := Except.bind_eq_ok.1 h
  have hnone : ({} : Capture).Within first first :=
    ⟨fun o ho => (by cases ho), fun o ho => (by cases ho), fun r hr => (by cases hr)⟩
  have hwithin := Capture.within_of_foldlM hnone (Nat.le_refl first) hlines hls hfold
  have hregions : regions = c.regions := by
    unfold Capture.finish at hfinish
    split at hfinish <;> cases hfinish
    rfl
  rw [hregions]
  exact hwithin.closed

end Regions

/-! ### Classified lines -/

theorem toolText?_isSuffix {cs content : List Char} (h : toolText? cs = some content) :
    content <:+ cs := by
  obtain ⟨rest, hrest, rfl⟩ := Option.map_eq_some_iff.1 h
  have hlead := Text.afterLead?_eq_some_iff.1 hrest
  have hsuffix : rest <:+ cs :=
    List.IsSuffix.trans ⟨_, hlead.symm⟩ (List.dropWhile_suffix Text.isAsciiSpace)
  split
  · split
    · exact (List.suffix_cons ..).trans hsuffix
    · exact hsuffix
  · exact List.nil_suffix

theorem LineKind.renumber_of_read {cs : List Char} {cause : Cause} (h : read cs = .error cause) :
    renumber g cause = cause := by
  unfold read at h
  split at h
  · split at h <;> cases h
    rfl
  · split at h <;> cases h

theorem LineKind.exists_of_read_tool {cs : List Char} {t : String} (h : read cs = .ok (.tool t)) :
    ∃ content, toolText? cs = some content ∧ t = .ofList (Text.trimEnd content) := by
  unfold read at h
  split at h
  · split at h <;> cases h
    exact ⟨_, ‹_›, rfl⟩
  · split at h <;> cases h

theorem ignoring_renumber (opened : Option Nat) (line : Nat) (text : List Char) (kind : LineKind) :
    ignoring (opened.map g) (g line) text kind =
      ((ignoring opened line text kind).map fun e => (e.1, e.2.map g)).mapError (renumber g) := by
  cases kind with
  | marker directive =>
    cases directive with
    | ignore | endIgnore | opens | closes => cases opened <;> rfl
    | inject => cases opened <;> rfl
  | code | doc | tool => cases opened <;> rfl

namespace SourceLine

/-- The line without where it starts in its file, which nothing asks for. -/
def unplaced (l : SourceLine) : SourceLine := { l with offset := 0 }

theorem map_unplaced_cons (l : SourceLine) (x : Except Fault (List SourceLine)) :
    (x.map (l :: ·)).map (List.map unplaced) = (x.map (List.map unplaced)).map (l.unplaced :: ·) := by
  cases x <;> rfl

/-- What a text's lines are does not depend on where it starts, but for their numbers. -/
theorem classifyFrom_renumber {raws : List (List Char)} {line line' : Nat}
    (hlines : ∀ j < raws.length, line' + j = g (line + j)) (opened : Option Nat)
    (offset offset' : Nat) :
    (classifyFrom (opened.map g) line' offset' raws).map (List.map unplaced) =
      renumber g ((classifyFrom opened line offset raws).map (List.map unplaced)) := by
  induction raws generalizing line line' opened offset offset' with
  | nil => cases opened <;> rfl
  | cons raw raws ih =>
    have hline : line' = g line := hlines 0 (Nat.zero_lt_succ _)
    have hrest : ∀ j < raws.length, line' + 1 + j = g (line + 1 + j) := by
      intro j hj
      rw [Nat.add_assoc, Nat.add_assoc, Nat.add_comm 1]
      exact hlines (j + 1) (Nat.succ_lt_succ hj)
    rw [hline] at hrest
    rw [hline, classifyFrom_cons, classifyFrom_cons]
    cases hread : LineKind.read (Text.withoutFinal '\r' raw) with
    | error cause => exact congrArg Except.error (congrArg _ (LineKind.renumber_of_read hread).symm)
    | ok kind =>
      dsimp only
      rw [ignoring_renumber]
      cases ignoring opened line (Text.withoutFinal '\r' raw) kind with
      | error cause => rfl
      | ok e =>
        refine (map_unplaced_cons _ _).trans
          (.trans ?_ (congrArg (renumber g) (map_unplaced_cons _ _).symm))
        dsimp only
        rw [ih hrest e.2 (offset + byteLength raw) (offset' + byteLength raw)]
        cases classifyFrom e.2 (line + 1) (offset + byteLength raw) raws <;> rfl

theorem unbroken_of_classifyFrom {opened : Option Nat} {line offset : Nat}
    {raws : List (List Char)} {ls : List SourceLine} (hraws : ∀ raw ∈ raws, '\n' ∉ raw)
    (h : classifyFrom opened line offset raws = .ok ls) : ∀ l ∈ ls, l.Unbroken := by
  induction raws generalizing opened line offset ls with
  | nil =>
    obtain ⟨-, rfl⟩ := classifyFrom_nil_eq_ok h
    intro l hl
    cases hl
  | cons raw raws ih =>
    obtain ⟨hraw, hraws⟩ := List.forall_mem_cons.1 hraws
    obtain ⟨k, ignored, opened', rest, hk, -, hrest, rfl⟩ := classifyFrom_cons_eq_ok h
    have htext : '\n' ∉ Text.withoutFinal '\r' raw := by
      unfold Text.withoutFinal
      split
      · exact fun hmem => hraw (List.mem_of_mem_dropLast hmem)
      · exact hraw
    refine List.forall_mem_cons.2 ⟨⟨?_, ?_⟩, ih hraws hrest⟩
    · rwa [String.toList_ofList]
    · rintro t rfl
      obtain ⟨content, hcontent, rfl⟩ := LineKind.exists_of_read_tool hk
      rw [String.toList_ofList]
      exact fun hmem =>
        htext ((toolText?_isSuffix hcontent).subset ((Text.trimEnd_isPrefix content).subset hmem))

end SourceLine

theorem Piece.firstLine_of_lines {first : Nat} {ls : List SourceLine} (hnil : ls ≠ [])
    (hlines : ls.map (·.line) = List.range' first ls.length) : firstLine ls = first := by
  cases ls with
  | nil => exact absurd rfl hnil
  | cons l ls =>
    rw [List.map_cons, List.length_cons, List.range'_succ] at hlines
    exact (List.cons_eq_cons.1 hlines).1

theorem Piece.not_mem_codeOf {ls : List SourceLine} (h : ∀ l ∈ ls, l.Unbroken) :
    ∀ text ∈ ls.map codeOf, '\n' ∉ text.toList := by
  intro text htext
  obtain ⟨l, hl, rfl⟩ := List.mem_map.1 htext
  unfold codeOf
  split
  · exact (h l hl).text
  · exact List.not_mem_nil

theorem Steps.within {first line m n : Nat} (h : Steps g first n) (hle : first ≤ line)
    (hlt : line + m ≤ first + n) : Steps g line m := by
  obtain ⟨i, rfl⟩ := Nat.exists_eq_add_of_le hle
  exact (h.mono (by omega)).add

/-! ### Whole headers -/

namespace Document

theorem ofLines_map_unplaced (file : String) (ls : List SourceLine) :
    ofLines file (ls.map SourceLine.unplaced) = ofLines file ls := by
  have hregions : Regions.extract (ls.map SourceLine.unplaced) = Regions.extract ls := by
    unfold Regions.extract
    rw [List.foldlM_map]
    rfl
  have hblocks : CommentBlock.group (ls.map SourceLine.unplaced) = CommentBlock.group ls := by
    unfold CommentBlock.group
    rw [List.filter_map]
    exact CommentBlock.groupFrom_map_offset [] _
  have hpieces (blocks : List CommentBlock) :
      Scope.Contents.ofLines (ls.map SourceLine.unplaced) blocks = Scope.Contents.ofLines ls blocks := by
    have hcode : Piece.code (ls.map SourceLine.unplaced) = Piece.code ls := by
      unfold Piece.code
      rw [List.map_map]
      rfl
    have hfirst : Piece.firstLine (ls.map SourceLine.unplaced) = Piece.firstLine ls := by
      cases ls <;> rfl
    have hinjects : (ls.map SourceLine.unplaced).filterMap Piece.inject? =
        ls.filterMap Piece.inject? := by
      rw [List.filterMap_map]
      rfl
    unfold Scope.Contents.ofLines Piece.noticesOf Piece.ofLines
    simp only [hcode, hfirst, hinjects]
  unfold ofLines
  simp only [hregions, hblocks, hpieces, List.length_map]

/-- `g` keeps the steps from one line to another, so the outcome for renumbered lines is
the outcome, renumbered. -/
theorem result_ofLines_renumber (hg : StrictMono g) (file : String) {first : Nat}
    {ls : List SourceLine} (hnil : ls ≠ [])
    (hlines : ls.map (·.line) = List.range' first ls.length) (hls : ∀ l ∈ ls, l.Unbroken)
    (hsteps : Steps g first (ls.length - 1)) :
    (ofLines file (ls.map (renumber g))).result = renumber g (ofLines file ls).result := by
  have hfirst := Piece.firstLine_of_lines hnil hlines
  have hcode : Steps g (Piece.firstLine ls) ((Piece.code ls).toList.count '\n') := by
    unfold Piece.code
    rw [hfirst, Text.count_joinLines (Piece.not_mem_codeOf hls), List.length_map]
    exact hsteps
  unfold ofLines
  rw [Regions.extract_renumber, CommentBlock.group_renumber]
  cases hregions : Regions.extract ls with
  | error e => rfl
  | ok regions =>
    have hwithin := Regions.within_of_extract hlines hls hregions
    have hproxies : ∀ r ∈ regions.closed, Steps g r.line (1 + r.text.toList.count '\n') := by
      intro r hr
      obtain ⟨hle, hlt, hunbroken⟩ := hwithin r hr
      unfold Region.text
      rw [Text.count_joinLines hunbroken]
      exact hsteps.within hle (by omega)
    rw [Outcome.result_bind, Outcome.result_bind]
    refine Outcome.result_bind_renumber (α := Unit) rfl fun _ => ?_
    refine Outcome.result_bind_renumber (α := Unit) rfl fun _ => ?_
    refine Outcome.result_bind_renumber ?_ fun found => ?_
    · rw [← CommentBlock.group_renumber]
      exact Scope.Contents.result_ofLines_renumber hg hcode hnil
    · exact result_build_renumber hg file found hproxies (proxyDoc?_renumber CommentBlock.lines_ne_nil)

/-- The document of a text whose lines are counted from `first` on. -/
def ofRaws (file : String) (first offset : Nat) (raws : List (List Char)) : Outcome Document := do
  ofLines file (← Outcome.ofExcept (SourceLine.classifyFrom none first offset raws))

theorem ofSource_eq_ofRaws (file source : String) :
    ofSource file source =
      ofRaws file 1 0 (Text.fileLines (Text.withoutMark source).toList) := rfl

/-- Where the text starts, the document does not tell. -/
theorem ofRaws_eq_unplaced (file : String) (first offset : Nat) (raws : List (List Char)) :
    ofRaws file first offset raws = Outcome.ofExcept
      ((SourceLine.classifyFrom none first offset raws).map (List.map SourceLine.unplaced)) >>=
        ofLines file := by
  unfold ofRaws
  cases SourceLine.classifyFrom none first offset raws with
  | error e => rfl
  | ok ls =>
    rw [Outcome.bind_eq_of_ok rfl, ← ofLines_map_unplaced]
    rfl

theorem result_ofRaws_renumber (hg : StrictMono g) (file : String) {first : Nat} (offset offset' : Nat)
    {raws : List (List Char)} (hnil : raws ≠ []) (hraws : ∀ raw ∈ raws, '\n' ∉ raw)
    (hsteps : Steps g first (raws.length - 1)) :
    (ofRaws file (g first) offset' raws).result = renumber g (ofRaws file first offset raws).result := by
  have hlines : ∀ j < raws.length, g first + j = g (first + j) :=
    fun j hj => (hsteps j (by omega)).symm
  have hclassified := SourceLine.classifyFrom_renumber hlines none offset offset'
  rw [Option.map_none] at hclassified
  rw [ofRaws_eq_unplaced, ofRaws_eq_unplaced, Outcome.result_bind, Outcome.result_bind,
    Outcome.result_ofExcept, Outcome.result_ofExcept, hclassified]
  cases hls : SourceLine.classifyFrom none first offset raws with
  | error e => rfl
  | ok ls =>
    have hmap : (ls.map SourceLine.unplaced).map (renumber g) =
        (ls.map (renumber g)).map SourceLine.unplaced := by
      rw [List.map_map, List.map_map]
      rfl
    obtain ⟨hnumbers, hlength⟩ := SourceLine.map_line_of_classifyFrom hls
    have hne : ls ≠ [] := List.ne_nil_of_length_pos (by rw [hlength]; exact List.length_pos_iff.2 hnil)
    show (ofLines file ((ls.map SourceLine.unplaced).map (renumber g))).result =
      renumber g (ofLines file (ls.map SourceLine.unplaced)).result
    rw [hmap, ofLines_map_unplaced, ofLines_map_unplaced]
    rw [← hlength] at hsteps
    exact result_ofLines_renumber hg file hne hnumbers
      (SourceLine.unbroken_of_classifyFrom hraws hls) hsteps

end Document

end AnnotatedHeader
