import AnnotatedHeader.Text.Lines

/-! Lines put together and cut apart again.

Texts that hold no line feed are the lines of what they are joined to
(`separated_joinLines`), and a text is what its lines are joined to (`joinLines_separated`). -/
namespace AnnotatedHeader.Text

/-! ### Cutting -/

/-- What is put in front of a text without a separator is part of the first run. -/
theorem splitOn_append_of_not_mem {separator : Char} {run : List Char} (h : separator ∉ run)
    (cs : List Char) : splitOn separator (run ++ cs) =
      (run ++ (splitOn separator cs).headD []) :: (splitOn separator cs).tail := by
  induction run with
  | nil =>
    cases hs : splitOn separator cs with
    | nil => exact absurd hs (splitOn_ne_nil separator cs)
    | cons first runs => simp [hs]
  | cons c run ih =>
    obtain ⟨hc, hrun⟩ := not_or.1 (mt List.mem_cons.2 h)
    rw [List.cons_append, splitOn_cons (Ne.symm hc), ih hrun]
    rfl

theorem splitOn_of_not_mem {separator : Char} {run : List Char} (h : separator ∉ run) :
    splitOn separator run = [run] := by
  simpa [splitOn] using splitOn_append_of_not_mem h []

theorem splitOn_append {separator : Char} {run : List Char} (h : separator ∉ run)
    (cs : List Char) :
    splitOn separator (run ++ separator :: cs) = run :: splitOn separator cs := by
  simp [splitOn_append_of_not_mem h, splitOn_separator]

theorem splitOn_flatMap {separator : Char} {runs : List (List Char)}
    (h : ∀ run ∈ runs, separator ∉ run) :
    splitOn separator (runs.flatMap (· ++ [separator])) = runs ++ [[]] := by
  induction runs with
  | nil => rfl
  | cons run runs ih =>
    obtain ⟨hrun, hruns⟩ := List.forall_mem_cons.1 h
    rw [List.flatMap_cons, List.append_assoc, List.singleton_append, splitOn_append hrun, ih hruns,
      List.cons_append]

theorem splitOn_intercalate {separator : Char} {runs : List (List Char)} (hne : runs ≠ [])
    (h : ∀ run ∈ runs, separator ∉ run) :
    splitOn separator ([separator].intercalate runs) = runs := by
  induction runs with
  | nil => exact absurd rfl hne
  | cons run runs ih =>
    obtain ⟨hrun, hruns⟩ := List.forall_mem_cons.1 h
    cases runs with
    | nil => rw [List.intercalate_singleton, splitOn_of_not_mem hrun]
    | cons next runs =>
      rw [List.intercalate_cons_cons, List.append_assoc, List.singleton_append, splitOn_append hrun,
        ih (by simp) hruns]

theorem intercalate_concat {separator : Char} {runs : List (List Char)} (h : runs ≠ [])
    (run : List Char) :
    [separator].intercalate (runs ++ [run]) = [separator].intercalate runs ++ separator :: run := by
  induction runs with
  | nil => exact absurd rfl h
  | cons first runs ih =>
    cases runs with
    | nil =>
      rw [List.singleton_append, List.intercalate_cons_cons, List.intercalate_singleton,
        List.intercalate_singleton, List.append_assoc, List.singleton_append]
    | cons next runs =>
      rw [List.cons_append, List.intercalate_cons_of_ne_nil (by simp), ih (by simp),
        List.intercalate_cons_cons, List.append_assoc, List.append_assoc, List.append_assoc]

theorem count_intercalate {separator : Char} {runs : List (List Char)}
    (h : ∀ run ∈ runs, separator ∉ run) :
    ([separator].intercalate runs).count separator = runs.length - 1 := by
  induction runs with
  | nil => rfl
  | cons run runs ih =>
    obtain ⟨hrun, hruns⟩ := List.forall_mem_cons.1 h
    cases runs with
    | nil =>
      rw [List.intercalate_singleton, List.count_eq_zero.2 hrun]
      rfl
    | cons next runs =>
      rw [List.intercalate_cons_cons, List.count_append, List.count_append, ih hruns,
        List.count_eq_zero.2 hrun, List.count_singleton_self]
      show 0 + 1 + (runs.length + 1 - 1) = runs.length + 1 + 1 - 1
      omega

theorem headD_mem_splitOn (separator : Char) (cs : List Char) :
    (splitOn separator cs).headD [] ∈ splitOn separator cs := by
  cases hs : splitOn separator cs with
  | nil => exact absurd hs (splitOn_ne_nil separator cs)
  | cons run runs => exact List.mem_cons_self ..

theorem not_mem_of_mem_splitOn {separator : Char} {cs run : List Char}
    (h : run ∈ splitOn separator cs) : separator ∉ run := by
  induction cs generalizing run with
  | nil =>
    rw [List.mem_singleton.1 h]
    simp
  | cons c cs ih =>
    by_cases hc : c = separator
    · rw [hc, splitOn_separator] at h
      rcases List.mem_cons.1 h with rfl | h
      · simp
      · exact ih h
    · rw [splitOn_cons hc] at h
      rcases List.mem_cons.1 h with rfl | h
      · exact List.not_mem_cons_of_ne_of_not_mem (Ne.symm hc) (ih (headD_mem_splitOn separator cs))
      · exact ih (List.mem_of_mem_tail h)

theorem mem_of_mem_splitOn {separator d : Char} {cs run : List Char}
    (h : run ∈ splitOn separator cs) (hd : d ∈ run) : d ∈ cs := by
  induction cs generalizing run with
  | nil =>
    rw [List.mem_singleton.1 h] at hd
    exact hd
  | cons c cs ih =>
    by_cases hc : c = separator
    · rw [hc, splitOn_separator] at h
      rcases List.mem_cons.1 h with rfl | h
      · cases hd
      · exact List.mem_cons_of_mem c (ih h hd)
    · rw [splitOn_cons hc] at h
      rcases List.mem_cons.1 h with rfl | h
      · rcases List.mem_cons.1 hd with rfl | hd
        · exact List.mem_cons_self
        · exact List.mem_cons_of_mem c (ih (headD_mem_splitOn separator cs) hd)
      · exact List.mem_cons_of_mem c (ih (List.mem_of_mem_tail h) hd)

/-! ### Lines of a file -/

theorem not_mem_of_mem_fileLines {cs raw : List Char} (h : raw ∈ fileLines cs) : '\n' ∉ raw := by
  unfold fileLines at h
  dsimp only at h
  split at h
  · exact not_mem_of_mem_splitOn ((List.dropLast_sublist _).subset h)
  · exact not_mem_of_mem_splitOn h

theorem fileLines_ne_nil (cs : List Char) : fileLines cs ≠ [] := by
  unfold fileLines
  dsimp only
  split
  · rename_i h
    have hlength : 1 < (splitOn '\n' cs).length := by simp_all
    intro hnil
    have hzero := congrArg List.length hnil
    rw [List.length_dropLast, List.length_nil] at hzero
    omega
  · exact splitOn_ne_nil '\n' cs

/-- Lines that are each ended by a line feed are the lines of their text, if there are any. -/
theorem fileLines_flatMap {raws : List (List Char)} (hne : raws ≠ [])
    (h : ∀ raw ∈ raws, '\n' ∉ raw) : fileLines (raws.flatMap (· ++ ['\n'])) = raws := by
  have hlength := List.length_pos_iff.2 hne
  unfold fileLines
  rw [splitOn_flatMap h]
  simp [hlength]

/-- Of the runs between line feeds the last is a line unless it is empty, or the only one. -/
theorem fileLines_of_splitOn {cs : List Char} {init : List (List Char)} {last : List Char}
    (h : splitOn '\n' cs = init ++ [last]) :
    fileLines cs = if init ≠ [] ∧ last = [] then init else init ++ [last] := by
  have hends : (1 < (init ++ [last]).length && (init ++ [last]).getLast? == some []) = true ↔
      init ≠ [] ∧ last = [] := by
    rw [List.getLast?_concat]
    simp [List.length_pos_iff]
  simp only [fileLines, h, hends, List.dropLast_concat]

/-- A text is its lines with line feeds between them, and one behind them if it ends in one. -/
theorem fileLines_eq (cs : List Char) :
    cs = ['\n'].intercalate (fileLines cs) ++ if cs.getLast? = some '\n' then ['\n'] else [] := by
  have hcs := intercalate_splitOn '\n' cs
  have hruns (run : List Char) (hrun : run ∈ splitOn '\n' cs) : '\n' ∉ run :=
    not_mem_of_mem_splitOn hrun
  obtain ⟨init, last, hsplit⟩ := (List.eq_nil_or_concat (splitOn '\n' cs)).resolve_left
    (splitOn_ne_nil '\n' cs)
  rw [List.concat_eq_append] at hsplit
  rw [fileLines_of_splitOn hsplit]
  rw [hsplit] at hcs hruns
  by_cases hinit : init = []
  · -- The text is one run.
    rw [hinit, List.nil_append, List.intercalate_singleton] at hcs
    have hends : cs.getLast? ≠ some '\n' := by
      rw [← hcs]
      exact fun h => hruns last (by simp) (List.mem_of_getLast? h)
    rw [if_neg (fun h => h.1 hinit), if_neg hends, hinit, List.nil_append,
      List.intercalate_singleton, List.append_nil, hcs]
  · rw [intercalate_concat hinit] at hcs
    by_cases hlast : last = []
    · have hends : cs.getLast? = some '\n' := by rw [← hcs, hlast, List.getLast?_concat]
      rw [if_pos ⟨hinit, hlast⟩, if_pos hends, ← hcs, hlast]
    · have hends : cs.getLast? ≠ some '\n' := by
        rw [← hcs, List.append_cons, List.getLast?_append, List.getLast?_eq_some_getLast hlast,
          Option.some_or]
        exact fun h => hruns last (by simp) (Option.some.inj h ▸ List.getLast_mem hlast)
      rw [if_neg (fun h => hlast h.2), if_neg hends, intercalate_concat hinit, List.append_nil, hcs]

/-! ### Joined lines -/

theorem toList_joinLines (ls : List String) :
    (joinLines ls).toList = ['\n'].intercalate (ls.map String.toList) := by
  unfold joinLines
  rw [String.toList_intercalate]
  rfl

theorem joinLines_singleton (l : String) : joinLines [l] = l := String.intercalate_singleton

theorem joinLines_append {ls ms : List String} (hls : ls ≠ []) (hms : ms ≠ []) :
    joinLines (ls ++ ms) = joinLines ls ++ "\n" ++ joinLines ms :=
  String.intercalate_append_of_ne_nil hls hms

/-- Texts are joined as their lines are. -/
theorem joinLines_flatten {blocks : List (List String)} (h : ∀ b ∈ blocks, b ≠ []) :
    joinLines blocks.flatten = joinLines (blocks.map joinLines) := by
  induction blocks with
  | nil => rfl
  | cons b blocks ih =>
    obtain ⟨hb, hblocks⟩ := List.forall_mem_cons.1 h
    cases blocks with
    | nil => rw [List.flatten_singleton, List.map_singleton, joinLines_singleton]
    | cons next blocks =>
      have hnext : (next :: blocks).flatten ≠ [] := by simp [hblocks next (List.mem_cons_self ..)]
      calc joinLines (b ++ (next :: blocks).flatten)
          = joinLines b ++ "\n" ++ joinLines ((next :: blocks).map joinLines) := by
            rw [joinLines_append hb hnext, ih hblocks]
        _ = joinLines ([joinLines b] ++ (next :: blocks).map joinLines) := by
            rw [joinLines_append (by simp) (by simp), joinLines_singleton]

/-- Joined lines have a line feed between any two. -/
theorem count_joinLines {ls : List String} (h : ∀ l ∈ ls, '\n' ∉ l.toList) :
    (joinLines ls).toList.count '\n' = ls.length - 1 := by
  rw [toList_joinLines, count_intercalate (List.forall_mem_map.2 h), List.length_map]

/-! ### Lines that line feeds separate -/

/-- The lines of a text in which line feeds stand between lines, one more than there are line
feeds. -/
def separated (s : String) : List String := (splitOn '\n' s.toList).map .ofList

theorem separated_ne_nil (s : String) : separated s ≠ [] := by
  unfold separated
  simpa using splitOn_ne_nil '\n' s.toList

theorem not_mem_of_mem_separated {s l : String} (h : l ∈ separated s) : '\n' ∉ l.toList := by
  obtain ⟨run, hrun, rfl⟩ := List.mem_map.1 h
  rw [String.toList_ofList]
  exact not_mem_of_mem_splitOn hrun

theorem separated_joinLines {ls : List String} (hne : ls ≠ []) (h : ∀ l ∈ ls, '\n' ∉ l.toList) :
    separated (joinLines ls) = ls := by
  unfold separated
  rw [toList_joinLines, splitOn_intercalate (by simpa using hne) (List.forall_mem_map.2 h),
    List.map_map]
  simp [Function.comp_def]

theorem joinLines_separated (s : String) : joinLines (separated s) = s := by
  unfold separated
  rw [String.ext_iff, toList_joinLines, List.map_map]
  simp [Function.comp_def, intercalate_splitOn]

end AnnotatedHeader.Text
