import AnnotatedHeader.Proofs.Declaration.Forest
import Mathlib

/-! What merging a sequence leaves.

Of the declarations of one entity the last that defines it stands, or the last if none does
(`standing?`). What it lacks it has from the others, and `ranked` is the order in which they
are asked: with each further declaration the one entry is still what its order of asking says
(`foldl_merged_of_entity`). Entities do not mix (`occurrences_merged`), so this says of every
entry of a merged sequence what it is made of (`mergeInto_sequence`). -/
namespace AnnotatedHeader.Declaration

/-! ### One entity among others -/

/-- The declarations of an entity. -/
def occurrences (e : String × Kind × List String) (ds : List Declaration) : List Declaration :=
  ds.filter (·.entity = e)

theorem mem_occurrences {e : String × Kind × List String} {ds : List Declaration} {d : Declaration} :
    d ∈ occurrences e ds ↔ d ∈ ds ∧ d.entity = e := by
  simp [occurrences]

theorem occurrences_cons (e : String × Kind × List String) (d : Declaration) (ds : List Declaration) :
    occurrences e (d :: ds) = if d.entity = e then d :: occurrences e ds else occurrences e ds := by
  simp [occurrences, List.filter_cons]

/-- A declaration is merged among those of its entity and passes all others by. -/
theorem occurrences_merged (e : String × Kind × List String) (ds : List Declaration)
    (later : Declaration) : occurrences e (merged ds later) =
      if later.entity = e then merged (occurrences e ds) later else occurrences e ds := by
  induction ds with
  | nil => simp [merged, occurrences, List.filter_cons]
  | cons d ds ih =>
    rw [merged, occurrences_cons]
    by_cases same : sameEntity d later = true
    · have heq := sameEntity_iff.1 same
      rw [if_pos same, occurrences_cons, entity_combine same, heq]
      split
      · rw [merged, if_pos same]
      · rfl
    · rw [if_neg same, occurrences_cons, ih]
      split
      · split
        · rw [merged, if_neg same]
        · rfl
      · rfl

theorem occurrences_foldl_merged (e : String × Kind × List String) (os ds : List Declaration) :
    occurrences e (os.foldl merged ds) = (occurrences e os).foldl merged (occurrences e ds) := by
  induction os generalizing ds with
  | nil => rfl
  | cons o os ih =>
    rw [List.foldl_cons, ih, occurrences_merged, occurrences_cons]
    split <;> rfl

/-! ### The order of entities -/

/-- The list with one more at its end, unless it is there. -/
def noted {α : Type} [BEq α] [LawfulBEq α] (as : List α) (a : α) : List α :=
  if a ∈ as then as else as ++ [a]

theorem map_entity_foldl_merged (os ds : List Declaration) :
    (os.foldl merged ds).map entity = (os.map entity).foldl noted (ds.map entity) := by
  induction os generalizing ds with
  | nil => rfl
  | cons o os ih => rw [List.foldl_cons, ih, map_entity_merged, List.map_cons, List.foldl_cons, noted]

section
variable {α : Type} [BEq α] [LawfulBEq α]

theorem mem_foldl_noted {as ks : List α} {x : α} : x ∈ as.foldl noted ks ↔ x ∈ ks ∨ x ∈ as := by
  induction as generalizing ks with
  | nil => simp
  | cons a as ih =>
    rw [List.foldl_cons, ih, noted, List.mem_cons]
    split
    · rename_i hmem
      constructor
      · exact Or.imp_right .inr
      · rintro (h | rfl | h)
        · exact .inl h
        · exact .inl hmem
        · exact .inr h
    · rw [List.mem_append, List.mem_singleton, or_assoc]

/-- To be noted at once is to be noted where one first occurs. -/
theorem foldl_noted_nil (as : List α) : as.foldl noted [] = as.eraseDups := by
  induction as using List.reverseRecOn with
  | nil => rfl
  | append_singleton as a ih =>
    rw [List.foldl_concat, noted, List.eraseDups_append, List.removeAll, List.filter_singleton, ← ih]
    by_cases hmem : a ∈ as
    · rw [if_pos (mem_foldl_noted.2 (.inr hmem))]
      simp [hmem]
    · rw [if_neg (by simpa [mem_foldl_noted] using hmem)]
      simp [hmem, List.eraseDups_cons]

end

theorem exists_of_mem_foldl_merged {os : List Declaration} {d : Declaration}
    (h : d ∈ os.foldl merged []) : ∃ o ∈ os, o.entity = d.entity := by
  have hentity : d.entity ∈ (os.foldl merged []).map entity := List.mem_map_of_mem h
  rw [map_entity_foldl_merged, mem_foldl_noted] at hentity
  rcases hentity with hmem | hmem
  · cases hmem
  · exact List.mem_map.1 hmem

/-- The first of a list stays where it is, and as it is unless one of its entity is merged. -/
theorem exists_cons_foldl_merged (d : Declaration) (ds os : List Declaration) :
    ∃ e es, os.foldl merged (d :: ds) = e :: es ∧ e.entity = d.entity ∧
      ((∀ o ∈ os, o.entity ≠ d.entity) → e = d) := by
  induction os generalizing d ds with
  | nil => exact ⟨d, ds, rfl, rfl, fun _ => rfl⟩
  | cons o os ih =>
    rw [List.foldl_cons, merged]
    by_cases same : sameEntity d o = true
    · rw [if_pos same]
      obtain ⟨e, es, hcons, hentity, -⟩ := ih (combine d o) ds
      refine ⟨e, es, hcons, hentity.trans (entity_combine same), fun h => ?_⟩
      exact absurd (sameEntity_iff.1 same).symm (h o List.mem_cons_self)
    · rw [if_neg same]
      obtain ⟨e, es, hcons, hentity, hsame⟩ := ih d (merged ds o)
      exact ⟨e, es, hcons, hentity, fun h => hsame fun o' ho' => h o' (List.mem_cons_of_mem _ ho')⟩

/-! ### Who stands, and who is asked -/

section
variable {α : Type} {defines : α → Bool}

/-- The order in which those of one entity are asked for what the entry lacks: who defines it,
the last first, then who comes ahead of them all, the last first, then the other ones. -/
def ranked (defines : α → Bool) (os : List α) : List α :=
  (os.filter defines).reverse ++ (os.takeWhile (!defines ·)).reverse ++
    (os.dropWhile (!defines ·)).filter (!defines ·)

theorem filter_of_none {os : List α} (h : ∀ o ∈ os, defines o = false) : os.filter defines = [] :=
  List.filter_eq_nil_iff.2 (by simpa using h)

theorem ranked_of_none {os : List α} (h : ∀ o ∈ os, defines o = false) :
    ranked defines os = os.reverse := by
  have htake : os.takeWhile (!defines ·) = os := List.takeWhile_eq_self_iff.2 (by simpa using h)
  have hdrop : os.dropWhile (!defines ·) = [] := List.dropWhile_eq_nil_iff.2 (by simpa using h)
  rw [ranked, htake, hdrop, filter_of_none h]
  simp

theorem ranked_of_definition {ahead more : List α} {d : α} (h : ∀ o ∈ ahead, defines o = false)
    (hd : defines d = true) :
    ranked defines (ahead ++ d :: more) =
      (more.filter defines).reverse ++ d :: ahead.reverse ++ more.filter (!defines ·) := by
  have hahead : ∀ o ∈ ahead, (!defines o) = true := by simpa using h
  rw [ranked, List.takeWhile_append_of_pos hahead, List.dropWhile_append_of_pos hahead,
    List.filter_append, filter_of_none h]
  simp [hd]

/-- Either none defines the entity, or there is a first that does. -/
theorem none_or_definition (defines : α → Bool) (os : List α) :
    (∀ o ∈ os, defines o = false) ∨ ∃ ahead d more, os = ahead ++ d :: more ∧
      (∀ o ∈ ahead, defines o = false) ∧ defines d = true := by
  cases hfind : os.find? defines with
  | none => exact .inl (by simpa using hfind)
  | some d =>
    obtain ⟨hd, ahead, more, rfl, hahead⟩ := List.find?_eq_some_iff_append.1 hfind
    exact .inr ⟨ahead, d, more, rfl, by simpa using hahead, hd⟩

/-- Behind a definition what does not define is asked last, and anything else first. -/
theorem ranked_concat (os : List α) (o : α) :
    ranked defines (os ++ [o]) =
      if os.any defines && !defines o then ranked defines os ++ [o] else o :: ranked defines os := by
  rcases none_or_definition defines os with h | ⟨ahead, d, more, rfl, hahead, hd⟩
  · have hnone : os.any defines = false := by simpa using h
    rw [hnone, Bool.false_and, if_neg (by simp), ranked_of_none h]
    cases ho : defines o with
    | false =>
      rw [ranked_of_none (List.forall_mem_append.2 ⟨h, List.forall_mem_singleton.2 ho⟩)]
      simp
    | true =>
      rw [ranked_of_definition h ho]
      simp
  · rw [List.append_assoc, List.cons_append, ranked_of_definition hahead hd,
      ranked_of_definition hahead hd]
    cases ho : defines o <;> simp [hd, ho]

theorem ranked_singleton (o : α) : ranked defines [o] = [o] := ranked_concat [] o

theorem mem_ranked {os : List α} {d : α} : d ∈ ranked defines os ↔ d ∈ os := by
  induction os using List.reverseRecOn with
  | nil => rfl
  | append_singleton os o ih =>
    rw [ranked_concat, List.mem_append, List.mem_singleton, ← ih]
    split
    · rw [List.mem_append, List.mem_singleton]
    · rw [List.mem_cons, or_comm]

/-- The last that defines or, if none does, the last is asked first. -/
theorem head?_ranked (os : List α) :
    (ranked defines os).head? = ((os.filter defines).getLast? <|> os.getLast?) := by
  rcases none_or_definition defines os with h | ⟨ahead, d, more, rfl, hahead, hd⟩
  · rw [ranked_of_none h, filter_of_none h, List.head?_reverse]
    rfl
  · rw [ranked_of_definition hahead hd, List.filter_append, filter_of_none hahead, List.nil_append,
      List.filter_cons, if_pos hd, List.getLast?_cons, List.append_assoc, List.head?_append,
      List.head?_reverse]
    cases (more.filter defines).getLast? <;> rfl

end

/-! ### The entry of one entity -/

abbrev defines (d : Declaration) : Bool := d.item.hasBody

/-- The last definition or, if there is none, the last declaration. -/
def standing? (os : List Declaration) : Option Declaration :=
  (os.filter defines).getLast? <|> os.getLast?

/-- The declaration with what is said by the first of `os` that says anything. -/
def completed (os : List Declaration) (d : Declaration) : Declaration :=
  { d with
    doc := os.findSome? (·.doc)
    reflection := os.findSome? (·.reflection)
    template := os.findSome? (·.template) }

/-- What the declarations of one entity make. -/
def joined? (os : List Declaration) : Option Declaration :=
  (ranked defines os).head?.map (completed (ranked defines os))

@[simp] theorem item_completed (os : List Declaration) (d : Declaration) :
    (completed os d).item = d.item := rfl

theorem inherit_completed (os : List Declaration) (d o : Declaration) :
    inherit (completed os d) o = completed (os ++ [o]) d := by
  unfold inherit completed
  simp [List.findSome?_append]

theorem inherit_of_completed (os : List Declaration) (d o : Declaration) :
    inherit o (completed os d) = completed (o :: os) o := by
  have hasked {α : Type} (f : Declaration → Option α) :
      (o :: os).findSome? f = (f o <|> os.findSome? f) := by
    rw [List.findSome?_cons]
    cases f o <;> rfl
  unfold inherit completed
  simp only [hasked]

theorem joined?_eq_none_iff {os : List Declaration} : joined? os = none ↔ os = [] := by
  rw [joined?, Option.map_eq_none_iff, List.head?_eq_none_iff]
  constructor
  · intro h
    refine List.eq_nil_iff_forall_not_mem.2 fun d hd => ?_
    have hmem : d ∈ ranked defines os := mem_ranked.2 hd
    rw [h] at hmem
    cases hmem
  · rintro rfl
    rfl

/-- Who stands defines the entity if any does. -/
theorem defines_of_standing? {os : List Declaration} {d : Declaration} (h : standing? os = some d) :
    defines d = os.any defines := by
  unfold standing? at h
  cases hlast : (os.filter defines).getLast? with
  | some e =>
    rw [hlast] at h
    cases h
    obtain ⟨hmem, hbody⟩ := List.mem_filter.1 (List.mem_of_getLast? hlast)
    rw [hbody, List.any_eq_true.2 ⟨d, hmem, hbody⟩]
  | none =>
    rw [hlast] at h
    have hnone := List.filter_eq_nil_iff.1 (List.getLast?_eq_none_iff.1 hlast)
    have hmem : d ∈ os := List.mem_of_getLast? h
    rw [Bool.eq_false_iff.2 (hnone d hmem), List.any_eq_false.2 hnone]

/-- With one more declaration of its entity an entry is what it is with one more to ask. -/
theorem joined?_concat {os : List Declaration} {d o : Declaration} (h : joined? os = some d) :
    joined? (os ++ [o]) = some (combine d o) := by
  obtain ⟨w, hw, rfl⟩ := Option.map_eq_some_iff.1 h
  have hbody : w.item.hasBody = os.any defines :=
    defines_of_standing? ((head?_ranked os).symm.trans hw)
  rw [joined?, ranked_concat, combine, outlasts, item_completed, hbody]
  split
  · rw [inherit_completed, List.head?_append, hw]
    rfl
  · rw [inherit_of_completed]
    rfl

/-- **The declarations of one entity make one entry.** -/
theorem foldl_merged_of_entity {e : String × Kind × List String} {os : List Declaration}
    (h : ∀ o ∈ os, o.entity = e) : os.foldl merged [] = (joined? os).toList := by
  induction os using List.reverseRecOn with
  | nil => rfl
  | append_singleton os o ih =>
    obtain ⟨hos, ho⟩ := List.forall_mem_append.1 h
    rw [List.forall_mem_singleton] at ho
    rw [List.foldl_concat, ih hos]
    cases hentry : joined? os with
    | none =>
      cases joined?_eq_none_iff.1 hentry
      have halone : completed [o] o = o := by
        unfold completed
        simp only [List.findSome?_singleton]
        cases o
        rfl
      rw [List.nil_append, joined?, ranked_singleton, List.head?_cons, Option.map_some, halone]
      rfl
    | some d =>
      have hd : d.entity = e := by
        obtain ⟨w, hw, rfl⟩ := Option.map_eq_some_iff.1 hentry
        exact hos w (mem_ranked.1 (List.mem_of_head? hw))
      have same : sameEntity d o = true := sameEntity_iff.2 (hd.trans ho.symm)
      rw [joined?_concat hentry, Option.toList_some, merged, if_pos same]
      rfl

theorem occurrences_merged_sequence (e : String × Kind × List String) (os : List Declaration) :
    occurrences e (os.foldl merged []) = (joined? (occurrences e os)).toList := by
  rw [occurrences_foldl_merged]
  exact foldl_merged_of_entity fun o ho => (mem_occurrences.1 ho).2

/-! ### A merged sequence -/

/-- `value` is what the entry says where `w`, one of `os`, stands: what `w` says or, if it says
nothing, what another one says. -/
structure Passed {α : Type} (part : Declaration → Option α) (os : List Declaration) (w : Declaration)
    (value : Option α) : Prop where
  own : (part w).isSome = true → value = part w
  present : value.isSome = true ↔ ∃ o ∈ os, (part o).isSome = true
  source : ∀ x ∈ value, ∃ o ∈ os, part o = some x

theorem passed_of_ranked {α : Type} (part : Declaration → Option α) {os : List Declaration}
    {w : Declaration} (h : (ranked defines os).head? = some w) :
    Passed part os w ((ranked defines os).findSome? part) := by
  obtain ⟨more, hranked⟩ := List.head?_eq_some_iff.1 h
  refine ⟨fun hown => ?_, ?_, fun x hx => ?_⟩
  · obtain ⟨x, hx⟩ := Option.isSome_iff_exists.1 hown
    rw [hranked, List.findSome?_cons_of_isSome hown]
  · rw [List.findSome?_isSome_iff]
    simp only [mem_ranked]
  · obtain ⟨o, ho, hpart⟩ := List.exists_of_findSome?_eq_some hx
    exact ⟨o, mem_ranked.1 ho, hpart⟩

/-- **What merging a sequence leaves.** There is one entry for each entity, in the order in which
they first occur. It is the last definition of the entity or, if there is none, the last
declaration, and it has a doc block, a macro and a template, its own if it can, whenever any
declaration of the entity has one. -/
theorem mergeInto_sequence (os : List Declaration) :
    ∃ entries, (os.foldlM mergeInto []).result = .ok entries ∧
      entries.map entity = (os.map entity).eraseDups ∧
      ∀ d ∈ entries, ∃ w, standing? (occurrences d.entity os) = some w ∧
        d = { w with doc := d.doc, reflection := d.reflection, template := d.template } ∧
        Passed (·.doc) (occurrences d.entity os) w d.doc ∧
        Passed (·.reflection) (occurrences d.entity os) w d.reflection ∧
        Passed (·.template) (occurrences d.entity os) w d.template := by
  refine ⟨_, result_foldlM_mergeInto os [], ?_, fun d hd => ?_⟩
  · rw [map_entity_foldl_merged, List.map_nil, foldl_noted_nil]
  have hentry : joined? (occurrences d.entity os) = some d := by
    have hmem := mem_occurrences.2 ⟨hd, rfl⟩
    rwa [occurrences_merged_sequence, Option.mem_toList] at hmem
  generalize occurrences d.entity os = same at hentry
  obtain ⟨w, hw, rfl⟩ := Option.map_eq_some_iff.1 hentry
  exact ⟨w, (head?_ranked same).symm.trans hw, rfl, passed_of_ranked _ hw, passed_of_ranked _ hw,
    passed_of_ranked _ hw⟩

end AnnotatedHeader.Declaration
