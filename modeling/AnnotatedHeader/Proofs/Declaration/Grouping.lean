import AnnotatedHeader.Proofs.Declaration.Merge

/-! Merging in groups.

Where groups of declarations are merged on their own before they are merged with each other, an
entity has the entry that it has in other groups, but for what the entry does not say itself: the
others are asked group by group (`askedInGroups`), and another one can be the first that has a
doc block, a macro or a template. `inGroups_entries` says that this is the only difference, and
`inGroups_eq_iff` when there is none. Merging one by one is merging in groups of one
(`inGroups_singly`). -/
namespace AnnotatedHeader.Declaration

open List (Forall₂)

/-- The groups merged on their own, and then with each other. -/
def inGroups (gs : List (List Declaration)) : List Declaration :=
  (gs.flatMap fun g => g.foldl merged []).foldl merged []

/-! ### The order of entities -/

theorem foldl_noted_noted {α : Type} [BEq α] [LawfulBEq α] (as ks : List α) :
    (as.foldl noted []).foldl noted ks = as.foldl noted ks := by
  induction as using List.reverseRecOn with
  | nil => rfl
  | append_singleton as a ih =>
    have hmem : a ∈ as.foldl noted [] → a ∈ as.foldl noted ks := fun h =>
      mem_foldl_noted.2 ((mem_foldl_noted.1 h).imp_left (by simp))
    rw [List.foldl_concat, List.foldl_concat, noted]
    split
    · rename_i h
      rw [ih, noted, if_pos (hmem h)]
    · rw [List.foldl_concat, ih]

/-- Groups change nothing about which entities there are and in which order. -/
theorem map_entity_inGroups (gs : List (List Declaration)) :
    (inGroups gs).map entity = (gs.flatten.map entity).foldl noted [] := by
  have honto (ks : List (String × Kind × List String)) :
      ((gs.flatMap fun g => g.foldl merged []).map entity).foldl noted ks =
        (gs.flatten.map entity).foldl noted ks := by
    induction gs generalizing ks with
    | nil => rfl
    | cons g gs ih =>
      rw [List.flatMap_cons, List.flatten_cons, List.map_append, List.map_append, List.foldl_append,
        List.foldl_append, ih, map_entity_foldl_merged, List.map_nil, foldl_noted_noted]
  rw [inGroups, map_entity_foldl_merged, honto]
  rfl

theorem map_entity_inGroups_congr {gs hs : List (List Declaration)} (h : gs.flatten = hs.flatten) :
    (inGroups gs).map entity = (inGroups hs).map entity := by
  rw [map_entity_inGroups, map_entity_inGroups, h]

/-- Lists of the same entities in the same order are told apart by what they have of one. -/
theorem forall₂_of_occurrences {R : Declaration → Declaration → Prop} {ds es : List Declaration}
    (same : ds.map entity = es.map entity)
    (h : ∀ e, Forall₂ R (occurrences e ds) (occurrences e es)) : Forall₂ R ds es := by
  induction ds generalizing es with
  | nil =>
    rw [List.map_nil, eq_comm, List.map_eq_nil_iff] at same
    rw [same]
    exact .nil
  | cons d ds ih =>
    cases es with
    | nil => cases same
    | cons d' es =>
      rw [List.map_cons, List.map_cons] at same
      obtain ⟨hd, hds⟩ := List.cons.inj same
      have hfirst := h d.entity
      rw [occurrences_cons, occurrences_cons, if_pos rfl, if_pos hd.symm] at hfirst
      refine .cons (List.forall₂_cons.1 hfirst).1 (ih hds fun e => ?_)
      have hall := h e
      rw [occurrences_cons, occurrences_cons, ← hd] at hall
      split at hall
      · exact (List.forall₂_cons.1 hall).2
      · exact hall

/-! ### Asking group by group -/

/-- What is made of some things is asked in the order in which these things are. -/
theorem ranked_filterMap {α β : Type} {p : α → Bool} {q : β → Bool} {f : α → Option β}
    (hsome : ∀ a b, f a = some b → q b = p a) (hnone : ∀ a, f a = none → p a = false) (as : List α) :
    ranked q (as.filterMap f) = (ranked p as).filterMap f := by
  have hany (as : List α) : (as.filterMap f).any q = as.any p := by
    induction as with
    | nil => rfl
    | cons a as ih =>
      rw [List.filterMap_cons, List.any_cons]
      cases ha : f a with
      | none => rw [ih, hnone a ha, Bool.false_or]
      | some b => rw [List.any_cons, ih, hsome a b ha]
  induction as using List.reverseRecOn with
  | nil => rfl
  | append_singleton as a ih =>
    rw [List.filterMap_append, ranked_concat]
    cases ha : f a with
    | none =>
      rw [List.filterMap_cons_none ha, List.filterMap_nil, List.append_nil, ih]
      split
      · rw [List.filterMap_append, List.filterMap_cons_none ha, List.filterMap_nil, List.append_nil]
      · rw [List.filterMap_cons_none ha]
    | some b =>
      rw [List.filterMap_cons_some ha, List.filterMap_nil, ranked_concat, hany, hsome a b ha, ih]
      split
      · rw [List.filterMap_append, List.filterMap_cons_some ha, List.filterMap_nil]
      · rw [List.filterMap_cons_some ha]

/-- The order in which an entity's declarations are asked where each group has been merged. -/
def askedInGroups (gs : List (List Declaration)) : List Declaration :=
  (ranked (·.any defines) gs).flatMap (ranked defines)

theorem ranked_entries (gs : List (List Declaration)) :
    ranked defines (gs.filterMap joined?) = (ranked (·.any defines) gs).filterMap joined? := by
  refine ranked_filterMap (fun g d h => ?_) (fun g h => ?_) gs
  · obtain ⟨w, hw, rfl⟩ := Option.map_eq_some_iff.1 h
    have hw : defines w = g.any defines := defines_of_standing? ((head?_ranked g).symm.trans hw)
    exact hw
  · rw [joined?_eq_none_iff.1 h]
    rfl

/-- What an entry says is what the first of its declarations says that says it. -/
theorem findSome?_entries {α : Type} {part : Declaration → Option α}
    (h : ∀ os d, joined? os = some d → part d = (ranked defines os).findSome? part)
    (gs : List (List Declaration)) :
    (gs.filterMap joined?).findSome? part = (gs.flatMap (ranked defines)).findSome? part := by
  induction gs with
  | nil => rfl
  | cons g gs ih =>
    rw [List.flatMap_cons, List.findSome?_append, ← ih]
    cases hentry : joined? g with
    | none =>
      rw [List.filterMap_cons_none hentry, joined?_eq_none_iff.1 hentry]
      rfl
    | some d =>
      rw [List.filterMap_cons_some hentry, List.findSome?_cons, ← h g d hentry]
      cases part d <;> rfl

theorem completed_entries (gs : List (List Declaration)) (d : Declaration) :
    completed (gs.filterMap joined?) d = completed (gs.flatMap (ranked defines)) d := by
  have hpart {α : Type} (part : Declaration → Option α)
      (hown : ∀ os w, part (completed os w) = os.findSome? part) :
      (gs.filterMap joined?).findSome? part = (gs.flatMap (ranked defines)).findSome? part := by
    refine findSome?_entries (fun os d h => ?_) gs
    obtain ⟨w, -, rfl⟩ := Option.map_eq_some_iff.1 h
    exact hown _ _
  unfold completed
  rw [hpart (·.doc) fun _ _ => rfl, hpart (·.reflection) fun _ _ => rfl,
    hpart (·.template) fun _ _ => rfl]

theorem any_eq_isSome {α : Type} (p : α → Bool) (as : List α) :
    as.any p = (as.filter p).getLast?.isSome := by
  rw [Bool.eq_iff_iff, List.any_eq_true, Option.isSome_iff_ne_none, ne_eq, List.getLast?_eq_none_iff,
    List.filter_eq_nil_iff]
  simp

theorem standing?_append (os ps : List Declaration) :
    standing? (os ++ ps) =
      if os.any defines && !ps.any defines then (standing? os).or (standing? ps)
      else (standing? ps).or (standing? os) := by
  rw [any_eq_isSome, any_eq_isSome]
  unfold standing?
  rw [List.filter_append, List.getLast?_append, List.getLast?_append]
  cases (os.filter defines).getLast? <;> cases (ps.filter defines).getLast? <;> simp

theorem askedInGroups_concat (gs : List (List Declaration)) (g : List Declaration) :
    askedInGroups (gs ++ [g]) =
      if gs.flatten.any defines && !g.any defines then askedInGroups gs ++ ranked defines g
      else ranked defines g ++ askedInGroups gs := by
  unfold askedInGroups
  rw [ranked_concat, List.any_flatten]
  split
  · rw [List.flatMap_append, List.flatMap_singleton]
  · rw [List.flatMap_cons]

/-- Who is asked first stands, in groups as one by one. -/
theorem head?_askedInGroups (gs : List (List Declaration)) :
    (askedInGroups gs).head? = standing? gs.flatten := by
  induction gs using List.reverseRecOn with
  | nil => rfl
  | append_singleton gs g ih =>
    have hg : (ranked defines g).head? = standing? g := head?_ranked g
    rw [askedInGroups_concat, List.flatten_append, List.flatten_singleton, standing?_append]
    split <;> rw [List.head?_append, ih, hg]

theorem mem_askedInGroups {gs : List (List Declaration)} {d : Declaration} :
    d ∈ askedInGroups gs ↔ d ∈ gs.flatten := by
  rw [askedInGroups, List.mem_flatMap, List.mem_flatten]
  simp only [mem_ranked]

/-- **An entry made of entries** is what its declarations make, asked group by group. -/
theorem joined?_filterMap (gs : List (List Declaration)) :
    joined? (gs.filterMap joined?) = (askedInGroups gs).head?.map (completed (askedInGroups gs)) := by
  have hfirst (os : List Declaration) (gs : List (List Declaration)) :
      (gs.filterMap joined?).head?.map (completed os) =
        (gs.flatMap (ranked defines)).head?.map (completed os) := by
    induction gs with
    | nil => rfl
    | cons g gs ih =>
      rw [List.flatMap_cons, List.head?_append]
      cases hentry : joined? g with
      | none =>
        rw [List.filterMap_cons_none hentry, joined?_eq_none_iff.1 hentry]
        exact ih
      | some d =>
        obtain ⟨w, hw, rfl⟩ := Option.map_eq_some_iff.1 hentry
        rw [List.filterMap_cons_some hentry, hw]
        rfl
  have hcompleted : completed ((ranked (·.any defines) gs).filterMap joined?) =
      completed (askedInGroups gs) := funext (completed_entries _)
  rw [joined?, ranked_entries, hcompleted, hfirst]
  rfl

/-- The order in which an entity's declarations are asked. -/
def askedOf (e : String × Kind × List String) (gs : List (List Declaration)) : List Declaration :=
  askedInGroups (gs.map (occurrences e))

theorem flatten_map_occurrences (e : String × Kind × List String) (gs : List (List Declaration)) :
    (gs.map (occurrences e)).flatten = occurrences e gs.flatten := by
  unfold occurrences
  rw [List.filter_flatten]

theorem mem_askedOf {e : String × Kind × List String} {gs : List (List Declaration)} {d : Declaration} :
    d ∈ askedOf e gs ↔ d ∈ occurrences e gs.flatten := by
  rw [askedOf, mem_askedInGroups, flatten_map_occurrences]

theorem head?_askedOf (e : String × Kind × List String) (gs : List (List Declaration)) :
    (askedOf e gs).head? = standing? (occurrences e gs.flatten) := by
  rw [askedOf, head?_askedInGroups, flatten_map_occurrences]

/-- Who stands does not depend on the groups, and says what the first says that is asked. -/
theorem occurrences_inGroups (e : String × Kind × List String) (gs : List (List Declaration)) :
    occurrences e (inGroups gs) =
      ((standing? (occurrences e gs.flatten)).map (completed (askedOf e gs))).toList := by
  have hentries : occurrences e (gs.flatMap fun g => g.foldl merged []) =
      (gs.map (occurrences e)).filterMap joined? := by
    unfold occurrences
    rw [List.filter_flatMap, List.filterMap_map, List.filterMap_eq_flatMap_toList]
    exact List.flatMap_congr fun g _ => occurrences_merged_sequence e g
  rw [inGroups, occurrences_merged_sequence, hentries, joined?_filterMap, ← head?_askedOf]
  rfl

/-! ### What groups change -/

/-- The entries differ in nothing but the doc block, the macro and the template, and each has
one if the other does. -/
structure SameButPassed (d d' : Declaration) : Prop where
  same : d' = { d with doc := d'.doc, reflection := d'.reflection, template := d'.template }
  doc : d'.doc.isSome = d.doc.isSome
  reflection : d'.reflection.isSome = d.reflection.isSome
  template : d'.template.isSome = d.template.isSome

theorem sameButPassed_completed {os ps : List Declaration} (h : ∀ d, d ∈ os ↔ d ∈ ps) (w : Declaration) :
    SameButPassed (completed os w) (completed ps w) := by
  have hpart {α : Type} (part : Declaration → Option α) :
      (ps.findSome? part).isSome = (os.findSome? part).isSome := by
    rw [Bool.eq_iff_iff, List.findSome?_isSome_iff, List.findSome?_isSome_iff]
    simp only [h]
  exact ⟨rfl, hpart _, hpart _, hpart _⟩

section
variable {gs hs : List (List Declaration)}

/-- **Groups change nothing but what an entry does not say itself**, and not whether it says
it. -/
theorem inGroups_entries (h : gs.flatten = hs.flatten) :
    Forall₂ SameButPassed (inGroups gs) (inGroups hs) := by
  refine forall₂_of_occurrences (map_entity_inGroups_congr h) fun e => ?_
  rw [occurrences_inGroups, occurrences_inGroups, h]
  cases standing? (occurrences e hs.flatten) with
  | none => exact .nil
  | some w =>
    have hmem (d : Declaration) : d ∈ askedOf e gs ↔ d ∈ askedOf e hs := by
      rw [mem_askedOf, mem_askedOf, h]
    exact .cons (sameButPassed_completed hmem w) .nil

/-- What the first declarations say that say anything: the doc block, the macro and the
template. -/
def firstSaid (os : List Declaration) : Option DocBlock × Option Reflection × Option String :=
  (os.findSome? (·.doc), os.findSome? (·.reflection), os.findSome? (·.template))

theorem completed_eq_iff {os ps : List Declaration} (w : Declaration) :
    completed os w = completed ps w ↔ firstSaid os = firstSaid ps := by
  unfold completed firstSaid
  simp only [Declaration.mk.injEq, Declared.mk.injEq, Prod.mk.injEq, true_and, and_true]
  tauto

/-- Of each entity the first declaration that has a doc block says the same in both groupings,
and so with macros and templates. -/
def AskedAlike (gs hs : List (List Declaration)) : Prop :=
  ∀ e, firstSaid (askedOf e gs) = firstSaid (askedOf e hs)

/-- **When groups change nothing.** -/
theorem inGroups_eq_iff (h : gs.flatten = hs.flatten) :
    inGroups gs = inGroups hs ↔ AskedAlike gs hs := by
  have hentry (e : String × Kind × List String) :
      occurrences e (inGroups gs) = occurrences e (inGroups hs) ↔
        firstSaid (askedOf e gs) = firstSaid (askedOf e hs) := by
    rw [occurrences_inGroups, occurrences_inGroups, h]
    cases hstanding : standing? (occurrences e hs.flatten) with
    | none =>
      have hgs : askedOf e gs = [] := List.head?_eq_none_iff.1 (by rw [head?_askedOf, h, hstanding])
      have hhs : askedOf e hs = [] := List.head?_eq_none_iff.1 (by rw [head?_askedOf, hstanding])
      rw [hgs, hhs]
      simp
    | some w =>
      rw [← completed_eq_iff w]
      simp
  unfold AskedAlike
  simp only [← hentry]
  constructor
  · intro heq e
    rw [heq]
  · intro heach
    have hsame := forall₂_of_occurrences (R := Eq) (map_entity_inGroups_congr h) fun e => by
      rw [heach e]
      exact List.forall₂_same.2 fun _ _ => rfl
    rwa [List.forall₂_eq_eq_eq] at hsame

end

/-! ### Groups of one -/

/-- Each declaration alone. -/
def singly (ds : List Declaration) : List (List Declaration) := ds.map ([·])

@[simp] theorem flatten_singly (ds : List Declaration) : (singly ds).flatten = ds :=
  (List.flatMap_def ..).symm.trans (List.flatMap_singleton' ds)

theorem flatMap_singly (ds : List Declaration) :
    ((singly ds).flatMap fun g => g.foldl merged []) = ds := by
  unfold singly
  rw [List.flatMap_map]
  exact List.flatMap_singleton' ds

theorem inGroups_singly (ds : List Declaration) : inGroups (singly ds) = ds.foldl merged [] := by
  rw [inGroups, flatMap_singly]

/-- Groups among declarations that are merged one by one. -/
theorem inGroups_among (xs zs : List Declaration) (gs : List (List Declaration)) :
    inGroups (singly xs ++ gs ++ singly zs) =
      (xs ++ gs.flatMap (·.foldl merged []) ++ zs).foldl merged [] := by
  rw [inGroups, List.flatMap_append, List.flatMap_append, flatMap_singly, flatMap_singly]

/-- One by one the declarations of an entity are asked in their own order. -/
theorem askedOf_singly (e : String × Kind × List String) (ds : List Declaration) :
    askedOf e (singly ds) = ranked defines (occurrences e ds) := by
  induction ds using List.reverseRecOn with
  | nil => rfl
  | append_singleton ds d ih =>
    have hflatten : ((singly ds).map (occurrences e)).flatten = occurrences e ds := by
      rw [flatten_map_occurrences, flatten_singly]
    have hlast : occurrences e (ds ++ [d]) = occurrences e ds ++ occurrences e [d] :=
      List.filter_append ..
    rw [askedOf] at ih
    rw [askedOf, singly, List.map_append, List.map_singleton, List.map_append, List.map_singleton,
      ← singly, askedInGroups_concat, hflatten, ih, hlast, occurrences_cons]
    split
    · rw [show occurrences e [] = [] from rfl, ranked_singleton, ranked_concat, List.any_cons,
        List.any_nil, Bool.or_false, List.singleton_append]
    · rw [show occurrences e [] = [] from rfl, show ranked defines [] = [] from rfl, List.append_nil,
        List.append_nil, List.nil_append, ite_self]

def structSample (hasBody : Bool) (doc : Option DocBlock) : Declaration :=
  ⟨.sample "S" (.record .structKey ⟨none, [], hasBody⟩) .everyone doc, []⟩

/-- Behind a definition without a doc block two announcements are asked in their order, unless
they have been merged: then the one that stands is asked. -/
theorem exists_inGroups_ne :
    ¬ ∀ xs ys zs : List Declaration, (xs ++ ys ++ zs).foldl merged [] =
      zs.foldl merged ((ys.foldl merged []).foldl merged (xs.foldl merged [])) := by
  intro h
  have hdocs := congrArg (List.map (·.doc.map (·.line))) (h [structSample true none]
    [structSample false (some ⟨3, [], []⟩), structSample false (some ⟨5, [], []⟩)] [])
  exact absurd hdocs (by decide)

end AnnotatedHeader.Declaration
