import AnnotatedHeader.Resolution
import Mathlib.Data.Finset.Card

/-! What a symbol table knows.

Inserting declarations one after another enters each of them at its path and under its name,
and nothing else (`get_insertAll`, `contains_insertAll`, `mem_pathsNamed_insertAll`). The
order of insertion shows in what `get` lists and nowhere else: what is declared, which
paths a name has and what a reference means are the same for every order
(`insertAll_answers`). -/
namespace AnnotatedHeader.SymbolTable

variable {table table' : SymbolTable} {name path : String}

/-! ### Insertions -/

theorem get_insert (table : SymbolTable) (d : Declaration) (path : String) :
    (table.insert d).get path =
      if d.path = path then table.get path ++ [d.symbol] else table.get path :=
  table.byPath.getD_enter d.symbol path

theorem contains_insert {d : Declaration} :
    (table.insert d).contains path = true ↔ d.path = path ∨ table.contains path = true :=
  table.byPath.contains_enter d.symbol path

/-- Each path has what it had and the declarations at it, in their order. -/
theorem get_insertAll (table : SymbolTable) (ds : List Declaration) (path : String) :
    (table.insertAll ds).get path =
      table.get path ++ (ds.filter (·.path = path)).map (·.symbol) := by
  induction ds generalizing table with
  | nil => exact (List.append_nil _).symm
  | cons d ds ih =>
    have hrest : (table.insertAll (d :: ds)).get path = ((table.insert d).insertAll ds).get path := rfl
    rw [hrest, ih, get_insert]
    by_cases h : d.path = path
    · rw [if_pos h, List.filter_cons_of_pos (by simpa using h), List.map_cons, List.append_assoc]
      rfl
    · rw [if_neg h, List.filter_cons_of_neg (by simpa using h)]

theorem contains_insertAll {ds : List Declaration} :
    (table.insertAll ds).contains path = true ↔
      table.contains path = true ∨ ∃ d ∈ ds, d.path = path := by
  induction ds generalizing table with
  | nil => exact ⟨.inl, fun h => h.resolve_right (by simp)⟩
  | cons d ds ih =>
    have hrest : (table.insertAll (d :: ds)).contains path =
        ((table.insert d).insertAll ds).contains path := rfl
    rw [hrest, ih, contains_insert, List.exists_mem_cons_iff, or_comm (a := d.path = path), or_assoc]

/-! ### The empty table, filled -/

theorem get_of_insertAll (ds : List Declaration) (path : String) :
    (insertAll ∅ ds).get path = (ds.filter (·.path = path)).map (·.symbol) :=
  get_insertAll ∅ ds path

theorem contains_iff_of_insertAll {ds : List Declaration} :
    (insertAll ∅ ds).contains path = true ↔ ∃ d ∈ ds, d.path = path :=
  contains_insertAll.trans (or_iff_right Bool.false_ne_true)

theorem mem_pathsNamed_insertAll {ds : List Declaration} :
    path ∈ (insertAll ∅ ds).pathsNamed name ↔ ∃ d ∈ ds, d.name = name ∧ d.path = path := by
  rw [mem_pathsNamed, get_of_insertAll]
  constructor
  · rintro ⟨s, hs, hname⟩
    obtain ⟨d, hd, rfl⟩ := List.mem_map.1 hs
    obtain ⟨hd, hpath⟩ := List.mem_filter.1 hd
    exact ⟨d, hd, hname, by simpa using hpath⟩
  · rintro ⟨d, hd, hname, hpath⟩
    have hfound : d ∈ ds.filter (·.path = path) := List.mem_filter.2 ⟨hd, by simpa using hpath⟩
    exact ⟨d.symbol, List.mem_map_of_mem hfound, hname⟩

theorem size_insertAll (ds : List Declaration) :
    (insertAll ∅ ds).size = (ds.map (·.path)).toFinset.card := by
  have hnodup : (insertAll ∅ ds).byPath.keys.Nodup := Std.ExtTreeMap.nodup_keys
  have hpaths : (insertAll ∅ ds).byPath.keys.toFinset = (ds.map (·.path)).toFinset := by
    ext path
    rw [List.mem_toFinset, List.mem_toFinset, Std.ExtTreeMap.mem_keys, List.mem_map]
    exact contains_iff_of_insertAll
  rw [← hpaths, List.toFinset_card_of_nodup hnodup]
  exact (insertAll ∅ ds).byPath.length_keys.symm

/-! ### The order of insertion -/

/-- What a path means hangs on which paths are declared and which of them a name has. -/
theorem resolve_congr (hcontains : table.contains = table'.contains)
    (hnamed : table.pathsNamed = table'.pathsNamed) : table.resolve = table'.resolve := by
  funext path context
  unfold resolve exact resolveAround? resolveName
  rw [hcontains, hnamed]

theorem pathsNamed_eq_of_mem_iff
    (h : ∀ path, path ∈ table.pathsNamed name ↔ path ∈ table'.pathsNamed name) :
    table.pathsNamed name = table'.pathsNamed name := by
  refine congrArg Std.ExtTreeSet.toList (Std.ExtTreeSet.ext_mem fun path => ?_)
  rw [← Std.ExtTreeSet.mem_toList, ← Std.ExtTreeSet.mem_toList]
  exact h path

/-- Declarations of the same names at the same paths are all one to these answers. -/
theorem answers_of_perm {ds ds' : List Declaration}
    (h : (ds.map fun d => (d.name, d.path)).Perm (ds'.map fun d => (d.name, d.path))) :
    (insertAll ∅ ds).contains = (insertAll ∅ ds').contains ∧
      (insertAll ∅ ds).pathsNamed = (insertAll ∅ ds').pathsNamed ∧
      (insertAll ∅ ds).size = (insertAll ∅ ds').size ∧
      (insertAll ∅ ds).resolve = (insertAll ∅ ds').resolve := by
  have hpaths : (ds.map (·.path)).Perm (ds'.map (·.path)) := by
    have hsnd := h.map Prod.snd
    rwa [List.map_map, List.map_map] at hsnd
  have hcontains : (insertAll ∅ ds).contains = (insertAll ∅ ds').contains := by
    funext path
    rw [Bool.eq_iff_iff, contains_iff_of_insertAll, contains_iff_of_insertAll, ← List.mem_map,
      ← List.mem_map, hpaths.mem_iff]
  have hnamed : (insertAll ∅ ds).pathsNamed = (insertAll ∅ ds').pathsNamed := by
    funext name
    refine pathsNamed_eq_of_mem_iff fun path => ?_
    have hmem := h.mem_iff (a := (name, path))
    simpa only [List.mem_map, Prod.mk.injEq, ← mem_pathsNamed_insertAll] using hmem
  have hsize : (insertAll ∅ ds).size = (insertAll ∅ ds').size := by
    rw [size_insertAll, size_insertAll, List.toFinset_eq_of_perm _ _ hpaths]
  exact ⟨hcontains, hnamed, hsize, resolve_congr hcontains hnamed⟩

/-- **A table depends only on what was inserted**: it lists the declarations of a path in the
order of insertion and answers everything else in the same way for every order. -/
theorem insertAll_answers (ds : List Declaration) :
    (∀ path, (insertAll ∅ ds).contains path = true ↔ ∃ d ∈ ds, d.path = path) ∧
      (∀ path, (insertAll ∅ ds).get path = (ds.filter (·.path = path)).map (·.symbol)) ∧
      (∀ name, ((insertAll ∅ ds).pathsNamed name).Pairwise (· < ·) ∧
        ∀ path, path ∈ (insertAll ∅ ds).pathsNamed name ↔ ∃ d ∈ ds, d.name = name ∧ d.path = path) ∧
      (insertAll ∅ ds).size = (ds.map (·.path)).toFinset.card ∧
      ∀ ds', ds.Perm ds' →
        (insertAll ∅ ds).contains = (insertAll ∅ ds').contains ∧
          (insertAll ∅ ds).pathsNamed = (insertAll ∅ ds').pathsNamed ∧
          (insertAll ∅ ds).size = (insertAll ∅ ds').size ∧
          (insertAll ∅ ds).resolve = (insertAll ∅ ds').resolve :=
  ⟨fun _ => contains_iff_of_insertAll, get_of_insertAll ds,
    fun name => ⟨pairwise_pathsNamed _ name, fun _ => mem_pathsNamed_insertAll⟩, size_insertAll ds,
    fun _ hperm => answers_of_perm (hperm.map _)⟩

/-- A struct of which only the place is of interest. -/
def structAt (path name : String) (line : Nat) (members : List Declaration) : Declaration :=
  ⟨⟨name, path, line, .everyone, none, none, "", none, .record .structKey ⟨none, [], true⟩, false⟩,
    members⟩

/-- Two declarations at one path, and a third of their name, in two orders. -/
theorem insertAll_answers_overloads :
    ∃ ds ds' : List Declaration, ds.Perm ds' ∧
      ((insertAll ∅ ds).get "S::F").map (·.line) = [2, 3] ∧
      ((insertAll ∅ ds').get "S::F").map (·.line) = [3, 2] ∧
      (insertAll ∅ ds).pathsNamed "F" = ["F", "S::F"] ∧
      (insertAll ∅ ds').pathsNamed "F" = ["F", "S::F"] ∧
      (insertAll ∅ ds).size = 2 ∧ (insertAll ∅ ds').size = 2 ∧
      (insertAll ∅ ds).resolve = (insertAll ∅ ds').resolve := by
  have hperm := List.reverse_perm
    [structAt "S::F" "F" 2 [], structAt "S::F" "F" 3 [], structAt "F" "F" 5 []]
  obtain ⟨-, -, -, -, horder⟩ := insertAll_answers
    [structAt "S::F" "F" 2 [], structAt "S::F" "F" 3 [], structAt "F" "F" 5 []]
  obtain ⟨-, hnamed, hsize, hresolve⟩ := horder _ hperm.symm
  refine ⟨_, _, hperm.symm, rfl, rfl, rfl, ?_, rfl, ?_, hresolve⟩
  · rw [← hnamed]
    rfl
  · rw [← hsize]
    rfl

end AnnotatedHeader.SymbolTable
