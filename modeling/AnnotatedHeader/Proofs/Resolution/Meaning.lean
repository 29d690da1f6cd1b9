import AnnotatedHeader.Proofs.QualifiedPath
import AnnotatedHeader.Proofs.Resolution
import Mathlib.Data.List.Sort

/-! What a path means.

`Means` says what a path stands for in the docs of a declaration, one rule for each way of
meaning something, with the conditions under which no earlier way applies. Resolving finds
what the rules say and nothing else (`resolve_eq_iff_means`). -/
namespace AnnotatedHeader

open QualifiedPath (Encloses IsQualified)

namespace SymbolTable

/-- The path speaks of the documented declaration or of what is under it. -/
def IsSelf (path : String) : Prop := path = "Self" ∨ ∃ rest, path = "Self::" ++ rest

/-- Of the scopes around `context` the innermost under which `path` is declared. -/
structure Innermost (table : SymbolTable) (path context scope : String) : Prop where
  encloses : Encloses scope context
  declared : table.contains (scope ++ "::" ++ path) = true
  longest : ∀ inner, Encloses inner context → scope.length < inner.length →
    table.contains (inner ++ "::" ++ path) = false

/-- The path is declared neither as it is written nor under a scope around `context`. -/
structure Missing (table : SymbolTable) (path context : String) : Prop where
  asWritten : table.contains path = false
  around : ∀ scope, Encloses scope context → table.contains (scope ++ "::" ++ path) = false

/-- A declaration of that name stands at the path. -/
def Named (ds : List Declaration) (name path : String) : Prop :=
  ∃ d ∈ Declaration.walkAll ds, d.name = name ∧ d.path = path

/-- What a path means in the docs of the declaration at `context`, where `ds` is declared. -/
inductive Means (ds : List Declaration) (path context : String) : Resolution → Prop where
  | self (form : path = "Self") (declared : (ofTrees ds).contains context = true) :
      Means ds path context (.found context)
  | noSelf (form : path = "Self") (missing : (ofTrees ds).contains context = false) :
      Means ds path context .unresolved
  | underSelf {rest : String} (form : path = "Self::" ++ rest)
      (declared : (ofTrees ds).contains (context ++ "::" ++ rest) = true) :
      Means ds path context (.found (context ++ "::" ++ rest))
  | notUnderSelf {rest : String} (form : path = "Self::" ++ rest)
      (missing : (ofTrees ds).contains (context ++ "::" ++ rest) = false) :
      Means ds path context .unresolved
  | asWritten (form : ¬ IsSelf path) (declared : (ofTrees ds).contains path = true) :
      Means ds path context (.found path)
  | around {scope : String} (form : ¬ IsSelf path)
      (missing : (ofTrees ds).contains path = false)
      (innermost : (ofTrees ds).Innermost path context scope) :
      Means ds path context (.found (scope ++ "::" ++ path))
  | byName {target : String} (form : ¬ IsSelf path)
      (missing : (ofTrees ds).Missing path context) (bare : ¬ IsQualified path)
      (only : ∀ p, Named ds path p ↔ p = target) : Means ds path context (.found target)
  | ambiguous {candidates : List String} (form : ¬ IsSelf path)
      (missing : (ofTrees ds).Missing path context) (bare : ¬ IsQualified path)
      (increasing : candidates.Pairwise (· < ·)) (several : 2 ≤ candidates.length)
      (all : ∀ p, p ∈ candidates ↔ Named ds path p) :
      Means ds path context (.ambiguous candidates)
  | nothing (form : ¬ IsSelf path) (missing : (ofTrees ds).Missing path context)
      (nowhere : IsQualified path ∨ ∀ p, ¬ Named ds path p) : Means ds path context .unresolved

variable {table : SymbolTable} {path context scope target rest : String}

theorem join_of_ne_empty (h : scope ≠ "") (path : String) :
    QualifiedPath.join scope path = scope ++ "::" ++ path :=
  if_neg (by simpa using h)

/-! ### The documented declaration -/

theorem ofSelf?_underSelf (rest context : String) :
    ofSelf? ("Self::" ++ rest) context = some (QualifiedPath.join context rest) := by
  have hself : Text.afterLead? "Self".toList ("Self::" ++ rest).toList =
      some (':' :: ':' :: rest.toList) := Text.afterLead?_eq_some_iff.2 (by simp)
  have hunder : Text.afterLead? "::".toList (':' :: ':' :: rest.toList) = some rest.toList :=
    Text.afterLead?_eq_some_iff.2 rfl
  simp only [ofSelf?, hself, hunder, Option.map_some, String.ofList_toList]

theorem ofSelf?_eq_none (h : ¬ IsSelf path) (context : String) : ofSelf? path context = none := by
  unfold ofSelf?
  split
  · rename_i hself
    exact absurd (.inl (String.toList_injective (Text.afterLead?_eq_some_iff.1 hself))) h
  · rename_i after _ hself
    rw [Option.map_eq_none_iff, Option.eq_none_iff_forall_ne_some]
    intro tail hunder
    refine absurd (.inr ⟨.ofList tail, String.toList_injective ?_⟩) h
    rw [Text.afterLead?_eq_some_iff.1 hself, Text.afterLead?_eq_some_iff.1 hunder]
    simp
  · rfl

theorem resolve_self (table : SymbolTable) (context : String) :
    table.resolve "Self" context = table.exact context := rfl

theorem resolve_underSelf (table : SymbolTable) (hcontext : context ≠ "") (rest : String) :
    table.resolve ("Self::" ++ rest) context = table.exact (context ++ "::" ++ rest) := by
  rw [resolve, ofSelf?_underSelf, join_of_ne_empty hcontext]

/-! ### Scopes -/

/-- The innermost scope is the first that is looked at. -/
theorem find?_enclosing_iff :
    (QualifiedPath.enclosing context).find? (fun s => table.contains (QualifiedPath.join s path)) =
      some scope ↔ table.Innermost path context scope := by
  have hpairwise := QualifiedPath.pairwise_enclosing context
  constructor
  · intro h
    obtain ⟨hdeclared, inside, outside, hsplit, hinside⟩ := List.find?_eq_some_iff_append.1 h
    have hscope : Encloses scope context :=
      QualifiedPath.mem_enclosing_iff.1 (List.mem_of_find?_eq_some h)
    rw [join_of_ne_empty hscope.ne_empty] at hdeclared
    refine ⟨hscope, hdeclared, fun inner hinner hlonger => ?_⟩
    have hmem : inner ∈ inside := by
      rw [hsplit, List.pairwise_append, List.pairwise_cons] at hpairwise
      have hmem := QualifiedPath.mem_enclosing_iff.2 hinner
      rw [hsplit, List.mem_append, List.mem_cons] at hmem
      rcases hmem with hmem | rfl | hmem
      · exact hmem
      · exact absurd hlonger (Nat.lt_irrefl _)
      · exact absurd hlonger (Nat.lt_asymm (hpairwise.2.1.1 inner hmem))
    rw [← join_of_ne_empty hinner.ne_empty]
    simpa using hinside inner hmem
  · intro h
    obtain ⟨inside, outside, hsplit⟩ := List.append_of_mem (QualifiedPath.mem_enclosing_iff.2 h.encloses)
    rw [hsplit, List.pairwise_append] at hpairwise
    refine List.find?_eq_some_iff_append.2 ⟨?_, inside, outside, hsplit, fun inner hinner => ?_⟩
    · rw [join_of_ne_empty h.encloses.ne_empty]
      exact h.declared
    · have hmem : inner ∈ QualifiedPath.enclosing context := by
        rw [hsplit]
        exact List.mem_append_left _ hinner
      have hencloses := QualifiedPath.mem_enclosing_iff.1 hmem
      have hlonger := hpairwise.2.2 inner hinner scope (List.mem_cons_self ..)
      rw [join_of_ne_empty hencloses.ne_empty, h.longest inner hencloses hlonger]
      rfl

theorem resolveAround?_eq_some_iff :
    table.resolveAround? path context = some target ↔
      ∃ scope, table.Innermost path context scope ∧ scope ++ "::" ++ path = target := by
  unfold resolveAround?
  rw [List.find?_map, Option.map_eq_some_iff]
  refine exists_congr fun scope => ?_
  show _ = some scope ∧ _ ↔ _
  rw [Function.comp_def, find?_enclosing_iff]
  refine and_congr_right fun h => ?_
  rw [join_of_ne_empty h.encloses.ne_empty]

theorem resolveAround?_eq_none_iff :
    table.resolveAround? path context = none ↔
      ∀ scope, Encloses scope context → table.contains (scope ++ "::" ++ path) = false := by
  unfold resolveAround?
  rw [List.find?_eq_none, List.forall_mem_map]
  refine forall_congr' fun scope => ?_
  rw [QualifiedPath.mem_enclosing_iff]
  refine forall_congr' fun h => ?_
  rw [join_of_ne_empty h.ne_empty, Bool.not_eq_true]

/-! ### One rule after another -/

theorem resolve_of_contains (form : ¬ IsSelf path) (h : table.contains path = true)
    (context : String) : table.resolve path context = .found path := by
  simp only [resolve, ofSelf?_eq_none form, h, if_true]

theorem resolve_of_innermost (form : ¬ IsSelf path) (missing : table.contains path = false)
    (h : table.Innermost path context scope) :
    table.resolve path context = .found (scope ++ "::" ++ path) := by
  have haround := resolveAround?_eq_some_iff.2 ⟨scope, h, rfl⟩
  simp only [resolve, ofSelf?_eq_none form, missing, haround, Bool.false_eq_true, if_false]

theorem resolve_of_missing (form : ¬ IsSelf path) (h : table.Missing path context) :
    table.resolve path context =
      if QualifiedPath.isQualified path then .unresolved else table.resolveName path := by
  have haround := resolveAround?_eq_none_iff.2 h.around
  simp only [resolve, ofSelf?_eq_none form, h.asWritten, haround, Bool.false_eq_true, if_false]

/-! ### Bare names -/

theorem pathsNamed_eq_iff {ds : List Declaration} {name : String} {ps : List String} :
    (ofTrees ds).pathsNamed name = ps ↔ ps.Pairwise (· < ·) ∧ ∀ p, p ∈ ps ↔ Named ds name p := by
  constructor
  · rintro rfl
    exact ⟨pairwise_pathsNamed _ name, fun _ => mem_pathsNamed_insertAll⟩
  · rintro ⟨hincreasing, hall⟩
    refine (pairwise_pathsNamed _ name).eq_of_mem_iff hincreasing fun p => ?_
    exact mem_pathsNamed_insertAll.trans (hall p).symm

theorem resolveName_of_only {ds : List Declaration} {name : String}
    (only : ∀ p, Named ds name p ↔ p = target) : (ofTrees ds).resolveName name = .found target := by
  have hnamed : (ofTrees ds).pathsNamed name = [target] :=
    pathsNamed_eq_iff.2 ⟨List.pairwise_singleton .., fun p => List.mem_singleton.trans (only p).symm⟩
  rw [resolveName, hnamed]

theorem resolveName_of_several {ds : List Declaration} {name : String} {candidates : List String}
    (increasing : candidates.Pairwise (· < ·)) (several : 2 ≤ candidates.length)
    (all : ∀ p, p ∈ candidates ↔ Named ds name p) :
    (ofTrees ds).resolveName name = .ambiguous candidates := by
  rw [resolveName, pathsNamed_eq_iff.2 ⟨increasing, all⟩]
  match candidates, several with
  | _ :: _ :: _, _ => rfl

theorem resolveName_of_none {ds : List Declaration} {name : String}
    (none : ∀ p, ¬ Named ds name p) : (ofTrees ds).resolveName name = .unresolved := by
  have hnamed : (ofTrees ds).pathsNamed name = [] :=
    pathsNamed_eq_iff.2 ⟨.nil, fun p => iff_of_false List.not_mem_nil (none p)⟩
  rw [resolveName, hnamed]

/-! ### The rules -/

theorem resolve_of_means {ds : List Declaration} {r : Resolution} (hcontext : context ≠ "")
    (h : Means ds path context r) : (ofTrees ds).resolve path context = r := by
  cases h with
  | self form declared => rw [form, resolve_self, exact, if_pos declared]
  | noSelf form missing => rw [form, resolve_self, exact, missing, if_neg Bool.false_ne_true]
  | underSelf form declared => rw [form, resolve_underSelf _ hcontext, exact, if_pos declared]
  | notUnderSelf form missing =>
    rw [form, resolve_underSelf _ hcontext, exact, missing, if_neg Bool.false_ne_true]
  | asWritten form declared => exact resolve_of_contains form declared context
  | around form missing innermost => exact resolve_of_innermost form missing innermost
  | byName form missing bare only =>
    rw [resolve_of_missing form missing, if_neg (mt QualifiedPath.isQualified_iff.1 bare)]
    exact resolveName_of_only only
  | ambiguous form missing bare increasing several all =>
    rw [resolve_of_missing form missing, if_neg (mt QualifiedPath.isQualified_iff.1 bare)]
    exact resolveName_of_several increasing several all
  | nothing form missing nowhere =>
    rw [resolve_of_missing form missing]
    split
    · rfl
    · rename_i hbare
      exact resolveName_of_none (nowhere.resolve_left (mt QualifiedPath.isQualified_iff.2 hbare))

/-- Some rule applies to every path. -/
theorem exists_means (ds : List Declaration) (path context : String) :
    ∃ r, Means ds path context r := by
  by_cases form : IsSelf path
  · rcases form with form | ⟨rest, form⟩
    · cases hdeclared : (ofTrees ds).contains context with
      | true => exact ⟨_, .self form hdeclared⟩
      | false => exact ⟨_, .noSelf form hdeclared⟩
    · cases hdeclared : (ofTrees ds).contains (context ++ "::" ++ rest) with
      | true => exact ⟨_, .underSelf form hdeclared⟩
      | false => exact ⟨_, .notUnderSelf form hdeclared⟩
  cases hwritten : (ofTrees ds).contains path with
  | true => exact ⟨_, .asWritten form hwritten⟩
  | false =>
    cases haround : (ofTrees ds).resolveAround? path context with
    | some target =>
      obtain ⟨scope, hinnermost, -⟩ := resolveAround?_eq_some_iff.1 haround
      exact ⟨_, .around form hwritten hinnermost⟩
    | none =>
      have missing : (ofTrees ds).Missing path context :=
        ⟨hwritten, resolveAround?_eq_none_iff.1 haround⟩
      by_cases hqualified : IsQualified path
      · exact ⟨_, .nothing form missing (.inl hqualified)⟩
      obtain ⟨increasing, all⟩ := pathsNamed_eq_iff.1 (rfl : (ofTrees ds).pathsNamed path = _)
      cases hnamed : (ofTrees ds).pathsNamed path with
      | nil =>
        rw [hnamed] at all
        exact ⟨_, .nothing form missing (.inr fun p hp => List.not_mem_nil ((all p).2 hp))⟩
      | cons first others =>
        rw [hnamed] at increasing all
        cases others with
        | nil =>
          exact ⟨_, .byName form missing hqualified fun p => (all p).symm.trans List.mem_singleton⟩
        | cons second others =>
          exact ⟨_, .ambiguous form missing hqualified increasing (by simp) all⟩

/-- **Resolving finds what a path means**, and nothing that is not declared. -/
theorem resolve_eq_iff_means (ds : List Declaration) (path : String) {context : String}
    (hcontext : context ≠ "") :
    (∀ r, (ofTrees ds).resolve path context = r ↔ Means ds path context r) ∧
      ∀ target, (ofTrees ds).resolve path context = .found target →
        (ofTrees ds).contains target = true := by
  refine ⟨fun r => ⟨?_, resolve_of_means hcontext⟩, fun target => contains_of_resolve⟩
  rintro rfl
  obtain ⟨r, h⟩ := exists_means ds path context
  rwa [resolve_of_means hcontext h]

/-- From a nested struct the name `A` is that of its outer struct's member, from outside it is one
of two. -/
theorem resolve_eq_iff_means_outer :
    ∃ ds, "Foo::Inner::Deep" ≠ "" ∧ (ofTrees ds).resolve "A" "Foo::Inner::Deep" = .found "Foo::A" ∧
      Means ds "A" "Foo::Inner::Deep" (.found "Foo::A") ∧
      "Main" ≠ "" ∧ (ofTrees ds).resolve "A" "Main" = .ambiguous ["Bar::A", "Foo::A"] ∧
      Means ds "A" "Main" (.ambiguous ["Bar::A", "Foo::A"]) := by
  let ds := [
    structAt "Foo" "Foo" 1 [structAt "Foo::A" "A" 2 [],
      structAt "Foo::Inner" "Inner" 3 [structAt "Foo::Inner::Deep" "Deep" 4 []]],
    structAt "Bar" "Bar" 5 [structAt "Bar::A" "A" 6 []],
    structAt "Main" "Main" 7 []]
  have hinside : (ofTrees ds).resolve "A" "Foo::Inner::Deep" = .found "Foo::A" := by decide +kernel
  have houtside : (ofTrees ds).resolve "A" "Main" = .ambiguous ["Bar::A", "Foo::A"] := by decide +kernel
  exact ⟨ds, by decide, hinside, ((resolve_eq_iff_means ds "A" (by decide)).1 _).1 hinside,
    by decide, houtside, ((resolve_eq_iff_means ds "A" (by decide)).1 _).1 houtside⟩

end SymbolTable

end AnnotatedHeader
