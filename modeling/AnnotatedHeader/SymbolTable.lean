import AnnotatedHeader.Declaration
import Std.Data.ExtTreeMap
import Std.Data.ExtTreeSet

/-! Symbol tables: which paths a tree declares.

A path can be declared more than once, by overloads for one, and a name at several paths.
A table has an index for each way of asking; `insert` enters a declaration in both, and
`agree` says that they hold the same. -/
namespace AnnotatedHeader

structure Symbol where
  path : String
  name : String
  kind : Kind
  line : Nat
  deriving DecidableEq, Repr

def Declaration.symbol (d : Declaration) : Symbol := ⟨d.path, d.name, d.kind, d.line⟩

/-! ### Indexes -/

/-- The symbols at each path, in the order of insertion. -/
abbrev PathIndex := Std.ExtTreeMap String (List Symbol)

/-- The paths of the declarations of each name, each path once. -/
abbrev NameIndex := Std.ExtTreeMap String (Std.ExtTreeSet String)

def PathIndex.enter (index : PathIndex) (s : Symbol) : PathIndex :=
  index.alter s.path fun symbols => some (symbols.getD [] ++ [s])

def NameIndex.enter (index : NameIndex) (s : Symbol) : NameIndex :=
  index.alter s.name fun paths => some ((paths.getD ∅).insert s.path)

theorem PathIndex.getD_enter (index : PathIndex) (s : Symbol) (path : String) :
    (index.enter s).getD path [] =
      if s.path = path then index.getD path [] ++ [s] else index.getD path [] := by
  unfold enter
  simp only [Std.ExtTreeMap.getD_alter, Std.compare_eq_iff_eq]
  by_cases h : s.path = path
  · subst h
    rw [if_pos rfl, if_pos rfl, Std.ExtTreeMap.getD_eq_getD_getElem?]
    rfl
  · rw [if_neg h, if_neg h]

theorem PathIndex.contains_enter (index : PathIndex) (s : Symbol) (path : String) :
    (index.enter s).contains path = true ↔ s.path = path ∨ index.contains path = true := by
  unfold enter
  simp only [Std.ExtTreeMap.contains_alter, Std.compare_eq_iff_eq]
  by_cases h : s.path = path
  · simp [h]
  · simp [h]

theorem NameIndex.mem_getD_enter (index : NameIndex) (s : Symbol) (name path : String) :
    path ∈ (index.enter s).getD name ∅ ↔
      (s.name = name ∧ s.path = path) ∨ path ∈ index.getD name ∅ := by
  unfold enter
  simp only [Std.ExtTreeMap.getD_alter, Std.compare_eq_iff_eq]
  by_cases h : s.name = name
  · subst h
    rw [if_pos rfl, Option.getD_some, ← Std.ExtTreeMap.getD_eq_getD_getElem?,
      Std.ExtTreeSet.mem_insert, Std.compare_eq_iff_eq]
    simp
  · simp [h]

/-- A name has the paths at which it is declared. -/
def PathIndex.Agrees (byPath : PathIndex) (byName : NameIndex) : Prop :=
  ∀ name path, path ∈ byName.getD name ∅ ↔ ∃ s ∈ byPath.getD path [], s.name = name

theorem PathIndex.Agrees.empty : PathIndex.Agrees ∅ ∅ := by
  intro name path
  simp

theorem PathIndex.Agrees.enter {byPath : PathIndex} {byName : NameIndex}
    (h : byPath.Agrees byName) (s : Symbol) : (byPath.enter s).Agrees (byName.enter s) := by
  intro name path
  rw [NameIndex.mem_getD_enter, PathIndex.getD_enter, h name path]
  by_cases hpath : s.path = path
  · simp [hpath, or_comm, or_and_right, exists_or]
  · simp [hpath]

/-! ### Tables -/

structure SymbolTable where
  byPath : PathIndex
  byName : NameIndex
  agree : byPath.Agrees byName

namespace SymbolTable

instance : EmptyCollection SymbolTable := ⟨∅, ∅, .empty⟩

def insert (table : SymbolTable) (d : Declaration) : SymbolTable :=
  ⟨table.byPath.enter d.symbol, table.byName.enter d.symbol, table.agree.enter d.symbol⟩

/-- The table with the declarations inserted one after another, without their members. -/
def insertAll (table : SymbolTable) (ds : List Declaration) : SymbolTable := ds.foldl insert table

/-- The symbols of whole trees, in depth-first order. -/
def ofTrees (ds : List Declaration) : SymbolTable := insertAll ∅ (Declaration.walkAll ds)

def get (table : SymbolTable) (path : String) : List Symbol := table.byPath.getD path []

def contains (table : SymbolTable) (path : String) : Bool := table.byPath.contains path

/-- The paths of the declarations of that name, each once, in increasing order. -/
def pathsNamed (table : SymbolTable) (name : String) : List String :=
  (table.byName.getD name ∅).toList

/-- The number of paths. -/
def size (table : SymbolTable) : Nat := table.byPath.size

variable {table : SymbolTable} {name path : String}

theorem mem_pathsNamed : path ∈ table.pathsNamed name ↔ ∃ s ∈ table.get path, s.name = name :=
  Std.ExtTreeSet.mem_toList.trans (table.agree name path)

theorem pairwise_pathsNamed (table : SymbolTable) (name : String) :
    (table.pathsNamed name).Pairwise (· < ·) := by
  have hordered := (table.byName.getD name ∅).ordered_toList
  exact hordered.imp compareOfLessAndEq_eq_lt.1

theorem contains_of_mem_get {s : Symbol} (h : s ∈ table.get path) : table.contains path = true := by
  by_cases hcontains : table.contains path = true
  · exact hcontains
  · have hnone := eq_false_of_ne_true hcontains
    rw [get, Std.ExtTreeMap.getD_eq_fallback_of_contains_eq_false hnone] at h
    cases h

end SymbolTable

end AnnotatedHeader
