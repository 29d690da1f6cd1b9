import AnnotatedHeader.Proofs.SymbolTable

/-! What is found is declared.

Of whatever form a cross-reference is, the path that resolving it finds is one of the
table's (`contains_of_resolve`), and a table of trees has the paths of their
declarations (`contains_ofTrees`). -/
namespace AnnotatedHeader.SymbolTable
variable {table : SymbolTable} {path context target name : String}

theorem contains_ofTrees {ds : List Declaration} :
    (ofTrees ds).contains path = true ↔ path ∈ (Declaration.walkAll ds).map (·.path) :=
  contains_iff_of_insertAll.trans List.mem_map.symm

theorem contains_of_resolveName (h : table.resolveName name = .found target) :
    table.contains target = true := by
  unfold resolveName at h
  split at h
  · cases h
  · rename_i found hname
    cases h
    obtain ⟨s, hs, -⟩ := mem_pathsNamed.1 (hname ▸ List.mem_singleton_self _)
    exact contains_of_mem_get hs
  · cases h

/-- Only what is declared can be meant. -/
theorem contains_of_resolve (h : table.resolve path context = .found target) :
    table.contains target = true := by
  unfold resolve at h
  split at h
  · unfold exact at h
    split at h
    · rename_i hcontains
      cases h
      exact hcontains
    · cases h
  split at h
  · rename_i hcontains
    cases h
    exact hcontains
  split at h
  · rename_i hfound
    cases h
    exact List.find?_some hfound
  split at h
  · cases h
  · exact contains_of_resolveName h

end AnnotatedHeader.SymbolTable
