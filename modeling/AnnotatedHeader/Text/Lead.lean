/-! Texts that start with a given one. -/
namespace AnnotatedHeader.Text

/-- The text behind `lead`, when it starts with `lead`. -/
def afterLead? (lead cs : List Char) : Option (List Char) :=
  if lead.isPrefixOf cs then some (cs.drop lead.length) else none

theorem afterLead?_eq_some_iff {lead cs rest : List Char} :
    afterLead? lead cs = some rest ↔ cs = lead ++ rest := by
  simp only [afterLead?, Option.ite_none_right_eq_some, Option.some.injEq,
    List.isPrefixOf_iff_prefix]
  constructor
  · rintro ⟨⟨tail, rfl⟩, rfl⟩
    rw [List.drop_left]
  · rintro rfl
    exact ⟨List.prefix_append .., List.drop_left⟩

theorem length_afterLead? {lead cs rest : List Char} (h : afterLead? lead cs = some rest) :
    rest.length ≤ cs.length := by
  rw [afterLead?_eq_some_iff.1 h, List.length_append]
  exact Nat.le_add_left ..

end AnnotatedHeader.Text
