/-! What is left of a text behind a part of it: a proper suffix in length, so that
reading on from it comes to an end. -/
namespace AnnotatedHeader.Text

abbrev Behind (cs : List Char) := { rest : List Char // rest.length < cs.length }

/-- What is left of a part that is no longer than the whole is left of the whole. -/
def Behind.within {cs ds : List Char} (r : Behind ds) (h : ds.length ≤ cs.length) : Behind cs :=
  ⟨r.1, Nat.lt_of_lt_of_le r.2 h⟩

/-- What is left behind a character and a part of what follows it. -/
def Behind.after {cs : List Char} (c : Char) (r : Behind cs) : Behind (c :: cs) :=
  r.within (Nat.le_succ _)

end AnnotatedHeader.Text
