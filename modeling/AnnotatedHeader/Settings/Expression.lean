import AnnotatedHeader.Settings.Value

/-! Expressions: what a settings file is a sequence of.

An expression is a line, or several if its value goes over line ends: the header of a
table, a key with its value, or nothing. Reading one leaves less than there was
(`length_read?`), so a file is read to its end. -/
namespace AnnotatedHeader.Settings

open Text

inductive Expression where
  | blank
  | table (path : List String)
  /-- One more element of an array of tables. -/
  | element (path : List String)
  | entry (key : List String) (value : Value)
  deriving DecidableEq, Repr

namespace Expression

theorem length_afterClosing {closing cs rest behind : List Char}
    (h : rest.length < (skipBlank cs).length)
    (hc : afterLead? closing (skipBlank rest) = some behind) : behind.length < cs.length := by
  have h1 := length_skipBlank cs
  have h2 := length_skipBlank rest
  have h3 := length_afterLead? hc
  omega

/-- Reads the path of a table's header from behind its brackets; `closing` ends it. -/
def header? (closing cs : List Char) : Option (List String × Behind cs) :=
  match key? (skipBlank cs) with
  | some (path, ⟨rest, h⟩) =>
    match hc : afterLead? closing (skipBlank rest) with
    | some behind =>
      some (path, ⟨behind, length_afterClosing h hc⟩)
    | none => none
  | none => none

/-- Reads a key and its value. -/
def entry? (cs : List Char) : Option (Expression × Behind cs) :=
  match key? cs with
  | some (key, ⟨afterKey, hkey⟩) =>
    match he : skipBlank afterKey with
    | '=' :: more =>
      (value? maxDepth (skipBlank more)).map fun (value, rest) =>
        (.entry key value, rest.within (by
          have h1 := length_skipBlank afterKey
          have h2 := length_skipBlank more
          rw [he, List.length_cons] at h1
          omega))
    | _ => none
  | none => none

/-- Reads an expression that is not blank, from its first character. -/
def start? (cs : List Char) : Option (Expression × Behind cs) :=
  match cs with
  | '[' :: '[' :: tail =>
    (header? [']', ']'] tail).map fun (path, rest) => (.element path, (rest.after '[').after '[')
  | '[' :: tail => (header? [']'] tail).map fun (path, rest) => (.table path, rest.after '[')
  | cs => entry? cs

/-- Reads an expression and the end of its line. -/
def read? (cs : List Char) : Option (Expression × List Char) :=
  match afterLine? cs with
  | some rest => some (.blank, rest)
  | none => do
    let (e, ⟨rest, _⟩) ← start? (skipBlank cs)
    return (e, ← afterLine? rest)

theorem length_read? {cs rest : List Char} {e : Expression} (h : read? cs = some (e, rest))
    (hne : cs ≠ []) : rest.length < cs.length := by
  unfold read? at h
  split at h
  · rename_i hl
    cases h
    exact (length_afterLine? hl).2 hne
  · obtain ⟨⟨e', tail, ht⟩, _, h⟩ := Option.bind_eq_some_iff.1 h
    obtain ⟨last, hl, h⟩ := Option.bind_eq_some_iff.1 h
    cases h
    have h1 := (length_afterLine? hl).1
    have h2 := length_skipBlank cs
    omega

/-- The expressions of a text. -/
def all? (cs : List Char) : Option (List Expression) :=
  match cs with
  | [] => some []
  | c :: tail =>
    match _h : read? (c :: tail) with
    | some (e, rest) => (all? rest).map (e :: ·)
    | none => none
termination_by cs.length
decreasing_by exact length_read? _h (List.cons_ne_nil _ _)

end Expression

end AnnotatedHeader.Settings
