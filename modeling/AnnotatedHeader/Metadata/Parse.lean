import AnnotatedHeader.Fault
import AnnotatedHeader.Metadata
import AnnotatedHeader.Token.Spacing

/-! Reading metadata from the tokens between a macro's parentheses.

Commas outside parentheses separate entries. An entry is cut at its first `=`;
a value that is one parenthesized group is read as metadata again. -/
namespace AnnotatedHeader.Metadata

/-- `t` put in front of the first part. -/
def consToken (t : Token) : List (List Token) → List (List Token)
  | [] => [[t]]
  | p :: ps => (t :: p) :: ps

/-- The runs between commas outside parentheses; `none` when the parentheses do
not balance. `depth` counts those that are open. -/
def splitTop? (depth : Nat) : List Token → Option (List (List Token))
  | [] => if depth = 0 then some [[]] else none
  | t :: ts =>
    match t.kind, depth with
    | .comma, 0 => (splitTop? 0 ts).map ([] :: ·)
    | .lparen, depth => (splitTop? (depth + 1) ts).map (consToken t)
    | .rparen, 0 => none
    | .rparen, depth + 1 => (splitTop? depth ts).map (consToken t)
    | _, depth => (splitTop? depth ts).map (consToken t)

/-- The tokens before a closing parenthesis that matches the one in front of the
tokens, when it is the last of them. `depth` counts further ones that are open. -/
def insideGroup? (depth : Nat) : List Token → Option (List Token)
  | [] => none
  | t :: ts =>
    match t.kind, depth with
    | .lparen, depth => (insideGroup? (depth + 1) ts).map (t :: ·)
    | .rparen, 0 => if ts.isEmpty then some [] else none
    | .rparen, depth + 1 => (insideGroup? depth ts).map (t :: ·)
    | _, depth => (insideGroup? depth ts).map (t :: ·)

/-- The inside of a value that is one group. -/
def group? : List Token → Option (List Token)
  | t :: ts => if t.kind = .lparen then insideGroup? 0 ts else none
  | [] => none

/-- A backslash is dropped and what follows it kept. -/
def unescaped : List Char → List Char
  | '\\' :: c :: cs => c :: unescaped cs
  | ['\\'] => []
  | c :: cs => c :: unescaped cs
  | [] => []

/-- The content of a string literal. -/
def unquoted (cs : List Char) : List Char :=
  match cs.dropWhile (· != '"') with
  | _ :: rest => unescaped (if rest.getLast? = some '"' then rest.dropLast else cs)
  | [] => unescaped cs

/-- The text of a value that is no group. -/
def valueText : List Token → String
  | [t] => if t.kind = .string then .ofList (unquoted t.text.toList) else t.text
  | ts => Token.join ts

def isEquals (t : Token) : Bool := t.kind == .equals

theorem length_consToken (t : Token) {ps : List (List Token)} (h : ps ≠ []) :
    (consToken t ps).flatten.length + (consToken t ps).length =
      ps.flatten.length + ps.length + 1 := by
  cases ps with
  | nil => exact absurd rfl h
  | cons p ps =>
    simp only [consToken, List.flatten_cons, List.length_append, List.length_cons]
    omega

theorem consToken_ne_nil (t : Token) (ps : List (List Token)) : consToken t ps ≠ [] := by
  cases ps <;> simp [consToken]

/-- The parts and the commas between them make up the tokens. -/
theorem length_splitTop? {depth : Nat} {ts : List Token} {ps : List (List Token)}
    (h : splitTop? depth ts = some ps) :
    ps ≠ [] ∧ ps.flatten.length + ps.length = ts.length + 1 := by
  fun_induction splitTop? depth ts generalizing ps with
  | case1 =>
    injection h with h
    subst h
    simp
  | case2 => cases h
  | case3 t ts _ ih =>
    obtain ⟨qs, hqs, rfl⟩ := Option.map_eq_some_iff.1 h
    have := (ih hqs).2
    simp only [List.flatten_cons, List.nil_append, List.length_cons]
    exact ⟨by simp, by omega⟩
  | case4 t ts depth _ ih =>
    obtain ⟨qs, hqs, rfl⟩ := Option.map_eq_some_iff.1 h
    exact ⟨consToken_ne_nil _ _, by rw [length_consToken _ (ih hqs).1, (ih hqs).2, List.length_cons]⟩
  | case5 => cases h
  | case6 t ts depth _ ih =>
    obtain ⟨qs, hqs, rfl⟩ := Option.map_eq_some_iff.1 h
    exact ⟨consToken_ne_nil _ _, by rw [length_consToken _ (ih hqs).1, (ih hqs).2, List.length_cons]⟩
  | case7 t ts depth _ _ _ _ ih =>
    obtain ⟨qs, hqs, rfl⟩ := Option.map_eq_some_iff.1 h
    exact ⟨consToken_ne_nil _ _, by rw [length_consToken _ (ih hqs).1, (ih hqs).2, List.length_cons]⟩

theorem length_insideGroup? {depth : Nat} {ts inside : List Token}
    (h : insideGroup? depth ts = some inside) : inside.length < ts.length := by
  fun_induction insideGroup? depth ts generalizing inside with
  | case1 => cases h
  | case2 t ts depth _ ih =>
    obtain ⟨r, hr, rfl⟩ := Option.map_eq_some_iff.1 h
    exact Nat.succ_lt_succ (ih hr)
  | case3 t ts => simp_all
  | case4 t ts => simp_all
  | case5 t ts depth _ ih =>
    obtain ⟨r, hr, rfl⟩ := Option.map_eq_some_iff.1 h
    exact Nat.succ_lt_succ (ih hr)
  | case6 t ts depth _ _ _ ih =>
    obtain ⟨r, hr, rfl⟩ := Option.map_eq_some_iff.1 h
    exact Nat.succ_lt_succ (ih hr)

theorem length_group? {ts inside : List Token} (h : group? ts = some inside) :
    inside.length + 1 < ts.length := by
  cases ts with
  | nil => cases h
  | cons t ts =>
    simp only [group?, Option.ite_none_right_eq_some] at h
    exact Nat.succ_lt_succ (length_insideGroup? h.2)

mutual

/-- The metadata that the tokens hold. -/
def read (ts : List Token) : Except MetadataFlaw Metadata :=
  match _h : splitTop? 0 ts with
  | some parts => readEntries parts
  | none => .error .unbalanced
termination_by (ts.length + 1, 1)
decreasing_by
  rw [(length_splitTop? _h).2]
  exact Prod.Lex.right _ (by decide)

/-- An entry a part; empty parts hold none. -/
def readEntries : List (List Token) → Except MetadataFlaw Metadata
  | [] => .ok []
  | part :: parts =>
    if part.isEmpty then readEntries parts
    else
      let key := Token.join (part.takeWhile (!isEquals ·))
      match _h : part.dropWhile (!isEquals ·) with
      | [] => (readEntries parts).map ((key, .flag) :: ·)
      | _ :: value =>
        if key.isEmpty then .error .missingKey
        else if value.isEmpty then .error (.missingValue key)
        else do
          let v ← readValue value
          let rest ← readEntries parts
          return (key, v) :: rest
termination_by parts => (parts.flatten.length + parts.length, 0)
decreasing_by
  · exact Prod.Lex.left _ _ (by simp only [List.flatten_cons, List.length_append, List.length_cons]; omega)
  · exact Prod.Lex.left _ _ (by simp only [List.flatten_cons, List.length_append, List.length_cons]; omega)
  · have hlen := (List.dropWhile_sublist (l := part) fun t => !isEquals t).length_le
    rw [_h, List.length_cons] at hlen
    exact Prod.Lex.left _ _ (by simp only [List.flatten_cons, List.length_append, List.length_cons]; omega)
  · exact Prod.Lex.left _ _ (by simp only [List.flatten_cons, List.length_append, List.length_cons]; omega)

def readValue (ts : List Token) : Except MetadataFlaw MetaValue :=
  match _h : group? ts with
  | some inside => (read inside).map .group
  | none => .ok (.text (valueText ts))
termination_by (ts.length, 0)
decreasing_by
  exact Prod.Lex.left _ _ (length_group? _h)

end

end AnnotatedHeader.Metadata
