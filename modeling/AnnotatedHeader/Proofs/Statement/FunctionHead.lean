import AnnotatedHeader.Proofs.Statement.ParamDocs
import Mathlib

/-! How the head of a function is cut.

A function is declared by tokens that stand side by side (`FunctionCut`): what precedes its
name, the name, the parameters in parentheses and what follows them. `exists_cut_of_classify`
finds them in any statement that declares a function. -/
namespace AnnotatedHeader

/-- The tokens of a function's head. -/
structure FunctionCut where
  lead : List Token
  name : List Token
  opening : Token
  inside : List Token
  closing : Token
  qualifiers : List Token

namespace FunctionCut

def tokens (c : FunctionCut) : List Token :=
  c.lead ++ c.name ++ c.opening :: (c.inside ++ c.closing :: c.qualifiers)

/-- The heading is what a statement declares that starts with these tokens. -/
structure Declares (c : FunctionCut) (s : Statement) (h : Heading) : Prop where
  starts : c.tokens <+: s.tokens
  opening : c.opening.kind = .lparen
  closing : c.closing.kind = .rparen
  name : c.name ≠ [] ∧ ((∀ t ∈ s.tokens, t.kind = .tilde → t.text = "~") →
    h.name = String.join (c.name.map (·.text)))
  signature : h.signature = Token.join c.tokens
  item : ∃ special, h.item = .function
    { lead := if c.lead.isEmpty then none else some (Token.join c.lead)
      params := Head.params s.paramDocs ((c.lead ++ c.name).length + 1) c.inside
      qualifiers := Head.nonEmpty? (Token.join c.qualifiers)
      special
      hasBody := s.hasBody }

end FunctionCut

/-! ### Where the cuts are -/

theorem exists_opening_of_splitCallFrom {n : Nesting} {ts before behind : List Token}
    (h : splitCallFrom n ts = some (before, behind)) :
    ∃ opening, opening.kind = .lparen ∧ ts = before ++ opening :: behind := by
  induction ts generalizing n before with
  | nil => cases h
  | cons t ts ih =>
    have hfurther (h : (splitCallFrom (n.step t) ts).map
        (fun cut => (t :: cut.1, cut.2)) = some (before, behind)) :
        ∃ opening, opening.kind = .lparen ∧ t :: ts = before ++ opening :: behind := by
      obtain ⟨⟨before', behind'⟩, hlater, heq⟩ := Option.map_eq_some_iff.1 h
      cases heq
      obtain ⟨opening, hopening, rfl⟩ := ih hlater
      exact ⟨opening, hopening, rfl⟩
    unfold splitCallFrom at h
    dsimp only at h
    split at h
    · split at h
      · split at h
        · exact hfurther h
        · cases h
      · cases h
      · rename_i close opening rest hparen
        split at h
        · rename_i hoperator
          cases h
          rw [Bool.and_eq_true, Bool.and_eq_true, beq_iff_eq, beq_iff_eq] at hoperator
          exact ⟨opening, hoperator.2, rfl⟩
        · cases h
          exact ⟨t, hparen, rfl⟩
      · rename_i hparen _
        cases h
        exact ⟨t, hparen, rfl⟩
      · exact hfurther h
    · exact hfurther h

theorem exists_closing_of_splitClose? {depth : Nat} {ts inside behind : List Token}
    (h : splitClose? depth ts = some (inside, behind)) :
    ∃ closing, closing.kind = .rparen ∧ ts = inside ++ closing :: behind := by
  fun_induction splitClose? depth ts generalizing inside with
  | case1 => cases h
  | case2 t ts kind =>
    cases h
    exact ⟨t, kind, rfl⟩
  | case3 t ts depth _ ih | case4 t ts depth _ ih | case5 t ts depth _ _ _ ih =>
    obtain ⟨⟨inside', behind'⟩, hlater, heq⟩ := Option.map_eq_some_iff.1 h
    cases heq
    obtain ⟨closing, hclosing, rfl⟩ := ih hlater
    exact ⟨closing, hclosing, rfl⟩

namespace Head

theorem NameOf.eq_join {words : List Token} {name : String} (h : NameOf words name)
    (tildes : ∀ t ∈ words, t.kind = .tilde → t.text = "~") : name = String.join (words.map (·.text)) := by
  cases h with
  | word ident => simp [String.join]
  | @destructor tilde t sign ident =>
    rw [List.map_cons, tildes tilde (List.mem_cons_self ..) sign]
    simp [String.join]
  | operator is => rfl

theorem NameOf.ne_nil {words : List Token} {name : String} (h : NameOf words name) : words ≠ [] := by
  cases h with
  | word | destructor | operator => exact List.cons_ne_nil _ _

theorem exists_cut_of_functionHead {s : Statement} {record : Option String}
    {before rest : List Token} {first : Heading} {others : List Heading}
    (hcall : splitCall? s.tokens = some (before, rest))
    (hf : functionHead s record before rest = .declares first others) :
    others = [] ∧ ∃ c : FunctionCut, c.Declares s first := by
  obtain ⟨opening, hopening, htokens⟩ := exists_opening_of_splitCallFrom hcall
  obtain ⟨rfl, inside, behind, name, lead, special, hclose, hname, rfl⟩ := eq_of_functionHead hf
  obtain ⟨closing, hclosing, rfl⟩ := exists_closing_of_splitClose? hclose
  obtain ⟨words, rfl, hwords⟩ := exists_nameOf_of_functionName? hname
  obtain ⟨further, hfurther⟩ := List.takeWhile_prefix (l := behind) (·.kind != .colon)
  refine ⟨rfl, ⟨lead, words, opening, inside, closing, behind.takeWhile (·.kind != .colon)⟩, ?_⟩
  have hstarts : FunctionCut.tokens ⟨lead, words, opening, inside, closing,
      behind.takeWhile (·.kind != .colon)⟩ ++ further = s.tokens := by
    rw [htokens]
    conv => rhs; rw [← hfurther]
    simp [FunctionCut.tokens]
  have hlength : (lead ++ words).length + inside.length +
      (behind.takeWhile (·.kind != .colon)).length + 2 = (FunctionCut.tokens ⟨lead, words, opening,
        inside, closing, behind.takeWhile (·.kind != .colon)⟩).length := by
    simp [FunctionCut.tokens]
    omega
  refine ⟨⟨further, hstarts⟩, hopening, hclosing,
    ⟨hwords.ne_nil, fun h => hwords.eq_join fun t ht => h t ?_⟩, ?_, _, rfl⟩
  · rw [htokens]
    exact List.mem_append_left _ (List.mem_append_right _ ht)
  · rw [hlength, ← hstarts, List.take_left]

/-- **Whatever declares a function has such a head.** -/
theorem exists_cut_of_classify {s : Statement} {record : Option String} {first h : Heading}
    {others : List Heading} (hc : classify s record = .declares first others)
    (hh : h ∈ first :: others) {shape : FunctionShape} (hitem : h.item = .function shape) :
    ∃ c : FunctionCut, c.Declares s h := by
  cases form_of_classify hc with
  | enumeration =>
    rw [List.mem_singleton] at hh
    rw [hh] at hitem
    cases hitem
  | record tokens head =>
    obtain ⟨rfl, name, key, record, -, -, -, rfl⟩ := eq_of_recordHead head
    rw [List.mem_singleton] at hh
    rw [hh] at hitem
    cases hitem
  | function call head =>
    obtain ⟨rfl, hcut⟩ := exists_cut_of_functionHead call head
    rw [List.mem_singleton] at hh
    exact hh ▸ hcut
  | properties within head =>
    obtain ⟨us, -, hproperty⟩ := exists_of_propertyHeads head h hh
    obtain ⟨vs, d, property, -, -, rfl⟩ := eq_of_property? hproperty
    cases hitem

end Head

end AnnotatedHeader
