import AnnotatedHeader.Statement.Head

/-! The forms of a head.

A statement declares an enum, a record, a function or properties: `Form` lists the four, and
`form_of_classify` says that there is no other. Each form has a lemma that says in which of the
statement's tokens its name stands and what its heading is, so what is claimed of all heads is
shown form by form and no reader is opened again. -/
namespace AnnotatedHeader

theorem Nesting.subset_of_mem_partsFrom {n : Nesting} {offset : Nat} {ts : List Token} :
    ∀ e ∈ partsFrom n offset ts, e.2 ⊆ ts := by
  induction ts generalizing n offset with
  | nil => simp [partsFrom]
  | cons t ts ih =>
    have hlater : ∀ e ∈ partsFrom (n.step t) (offset + 1) ts, e.2 ⊆ t :: ts :=
      fun e he => List.subset_cons_of_subset _ (ih e he)
    rw [partsFrom]
    split
    · exact List.forall_mem_cons.2 ⟨List.nil_subset _, hlater⟩
    · cases hparts : partsFrom (n.step t) (offset + 1) ts with
      | nil => simp [consToken]
      | cons part parts =>
        rw [hparts] at hlater
        obtain ⟨hpart, hparts⟩ := List.forall_mem_cons.1 hlater
        exact List.forall_mem_cons.2 ⟨List.cons_subset.2 ⟨List.mem_cons_self .., hpart⟩, hparts⟩

namespace Head
variable {ts : List Token} {first h : Heading} {others : List Heading}

/-! ### Records -/

theorem ident_of_mem_plainIdents {n : Nesting} :
    ∀ t ∈ plainIdents n ts, t ∈ ts ∧ t.kind = .ident := by
  induction ts generalizing n with
  | nil => simp [plainIdents]
  | cons t ts ih =>
    have hlater : ∀ u ∈ plainIdents (n.step t) ts, u ∈ t :: ts ∧ u.kind = .ident :=
      fun u hu => ⟨List.mem_cons_of_mem _ (ih u hu).1, (ih u hu).2⟩
    rw [plainIdents]
    split
    · rename_i hplain
      simp only [Bool.and_eq_true, beq_iff_eq] at hplain
      exact List.forall_mem_cons.2 ⟨⟨List.mem_cons_self .., hplain.1.1⟩, hlater⟩
    · exact hlater

/-- A record has the name of one of its words. -/
theorem eq_of_recordHead {keyword : Token} {hasBody : Bool}
    (hr : recordHead keyword ts hasBody = .declares first others) :
    others = [] ∧ ∃ name key shape, name ∈ ts ∧ name.kind = .ident ∧ shape.hasBody = hasBody ∧
      first = ⟨name.text, Token.join (keyword :: ts), .record key shape⟩ := by
  unfold recordHead at hr
  dsimp only at hr
  split at hr
  · cases hr
  · rename_i name hname
    cases hr
    obtain ⟨hmem, hident⟩ := ident_of_mem_plainIdents name (List.mem_of_getLast? hname)
    exact ⟨rfl, name, _, _, List.take_subset _ _ hmem, hident, rfl, rfl⟩

/-! ### Functions -/

/-- The tokens of a function's name, and the name that they make. -/
inductive NameOf : List Token → String → Prop where
  | word {t : Token} (ident : t.kind = .ident) : NameOf [t] t.text
  | destructor {tilde t : Token} (sign : tilde.kind = .tilde) (ident : t.kind = .ident) :
      NameOf [tilde, t] ("~" ++ t.text)
  | operator {keyword : Token} {symbol : List Token} (is : keyword.isIdent "operator" = true) :
      NameOf (keyword :: symbol) (String.join ((keyword :: symbol).map (·.text)))

theorem exists_nameOf_of_functionName? {lead : List Token} {name : String}
    (h : functionName? ts = some (name, lead)) : ∃ words, ts = lead ++ words ∧ NameOf words name := by
  unfold functionName? at h
  dsimp only at h
  split at h
  · rename_i word before hdrop
    cases h
    have hword : word.isIdent "operator" = true := by
      have hfirst := List.head?_dropWhile_not (!·.isIdent "operator") ts.reverse
      rw [hdrop] at hfirst
      simpa using hfirst
    refine ⟨word :: (ts.reverse.takeWhile (!·.isIdent "operator")).reverse, ?_, .operator hword⟩
    conv => lhs; rw [← List.reverse_reverse ts,
      ← List.takeWhile_append_dropWhile (p := (!·.isIdent "operator")) (l := ts.reverse), hdrop]
    simp
  · have hreverse {us : List Token} (hus : ts.reverse = us) : ts = us.reverse := by
      rw [← hus, List.reverse_reverse]
    split at h
    · rename_i name before hts
      split at h
      · rename_i hident
        split at h
        · rename_i tilde rest
          split at h
          · rename_i htilde
            cases h
            exact ⟨[tilde, name], by simp [hreverse hts], .destructor htilde hident⟩
          · cases h
            exact ⟨[name], by simp [hreverse hts], .word hident⟩
        · cases h
          exact ⟨[name], by simp [hreverse hts], .word hident⟩
      · cases h
    · cases h

/-- A function is cut at its parameter list. -/
theorem eq_of_functionHead {s : Statement} {record : Option String} {before rest : List Token}
    (hf : functionHead s record before rest = .declares first others) :
    others = [] ∧ ∃ inside behind name lead special,
      splitClose? 0 rest = some (inside, behind) ∧ functionName? before = some (name, lead) ∧
      first =
        { name
          signature := Token.join (s.tokens.take
            (before.length + inside.length + (behind.takeWhile (·.kind != .colon)).length + 2))
          item := .function
            { lead := if lead.isEmpty then none else some (Token.join lead)
              params := params s.paramDocs (before.length + 1) inside
              qualifiers := nonEmpty? (Token.join (behind.takeWhile (·.kind != .colon)))
              special
              hasBody := s.hasBody } } := by
  unfold functionHead at hf
  split at hf
  · cases hf
  rename_i inside behind hclose
  split at hf
  · cases hf
  rename_i name lead hname
  dsimp only at hf
  split at hf
  · cases hf
  split at hf
  · cases hf
  · cases hf
    exact ⟨rfl, inside, behind, name, lead, _, hclose, hname, rfl⟩

/-! ### Properties -/

/-- Extents start with a bracket. -/
theorem exists_of_dropExtents {rest : List Token} (h : dropExtents ts = some rest) :
    ∃ extents, ts = extents ++ rest ∧ ∀ t ∈ extents.getLast?, t.kind = .lbracket := by
  fun_induction dropExtents ts with
  | case1 =>
    cases h
    exact ⟨[], rfl, by simp⟩
  | case2 t ts _ opening rest' hrest ih =>
    obtain ⟨extents, rfl, hlast⟩ := ih h
    have hopening : opening.kind = .lbracket := by
      simpa [hrest] using List.head?_dropWhile_not (·.kind != .lbracket) ts
    have hts : ts = ts.takeWhile (·.kind != .lbracket) ++ opening :: (extents ++ rest) := by
      rw [← hrest, List.takeWhile_append_dropWhile]
    refine ⟨t :: (ts.takeWhile (·.kind != .lbracket) ++ opening :: extents), ?_, ?_⟩
    · conv => lhs; rw [hts]
      simp
    · rw [← List.cons_append, List.getLast?_append, List.getLast?_cons, Option.some_or]
      rintro t ⟨⟩
      cases hextents : extents.getLast? with
      | none => exact hopening
      | some e => exact hlast e hextents
  | case3 => cases h
  | case4 =>
    cases h
    exact ⟨[], rfl, by simp⟩

/-- A declarator declares the word behind its type. -/
theorem eq_of_declarator? {d : Declarator} (h : declarator? ts = some d) :
    ts = d.type ++ d.name :: d.extents ∧ d.name.kind = .ident ∧
      ∀ t ∈ d.extents.head?, t.kind = .lbracket := by
  unfold declarator? at h
  split at h
  · rename_i name before hbefore
    obtain ⟨extents, hreverse, hlast⟩ := exists_of_dropExtents hbefore
    obtain rfl : ts = before.reverse ++ name :: extents.reverse := by
      rw [← ts.reverse_reverse, hreverse]
      simp
    have hdrop : (before.reverse ++ name :: extents.reverse).drop (before.length + 1) = extents.reverse := by
      rw [← List.length_reverse, ← List.drop_drop, List.drop_left, List.drop_one, List.tail_cons]
    rw [hdrop] at h
    split at h
    · cases h
      refine ⟨rfl, ‹_›, ?_⟩
      rwa [List.head?_reverse]
    · cases h
  · cases h

/-- A property is called what its declarator declares. -/
theorem eq_of_property? (hp : property? ts = some h) :
    ∃ us d shape, us ⊆ ts ∧ declarator? us = some d ∧
      h = ⟨d.name.text, Token.join ts, .property shape⟩ := by
  unfold property? at hp
  dsimp only at hp
  split at hp
  · rename_i d hd
    split at hp
    · cases hp
    · cases hp
      refine ⟨_, d, _, fun t ht => ?_, hd, rfl⟩
      exact List.take_subset _ _ (List.take_subset _ _ ht)
  · cases hp

theorem sharedType_subset (first : List Token) (name : String) : sharedType first name ⊆ first := by
  unfold sharedType
  split
  · intro t ht
    have hdrop := (List.dropWhile_suffix _).subset (List.mem_reverse.1 ht)
    exact List.takeWhile_subset _ (List.mem_reverse.1 hdrop)
  · exact List.nil_subset _

/-- Each property of a statement is one of tokens of it. -/
theorem exists_of_propertyHeads (hp : propertyHeads ts = .declares first others) :
    ∀ h ∈ first :: others, ∃ us ⊆ ts, property? us = some h := by
  have hparts : ∀ e ∈ commaParts ts, e.2 ⊆ ts := fun e he => Nesting.subset_of_mem_partsFrom e he
  unfold propertyHeads at hp
  split at hp
  · rename_i part parts heq
    rw [heq] at hparts
    obtain ⟨hpart, hparts⟩ := List.forall_mem_cons.1 hparts
    split at hp
    · rename_i hfirst
      cases hp
      refine List.forall_mem_cons.2 ⟨⟨part, hpart, hfirst⟩, fun h hh => ?_⟩
      obtain ⟨e, he, hproperty⟩ := List.mem_filterMap.1 hh
      refine ⟨_, List.append_subset.2 ⟨?_, hparts e he⟩, hproperty⟩
      exact List.Subset.trans (sharedType_subset part first.name) hpart
    · cases hp
  · cases hp

/-! ### All of them -/

/-- The four forms of what a statement declares. -/
inductive Form (s : Statement) (record : Option String) : Heading → List Heading → Prop where
  | enumeration : Form s record (enumHead s.tokens s.hasBody) []
  | record {keyword : Token} {rest : List Token} {first : Heading} {others : List Heading}
      (tokens : s.tokens = keyword :: rest)
      (head : recordHead keyword rest s.hasBody = .declares first others) :
      Form s record first others
  | function {before behind : List Token} {first : Heading} {others : List Heading}
      (call : splitCall? s.tokens = some (before, behind))
      (head : functionHead s record before behind = .declares first others) :
      Form s record first others
  | properties {first : Heading} {others : List Heading} (within : record.isSome = true)
      (head : propertyHeads s.tokens = .declares first others) : Form s record first others

theorem form_of_classify {s : Statement} {record : Option String}
    (hc : classify s record = .declares first others) : Form s record first others := by
  unfold classify at hc
  split at hc
  · cases hc
  rename_i keyword rest htokens
  split at hc
  · cases hc
    exact .enumeration
  split at hc
  · exact .record htokens hc
  split at hc
  · rename_i before behind hcall
    exact .function hcall hc
  · split at hc
    · rename_i hrecord
      rw [Bool.and_eq_true] at hrecord
      exact .properties hrecord.1 hc
    · cases hc

end Head

end AnnotatedHeader
