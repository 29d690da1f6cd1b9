import AnnotatedHeader.Proofs.Statement.ParamDocs
import AnnotatedHeader.Proofs.Token.Cut

/-! What the texts of a head are like.

A head is taken apart into runs of its statement's tokens, and each of its texts is a run,
joined. So its signature and those of its parameters read as lines of code
(`Head.spelled_of_classify`). -/
namespace AnnotatedHeader

open Text

/-- The text reads as a line of code: it has no line feed, and no comment starts it. -/
structure IsCodeLine (text : String) : Prop where
  unbroken : '\n' ∉ text.toList
  uncommented : Uncommented text.toList

theorem Lexeme.Cut.isCodeLine {kind : TokenKind} {text : String} (h : Cut kind text.toList) :
    IsCodeLine text :=
  ⟨h.unbroken, h.uncommented⟩

theorem Token.isCodeLine_join {ts : List Token} (h : ∀ t ∈ ts, t.IsCut) : IsCodeLine (Token.join ts) :=
  ⟨Token.not_mem_join fun t ht => (h t ht).unbroken, Token.uncommented_join h⟩

theorem IsCodeLine.append_space {a b : String} (ha : IsCodeLine a) (hb : IsCodeLine b) :
    IsCodeLine (a ++ (" " ++ b)) where
  unbroken := by simpa using ⟨ha.unbroken, hb.unbroken⟩
  uncommented := by simpa using ha.uncommented.append_space hb.uncommented

/-! ### Functions -/

namespace Head

theorem isCodeLine_signature {p : Param} (htype : IsCodeLine p.type)
    (hname : ∀ text ∈ p.name, IsCodeLine text) (hdefault : ∀ text ∈ p.default, IsCodeLine text) :
    IsCodeLine p.signature := by
  have htyped : IsCodeLine (p.type ++ p.name.elim "" (" " ++ ·)) := by
    cases hp : p.name with
    | none => simpa using htype
    | some name => exact htype.append_space (hname name hp)
  unfold Param.signature
  cases hp : p.default with
  | none => simpa using htyped
  | some text =>
    have hequals : IsCodeLine ("= " ++ text) := by
      refine ⟨?_, uncommented_of_head? (by simp; decide) (by simp)⟩
      simpa using (hdefault text hp).unbroken
    have hspace : " = " ++ text = " " ++ ("= " ++ text) := by
      rw [← String.append_assoc]
      rfl
    rw [Option.elim_some, hspace]
    exact htyped.append_space hequals

theorem isCodeLine_param {ts : List Token} (h : ∀ t ∈ ts, t.IsCut) (doc : Option DocBlock) :
    IsCodeLine (param ts doc).signature := by
  have hjoin {part : List Token} (hpart : part ⊆ ts) : IsCodeLine (Token.join part) :=
    Token.isCodeLine_join fun t ht => h t (hpart ht)
  have hdefault : ∀ text ∈ (findTop? .equals ts).map fun i => Token.join (ts.drop (i + 1)),
      IsCodeLine text := by
    rintro text htext
    obtain ⟨i, -, rfl⟩ := Option.map_eq_some_iff.1 htext
    exact hjoin (List.drop_subset ..)
  unfold param
  dsimp only
  split
  · rename_i d hd
    obtain ⟨hcut, -, -⟩ := eq_of_declarator? (Option.filter_eq_some_iff.1 hd).1
    have hall : d.type ++ d.name :: d.extents ⊆ ts := hcut ▸ List.take_subset ..
    obtain ⟨htype, hbehind⟩ := List.append_subset.1 hall
    obtain ⟨hname, hextents⟩ := List.cons_subset.1 hbehind
    refine isCodeLine_signature (hjoin (List.append_subset.2 ⟨htype, hextents⟩)) ?_ hdefault
    rintro text ⟨⟩
    exact (h _ hname).isCodeLine
  · exact isCodeLine_signature (hjoin (List.take_subset ..)) (by simp) hdefault

theorem isCodeLine_of_mem_paramsOf {docs : List (Nat × DocBlock)} {stop : Nat}
    {parts : List (Nat × List Token)} (h : ∀ e ∈ parts, ∀ t ∈ e.2, t.IsCut) :
    ∀ p ∈ paramsOf docs stop parts, IsCodeLine p.signature := by
  induction parts with
  | nil => simp [paramsOf]
  | cons part parts ih =>
    obtain ⟨hpart, hparts⟩ := List.forall_mem_cons.1 h
    rw [paramsOf]
    exact List.forall_mem_cons.2 ⟨isCodeLine_param hpart _, ih hparts⟩

theorem isCodeLine_of_mem_params {docs : List (Nat × DocBlock)} {start : Nat} {inside : List Token}
    (h : ∀ t ∈ inside, t.IsCut) : ∀ p ∈ params docs start inside, IsCodeLine p.signature := by
  rcases params_eq docs start inside with hparams | hparams
  · simp [hparams]
  · rw [hparams]
    refine isCodeLine_of_mem_paramsOf (List.forall_mem_map.2 fun part hpart t ht => ?_)
    exact h t (Nesting.subset_of_mem_partsFrom part hpart ht)

theorem NameOf.not_mem {words : List Token} {name : String} (h : NameOf words name)
    (hcut : ∀ t ∈ words, t.IsCut) : '\n' ∉ name.toList := by
  cases h with
  | word ident => exact (hcut _ (List.mem_singleton_self _)).unbroken
  | destructor sign ident =>
    obtain ⟨-, hname⟩ := List.forall_mem_cons.1 hcut
    simpa using (hname _ (List.mem_singleton_self _)).unbroken
  | operator is =>
    rw [String.toList_join, List.mem_flatMap]
    rintro ⟨text, htext, hmem⟩
    obtain ⟨t, ht, rfl⟩ := List.mem_map.1 htext
    exact (hcut t ht).unbroken hmem

end Head

/-! ### Heads -/

/-- The texts of a function can be printed on lines of their own. -/
structure FunctionShape.Spelled (shape : FunctionShape) : Prop where
  lead : ∀ text ∈ shape.lead, '\n' ∉ text.toList
  params : ∀ p ∈ shape.params, IsCodeLine p.signature
  qualifiers : ∀ text ∈ shape.qualifiers, '\n' ∉ text.toList

/-- The texts of a heading can be. -/
structure Heading.Spelled (h : Heading) : Prop where
  signature : IsCodeLine h.signature
  function : ∀ shape, h.item = .function shape → '\n' ∉ h.name.toList ∧ shape.Spelled

namespace Head

theorem eq_of_mem_nonEmpty? {text text' : String} (h : text' ∈ nonEmpty? text) : text' = text := by
  rw [Option.mem_def, nonEmpty?] at h
  split at h <;> cases h
  rfl

theorem spelled_of_functionHead {stmt : Statement} {record : Option String}
    {before rest : List Token} {first : Heading} {others : List Heading}
    (hts : ∀ t ∈ stmt.tokens, t.IsCut) (hbefore : before ⊆ stmt.tokens) (hrest : rest ⊆ stmt.tokens)
    (hf : functionHead stmt record before rest = .declares first others) :
    ∀ h ∈ first :: others, h.Spelled := by
  have hjoin {part : List Token} (hpart : part ⊆ stmt.tokens) : IsCodeLine (Token.join part) :=
    Token.isCodeLine_join fun t ht => hts t (hpart ht)
  obtain ⟨rfl, inside, behind, name, lead, special, hclose, hname, rfl⟩ := eq_of_functionHead hf
  obtain ⟨hinside, hbehind⟩ := splitClose?_subset _ hclose
  obtain ⟨words, rfl, hwords⟩ := exists_nameOf_of_functionName? hname
  obtain ⟨hlead, hspelled⟩ := List.append_subset.1 hbefore
  rw [List.forall_mem_singleton]
  refine ⟨hjoin (List.take_subset ..), ?_⟩
  rintro shape ⟨⟩
  refine ⟨hwords.not_mem fun t ht => hts t (hspelled ht), ⟨?_, ?_, ?_⟩⟩
  · intro text htext
    dsimp only at htext
    split at htext <;> cases htext
    exact (hjoin hlead).unbroken
  · exact isCodeLine_of_mem_params fun t ht => hts t (hrest (hinside ht))
  · intro text htext
    rw [eq_of_mem_nonEmpty? htext]
    exact (hjoin fun t ht => hrest (hbehind (List.takeWhile_subset _ ht))).unbroken

theorem spelled_of_property? {ts : List Token} {h : Heading} (hts : ∀ t ∈ ts, t.IsCut)
    (hp : property? ts = some h) : h.Spelled := by
  obtain ⟨us, d, shape, -, -, rfl⟩ := eq_of_property? hp
  refine ⟨Token.isCodeLine_join hts, ?_⟩
  rintro shape ⟨⟩

/-- **A head's texts are lines of code** where its statement's tokens are cut from code. -/
theorem spelled_of_classify {stmt : Statement} {record : Option String} {first : Heading}
    {others : List Heading} (hts : ∀ t ∈ stmt.tokens, t.IsCut)
    (hc : classify stmt record = .declares first others) : ∀ h ∈ first :: others, h.Spelled := by
  cases form_of_classify hc with
  | enumeration =>
    rw [List.forall_mem_singleton]
    refine ⟨Token.isCodeLine_join hts, ?_⟩
    rintro shape ⟨⟩
  | record tokens head =>
    obtain ⟨rfl, name, key, shape, -, -, -, rfl⟩ := eq_of_recordHead head
    rw [List.forall_mem_singleton]
    refine ⟨Token.isCodeLine_join (tokens ▸ hts), ?_⟩
    rintro shape ⟨⟩
  | function call head =>
    obtain ⟨hbefore, hbehind⟩ := splitCallFrom_subset _ call
    exact spelled_of_functionHead hts hbefore hbehind head
  | properties within head =>
    intro h hh
    obtain ⟨us, hsubset, hproperty⟩ := exists_of_propertyHeads head h hh
    exact spelled_of_property? (fun t ht => hts t (hsubset ht)) hproperty

end Head

end AnnotatedHeader
