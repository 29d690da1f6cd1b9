import AnnotatedHeader.Declaration.Merge
import AnnotatedHeader.Proofs.Metadata.Entries
import AnnotatedHeader.Proofs.Statement.FunctionHead
import AnnotatedHeader.Proofs.Statement.Nested
import AnnotatedHeader.Proofs.Token.Joined
import AnnotatedHeader.Proofs.Token.Solid

/-! The types of parameters, which tell overloads apart.

The last word of a parameter is taken for its name, unless it is a built-in type, it is
qualified or it stands alone. So a type that ends in another word loses it where the parameter
has no name (`EndsInName`). `parameter_names_immaterial` says that nothing else makes a
difference: a name is no part of its parameter's type, and two functions of one path are one
entity if and only if their parameters' types are the same. -/
namespace AnnotatedHeader

open Lexeme

/-- Words that name a type, with marks of pointers and references behind them. -/
structure IsParamType (ts : List Token) : Prop where
  cut : ∃ words marks, ts = words ++ marks ∧ TypeWords false words ∧
    ∀ t ∈ marks, t.isPointer = true
  /-- More than qualifiers, and no qualification without a name behind it. -/
  complete : ∃ t ∈ ts, t.kind = .ident ∧ t.text ≠ "const" ∧ t.text ≠ "volatile"
  ends : ∀ t ∈ ts.getLast?, t.kind ≠ .scope
  written : ∀ t ∈ ts, Written t.kind t.text.toList

/-- A word that can be the name of a parameter. -/
def IsParamName (x : Token) : Prop := x.kind = .ident ∧ x.text ∉ Head.builtinTypes

/-- The last word can be taken for a name: it is not built in, and it stands behind something that
does not qualify it. -/
def EndsInName (ts : List Token) : Prop :=
  ∃ before x, ts = before ++ [x] ∧ IsParamName x ∧ before ≠ [] ∧
    ∀ t ∈ before.getLast?, t.kind ≠ .scope

theorem IsParamType.ne_nil {ts : List Token} (h : IsParamType ts) : ts ≠ [] := by
  obtain ⟨t, ht, -⟩ := h.complete
  exact List.ne_nil_of_mem ht

namespace Head
variable {ts before : List Token} {x : Token}

theorem type_param_doc (ts : List Token) (doc : Option DocBlock) :
    (param ts doc).type = (param ts none).type := by
  unfold param
  dsimp only
  split <;> rfl

theorem declarator?_concat (bracket : x.kind ≠ .rbracket) :
    declarator? (before ++ [x]) = if x.kind = .ident then some ⟨before, x, []⟩ else none := by
  unfold declarator?
  rw [List.reverse_append, List.reverse_singleton, List.singleton_append, dropExtents, if_neg bracket]
  dsimp only
  rw [List.reverse_reverse, List.length_reverse, List.drop_of_length_le (by simp)]

theorem endsInName_concat_iff :
    EndsInName (before ++ [x]) ↔ IsParamName x ∧ before ≠ [] ∧ ∀ t ∈ before.getLast?, t.kind ≠ .scope := by
  constructor
  · rintro ⟨before', x', heq, hname⟩
    obtain ⟨rfl, hx⟩ := List.append_inj' heq rfl
    cases hx
    exact hname
  · rintro hname
    exact ⟨before, x, rfl, hname⟩

theorem namesParam_iff (kind : x.kind = .ident) :
    namesParam ⟨before, x, []⟩ = true ↔ EndsInName (before ++ [x]) := by
  have hbuiltin : builtinTypes.any (x.isIdent ·) = builtinTypes.contains x.text := by
    simp only [Token.isIdent, kind, beq_self_eq_true, Bool.true_and, List.contains_eq_any_beq]
  have hscope : before.getLast?.all (·.kind != .scope) = true ↔
      ∀ t ∈ before.getLast?, t.kind ≠ .scope := by
    cases before.getLast? <;> simp
  rw [endsInName_concat_iff, namesParam, Bool.and_eq_true, Bool.and_eq_true, hscope]
  dsimp only
  rw [hbuiltin, IsParamName]
  simp only [kind, Bool.not_eq_true', List.isEmpty_eq_false_iff, List.contains_eq_mem,
    decide_eq_false_iff_not, true_and]
  exact ⟨fun h => ⟨h.1.2, h.1.1, h.2⟩, fun h => ⟨⟨h.2.1, h.1⟩, h.2.2⟩⟩

/-- A parameter that ends in a name has the type in front of it. -/
theorem type_param_of_endsInName (flat : findTop? .equals (before ++ [x]) = none)
    (named : EndsInName (before ++ [x])) (doc : Option DocBlock) :
    (param (before ++ [x]) doc).type = Token.join before := by
  have hkind : x.kind = .ident := (endsInName_concat_iff.1 named).1.1
  unfold param
  dsimp only
  rw [flat, Option.getD_none, List.take_length, declarator?_concat (by simp [hkind]), if_pos hkind,
    Option.filter_some, if_pos ((namesParam_iff hkind).2 named)]
  simp

/-- Any other parameter is all type. -/
theorem type_param_of_not (flat : findTop? .equals (before ++ [x]) = none)
    (bracket : x.kind ≠ .rbracket) (unnamed : ¬ EndsInName (before ++ [x])) (doc : Option DocBlock) :
    (param (before ++ [x]) doc).type = Token.join (before ++ [x]) := by
  have hnone : (declarator? (before ++ [x])).filter namesParam = none := by
    rw [declarator?_concat bracket]
    by_cases hkind : x.kind = .ident
    · rw [if_pos hkind, Option.filter_some, if_neg (mt (namesParam_iff hkind).1 unnamed)]
    · rw [if_neg hkind, Option.filter_none]
  unfold param
  dsimp only
  rw [flat, Option.getD_none, List.take_length, hnone]

end Head

namespace IsParamType
variable {ts : List Token}

/-- Neither a type nor a name behind it has a default. -/
theorem findFrom_append (h : IsParamType ts) {us : List Token} (names : ∀ t ∈ us, t.kind = .ident) :
    findTop? .equals (ts ++ us) = none := by
  obtain ⟨words, marks, rfl, hwords, hmarks⟩ := h.cut
  have hnone : Nesting.findFrom .equals {} words = none := hwords.findFrom_eq_none (by simp) {}
  rw [findTop?, List.append_assoc, Nesting.findFrom_append hnone, Option.map_eq_none_iff,
    Nesting.findFrom_eq_none_iff]
  intro e he hkind
  rcases List.mem_append.1 (Nesting.snd_mem_of_visited he) with hmark | hname
  · rw [Token.kind_of_isPointer (hmarks _ hmark)] at hkind
    cases hkind
  · rw [names _ hname] at hkind
    cases hkind

theorem isPart_append (h : IsParamType ts) {us : List Token} (names : ∀ t ∈ us, t.kind = .ident) :
    IsPart (ts ++ us) := by
  obtain ⟨words, marks, rfl, hwords, hmarks⟩ := h.cut
  rw [List.append_assoc]
  refine hwords.isPart.append (Balanced.of_single ?_).isPart
  refine List.forall_mem_append.2 ⟨fun t ht => ?_, fun t ht => ?_⟩
  · rw [Token.kind_of_isPointer (hmarks t ht)]
    exact ⟨rfl, by simp⟩
  · rw [names t ht]
    exact ⟨rfl, by simp⟩

theorem kind_getLast (h : IsParamType ts) : ∀ t ∈ ts.getLast?, t.kind ≠ .rbracket := by
  obtain ⟨words, marks, rfl, hwords, hmarks⟩ := h.cut
  by_cases hnil : marks = []
  · rw [hnil, List.append_nil]
    intro t ht hbracket
    have hword := hwords.kind_getLast rfl t ht
    rw [hbracket] at hword
    simp at hword
  · rw [List.getLast?_append_of_ne_nil _ hnil]
    intro t ht hbracket
    have hop := Token.kind_of_isPointer (hmarks t (List.mem_of_getLast? ht))
    rw [hbracket] at hop
    cases hop

/-- A name is no part of its parameter's type. -/
theorem type_param_concat (h : IsParamType ts) {x : Token} (hx : IsParamName x) (doc : Option DocBlock) :
    (Head.param (ts ++ [x]) doc).type = Token.join ts := by
  refine Head.type_param_of_endsInName (h.findFrom_append (by simp [hx.1])) ?_ doc
  exact Head.endsInName_concat_iff.2 ⟨hx, h.ne_nil, h.ends⟩

/-- Without a name a type is kept if it does not end in one. -/
theorem type_param_iff (h : IsParamType ts) (doc : Option DocBlock) :
    (Head.param ts doc).type = Token.join ts ↔ ¬ EndsInName ts := by
  have hflat : findTop? .equals (ts ++ []) = none := h.findFrom_append (by simp)
  rw [List.append_nil] at hflat
  obtain ⟨before, x, rfl⟩ := (List.eq_nil_or_concat ts).resolve_left h.ne_nil
  rw [List.concat_eq_append] at *
  constructor
  · intro htype hnamed
    rw [Head.type_param_of_endsInName hflat hnamed] at htype
    have hsolid := congrArg Token.solid htype
    rw [Token.solid_join, Token.solid_join, List.flatMap_append, List.self_eq_append_right,
      List.flatMap_singleton] at hsolid
    exact Token.solid_ne_nil (h.written x (by simp)) hsolid
  · exact fun hunnamed =>
      Head.type_param_of_not hflat (h.kind_getLast x (by simp)) hunnamed doc

end IsParamType

/-! ### Parameter lists -/

/-- A parameter as it is written. -/
structure Parameter where
  type : List Token
  name : Option Token

namespace Parameter

def tokens (p : Parameter) : List Token := p.type ++ p.name.toList

structure IsSpelled (p : Parameter) : Prop where
  type : IsParamType p.type
  name : ∀ x ∈ p.name, IsParamName x
  /-- Its type reads as it is written. -/
  apart : Token.runsTogether none p.type = false
  /-- A lone `void` stands for no parameter. -/
  given : ∀ t, p.tokens = [t] → t.isIdent "void" = false

/-- It has no name, and part of its type is taken for one. -/
def IsMistaken (p : Parameter) : Prop := p.name = none ∧ EndsInName p.type

theorem names_tokens {p : Parameter} (h : p.IsSpelled) : ∀ t ∈ p.name.toList, t.kind = .ident :=
  fun t ht => (h.name t (Option.mem_toList.1 ht)).1

theorem type_param {p : Parameter} (h : p.IsSpelled) (right : ¬ p.IsMistaken) (doc : Option DocBlock) :
    (Head.param p.tokens doc).type = Token.join p.type := by
  unfold tokens
  cases hname : p.name with
  | none =>
    rw [Option.toList_none, List.append_nil]
    exact (h.type.type_param_iff doc).2 fun hends => right ⟨hname, hends⟩
  | some x => exact h.type.type_param_concat (h.name x hname) doc

end Parameter

/-- One parameter and more behind commas. -/
structure ParameterList where
  first : Parameter
  more : List (Token × Parameter)

namespace ParameterList

def all (l : ParameterList) : List Parameter := l.first :: l.more.map Prod.snd

def tokens (l : ParameterList) : List Token :=
  listed l.first.tokens (l.more.map fun e => (e.1, e.2.tokens))

/-- The kinds and the texts of the tokens of the types. -/
def types (l : ParameterList) : List (List (TokenKind × String)) :=
  l.all.map fun p => p.type.map Token.shape

structure IsSpelled (l : ParameterList) : Prop where
  all : ∀ p ∈ l.all, p.IsSpelled
  commas : ∀ e ∈ l.more, e.1.kind = .comma

end ParameterList

/-- A statement with these parameters declares the function. -/
def Declaration.HasParameters (d : Declaration) (l : ParameterList) : Prop :=
  ∃ (s : Statement) (record : Option String) (h : Heading) (c : FunctionCut),
    Head.classify s record = .declares h [] ∧ c.Declares s h ∧ c.inside = l.tokens ∧ d.item = h.item

theorem Head.map_type_paramsOf (docs : List (Nat × DocBlock)) (stop : Nat)
    (parts : List (Nat × List Token)) :
    (paramsOf docs stop parts).map (·.type) =
      (parts.map Prod.snd).map fun part => (param part none).type := by
  induction parts with
  | nil => rfl
  | cons part parts ih =>
    rw [paramsOf, List.map_cons, ih, type_param_doc]
    rfl

variable {l l' : ParameterList}

/-- A list of parameters is cut into them. -/
theorem ParameterList.map_snd_commaParts (h : l.IsSpelled) :
    (commaParts l.tokens).map Prod.snd = l.all.map Parameter.tokens := by
  obtain ⟨hfirst, hmore⟩ := List.forall_mem_cons.1 h.all
  have hpart {p : Parameter} (hp : p.IsSpelled) : IsPart p.tokens :=
    hp.type.isPart_append (Parameter.names_tokens hp)
  rw [tokens, map_snd_commaParts_listed (hpart hfirst), List.map_map, all, List.map_cons, List.map_map]
  · rfl
  · intro e he
    obtain ⟨e, he', rfl⟩ := List.mem_map.1 he
    exact ⟨h.commas e he', hpart (hmore _ (List.mem_map_of_mem he'))⟩

/-- A list of parameters is not that of a function without any. -/
theorem ParameterList.params_tokens (h : l.IsSpelled) (docs : List (Nat × DocBlock)) (start : Nat) :
    Head.params docs start l.tokens = Head.paramsOf docs (start + l.tokens.length)
      ((commaParts l.tokens).map fun (offset, part) => (start + offset, part)) := by
  have hfirst := (List.forall_mem_cons.1 h.all).1
  have hne : l.first.tokens ≠ [] := List.append_ne_nil_of_left_ne_nil hfirst.type.ne_nil _
  unfold Head.params
  dsimp only
  rw [if_neg]
  split
  · rename_i hnil
    exact absurd (List.append_eq_nil_iff.1 hnil).1 hne
  · rename_i t hsingle
    rcases List.append_eq_singleton_iff.1 hsingle with ⟨hnil, -⟩ | ⟨htokens, -⟩
    · exact absurd hnil hne
    · simp [hfirst.given t htokens]
  · exact Bool.false_ne_true

/-- The parameters' types are those that are written. -/
theorem ParameterList.map_type_params (h : l.IsSpelled) (right : ∀ p ∈ l.all, ¬ p.IsMistaken)
    (docs : List (Nat × DocBlock)) (start : Nat) :
    (Head.params docs start l.tokens).map (·.type) = l.all.map fun p => Token.join p.type := by
  have hparts : ((commaParts l.tokens).map fun (offset, part) => (start + offset, part)).map Prod.snd =
      l.all.map Parameter.tokens := by
    rw [List.map_map]
    exact l.map_snd_commaParts h
  rw [l.params_tokens h, Head.map_type_paramsOf, hparts, List.map_map]
  exact List.map_congr_left fun p hp => Parameter.type_param (h.all p hp) (right p hp) none

/-- Types are written alike if they have the same text. -/
theorem join_eq_join_iff {p q : Parameter} (hp : p.IsSpelled) (hq : q.IsSpelled) :
    Token.join p.type = Token.join q.type ↔ p.type.map Token.shape = q.type.map Token.shape := by
  constructor
  · intro hjoin
    have hread := (Token.map_shape_scan_join_iff hp.type.written).2 hp.apart
    rw [hjoin] at hread
    exact hread.symm.trans ((Token.map_shape_scan_join_iff hq.type.written).2 hq.apart)
  · exact Token.join_congr

theorem map_eq_map_iff {α β γ : Type} {f : α → β} {g : α → γ} {as bs : List α}
    (h : ∀ a ∈ as, ∀ b ∈ bs, f a = f b ↔ g a = g b) : as.map f = bs.map f ↔ as.map g = bs.map g := by
  induction as generalizing bs with
  | nil => simp [eq_comm]
  | cons a as ih =>
    cases bs with
    | nil => simp
    | cons b bs =>
      rw [List.map_cons, List.map_cons, List.map_cons, List.map_cons, List.cons.injEq, List.cons.injEq,
        h a (List.mem_cons_self ..) b (List.mem_cons_self ..),
        ih fun a ha b hb => h a (List.mem_cons_of_mem _ ha) b (List.mem_cons_of_mem _ hb)]

theorem Declaration.HasParameters.item_eq {d : Declaration} (hd : d.HasParameters l) :
    d.kind = .function ∧ ∃ docs start,
      d.item.paramTypes = (Head.params docs start l.tokens).map (·.type) := by
  obtain ⟨s, record, h, c, -, hc, hinside, hitem⟩ := hd
  obtain ⟨special, hfunction⟩ := hc.item
  rw [kind, hitem, hfunction, hinside]
  exact ⟨rfl, _, _, rfl⟩

/-- Two functions are one entity if and only if their parameters' types are the same. -/
theorem sameEntity_iff_types {a b : Declaration} (ha : a.HasParameters l) (hb : b.HasParameters l')
    (hl : l.IsSpelled) (hl' : l'.IsSpelled) (path : a.path = b.path)
    (right : ∀ p ∈ l.all ++ l'.all, ¬ p.IsMistaken) :
    Declaration.sameEntity a b = true ↔ l.types = l'.types := by
  obtain ⟨hright, hright'⟩ := List.forall_mem_append.1 right
  obtain ⟨hkind, docs, start, htypes⟩ := ha.item_eq
  obtain ⟨hkind', docs', start', htypes'⟩ := hb.item_eq
  rw [l.map_type_params hl hright] at htypes
  rw [l'.map_type_params hl' hright'] at htypes'
  have hsame : Declaration.sameEntity a b = true ↔ a.item.paramTypes = b.item.paramTypes := by
    simp [Declaration.sameEntity, path, hkind, hkind']
  rw [hsame, htypes, htypes']
  exact map_eq_map_iff fun p hp q hq => join_eq_join_iff (hl.all p hp) (hl'.all q hq)

/-- **Parameter names do not matter to overloads**, except where a word of a type is taken for the name
that its parameter does not have. -/
theorem parameter_names_immaterial {ts : List Token} (hts : IsParamType ts) {x : Token}
    (hx : IsParamName x) (doc doc' : Option DocBlock) :
    ((Head.param ts doc).type = (Head.param (ts ++ [x]) doc').type ↔ ¬ EndsInName ts) ∧
    ∀ (a b : Declaration) (l l' : ParameterList), a.HasParameters l → b.HasParameters l' →
      l.IsSpelled → l'.IsSpelled → a.path = b.path → (∀ p ∈ l.all ++ l'.all, ¬ p.IsMistaken) →
      (Declaration.sameEntity a b = true ↔ l.types = l'.types) := by
  refine ⟨?_, fun a b l l' => sameEntity_iff_types⟩
  rw [hts.type_param_concat hx]
  exact hts.type_param_iff doc

/-- A function that is announced without its parameter's name, and defined with it. -/
theorem parameter_names_immaterial_reference :
    let announced : Declaration := ⟨⟨"F", "F", 1, .everyone, none, none, "void F(const Foo&)", none,
      .function ⟨some "void", [⟨none, "const Foo&", none, none⟩], none, false, false⟩, false⟩, []⟩
    let defined : Declaration := ⟨⟨"F", "F", 2, .everyone, none, none, "void F(const Foo& X)", none,
      .function ⟨some "void", [⟨some "X", "const Foo&", none, none⟩], none, false, true⟩, false⟩, []⟩
    (Head.param [⟨.ident, "const", 1⟩, ⟨.ident, "Foo", 1⟩, ⟨.op, "&", 1⟩] none).type =
        (Head.param [⟨.ident, "const", 1⟩, ⟨.ident, "Foo", 1⟩, ⟨.op, "&", 1⟩, ⟨.ident, "X", 1⟩] none).type ∧
      Declaration.sameEntity announced defined = true := by
  intro announced defined
  let ts : List Token := [⟨.ident, "const", 1⟩, ⟨.ident, "Foo", 1⟩, ⟨.op, "&", 1⟩]
  have htokens : Token.tokenize "const Foo&" 1 = ts := by
    cbv
  have hclean : (scan "const Foo&".toList).all (·.kind ≠ .stray) = true := by
    cbv
  have htype : IsParamType ts := by
    refine ⟨⟨[⟨.ident, "const", 1⟩, ⟨.ident, "Foo", 1⟩], [⟨.op, "&", 1⟩], rfl,
      .word (.inl rfl) (.word (.inl rfl) .nil), by simp [Token.isPointer, Token.isOp]⟩, by simp [ts],
      by simp [ts], ?_⟩
    rw [← htokens]
    exact Token.written_of_mem_tokenize (by simpa using hclean)
  have hname : IsParamName ⟨.ident, "X", 1⟩ := ⟨rfl, by decide⟩
  have hends : ¬ EndsInName ts := by
    intro h
    have h : EndsInName ([⟨.ident, "const", 1⟩, ⟨.ident, "Foo", 1⟩] ++ [⟨.op, "&", 1⟩]) := h
    cases (Head.endsInName_concat_iff.1 h).1.1
  have hgiven (name : Option Token) : ∀ t, Parameter.tokens ⟨ts, name⟩ = [t] → t.isIdent "void" = false := by
    rintro t ⟨⟩
  have hunnamed : ParameterList.IsSpelled ⟨⟨ts, none⟩, []⟩ :=
    ⟨by simpa [ParameterList.all] using ⟨htype, by simp, by decide +kernel, hgiven none⟩, by simp⟩
  have hnamed : ParameterList.IsSpelled ⟨⟨ts, some ⟨.ident, "X", 1⟩⟩, []⟩ :=
    ⟨by simpa [ParameterList.all] using ⟨htype, by simpa using hname, by decide +kernel, hgiven _⟩, by simp⟩
  obtain ⟨htypes, hentity⟩ := parameter_names_immaterial htype hname none none
  refine ⟨htypes.2 hends, (hentity announced defined ⟨⟨ts, none⟩, []⟩
    ⟨⟨ts, some ⟨.ident, "X", 1⟩⟩, []⟩ ?_ ?_ hunnamed hnamed rfl ?_).2 rfl⟩
  · refine ⟨⟨[⟨.ident, "void", 1⟩, ⟨.ident, "F", 1⟩, ⟨.lparen, "(", 1⟩] ++ ts ++ [⟨.rparen, ")", 1⟩], [],
      false, 1⟩, none, ⟨"F", "void F(const Foo&)", announced.item⟩, ⟨[⟨.ident, "void", 1⟩],
      [⟨.ident, "F", 1⟩], ⟨.lparen, "(", 1⟩, ts, ⟨.rparen, ")", 1⟩, []⟩, by decide +kernel, ?_, rfl, rfl⟩
    exact ⟨⟨[], rfl⟩, rfl, rfl, ⟨by simp, fun _ => rfl⟩, rfl, false, by decide +kernel⟩
  · refine ⟨⟨[⟨.ident, "void", 2⟩, ⟨.ident, "F", 2⟩, ⟨.lparen, "(", 2⟩] ++ ts ++ [⟨.ident, "X", 1⟩,
      ⟨.rparen, ")", 2⟩], [], true, 2⟩, none, ⟨"F", "void F(const Foo& X)", defined.item⟩,
      ⟨[⟨.ident, "void", 2⟩], [⟨.ident, "F", 2⟩], ⟨.lparen, "(", 2⟩, ts ++ [⟨.ident, "X", 1⟩],
        ⟨.rparen, ")", 2⟩, []⟩, by decide +kernel, ?_, rfl, rfl⟩
    exact ⟨⟨[], rfl⟩, rfl, rfl, ⟨by simp, fun _ => rfl⟩, rfl, false, by decide +kernel⟩
  · simp [ParameterList.all, Parameter.IsMistaken, hends]

/-- Two overloads with unnamed parameters of constant types are taken for one function. -/
theorem exists_sameEntity_of_types_ne :
    ∃ (a b : Declaration) (l l' : ParameterList), a.HasParameters l ∧ b.HasParameters l' ∧
      l.tokens = Token.tokenize "const Foo" 1 ∧ l'.tokens = Token.tokenize "const Bar" 1 ∧
      l.IsSpelled ∧ l'.IsSpelled ∧ a.path = b.path ∧ l.types ≠ l'.types ∧
      Declaration.sameEntity a b = true := by
  -- Either has a parameter of type `const`.
  let function (name : String) (line : Nat) : Declaration :=
    ⟨⟨"F", "F", line, .everyone, none, none, "void F(const " ++ name ++ ")", none,
      .function ⟨some "void", [⟨some name, "const", none, none⟩], none, false, false⟩, false⟩, []⟩
  let parameter (name : String) : ParameterList :=
    ⟨⟨[⟨.ident, "const", 1⟩, ⟨.ident, name, 1⟩], none⟩, []⟩
  have hfoo : (function "Foo" 1).HasParameters (parameter "Foo") :=
    ⟨⟨[⟨.ident, "void", 1⟩, ⟨.ident, "F", 1⟩, ⟨.lparen, "(", 1⟩] ++ (parameter "Foo").tokens ++
        [⟨.rparen, ")", 1⟩], [], false, 1⟩, none, ⟨"F", "void F(const Foo)", (function "Foo" 1).item⟩,
      ⟨[⟨.ident, "void", 1⟩], [⟨.ident, "F", 1⟩], ⟨.lparen, "(", 1⟩, (parameter "Foo").tokens,
        ⟨.rparen, ")", 1⟩, []⟩, by decide +kernel,
      ⟨⟨[], rfl⟩, rfl, rfl, ⟨by simp, fun _ => rfl⟩, rfl, false, by decide +kernel⟩, rfl, rfl⟩
  have hbar : (function "Bar" 2).HasParameters (parameter "Bar") :=
    ⟨⟨[⟨.ident, "void", 2⟩, ⟨.ident, "F", 2⟩, ⟨.lparen, "(", 2⟩] ++ (parameter "Bar").tokens ++
        [⟨.rparen, ")", 2⟩], [], false, 2⟩, none, ⟨"F", "void F(const Bar)", (function "Bar" 2).item⟩,
      ⟨[⟨.ident, "void", 2⟩], [⟨.ident, "F", 2⟩], ⟨.lparen, "(", 2⟩, (parameter "Bar").tokens,
        ⟨.rparen, ")", 2⟩, []⟩, by decide +kernel,
      ⟨⟨[], rfl⟩, rfl, rfl, ⟨by simp, fun _ => rfl⟩, rfl, false, by decide +kernel⟩, rfl, rfl⟩
  have hspelled (name : String) (other : name ≠ "const" ∧ name ≠ "volatile")
      (written : ∀ t ∈ (parameter name).tokens, Written t.kind t.text.toList) :
      (parameter name).IsSpelled := by
    refine ⟨List.forall_mem_singleton.2 ⟨⟨⟨_, [], (List.append_nil _).symm,
      .word (.inl rfl) (.word (.inl rfl) .nil), by rintro t ⟨⟩⟩, ⟨⟨.ident, name, 1⟩,
      List.mem_cons_of_mem _ (List.mem_cons_self ..), rfl, other⟩, ?_, written⟩, ?_, rfl, ?_⟩, ?_⟩
    · rintro t ⟨⟩
      exact TokenKind.noConfusion
    · rintro x ⟨⟩
    · rintro t ⟨⟩
    · rintro e ⟨⟩
  have hfooTokens : Token.tokenize "const Foo" 1 = (parameter "Foo").tokens := by
    cbv
  have hbarTokens : Token.tokenize "const Bar" 1 = (parameter "Bar").tokens := by
    cbv
  have hfooClean : (scan "const Foo".toList).all (·.kind ≠ .stray) = true := by
    cbv
  have hbarClean : (scan "const Bar".toList).all (·.kind ≠ .stray) = true := by
    cbv
  refine ⟨_, _, _, _, hfoo, hbar, hfooTokens.symm, hbarTokens.symm, hspelled "Foo" (by decide) ?_,
    hspelled "Bar" (by decide) ?_, rfl, by decide, by decide +kernel⟩
  · rw [← hfooTokens]
    exact Token.written_of_mem_tokenize (by simpa using hfooClean)
  · rw [← hbarTokens]
    exact Token.written_of_mem_tokenize (by simpa using hbarClean)

end AnnotatedHeader
