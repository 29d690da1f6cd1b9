import AnnotatedHeader.Proofs.Statement.Forms
import AnnotatedHeader.Proofs.Statement.Nested
import AnnotatedHeader.Proofs.Token.LaidOut
import AnnotatedHeader.Statement.Head

/-! How a parameter is cut, and in which order it is printed.

A parameter is written as a type, a name, the extents of an array and a default value
(`ParamCut`). Its signature has the extents in front of the name (`ParamCut.Cuts.laidOut`), so
it is read as it was written if and only if there are none: `ParamCut.Cuts.lexes` and
`ParamCut.Cuts.peel`. -/
namespace AnnotatedHeader

open Lexeme

namespace Head

/-- Whether the parameter has a name with the extents of an array behind it. -/
def hasExtents (ts : List Token) : Bool :=
  ((declarator? (ts.take ((findTop? .equals ts).getD ts.length))).filter namesParam).any
    (!·.extents.isEmpty)

end Head

theorem Nesting.exists_of_findFrom {kind : TokenKind} {n : Nesting} {ts : List Token} {i : Nat}
    (h : findFrom kind n ts = some i) :
    ∃ t, t.kind = kind ∧ ts = ts.take i ++ t :: ts.drop (i + 1) := by
  induction ts generalizing n i with
  | nil => cases h
  | cons t ts ih =>
    rw [findFrom] at h
    split at h
    · rename_i htop
      cases h
      rw [Bool.and_eq_true, decide_eq_true_eq] at htop
      exact ⟨t, htop.1, rfl⟩
    · obtain ⟨j, hj, rfl⟩ := Option.map_eq_some_iff.1 h
      obtain ⟨t', hkind, hts⟩ := ih hj
      exact ⟨t', hkind, congrArg (t :: ·) hts⟩

/-- The tokens of a parameter. -/
structure ParamCut where
  type : List Token
  name : Option Token
  extents : List Token
  default : Option (Token × List Token)

namespace ParamCut

def defaultTokens (c : ParamCut) : List Token := c.default.elim [] fun e => e.1 :: e.2

def tokens (c : ParamCut) : List Token := c.type ++ (c.name.toList ++ (c.extents ++ c.defaultTokens))

/-- The parameter is written with these tokens. -/
structure Cuts (c : ParamCut) (ts : List Token) : Prop where
  tokens : ts = c.tokens
  name : ∀ x ∈ c.name, x.kind = .ident
  extents : ∀ t ∈ c.extents.head?, t.kind = .lbracket
  named : c.name = none → c.extents = []
  default : ∀ e ∈ c.default, e.1.kind = .equals
  hasExtents : Head.hasExtents ts = !c.extents.isEmpty
  signature (doc : Option DocBlock) : (Head.param ts doc).signature =
    Token.join (c.type ++ c.extents) ++ c.name.elim "" (" " ++ ·.text) ++
      c.default.elim "" (" = " ++ Token.join ·.2)

theorem exists_cuts (ts : List Token) : ∃ c : ParamCut, c.Cuts ts := by
  obtain ⟨decl, default, hts, hdefault, hdecl, htext⟩ : ∃ (decl : List Token)
      (default : Option (Token × List Token)),
      ts = decl ++ default.elim [] (fun e => e.1 :: e.2) ∧ (∀ e ∈ default, e.1.kind = .equals) ∧
      ts.take ((findTop? .equals ts).getD ts.length) = decl ∧
      (findTop? .equals ts).map (fun i => Token.join (ts.drop (i + 1))) =
        default.map fun e => Token.join e.2 := by
    cases hfind : findTop? .equals ts with
    | none => exact ⟨ts, none, by simp, by simp, by simp, rfl⟩
    | some i =>
      obtain ⟨t, hkind, hts⟩ := Nesting.exists_of_findFrom hfind
      exact ⟨ts.take i, some (t, ts.drop (i + 1)), hts, by simpa using hkind, rfl, rfl⟩
  cases hd : (Head.declarator? decl).filter Head.namesParam with
  | none =>
    refine ⟨⟨decl, none, [], default⟩, ?_, by simp, by simp, by simp, hdefault, ?_, fun doc => ?_⟩
    · simpa [tokens, defaultTokens] using hts
    · simp [Head.hasExtents, hdecl, hd]
    · simp only [Head.param, hdecl, hd, htext, Param.signature, List.append_nil]
      cases default <;> rfl
  | some d =>
    obtain ⟨hsplit, hname, hextents⟩ := Head.eq_of_declarator? (Option.filter_eq_some_iff.1 hd).1
    refine ⟨⟨d.type, some d.name, d.extents, default⟩, ?_, by simpa using hname, hextents, by simp,
      hdefault, ?_, fun doc => ?_⟩
    · simpa [tokens, defaultTokens, hsplit] using hts
    · simp [Head.hasExtents, hdecl, hd]
    · simp only [Head.param, hdecl, hd, htext, Param.signature]
      cases default <;> rfl

namespace Cuts
variable {c : ParamCut} {ts : List Token} (h : c.Cuts ts) (written : ∀ t ∈ ts, Written t.kind t.text.toList)
  (doc : Option DocBlock)
include h written

theorem text_default : ∀ e ∈ c.default, e.1.text = "=" := by
  intro e he
  have hmem : e.1 ∈ ts := by
    rw [h.tokens, ParamCut.tokens, defaultTokens, Option.mem_def.1 he]
    simp
  have hequals : Token.shape e.1 = (.equals, "=") :=
    Token.shape_of_sign (h.default e he) (written _ hmem) (by decide) (by decide)
  exact congrArg Prod.snd hequals

/-- The extents are printed in front of the name. -/
theorem laidOut : Token.LaidOut (c.type ++ c.extents ++ c.name.toList ++ c.defaultTokens)
    (Head.param ts doc).signature.toList := by
  rw [h.signature, String.toList_append, String.toList_append]
  refine ((Token.LaidOut.join _).append ?_).append ?_
  · cases c.name with
    | none => exact .nil
    | some x =>
      have htext : (" " ++ x.text).toList = ' ' :: x.text.toList := String.toList_append
      rw [Option.elim_some, htext]
      exact .gap (by decide) (.single x)
  · have hequals := h.text_default written
    unfold defaultTokens
    cases hdefault : c.default with
    | none => exact .nil
    | some e =>
      have htext : (" = " ++ Token.join e.2).toList =
          ' ' :: (e.1.text.toList ++ ' ' :: (Token.join e.2).toList) := by
        rw [hequals e hdefault, String.toList_append]
        rfl
      rw [Option.elim_some, Option.elim_some, htext]
      exact .gap (by decide) (.token e.1 (.gap (by decide) (.join e.2)))

theorem weight_signature : weight (Head.param ts doc).signature.toList = weightOf (ts.map Token.shape) := by
  rw [(h.laidOut written doc).weight_eq, h.tokens, ParamCut.tokens]
  refine weightOf_perm (List.Perm.map _ ?_)
  rw [List.append_assoc, List.append_assoc]
  refine List.Perm.append_left _ ?_
  rw [← List.append_assoc, ← List.append_assoc c.name.toList]
  exact List.perm_append_comm.append_right _

/-- A name is read behind a space, as a default value is. -/
theorem lexes_name : Lexes (c.name.elim "" (" " ++ ·.text)).toList (c.name.toList.map Token.shape) ∧
    ∀ d ∈ (c.name.elim "" (" " ++ ·.text)).toList.head?, breaks d = true := by
  cases hx : c.name with
  | none => exact ⟨.nil, by simp⟩
  | some x =>
    have hwritten : Written x.kind x.text.toList := by
      refine written x ?_
      rw [h.tokens, ParamCut.tokens, hx]
      simp
    have htext : (" " ++ x.text).toList = ' ' :: x.text.toList := String.toList_append
    rw [Option.elim_some, htext]
    exact ⟨.gap (by decide) (Token.lexes_single hwritten), by simp; decide⟩

theorem lexes_default (apart : Token.runsTogether none ts = false) :
    Lexes (c.default.elim "" (" = " ++ Token.join ·.2)).toList (c.defaultTokens.map Token.shape) ∧
      ∀ d ∈ (c.default.elim "" (" = " ++ Token.join ·.2)).toList.head?, breaks d = true := by
  have hequals := h.text_default written
  rw [h.tokens, ParamCut.tokens, ← List.append_assoc, ← List.append_assoc] at apart
  have hdefault : ∀ t ∈ c.defaultTokens, Written t.kind t.text.toList := by
    intro t ht
    refine written t ?_
    rw [h.tokens, ParamCut.tokens]
    simp [ht]
  unfold defaultTokens at hdefault apart ⊢
  cases hx : c.default with
  | none => exact ⟨.nil, by simp⟩
  | some e =>
    rw [hx, Option.elim_some] at hdefault apart
    obtain ⟨hsign, hvalue⟩ := List.forall_mem_cons.1 hdefault
    -- Behind its sign a value is joined as on its own.
    have hapart : Token.runsTogether none e.2 = false := by
      rw [← Token.runsTogether_afresh (.inr (.inr (h.default e hx)))]
      exact Token.runsTogether_right apart
    have htext : (" = " ++ Token.join e.2).toList =
        ' ' :: (e.1.text.toList ++ ' ' :: (Token.join e.2).toList) := by
      rw [hequals e hx, String.toList_append]
      rfl
    rw [Option.elim_some, Option.elim_some, htext]
    refine ⟨.gap (by decide) ?_, by simp; decide⟩
    exact (Token.lexes_single hsign).append (.gap (by decide) (Token.lexes_join hvalue hapart))
      (by simp; decide)

/-- Without extents the signature is read as the parameter. -/
theorem lexes (flat : c.extents = []) (apart : Token.runsTogether none ts = false) :
    Lexes (Head.param ts doc).signature.toList (ts.map Token.shape) := by
  obtain ⟨hname, hspaceName⟩ := h.lexes_name written
  obtain ⟨hdefault, hspaceDefault⟩ := h.lexes_default written apart
  have htokens : ts = c.type ++ (c.name.toList ++ c.defaultTokens) := by
    rw [h.tokens, ParamCut.tokens, flat, List.nil_append]
  rw [h.signature, flat, List.append_nil, String.toList_append, String.toList_append, List.append_assoc]
  rw [htokens] at written apart ⊢
  rw [List.map_append, List.map_append]
  exact (Token.lexes_join (List.forall_mem_append.1 written).1 (Token.runsTogether_left apart)).append
    (hname.append hdefault hspaceDefault) (forall_head?_append hspaceName hspaceDefault)

/-- Extents would be read where the name is written. -/
theorem extents_eq_nil {ds : List Char} {ss : List (TokenKind × String)}
    (exact : Exact ((Head.param ts doc).signature.toList ++ ds) (ts.map Token.shape ++ ss)) :
    c.extents = [] := by
  by_contra hextents
  obtain ⟨e, es, hes⟩ := List.exists_cons_of_ne_nil hextents
  obtain ⟨x, hx⟩ := Option.ne_none_iff_exists'.1 (mt h.named hextents)
  have he : e ∈ ts := by
    rw [h.tokens, ParamCut.tokens, hes]
    simp
  have hbracket : Token.shape e = (.lbracket, "[") :=
    Token.shape_of_sign (h.extents e (by rw [hes]; rfl)) (written e he) (by decide) (by decide)
  obtain ⟨hkind, htext⟩ := Prod.mk.inj hbracket
  obtain ⟨as, bs, hjoin, htype, hbs⟩ := (Token.LaidOut.join (c.type ++ c.extents)).exists_append
  rw [hes] at hbs
  have htokens := h.tokens
  rw [h.signature, String.toList_append, String.toList_append, hjoin, List.append_assoc,
    List.append_assoc, List.append_assoc, htokens, ParamCut.tokens, List.map_append,
    List.append_assoc, hx, Option.toList_some] at exact
  have hwritten : ∀ t ∈ c.type, Written t.kind t.text.toList := by
    intro t ht
    refine written t ?_
    rw [h.tokens]
    exact List.mem_append_left _ ht
  obtain ⟨-, hread, -⟩ := htype.peel hwritten exact
  obtain ⟨_, hfirst⟩ := hbs.shapes_of_solid (by rw [hkind, htext]; decide) (by rw [htext]; decide)
  have hshape := hfirst.symm.trans hread
  have hsame : e.kind = x.kind := congrArg Prod.fst (List.cons.inj hshape).1
  rw [hkind, h.name x hx] at hsame
  cases hsame

/-- With extents it is not. -/
theorem peel {ds : List Char} {ss : List (TokenKind × String)}
    (exact : Exact ((Head.param ts doc).signature.toList ++ ds) (ts.map Token.shape ++ ss)) :
    Head.hasExtents ts = false ∧ Exact ds ss := by
  have hflat := h.extents_eq_nil written doc exact
  refine ⟨by simp [h.hasExtents, hflat], ?_⟩
  have hlaid := h.laidOut written doc
  rw [hflat, List.append_nil, List.append_assoc] at hlaid
  have htokens : c.type ++ (c.name.toList ++ c.defaultTokens) = ts := by
    rw [h.tokens, ParamCut.tokens, hflat, List.nil_append]
  rw [htokens] at hlaid
  exact (hlaid.peel written exact).2

end Cuts

end ParamCut

/-! ### Parameter lists -/

namespace Head

theorem map_signature_paramsOf (docs : List (Nat × DocBlock)) (stop : Nat)
    (parts : List (Nat × List Token)) :
    (paramsOf docs stop parts).map Param.signature =
      (parts.map Prod.snd).map fun part => (param part none).signature := by
  induction parts with
  | nil => rfl
  | cons part parts ih =>
    obtain ⟨c, hc⟩ := ParamCut.exists_cuts part.2
    rw [paramsOf, List.map_cons, ih, hc.signature, List.map_cons, List.map_cons, hc.signature]

/-- Without docs the parameters are those of a list that has none. -/
theorem map_paramsOf (docs : List (Nat × DocBlock)) (stop : Nat) (parts : List (Nat × List Token)) :
    (paramsOf docs stop parts).map (fun p => { p with doc := none }) = paramsOf [] stop parts := by
  have hparam (ts : List Token) (doc : Option DocBlock) :
      { param ts doc with doc := none } = param ts none := by
    unfold param
    dsimp only
    split <;> rfl
  induction parts with
  | nil => rfl
  | cons part parts ih =>
    rw [paramsOf, List.map_cons, ih, hparam, paramsOf]
    rfl

theorem map_params (docs : List (Nat × DocBlock)) (start : Nat) (inside : List Token) :
    (params docs start inside).map (fun p => { p with doc := none }) = params [] start inside := by
  unfold params
  dsimp only
  split
  · rfl
  · split
    · rfl
    · exact map_paramsOf ..
  · exact map_paramsOf ..

end Head

theorem mem_listed {first part : List Token} {more : List (Token × List Token)} {t : Token}
    (hpart : part ∈ first :: more.map Prod.snd) (ht : t ∈ part) : t ∈ listed first more := by
  rcases List.mem_cons.1 hpart with rfl | hpart
  · exact List.mem_append_left _ ht
  · obtain ⟨e, he, rfl⟩ := List.mem_map.1 hpart
    exact List.mem_append_right _ (List.mem_flatMap.2 ⟨e, he, List.mem_cons_of_mem _ ht⟩)

theorem listed_cons (first : List Token) (e : Token × List Token) (more : List (Token × List Token)) :
    listed first (e :: more) = first ++ e.1 :: listed e.2 more := rfl

/-- What stands between commas is joined as on its own. -/
theorem apart_of_listed {first : List Token} {more : List (Token × List Token)}
    (commas : ∀ e ∈ more, e.1.kind = .comma) (apart : Token.runsTogether none (listed first more) = false) :
    ∀ part ∈ first :: more.map Prod.snd, Token.runsTogether none part = false := by
  induction more generalizing first with
  | nil =>
    rw [listed, List.flatMap_nil, List.append_nil] at apart
    exact List.forall_mem_singleton.2 apart
  | cons e more ih =>
    obtain ⟨hcomma, hcommas⟩ := List.forall_mem_cons.1 commas
    refine List.forall_mem_cons.2 ⟨Token.runsTogether_left apart, ih hcommas ?_⟩
    rw [← Token.runsTogether_afresh (.inr (.inl hcomma))]
    exact Token.runsTogether_right apart

end AnnotatedHeader
