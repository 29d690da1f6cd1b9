import AnnotatedHeader.Document.Header
import AnnotatedHeader.Proofs.Document.Directives
import AnnotatedHeader.Proofs.Statement.ParamCut

/-! Parameters on lines of their own.

Each line holds a parameter's signature, and doc comments stand between the lines. They are read
as what stands between the parentheses if every parameter is (`Param.shapes_headerLines`), and
otherwise a parameter has the extents of an array (`Param.peel_headerLines`). -/
namespace AnnotatedHeader

open Lexeme

/-! ### Lines -/

/-- Lines as a text. -/
def printed (lines : List String) : String := String.join (lines.map (· ++ "\n"))

theorem toList_printed_cons (line : String) (lines : List String) :
    (printed (line :: lines)).toList = line.toList ++ '\n' :: (printed lines).toList := by
  rw [printed, List.map_cons, String.join_cons, String.toList_append, String.toList_append,
    List.append_assoc]
  rfl

theorem toList_printed_append (ls ms : List String) :
    (printed (ls ++ ms)).toList = (printed ls).toList ++ (printed ms).toList := by
  rw [printed, List.map_append, String.join_append, String.toList_append]
  rfl

theorem toList_indented (depth : Nat) (text : String) :
    (indented depth text).toList = List.replicate depth '\t' ++ text.toList := by
  rw [indented, String.toList_append, String.toList_ofList]

theorem isGap_of_mem_replicate (depth : Nat) : ∀ c ∈ List.replicate depth '\t', isGap c = true := by
  intro c hc
  rw [List.eq_of_mem_replicate hc]
  decide

/-! ### Doc comments -/

/-- A doc comment is passed over. -/
theorem shapes_docLines (depth : Nat) (doc : Option DocBlock) (ds : List Char) :
    (scan ((printed (docLines depth doc)).toList ++ ds)).filterMap shape? =
      (scan ds).filterMap shape? := by
  cases doc with
  | none => rfl
  | some b =>
    show (scan ((printed (b.commentLines depth)).toList ++ ds)).filterMap shape? = _
    unfold DocBlock.commentLines
    have hlines : ∀ text ∈ Text.lines b.markdown, '\n' ∉ text.toList :=
      fun text htext => Text.not_mem_of_mem_lines htext
    generalize Text.lines b.markdown = texts at hlines ⊢
    induction texts with
    | nil => rfl
    | cons text texts ih =>
      obtain ⟨htext, htexts⟩ := List.forall_mem_cons.1 hlines
      have hcomment : ∃ cs, (if text.isEmpty then "///" else "/// " ++ text).toList = '/' :: '/' :: cs ∧
          '\n' ∉ cs := by
        split
        · exact ⟨['/'], rfl, by decide⟩
        · exact ⟨'/' :: ' ' :: text.toList, String.toList_append, by simpa using htext⟩
      obtain ⟨cs, hcs, hunbroken⟩ := hcomment
      rw [List.map_cons, toList_printed_cons, toList_indented, hcs, List.append_assoc,
        List.append_assoc, shapes_gaps (isGap_of_mem_replicate _)]
      exact (shapes_comment hunbroken _).trans (ih htexts)

/-! ### Parameters -/

/-- The parameters are written so, with commas between them. -/
structure AreParams (ps : List Param) (first : List Token) (more : List (Token × List Token)) : Prop where
  signatures : ps.map Param.signature =
    (first :: more.map Prod.snd).map fun part => (Head.param part none).signature
  commas : ∀ e ∈ more, e.1.kind = .comma
  written : ∀ t ∈ listed first more, Written t.kind t.text.toList

namespace AreParams
variable {ps : List Param} {first : List Token} {more : List (Token × List Token)}

theorem singleton (h : AreParams ps first []) :
    ∃ p, ps = [p] ∧ p.signature = (Head.param first none).signature := by
  obtain ⟨p, ps', rfl, hp, hps'⟩ := List.map_eq_cons_iff.1 h.signatures
  obtain rfl := List.map_eq_nil_iff.1 hps'
  exact ⟨p, rfl, hp⟩

theorem cons_cons {e : Token × List Token} (h : AreParams ps first (e :: more)) :
    ∃ p p' ps', ps = p :: p' :: ps' ∧ p.signature = (Head.param first none).signature ∧
      AreParams (p' :: ps') e.2 more ∧ Token.shape e.1 = (.comma, ",") := by
  obtain ⟨p, ps, rfl, hp, hps⟩ := List.map_eq_cons_iff.1 h.signatures
  obtain ⟨p', ps', rfl, -, -⟩ := List.map_eq_cons_iff.1 hps
  obtain ⟨hcomma, hcommas⟩ := List.forall_mem_cons.1 h.commas
  have hwritten : ∀ t ∈ e.1 :: listed e.2 more, Written t.kind t.text.toList :=
    fun t ht => h.written t (List.mem_append_right _ ht)
  obtain ⟨hsign, hrest⟩ := List.forall_mem_cons.1 hwritten
  exact ⟨p, p', ps', rfl, hp, ⟨hps, hcommas, hrest⟩,
    Token.shape_of_sign hcomma hsign (by decide) (by decide)⟩

theorem written_first (h : AreParams ps first more) : ∀ t ∈ first, Written t.kind t.text.toList :=
  fun t ht => h.written t (List.mem_append_left _ ht)

theorem weight_first (h : AreParams ps first more) :
    weight (Head.param first none).signature.toList = weightOf (first.map Token.shape) := by
  obtain ⟨c, hc⟩ := ParamCut.exists_cuts first
  exact hc.weight_signature h.written_first none

theorem peel_first (h : AreParams ps first more) {cs ds : List Char} {ss : List (TokenKind × String)}
    (blank : ∀ c ∈ cs, isGap c = true)
    (exact : Exact (cs ++ ((Head.param first none).signature.toList ++ ds)) (first.map Token.shape ++ ss)) :
    Head.hasExtents first = false ∧ Exact ds ss := by
  obtain ⟨c, hc⟩ := ParamCut.exists_cuts first
  exact hc.peel h.written_first none (.of_gaps blank exact)

/-- Without extents each parameter is read from its signature. -/
theorem lexes (h : AreParams ps first more) (apart : Token.runsTogether none (listed first more) = false)
    (flat : ∀ part ∈ first :: more.map Prod.snd, Head.hasExtents part = false) :
    ∀ part ∈ first :: more.map Prod.snd,
      Lexes (Head.param part none).signature.toList (part.map Token.shape) := by
  intro part hpart
  obtain ⟨c, hc⟩ := ParamCut.exists_cuts part
  have hextents := flat part hpart
  rw [hc.hasExtents, Bool.not_eq_false', List.isEmpty_iff] at hextents
  exact hc.lexes (fun t ht => h.written t (mem_listed hpart ht)) none hextents
    (apart_of_listed h.commas apart part hpart)

end AreParams

theorem Param.toList_printed_singleton (depth : Nat) (p : Param) :
    (printed (headerLines depth [p])).toList = (printed (docLines depth p.doc)).toList ++
      (List.replicate depth '\t' ++ (p.signature.toList ++ ['\n'])) := by
  rw [headerLines, toList_printed_append, toList_printed_cons, toList_indented]
  simp [headerLines, printed]

theorem Param.toList_printed_cons_cons (depth : Nat) (p p' : Param) (ps : List Param) :
    (printed (headerLines depth (p :: p' :: ps))).toList = (printed (docLines depth p.doc)).toList ++
      (List.replicate depth '\t' ++ (p.signature.toList ++
        ',' :: '\n' :: (printed (headerLines depth (p' :: ps))).toList)) := by
  rw [headerLines, toList_printed_append, toList_printed_cons, toList_indented]
  simp

variable {ps : List Param} {first : List Token} {more : List (Token × List Token)} {depth : Nat}
  {ds : List Char} {ss : List (TokenKind × String)}

/-- Parameters are read from their lines when each is read from its signature. -/
theorem Param.shapes_headerLines (h : AreParams ps first more)
    (lexes : ∀ part ∈ first :: more.map Prod.snd,
      Lexes (Head.param part none).signature.toList (part.map Token.shape)) :
    (scan ((printed (headerLines depth ps)).toList ++ ds)).filterMap shape? =
      (listed first more).map Token.shape ++ (scan ds).filterMap shape? := by
  induction more generalizing first ps with
  | nil =>
    obtain ⟨p, rfl, hp⟩ := h.singleton
    rw [toList_printed_singleton, List.append_assoc, shapes_docLines, List.append_assoc,
      shapes_gaps (isGap_of_mem_replicate _), hp, List.append_assoc,
      (lexes first (List.mem_cons_self ..)).shapes_append (by simp; decide)]
    rw [List.singleton_append, filterMap_shape?_scan_gap (by decide), listed, List.flatMap_nil,
      List.append_nil]
  | cons e more ih =>
    obtain ⟨p, p', ps', rfl, hp, hrest, hcomma⟩ := h.cons_cons
    obtain ⟨hfirst, hmore⟩ := List.forall_mem_cons.1 lexes
    have hsign (cs : List Char) : (scan (',' :: cs)).filterMap shape? =
        (.comma, ",") :: (scan cs).filterMap shape? := shapes_sign "," (by decide) (by decide) cs
    rw [toList_printed_cons_cons, List.append_assoc, shapes_docLines, List.append_assoc,
      shapes_gaps (isGap_of_mem_replicate _), hp, List.append_assoc, hfirst.shapes_append (by simp; decide),
      List.cons_append, hsign, List.cons_append, filterMap_shape?_scan_gap (by decide), ih hrest hmore,
      listed_cons, List.map_append, List.map_cons, hcomma, List.append_assoc, List.cons_append]

theorem toList_docLines_none (depth : Nat) : (printed (docLines depth none)).toList = [] := rfl

theorem Param.weight_headerLines (h : AreParams ps first more) (bare : ∀ p ∈ ps, p.doc = none) :
    weight (printed (headerLines depth ps)).toList = weightOf ((listed first more).map Token.shape) := by
  have hgaps := weight_gaps (isGap_of_mem_replicate depth)
  induction more generalizing first ps with
  | nil =>
    obtain ⟨p, rfl, hp⟩ := h.singleton
    rw [toList_printed_singleton, bare p (List.mem_cons_self ..), toList_docLines_none, List.nil_append,
      weight_append, weight_append, hgaps, hp, h.weight_first, listed, List.flatMap_nil, List.append_nil]
    exact Nat.zero_add _
  | cons e more ih =>
    obtain ⟨p, p', ps', rfl, hp, hrest, hcomma⟩ := h.cons_cons
    obtain ⟨hbare, hbares⟩ := List.forall_mem_cons.1 bare
    have hsign {cs : List Char} : weight (',' :: '\n' :: cs) = weight ",".toList + weight cs :=
      weight_append [',', '\n'] cs
    rw [toList_printed_cons_cons, hbare, toList_docLines_none, List.nil_append, weight_append,
      weight_append, hgaps, hp, h.weight_first, hsign, ih hrest hbares, listed_cons, List.map_append,
      List.map_cons, hcomma, weightOf_append, weightOf_cons, Nat.zero_add]

/-- If the parameters are read from their lines, none has the extents of an array. -/
theorem Param.peel_headerLines (h : AreParams ps first more) (bare : ∀ p ∈ ps, p.doc = none)
    (exact : Exact ((printed (headerLines depth ps)).toList ++ ds)
      ((listed first more).map Token.shape ++ ss)) :
    (∀ part ∈ first :: more.map Prod.snd, Head.hasExtents part = false) ∧ Exact ds ss := by
  induction more generalizing first ps with
  | nil =>
    obtain ⟨p, rfl, hp⟩ := h.singleton
    rw [toList_printed_singleton, bare p (List.mem_cons_self ..), toList_docLines_none, List.nil_append,
      List.append_assoc, hp, List.append_assoc, listed, List.flatMap_nil, List.append_nil] at exact
    obtain ⟨hfirst, hrest⟩ := h.peel_first (isGap_of_mem_replicate _) exact
    exact ⟨List.forall_mem_singleton.2 hfirst, .of_gaps (List.forall_mem_singleton.2 (by decide)) hrest⟩
  | cons e more ih =>
    obtain ⟨p, p', ps', rfl, hp, hrest, hcomma⟩ := h.cons_cons
    obtain ⟨hbare, hbares⟩ := List.forall_mem_cons.1 bare
    rw [toList_printed_cons_cons, hbare, toList_docLines_none, List.nil_append, List.append_assoc, hp,
      List.append_assoc, listed_cons, List.map_append, List.append_assoc] at exact
    obtain ⟨hfirst, hafter⟩ := h.peel_first (isGap_of_mem_replicate _) exact
    rw [List.map_cons, hcomma] at hafter
    have hline : Exact (['\n'] ++ ((printed (headerLines depth (p' :: ps'))).toList ++ ds))
        ((listed e.2 more).map Token.shape ++ ss) := .of_sign "," (by decide) (by decide) hafter
    obtain ⟨hparts, hds⟩ :=
      ih hrest hbares (.of_gaps (List.forall_mem_singleton.2 (by decide)) hline)
    exact ⟨List.forall_mem_cons.2 ⟨hfirst, hparts⟩, hds⟩

end AnnotatedHeader
