import AnnotatedHeader.Fault
import AnnotatedHeader.Proofs.Declaration.Refills

/-! The laws of a traversal.

The function that a traversal calls may fail and may keep a state between its calls
(`Visitor`). `mapDocs_lawful`: it is called once for each block, in order, and what it answers
is put in (`Answers`); the first call that fails ends the traversal (`Fails`); a function that
changes no block gives back the tree, and two traversals in a row are one. -/
namespace AnnotatedHeader

universe u

/-! ### Functions with a state -/

/-- A computation that can fail and that changes a state, also where it fails. -/
abbrev Stateful (σ α : Type) := ExceptT Fault (StateM σ) α

namespace Stateful
variable {σ α β : Type}

/-- What the computation comes to from a state on. -/
def runFrom (x : Stateful σ α) (s : σ) : Except Fault α × σ := x.run.run s

variable {x : Stateful σ α} {s s' : σ}

theorem runFrom_bind_of_ok {a : α} (h : x.runFrom s = (.ok a, s')) (k : α → Stateful σ β) :
    (x >>= k).runFrom s = (k a).runFrom s' := by
  have hrun : x.run.run s = (.ok a, s') := h
  rw [runFrom, ExceptT.run_bind, StateT.run_bind, hrun]
  rfl

theorem runFrom_bind_of_error {e : Fault} (h : x.runFrom s = (.error e, s')) (k : α → Stateful σ β) :
    (x >>= k).runFrom s = (.error e, s') := by
  have hrun : x.run.run s = (.error e, s') := h
  rw [runFrom, ExceptT.run_bind, StateT.run_bind, hrun]
  rfl

theorem runFrom_map (g : α → β) (x : Stateful σ α) (s : σ) :
    (g <$> x).runFrom s = ((x.runFrom s).1.map g, (x.runFrom s).2) := by
  rw [map_eq_pure_bind]
  rcases h : x.runFrom s with ⟨_ | a, s'⟩
  · rw [runFrom_bind_of_error h]
    rfl
  · rw [runFrom_bind_of_ok h]
    rfl

end Stateful

/-- A function over doc blocks that can fail and keeps a state from one call to the next. -/
abbrev Visitor (σ : Type) := DocBlock → String → Stateful σ DocBlock

namespace Visitor
variable {σ τ : Type} {f : Visitor σ} {g : Visitor τ} {es : List (DocBlock × String)}
  {bs : List DocBlock} {s s' : σ} {t t' : τ} {e : Fault}

/-- Called on the blocks one after the other, from state `s` on, the function answers with these
blocks and leaves state `s'`. -/
inductive Answers (f : Visitor σ) : σ → List (DocBlock × String) → List DocBlock → σ → Prop where
  | nil (s : σ) : Answers f s [] [] s
  | call {s s₁ s₂ : σ} {b b' : DocBlock} {path : String} {es : List (DocBlock × String)}
      {bs : List DocBlock} (answer : (f b path).runFrom s = (.ok b', s₁))
      (others : Answers f s₁ es bs s₂) : Answers f s ((b, path) :: es) (b' :: bs) s₂

/-- Called in the same way, the function fails at one of the blocks, the first at which it does. -/
def Fails (f : Visitor σ) (s : σ) (es : List (DocBlock × String)) (e : Fault) (s' : σ) : Prop :=
  ∃ before b path after answered s₁, es = before ++ (b, path) :: after ∧
    f.Answers s before answered s₁ ∧ (f b path).runFrom s₁ = (.error e, s')

/-- The list of calls. -/
def calls (f : Visitor σ) (es : List (DocBlock × String)) : Stateful σ (List DocBlock) :=
  es.mapM fun e => f e.1 e.2

theorem runFrom_calls_of_answers (h : f.Answers s es bs s') : (f.calls es).runFrom s = (.ok bs, s') := by
  induction h with
  | nil s => rfl
  | call answer others ih =>
    rw [calls] at ih ⊢
    rw [List.mapM_cons, Stateful.runFrom_bind_of_ok answer, Stateful.runFrom_bind_of_ok ih]
    rfl

theorem runFrom_calls_of_fails (h : f.Fails s es e s') : (f.calls es).runFrom s = (.error e, s') := by
  obtain ⟨before, b, path, after, answered, s₁, rfl, hbefore, hfails⟩ := h
  have hanswered := runFrom_calls_of_answers hbefore
  rw [calls] at hanswered ⊢
  rw [List.mapM_append, Stateful.runFrom_bind_of_ok hanswered, List.mapM_cons]
  exact Stateful.runFrom_bind_of_error (Stateful.runFrom_bind_of_error hfails _) _

theorem answers_or_fails (f : Visitor σ) (s : σ) (es : List (DocBlock × String)) :
    (∃ bs s', f.Answers s es bs s') ∨ ∃ e s', f.Fails s es e s' := by
  induction es generalizing s with
  | nil => exact .inl ⟨[], s, .nil s⟩
  | cons block es ih =>
    obtain ⟨b, path⟩ := block
    rcases h : (f b path).runFrom s with ⟨e | b', s₁⟩
    · exact .inr ⟨e, s₁, [], b, path, es, [], s, rfl, .nil s, h⟩
    · rcases ih s₁ with ⟨bs, s', hothers⟩ | ⟨e, s', before, b₁, path₁, after, answered, s₂, rfl, hbefore, hfails⟩
      · exact .inl ⟨b' :: bs, s', .call h hothers⟩
      · exact .inr ⟨e, s', (b, path) :: before, b₁, path₁, after, b' :: answered, s₂, rfl,
          .call h hbefore, hfails⟩

theorem answers_iff : f.Answers s es bs s' ↔ (f.calls es).runFrom s = (.ok bs, s') := by
  refine ⟨runFrom_calls_of_answers, fun h => ?_⟩
  rcases f.answers_or_fails s es with ⟨bs₁, s₁, hanswers⟩ | ⟨e, s₁, hfails⟩
  · rw [runFrom_calls_of_answers hanswers] at h
    cases h
    exact hanswers
  · rw [runFrom_calls_of_fails hfails] at h
    cases h

theorem fails_iff : f.Fails s es e s' ↔ (f.calls es).runFrom s = (.error e, s') := by
  refine ⟨runFrom_calls_of_fails, fun h => ?_⟩
  rcases f.answers_or_fails s es with ⟨bs, s₁, hanswers⟩ | ⟨e₁, s₁, hfails⟩
  · rw [runFrom_calls_of_answers hanswers] at h
    cases h
  · rw [runFrom_calls_of_fails hfails] at h
    cases h
    exact hfails

theorem Answers.length_eq (h : f.Answers s es bs s') : bs.length = es.length := by
  induction h with
  | nil s => rfl
  | call answer others ih => rw [List.length_cons, List.length_cons, ih]

/-! ### One function after the other -/

/-- What `f` answers is given to `g`, with the same path. Each has a state of its own. -/
def andThen (f : Visitor σ) (g : Visitor τ) : Visitor (σ × τ) := fun b path => ExceptT.mk fun st =>
  match (f b path).runFrom st.1 with
  | (.ok b', s') => (((g b' path).runFrom st.2).1, s', ((g b' path).runFrom st.2).2)
  | (.error e, s') => (.error e, s', st.2)

theorem runFrom_andThen_eq_ok {b b' : DocBlock} {path : String} {st st' : σ × τ} :
    ((f.andThen g) b path).runFrom st = (.ok b', st') ↔
      ∃ b₁, (f b path).runFrom st.1 = (.ok b₁, st'.1) ∧ (g b₁ path).runFrom st.2 = (.ok b', st'.2) := by
  show (match (f b path).runFrom st.1 with
    | (.ok b₁, s') => (((g b₁ path).runFrom st.2).1, s', ((g b₁ path).runFrom st.2).2)
    | (.error e, s') => (.error e, s', st.2)) = (.ok b', st') ↔ _
  rcases (f b path).runFrom st.1 with ⟨e | b₁, s₁⟩
  · refine iff_of_false nofun ?_
    rintro ⟨b₁, hf, -⟩
    cases hf
  · constructor
    · intro h
      obtain ⟨hanswer, rfl⟩ := Prod.mk.inj h
      exact ⟨b₁, rfl, Prod.ext hanswer rfl⟩
    · rintro ⟨b₂, hf, hg⟩
      obtain ⟨hanswer, hstate⟩ := Prod.mk.inj hf
      cases hanswer
      show (_, s₁, _) = _
      rw [hg, hstate]

theorem answers_nil_iff : f.Answers s [] bs s' ↔ bs = [] ∧ s' = s := by
  constructor
  · rintro ⟨⟩
    exact ⟨rfl, rfl⟩
  · rintro ⟨rfl, rfl⟩
    exact .nil s'

theorem answers_cons_iff {b : DocBlock} {path : String} :
    f.Answers s ((b, path) :: es) bs s' ↔ ∃ b' bs' s₁, bs = b' :: bs' ∧
      (f b path).runFrom s = (.ok b', s₁) ∧ f.Answers s₁ es bs' s' := by
  constructor
  · rintro (_ | ⟨answer, others⟩)
    exact ⟨_, _, _, rfl, answer, others⟩
  · rintro ⟨b', bs', s₁, rfl, answer, others⟩
    exact .call answer others

theorem answers_andThen_iff {st st' : σ × τ} : (f.andThen g).Answers st es bs st' ↔
    ∃ bs₁, f.Answers st.1 es bs₁ st'.1 ∧ g.Answers st.2 (bs₁.zip (es.map Prod.snd)) bs st'.2 := by
  induction es generalizing st bs with
  | nil =>
    rw [answers_nil_iff]
    constructor
    · rintro ⟨rfl, rfl⟩
      exact ⟨[], .nil _, .nil _⟩
    · rintro ⟨bs₁, hf, hg⟩
      obtain ⟨rfl, hs⟩ := answers_nil_iff.1 hf
      obtain ⟨rfl, ht⟩ := answers_nil_iff.1 hg
      exact ⟨rfl, Prod.ext hs ht⟩
  | cons block es ih =>
    obtain ⟨b, path⟩ := block
    rw [answers_cons_iff]
    constructor
    · rintro ⟨b', bs', st₁, rfl, hcall, hothers⟩
      obtain ⟨b₁, hf, hg⟩ := runFrom_andThen_eq_ok.1 hcall
      obtain ⟨bs₁, hfs, hgs⟩ := ih.1 hothers
      exact ⟨b₁ :: bs₁, .call hf hfs, .call hg hgs⟩
    · rintro ⟨_, hf, hg⟩
      obtain ⟨b₁, bs₁, s₁, rfl, hfcall, hfs⟩ := answers_cons_iff.1 hf
      obtain ⟨b', bs', t₁, rfl, hgcall, hgs⟩ := answers_cons_iff.1 hg
      exact ⟨b', bs', (s₁, t₁), rfl, runFrom_andThen_eq_ok.2 ⟨b₁, hfcall, hgcall⟩, ih.2 ⟨bs₁, hfs, hgs⟩⟩

/-- A function that returns its blocks unchanged. -/
def Keeps (f : Visitor σ) : Prop := ∀ b path s, ∃ s', (f b path).runFrom s = (.ok b, s')

theorem Keeps.answers (h : f.Keeps) (s : σ) (es : List (DocBlock × String)) :
    ∃ s', f.Answers s es (es.map Prod.fst) s' := by
  induction es generalizing s with
  | nil => exact ⟨s, .nil s⟩
  | cons block es ih =>
    obtain ⟨s₁, hcall⟩ := h block.1 block.2 s
    obtain ⟨s', hothers⟩ := ih s₁
    exact ⟨s', .call hcall hothers⟩

end Visitor

/-! ### The laws -/

namespace Declaration

/-- Traversing the tree is lawful. -/
structure LawfulTraversal (d : Declaration) : Prop where
  /-- The blocks are its own, those of its parameters from left to right and those of its members
  from left to right, each with the path of the declaration that it documents. -/
  order : d.docs = (d.doc.toList ++ d.item.docs).map (·, d.path) ++ d.members.flatMap docs
  /-- A function that returns its blocks unchanged gives back the tree. -/
  identity {σ : Type} {f : Visitor σ} (keeps : f.Keeps) (s : σ) :
    ∃ s', (d.mapDocs f).runFrom s = (.ok d, s')
  /-- On success one traversal after another is one with both functions. -/
  composition {σ τ : Type} (f : Visitor σ) (g : Visitor τ) (st st' : σ × τ) (d₂ : Declaration) :
    (∃ d₁, (d.mapDocs f).runFrom st.1 = (.ok d₁, st'.1) ∧ (d₁.mapDocs g).runFrom st.2 = (.ok d₂, st'.2)) ↔
      (d.mapDocs (f.andThen g)).runFrom st = (.ok d₂, st')
  /-- It succeeds where every call does, and changes nothing but the blocks. -/
  succeeds {σ : Type} (f : Visitor σ) (s s' : σ) (d' : Declaration) :
    (d.mapDocs f).runFrom s = (.ok d', s') ↔
      d'.blanked = d.blanked ∧ f.Answers s d.docs d'.docBlocks s'
  /-- It fails with the fault of the first call that does. -/
  fails {σ : Type} (f : Visitor σ) (s s' : σ) (e : Fault) :
    (d.mapDocs f).runFrom s = (.error e, s') ↔ f.Fails s d.docs e s'
  /-- In any monad it is the calls, once for each block and in order, with the answers put in. -/
  calls {m : Type → Type u} [Monad m] [LawfulMonad m] (f : DocBlock → String → m DocBlock) :
    d.mapDocs f = d.withDocs <$> d.docs.mapM fun e => f e.1 e.2
  filled : Refills docBlocks blanked withDocs d

theorem runFrom_mapDocs_eq_ok {σ : Type} {f : Visitor σ} {s s' : σ} {d d' : Declaration} :
    (d.mapDocs f).runFrom s = (.ok d', s') ↔ d'.blanked = d.blanked ∧ f.Answers s d.docs d'.docBlocks s' := by
  have hcalls : d.mapDocs f = d.withDocs <$> f.calls d.docs := mapDocs_eq f d
  rw [hcalls, Stateful.runFrom_map, Visitor.answers_iff]
  constructor
  · intro h
    obtain ⟨hresult, rfl⟩ := Prod.mk.inj h
    rcases hrun : (f.calls d.docs).runFrom s with ⟨e | bs, s'⟩
    · rw [hrun] at hresult
      cases hresult
    · rw [hrun] at hresult
      cases hresult
      have hfits : bs.length = d.docBlocks.length := by
        rw [length_docBlocks]
        exact (Visitor.answers_iff.2 hrun).length_eq
      exact ⟨d.refills.rest_put bs hfits, by rw [d.refills.blocks_put bs hfits]⟩
  · rintro ⟨hsame, hrun⟩
    rw [hrun]
    exact congrArg (fun d' => (Except.ok d', s')) (d.refills.put_blocks d' hsame)

theorem runFrom_mapDocs_eq_error {σ : Type} {f : Visitor σ} {s s' : σ} {d : Declaration} {e : Fault} :
    (d.mapDocs f).runFrom s = (.error e, s') ↔ f.Fails s d.docs e s' := by
  have hcalls : d.mapDocs f = d.withDocs <$> f.calls d.docs := mapDocs_eq f d
  rw [hcalls, Stateful.runFrom_map, Visitor.fails_iff]
  rcases (f.calls d.docs).runFrom s with ⟨e' | bs, s₁⟩
  · exact ⟨fun h => by cases h; rfl, fun h => by cases h; rfl⟩
  · exact ⟨nofun, nofun⟩

theorem mapDocs_lawful (d : Declaration) : d.LawfulTraversal where
  order := by
    obtain ⟨own, members⟩ := d
    exact docs_mk own members
  identity keeps s := by
    obtain ⟨s', hanswers⟩ := keeps.answers s d.docs
    exact ⟨s', runFrom_mapDocs_eq_ok.2 ⟨rfl, hanswers⟩⟩
  composition f g st st' d₂ := by
    simp only [runFrom_mapDocs_eq_ok, Visitor.answers_andThen_iff]
    constructor
    · rintro ⟨d₁, ⟨hfirst, hf⟩, hsecond, hg⟩
      rw [docs_of_blanked hfirst] at hg
      exact ⟨hsecond.trans hfirst, d₁.docBlocks, hf, hg⟩
    · rintro ⟨hsame, bs, hf, hg⟩
      have hfits : bs.length = d.docBlocks.length := by
        rw [length_docBlocks]
        exact hf.length_eq
      have hrest := d.refills.rest_put bs hfits
      have hblocks := d.refills.blocks_put bs hfits
      refine ⟨d.withDocs bs, ⟨hrest, by rwa [hblocks]⟩, hsame.trans hrest.symm, ?_⟩
      rwa [docs_of_blanked hrest, hblocks]
  succeeds f s s' d' := runFrom_mapDocs_eq_ok
  fails f s s' e := runFrom_mapDocs_eq_error
  calls f := mapDocs_eq f d
  filled := d.refills

end Declaration

end AnnotatedHeader
