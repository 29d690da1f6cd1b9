import AnnotatedHeader.Proofs.Declaration.Every
import AnnotatedHeader.Proofs.Result
import AnnotatedHeader.Proofs.Scope.Reads
import AnnotatedHeader.Proofs.Statement.ParamDocs

/-! What holds of every declaration that a scope reads.

A declaration comes from the head of a statement that has a name or from an entry of an
enum body, with what has waited for it, and merging lets it take over what it lacks.
`Reads.every` carries what these keep (`Material.Makes`) from the pieces to all that they
declare. A `NodeInvariant` is the case where nothing but the doc blocks among the pieces
matters, `Material.among` that of the tokens. -/
namespace AnnotatedHeader

/-- What is asked of pieces, and of the templates and macros that are made of them. -/
structure Material where
  piece : Piece → Prop
  template : String → Prop
  reflection : Reflection → Prop

namespace Material

/-- The same of what waits for a declaration. -/
structure Waits (M : Material) (waiting : Scope.Pending) : Prop where
  doc : ∀ b ∈ waiting.doc, M.piece (.doc b)
  template : ∀ text ∈ waiting.template, M.template text
  reflection : ∀ r ∈ waiting.reflection, M.reflection r

/-- What every declaration satisfies that is made of the material. -/
structure Makes (M : Material) (Q : Declared → Prop) : Prop where
  template {ts : List Token} : (∀ t ∈ ts, M.piece (.token t)) → M.template (Token.join ts)
  reflection {t : Token} {ps rest : List Piece} {r : Reflection} :
    (∀ p ∈ .token t :: ps, M.piece p) → (Scope.readReflection t ps).result = .ok (r, rest) →
    M.reflection r
  ofHead {s : Scope} {stmt : Statement} {first h : Heading} {others : List Heading}
    {waiting : Scope.Pending} (visibility : Visibility) (line : Nat) :
    Head.classify stmt s.record = .declares first others → h ∈ first :: others → h.name ≠ "" →
    M.Waits waiting → (∀ p ∈ stmt.pieces, M.piece p) →
    Q (s.declared visibility line waiting h)
  ofEntry {path : String} {doc : Option DocBlock} {ts : List Token} {member : Declaration} :
    (∀ b ∈ doc, M.piece (.doc b)) → (∀ t ∈ ts, M.piece (.token t)) →
    EnumBody.variant path doc ts = .ok (some member) → Q member.toDeclared
  inherits : Declaration.Inherits Q

theorem waits_nothing (M : Material) : M.Waits {} := by
  refine ⟨?_, ?_, ?_⟩ <;> rintro x ⟨⟩

end Material

variable {M : Material} {Q : Declared → Prop}

/-! ### Enum bodies -/

namespace EnumBody

/-- An entry's variant has what the entry says and the doc block before it. -/
theorem eq_of_variant {path : String} {doc : Option DocBlock} {ts : List Token}
    {member : Declaration} (h : variant path doc ts = .ok (some member)) :
    ∃ name rest reflection, ts = name :: rest ∧ name.kind = .ident ∧
      member =
        { name := name.text
          path := QualifiedPath.join path name.text
          line := name.line
          visibility := .everyone
          template := none
          reflection
          signature := Token.join (ts.takeWhile (!·.isIdent metaMacro))
          doc
          item := .variant (value? (ts.takeWhile (!·.isIdent metaMacro)))
          synthetic := false
          members := [] } := by
  unfold variant at h
  split at h
  · rename_i name rest
    dsimp only at h
    split at h
    · rename_i hname
      split at h
      · obtain ⟨r, -, h⟩ := Except.bind_eq_ok.1 h
        cases h
        exact ⟨name, rest, r, rfl, hname, rfl⟩
      · cases h
        exact ⟨name, rest, none, rfl, hname, rfl⟩
    · cases h
  · cases h

theorem every_addEntry (hM : M.Makes Q) {path : String} {members found : List Declaration}
    {doc : Option DocBlock} {ts : List Token} (hmembers : ∀ m ∈ members, m.Every Q)
    (hdoc : ∀ b ∈ doc, M.piece (.doc b)) (hts : ∀ t ∈ ts, M.piece (.token t))
    (h : (addEntry path members doc ts).result = .ok found) : ∀ m ∈ found, m.Every Q := by
  unfold addEntry at h
  obtain ⟨entry, hentry, h⟩ := Outcome.result_bind_eq_ok.1 h
  split at h
  · rename_i member
    rw [Declaration.result_mergeInto] at h
    cases h
    have hown := hM.ofEntry hdoc hts hentry
    obtain ⟨name, _, _, rfl, -, rfl⟩ := eq_of_variant hentry
    exact Declaration.every_merged hM.inherits hmembers (Declaration.every_leaf.2 hown)
  · obtain ⟨-, -, h⟩ := Outcome.result_bind_eq_ok.1 h
    cases h
    exact hmembers

theorem token_mem_of_entryTokens {depth : Nat} {ps : List Piece} :
    ∀ t ∈ (entryTokens depth ps).1, .token t ∈ ps := by
  fun_induction entryTokens depth ps with
  | case1 | case2 | case3 => simp
  | case4 depth t ps _ _ more ih => simpa using fun t' ht' => .inr (ih t' ht')
  | case5 depth _ ps ih | case6 depth _ _ ps ih => simpa using ih

theorem every_read (hM : M.Makes Q) {path : String} {members found : List Declaration}
    {doc : Option DocBlock} {ps rest : List Piece} (hps : ∀ p ∈ ps, M.piece p)
    (hmembers : ∀ m ∈ members, m.Every Q) (hdoc : ∀ b ∈ doc, M.piece (.doc b))
    (h : (read path members doc ps).result = .ok (found, rest)) : ∀ m ∈ found, m.Every Q := by
  fun_induction read path members doc ps with
  | case1 members doc =>
    cases h
    exact hmembers
  | case2 members doc b ps ih =>
    obtain ⟨hb, hps⟩ := List.forall_mem_cons.1 hps
    refine ih hps hmembers ?_ h
    rintro b' ⟨⟩
    exact hb
  | case3 => cases h
  | case4 members doc t ps =>
    cases h
    exact hmembers
  | case5 members doc t ps _ ih => exact ih (List.forall_mem_cons.1 hps).2 hmembers hdoc h
  | case6 members doc t ps more _ _ ih =>
    obtain ⟨ht, hps⟩ := List.forall_mem_cons.1 hps
    obtain ⟨members', hentry, h⟩ := Outcome.result_bind_eq_ok.1 h
    have hentries := every_addEntry hM hmembers hdoc
      (List.forall_mem_cons.2 ⟨ht, fun t ht => hps _ (token_mem_of_entryTokens t ht)⟩) hentry
    exact ih members' (fun p hp => hps p ((entryTokens_suffix _ ps).subset hp)) hentries (by simp) h

end EnumBody

/-! ### Scopes -/

namespace Scope

/-- The same of what a scope's state holds. -/
structure State.Holds (M : Material) (Q : Declared → Prop) (b : State) : Prop where
  waiting : M.Waits b.pending
  members : ∀ m ∈ b.members, m.Every Q

theorem State.Holds.start (M : Material) (Q : Declared → Prop) (s : Scope) : s.start.Holds M Q :=
  ⟨M.waits_nothing, by simp [Scope.start]⟩

theorem State.Holds.added (hM : M.Makes Q) {b : State} (hb : b.Holds M Q)
    {d : Declaration} (hd : d.name ≠ "" → d.Every Q) : (b.added d).Holds M Q := by
  unfold State.added
  split
  · exact hb
  · rename_i hname
    exact ⟨hb.waiting, Declaration.every_merged hM.inherits hb.members (hd (by simpa using hname))⟩

theorem State.Holds.foldl_added (hM : M.Makes Q) {b : State} (hb : b.Holds M Q)
    {ds : List Declaration} (hds : ∀ d ∈ ds, d.name ≠ "" → d.Every Q) :
    (ds.foldl State.added b).Holds M Q := by
  induction ds generalizing b with
  | nil => exact hb
  | cons d ds ih =>
    obtain ⟨hd, hds⟩ := List.forall_mem_cons.1 hds
    exact ih (hb.added hM hd) hds

def Frame.Holds (M : Material) (Q : Declared → Prop) : Frame → Prop
  | .transparent b => b.Holds M Q
  | .memberOf b own => b.Holds M Q ∧ (own.name ≠ "" → Q own)

theorem Frame.Holds.resumed (hM : M.Makes Q) {f : Frame} (hf : f.Holds M Q)
    {found : Contents} (hfound : ∀ d ∈ found.declarations, d.Every Q) :
    (f.resumed found).Holds M Q := by
  cases f with
  | transparent b =>
    exact ⟨hf.waiting, Declaration.every_foldl_merged hM.inherits hf.members hfound⟩
  | memberOf b own =>
    obtain ⟨hb, hown⟩ := hf
    refine State.Holds.added hM (b := { b with injects := b.injects ++ found.injects })
      ⟨hb.waiting, hb.members⟩ fun hname => ?_
    exact Declaration.every_iff.2 ⟨hown hname, hfound⟩

/-- The same of what a turn leaves. -/
def Turn.Holds (M : Material) (Q : Declared → Prop) : Turn → Prop
  | .closes _ => True
  | .continues b _ => b.Holds M Q
  | .opens _ frame _ => frame.Holds M Q

theorem Declares.holds (hM : M.Makes Q) {s : Scope} {b : State} {ps : List Piece} {u : Turn}
    (hps : ∀ p ∈ ps, M.piece p) (hb : b.Holds M Q) (h : Declares s b ps u) : u.Holds M Q := by
  have hempty : State.Holds M Q { b with pending := {} } := ⟨M.waits_nothing, hb.members⟩
  have hpieces {stmt : Statement} {rest : List Piece}
      (read : (Statement.read ps).result = .ok (stmt, rest)) : ∀ p ∈ stmt.pieces, M.piece p :=
    fun p hp => hps p (Statement.pieces_subset_of_read read hp)
  cases h with
  | passesOver read head free skipped => exact hempty
  | opensRecord read head checked body item =>
    refine ⟨hempty, fun hname => ?_⟩
    exact hM.ofHead _ _ head (List.mem_cons_self ..) hname hb.waiting (hpieces read)
  | @readsEnum stmt first others rest rest' shape members read head checked body item entries =>
    refine hempty.added hM fun hname => Declaration.every_iff.2 ⟨?_, ?_⟩
    · exact hM.ofHead _ _ head (List.mem_cons_self ..) hname hb.waiting (hpieces read)
    · refine EnumBody.every_read hM ?_ (by simp) (by simp) entries
      exact fun p hp => hps p ((Statement.read_suffix read).subset hp)
  | skipsBody read head checked body record enum skipped =>
    refine hempty.added hM fun hname => Declaration.every_leaf.2 ?_
    exact hM.ofHead _ _ head (List.mem_cons_self ..) hname hb.waiting (hpieces read)
  | announces read head checked bodiless =>
    refine hempty.foldl_added hM (List.forall_mem_cons.2 ⟨fun hname => ?_, ?_⟩)
    · refine Declaration.every_leaf.2 ?_
      exact hM.ofHead _ _ head (List.mem_cons_self ..) hname hb.waiting (hpieces read)
    · intro d hd hname
      obtain ⟨h, hh, rfl⟩ := List.mem_map.1 hd
      refine Declaration.every_leaf.2 ?_
      exact hM.ofHead _ _ head (List.mem_cons_of_mem _ hh) hname M.waits_nothing (hpieces read)

theorem token_mem_of_templateTokens {angle : Nat} {ps : List Piece} :
    ∀ t ∈ (templateTokens angle ps).1, .token t ∈ ps := by
  fun_induction templateTokens angle ps with
  | case1 => simp
  | case2 => simp
  | case3 angle t ps _ angle' more ih => simpa using fun t' ht' => .inr (ih t' ht')
  | case4 angle b ps ih | case5 angle proxy line ps ih => simpa using ih

theorem Takes.holds (hM : M.Makes Q) {s : Scope} {b : State} {p : Piece} {ps : List Piece}
    {u : Turn} (hps : ∀ x ∈ p :: ps, M.piece x) (hb : b.Holds M Q) (h : Takes s b p ps u) :
    u.Holds M Q := by
  obtain ⟨hdoc, htemplate, hreflection⟩ := hb.waiting
  have hfreed : b.withoutDoc.Holds M Q :=
    ⟨⟨by simp [State.withoutDoc], htemplate, hreflection⟩, hb.members⟩
  have hfirst := (List.forall_mem_cons.1 hps).1
  cases h with
  | doc block =>
    refine ⟨⟨?_, htemplate, hreflection⟩, hb.members⟩
    rintro block' ⟨⟩
    exact hfirst
  | inject => exact ⟨hb.waiting, hb.members⟩
  | closes => trivial
  | passes => exact hb
  | label => exact ⟨hb.waiting, hb.members⟩
  | template =>
    refine ⟨⟨hdoc, ?_, hreflection⟩, hb.members⟩
    rintro text ⟨⟩
    refine hM.template (List.forall_mem_cons.2 ⟨hfirst, fun t ht => ?_⟩)
    exact hps _ (List.mem_cons_of_mem _ (token_mem_of_templateTokens t ht))
  | opensNamespace => exact hfreed
  | aliases => exact hfreed
  | endsNamespaceHead => exact hfreed
  | opensLinkage => exact hb
  | annotates _ _ _ read =>
    refine ⟨⟨hdoc, htemplate, ?_⟩, hb.members⟩
    rintro r ⟨⟩
    exact hM.reflection hps read
  | passesOverKeyword => exact hb
  | calls => exact hb
  | declares _ _ h => exact h.holds hM hps hb

/-- **What is asked of its pieces reaches everything that a scope declares.** -/
theorem Reads.every (hM : M.Makes Q) {s : Scope} {b : State} {ps rest : List Piece}
    {found : Contents} (hps : ∀ p ∈ ps, M.piece p) (hb : b.Holds M Q)
    (h : Reads s b ps found rest) : ∀ d ∈ found.declarations, d.Every Q := by
  induction h with
  | ends => exact hb.members
  | closes => exact hb.members
  | continues taken _ ih =>
    refine ih ?_ ((takes_of_turn taken).holds hM hps hb)
    exact fun p hp => hps p (List.mem_cons_of_mem _ ((turn_suffix taken).subset hp))
  | @opens s inner b p ps rest _ _ frame _ _ taken inside _ ihInside ihMore =>
    have hafter : ∀ p ∈ rest, M.piece p :=
      fun p hp => hps p (List.mem_cons_of_mem _ ((turn_suffix taken).subset hp))
    have hframe : frame.Holds M Q := (takes_of_turn taken).holds hM hps hb
    refine ihMore ?_ (hframe.resumed hM (ihInside hafter (.start M Q _)))
    exact fun p hp => hafter p (inside.suffix.subset hp)

end Scope

/-! ### Tokens only -/

/-- Nothing is asked but that the tokens are among these. -/
def Material.among (ts : List Token) : Material where
  piece p := ∀ t, p = .token t → t ∈ ts
  template _ := True
  reflection _ := True

/-! ### Doc blocks only -/

/-- What every declaration satisfies whose doc blocks satisfy `D`. -/
structure NodeInvariant (D : DocBlock → Prop) (Q : Declared → Prop) : Prop where
  ofHead {s : Scope} {stmt : Statement} {first h : Heading} {others : List Heading}
    {waiting : Scope.Pending} (visibility : Visibility) (line : Nat) :
    Head.classify stmt s.record = .declares first others → h ∈ first :: others →
    (∀ b ∈ waiting.doc, D b) → (∀ e ∈ stmt.paramDocs, D e.2) →
    Q (s.declared visibility line waiting h)
  ofEntry {path : String} {doc : Option DocBlock} {ts : List Token} {member : Declaration} :
    (∀ b ∈ doc, D b) → EnumBody.variant path doc ts = .ok (some member) → Q member.toDeclared
  inherits : Declaration.Inherits Q

/-- Nothing but doc blocks is asked anything. -/
def Material.ofDocs (D : DocBlock → Prop) : Material where
  piece p := ∀ b, p = .doc b → D b
  template _ := True
  reflection _ := True

theorem NodeInvariant.makes {D : DocBlock → Prop} (hQ : NodeInvariant D Q) :
    (Material.ofDocs D).Makes Q where
  template _ := trivial
  reflection _ _ := trivial
  ofHead visibility line hhead hh _ hwaiting hpieces :=
    hQ.ofHead visibility line hhead hh (fun b hb => hwaiting.doc b hb b rfl)
      fun e he => hpieces _ (Statement.doc_mem_pieces he) e.2 rfl
  ofEntry hdoc _ hentry := hQ.ofEntry (fun b hb => hdoc b hb b rfl) hentry
  inherits := hQ.inherits

theorem Scope.Reads.every_of_start {D : DocBlock → Prop} (hQ : NodeInvariant D Q) {s : Scope}
    {ps rest : List Piece} {found : Contents} (hps : ∀ block, .doc block ∈ ps → D block)
    (h : Reads s s.start ps found rest) : ∀ d ∈ found.declarations, d.Every Q := by
  refine h.every hQ.makes ?_ (.start _ Q s)
  rintro p hp b rfl
  exact hps b hp

end AnnotatedHeader
