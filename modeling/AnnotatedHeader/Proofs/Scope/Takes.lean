import AnnotatedHeader.Scope.Read

/-! What one turn of a scope can do.

`Takes` lists it, a constructor for each way in which a turn succeeds: `takes_of_turn`
says that there is no other, and `turn_of_takes` that each is one. What a turn does to
the scope's state is a function of the state and the declaration (`State.added`,
`Frame.resumed`), for none of these steps can fail. -/
namespace AnnotatedHeader.Scope

/-! ### State -/

namespace State

def withoutDoc (b : State) : State := { b with pending.doc := none }

/-- The state with one more declaration, unless it has no name. -/
def added (b : State) (d : Declaration) : State :=
  if d.name.isEmpty then b else { b with members := Declaration.merged b.members d }

theorem result_dropDoc (why : Discard) (b : State) : (b.dropDoc why).result = .ok b.withoutDoc := by
  obtain ⟨visibility, ⟨doc, reflection, template⟩, members, injects⟩ := b
  cases doc <;> rfl

theorem result_add (b : State) (d : Declaration) : (b.add d).result = .ok (b.added d) := by
  unfold add added
  split <;> rfl

theorem result_addAll (b : State) (ds : List Declaration) :
    (b.addAll ds).result = .ok (ds.foldl added b) := by
  unfold addAll
  induction ds generalizing b with
  | nil => rfl
  | cons d ds ih =>
    rw [List.foldlM_cons, Outcome.result_bind, result_add]
    exact ih _

end State

/-- The outer scope's state behind a scope that holds `found`. -/
def Frame.resumed (f : Frame) (found : Contents) : State :=
  match f with
  | .transparent b =>
    { b with
      members := found.declarations.foldl Declaration.merged b.members
      injects := b.injects ++ found.injects }
  | .memberOf b own =>
    ({ b with injects := b.injects ++ found.injects } : State).added ⟨own, found.declarations⟩

theorem Frame.result_resume (f : Frame) (found : Contents) :
    (f.resume found).result = .ok (f.resumed found) := by
  unfold resume resumed
  cases f with
  | transparent b =>
    rw [Outcome.result_bind, Declaration.result_foldlM_mergeInto]
    rfl
  | memberOf b own => exact State.result_add _ _

/-- Only a macro that still waits keeps a scope from ending. -/
theorem result_finish_eq_ok {s : Scope} {b : State} {found : Contents} :
    (s.finish b).result = .ok found ↔
      b.pending.reflection = none ∧ found = ⟨b.members, b.injects⟩ := by
  unfold finish
  split
  · rename_i hr
    rw [hr]
    constructor
    · intro h
      cases h
    · rintro ⟨h, -⟩
      cases h
  · rename_i hr
    rw [Outcome.result_bind, State.result_dropDoc]
    constructor
    · intro h
      cases h
      exact ⟨hr, rfl⟩
    · rintro ⟨-, rfl⟩
      rfl

/-! ### Turns -/

/-- What the statement in front of the pieces makes of a scope's state. -/
inductive Declares (s : Scope) (b : State) (ps : List Piece) : Turn → Prop where
  | passesOver {stmt : Statement} {reason : SkipReason} {rest rest' : List Piece}
      (read : (Statement.read ps).result = .ok (stmt, rest))
      (head : Head.classify stmt s.record = .skip reason)
      (free : b.pending.reflection = none)
      (skipped : (stmt.skipBodyOf rest).result = .ok rest') :
      Declares s b ps (.continues { b with pending := {} } rest')
  | opensRecord {stmt : Statement} {first : Heading} {others : List Heading} {rest : List Piece}
      {key : RecordKey} {shape : RecordShape}
      (read : (Statement.read ps).result = .ok (stmt, rest))
      (head : Head.classify stmt s.record = .declares first others)
      (checked : (checkReflection first b.pending.reflection).result = .ok ())
      (body : stmt.hasBody = true) (item : first.item = .record key shape) :
      Declares s b ps (.opens (ofRecord (QualifiedPath.join s.path first.name) first.name key)
        (.memberOf { b with pending := {} } (s.declared b.visibility stmt.line b.pending first)) rest)
  | readsEnum {stmt : Statement} {first : Heading} {others : List Heading} {rest rest' : List Piece}
      {shape : EnumShape} {members : List Declaration}
      (read : (Statement.read ps).result = .ok (stmt, rest))
      (head : Head.classify stmt s.record = .declares first others)
      (checked : (checkReflection first b.pending.reflection).result = .ok ())
      (body : stmt.hasBody = true) (item : first.item = .enumeration shape)
      (entries : (EnumBody.read (QualifiedPath.join s.path first.name) [] none rest).result =
        .ok (members, rest')) :
      Declares s b ps (.continues
        (({ b with pending := {} } : State).added
          ⟨s.declared b.visibility stmt.line b.pending first, members⟩) rest')
  | skipsBody {stmt : Statement} {first : Heading} {others : List Heading} {rest rest' : List Piece}
      (read : (Statement.read ps).result = .ok (stmt, rest))
      (head : Head.classify stmt s.record = .declares first others)
      (checked : (checkReflection first b.pending.reflection).result = .ok ())
      (body : stmt.hasBody = true) (record : ∀ key shape, first.item ≠ .record key shape)
      (enum : ∀ shape, first.item ≠ .enumeration shape)
      (skipped : (skipBody 0 rest).result = .ok rest') :
      Declares s b ps (.continues
        (({ b with pending := {} } : State).added
          ⟨s.declared b.visibility stmt.line b.pending first, []⟩) rest')
  | announces {stmt : Statement} {first : Heading} {others : List Heading} {rest : List Piece}
      (read : (Statement.read ps).result = .ok (stmt, rest))
      (head : Head.classify stmt s.record = .declares first others)
      (checked : (checkReflection first b.pending.reflection).result = .ok ())
      (bodiless : stmt.hasBody = false) :
      Declares s b ps (.continues
        ((⟨s.declared b.visibility stmt.line b.pending first, []⟩ ::
            others.map fun h => ⟨s.declared b.visibility stmt.line {} h, []⟩).foldl State.added
          { b with pending := {} }) rest)

/-- What a turn that starts with a piece makes of a scope's state. -/
inductive Takes (s : Scope) (b : State) : Piece → List Piece → Turn → Prop where
  | doc (block : DocBlock) (ps : List Piece) :
      Takes s b (.doc block) ps (.continues { b with pending.doc := some block } ps)
  | inject (proxy : String) (line : Nat) (ps : List Piece) (record : s.record.isSome = true) :
      Takes s b (.inject proxy line) ps (.continues (b.addInject ⟨proxy, s.path, line⟩) ps)
  | closes (t : Token) (ps : List Piece) (kind : t.kind = .rbrace) (braced : s.braced = true) :
      Takes s b (.token t) ps (.closes ps)
  /-- A brace that closes nothing, a semicolon or an `inline` in front of a namespace. -/
  | passes (t : Token) (ps : List Piece)
      (why : (t.kind = .rbrace ∧ s.braced = false) ∨ t.kind = .semi ∨
        (t.kind = .ident ∧ word t ps = .inlined)) : Takes s b (.token t) ps (.continues b ps)
  | label {t : Token} {ps : List Piece} {v : Visibility} (kind : t.kind = .ident)
      (is : word t ps = .label v) :
      Takes s b (.token t) ps (.continues { b with visibility := v } (ps.drop 1))
  | template {t : Token} {ps : List Piece} (kind : t.kind = .ident) (is : word t ps = .template) :
      Takes s b (.token t) ps (.continues
        { b with pending.template := some (Token.join (t :: (templateTokens 0 ps).1)) }
        (templateTokens 0 ps).2)
  | opensNamespace {t : Token} {ps rest : List Piece} {name : String} (kind : t.kind = .ident)
      (is : word t ps = .namespace) (head : namespaceHead "" ps = .body name rest) :
      Takes s b (.token t) ps (.opens (s.inNamespace name) (.transparent b.withoutDoc) rest)
  | aliases {t : Token} {ps rest rest' : List Piece} {stmt : Statement} (kind : t.kind = .ident)
      (is : word t ps = .namespace) (head : namespaceHead "" ps = .alias rest)
      (read : (Statement.read rest).result = .ok (stmt, rest')) :
      Takes s b (.token t) ps (.continues b.withoutDoc rest')
  | endsNamespaceHead {t : Token} {ps rest : List Piece} (kind : t.kind = .ident)
      (is : word t ps = .namespace) (head : namespaceHead "" ps = .nothing rest) :
      Takes s b (.token t) ps (.continues b.withoutDoc rest)
  | opensLinkage {t : Token} {ps : List Piece} (kind : t.kind = .ident) (is : word t ps = .linkage) :
      Takes s b (.token t) ps (.opens { s with braced := true } (.transparent b) (ps.drop 2))
  | annotates {t : Token} {ps rest : List Piece} {r : Reflection} (kind : t.kind = .ident)
      (is : word t ps = .reflection) (free : b.pending.reflection = none)
      (read : (readReflection t ps).result = .ok (r, rest)) :
      Takes s b (.token t) ps (.continues { b with pending.reflection := some r } rest)
  | passesOverKeyword {t : Token} {ps rest rest' : List Piece} {stmt : Statement}
      (kind : t.kind = .ident) (is : word t ps = .passedOver)
      (read : (Statement.read (.token t :: ps)).result = .ok (stmt, rest))
      (skipped : (stmt.skipBodyOf rest).result = .ok rest') :
      Takes s b (.token t) ps (.continues b rest')
  | calls {t : Token} {ps rest : List Piece} (kind : t.kind = .ident)
      (is : word t ps = .macroCall rest) : Takes s b (.token t) ps (.continues b rest)
  | declares {t : Token} {ps : List Piece} {u : Turn} (kind : t.kind ≠ .rbrace ∧ t.kind ≠ .semi)
      (is : t.kind = .ident → word t ps = .other) (declares : Declares s b (.token t :: ps) u) :
      Takes s b (.token t) ps u

theorem word_eq_label_iff {t : Token} {ps : List Piece} {v : Visibility} :
    word t ps = .label v ↔ label? t ps = some v := by
  constructor
  · intro h
    unfold word at h
    split at h
    · rename_i hlabel
      cases h
      exact hlabel
    · repeat' split at h
      all_goals cases h
  · intro h
    rw [word, h]

theorem declares_of_declare {s : Scope} {b : State} {ps : List Piece} {u : Turn}
    (h : (declare s b ps).result = .ok u) : Declares s b ps u := by
  unfold declare at h
  obtain ⟨⟨stmt, rest⟩, hread, h⟩ := Outcome.result_bind_eq_ok.1 h
  dsimp only at h
  split at h
  · rename_i reason hhead
    unfold passOver at h
    split at h
    · cases h
    · rename_i hfree
      obtain ⟨-, -, h⟩ := Outcome.result_bind_eq_ok.1 h
      obtain ⟨rest', hskip, h⟩ := Outcome.result_bind_eq_ok.1 h
      rw [Outcome.result_bind, State.result_dropDoc] at h
      cases h
      simp only [State.withoutDoc, hfree]
      exact .passesOver hread hhead hfree hskip
  · rename_i first others hhead
    obtain ⟨⟨⟩, hchecked, h⟩ := Outcome.result_bind_eq_ok.1 h
    split at h
    · rename_i hbody
      unfold openBody at h
      split at h
      · rename_i key shape hitem
        cases h
        exact .opensRecord hread hhead hchecked hbody hitem
      · rename_i shape hitem
        obtain ⟨⟨members, rest'⟩, hentries, h⟩ := Outcome.result_bind_eq_ok.1 h
        rw [Outcome.result_bind, State.result_add] at h
        cases h
        exact .readsEnum hread hhead hchecked hbody hitem hentries
      · rename_i hrecord henum
        obtain ⟨rest', hskip, h⟩ := Outcome.result_bind_eq_ok.1 h
        rw [Outcome.result_bind, State.result_add] at h
        cases h
        exact .skipsBody hread hhead hchecked hbody hrecord henum hskip
    · rename_i hbody
      rw [Outcome.result_bind, State.result_addAll] at h
      cases h
      exact .announces hread hhead hchecked (by simpa using hbody)

theorem takes_of_readNamespace {s : Scope} {b : State} {t : Token} {ps : List Piece} {u : Turn}
    (kind : t.kind = .ident) (is : word t ps = .namespace)
    (h : (readNamespace s b ps).result = .ok u) : Takes s b (.token t) ps u := by
  unfold readNamespace at h
  rw [Outcome.result_bind, State.result_dropDoc] at h
  cases hhead : namespaceHead "" ps with
  | body name rest =>
    rw [hhead] at h
    cases h
    exact .opensNamespace kind is hhead
  | «alias» rest =>
    rw [hhead] at h
    obtain ⟨⟨stmt, rest'⟩, hread, h⟩ := Outcome.result_bind_eq_ok.1 h
    cases h
    exact .aliases kind is hhead hread
  | nothing rest =>
    rw [hhead] at h
    cases h
    exact .endsNamespaceHead kind is hhead

theorem takes_of_readWord {s : Scope} {b : State} {t : Token} {ps : List Piece} {u : Turn}
    (kind : t.kind = .ident) (h : (readWord s b t ps).result = .ok u) : Takes s b (.token t) ps u := by
  unfold readWord at h
  split at h
  · rename_i v is
    cases h
    exact .label kind is
  · rename_i is
    cases h
    exact .template kind is
  · rename_i is
    cases h
    exact .passes t ps (.inr (.inr ⟨kind, is⟩))
  · rename_i is
    exact takes_of_readNamespace kind is h
  · rename_i is
    cases h
    exact .opensLinkage kind is
  · rename_i is
    unfold annotate at h
    split at h
    · cases h
    · rename_i hfree
      obtain ⟨⟨r, rest⟩, hread, h⟩ := Outcome.result_bind_eq_ok.1 h
      cases h
      exact .annotates kind is hfree hread
  · rename_i is
    unfold passOverKeyword at h
    obtain ⟨⟨stmt, rest⟩, hread, h⟩ := Outcome.result_bind_eq_ok.1 h
    obtain ⟨-, -, h⟩ := Outcome.result_bind_eq_ok.1 h
    obtain ⟨rest', hskip, h⟩ := Outcome.result_bind_eq_ok.1 h
    cases h
    exact .passesOverKeyword kind is hread hskip
  · rename_i rest is
    cases h
    exact .calls kind is
  · rename_i is
    exact .declares (by simp [kind]) (fun _ => is) (declares_of_declare h)

/-- **Every turn that succeeds is one of these.** -/
theorem takes_of_turn {s : Scope} {b : State} {p : Piece} {ps : List Piece} {u : Turn}
    (h : (turn s b p ps).result = .ok u) : Takes s b p ps u := by
  unfold turn at h
  split at h
  · rename_i block
    rw [Outcome.result_bind, State.result_dropDoc] at h
    cases h
    exact .doc block ps
  · rename_i proxy line
    split at h
    · cases h
    · rename_i hrecord
      cases h
      exact .inject proxy line ps (by simpa [Option.isSome_iff_ne_none] using hrecord)
  · rename_i t
    split at h
    · rename_i hkind
      split at h
      · rename_i hbraced
        cases h
        exact .closes t ps hkind hbraced
      · rename_i hbraced
        cases h
        exact .passes t ps (.inl ⟨hkind, by simpa using hbraced⟩)
    · rename_i hkind
      cases h
      exact .passes t ps (.inr (.inl hkind))
    · rename_i hkind
      exact takes_of_readWord hkind h
    · rename_i hbrace hsemi hident
      exact .declares ⟨hbrace, hsemi⟩ (fun hkind => absurd hkind hident) (declares_of_declare h)

theorem declare_of_declares {s : Scope} {b : State} {ps : List Piece} {u : Turn}
    (h : Declares s b ps u) : (declare s b ps).result = .ok u := by
  unfold declare
  cases h with
  | passesOver read head free skipped =>
    refine Outcome.result_bind_eq_ok.2 ⟨_, read, ?_⟩
    dsimp only
    rw [head]
    dsimp only
    unfold passOver
    rw [free]
    refine Outcome.result_bind_eq_ok.2 ⟨(), rfl, Outcome.result_bind_eq_ok.2 ⟨_, skipped, ?_⟩⟩
    rw [Outcome.result_bind, State.result_dropDoc]
    simp only [State.withoutDoc, free]
    rfl
  | opensRecord read head checked body item =>
    refine Outcome.result_bind_eq_ok.2 ⟨_, read, ?_⟩
    dsimp only
    rw [head]
    refine Outcome.result_bind_eq_ok.2 ⟨(), checked, ?_⟩
    rw [if_pos body]
    unfold openBody declared
    dsimp only
    rw [item]
    rfl
  | readsEnum read head checked body item entries =>
    refine Outcome.result_bind_eq_ok.2 ⟨_, read, ?_⟩
    dsimp only
    rw [head]
    refine Outcome.result_bind_eq_ok.2 ⟨(), checked, ?_⟩
    rw [if_pos body]
    unfold openBody
    split
    · rename_i hitem
      cases item.symm.trans hitem
    · refine Outcome.result_bind_eq_ok.2 ⟨_, entries, ?_⟩
      exact Outcome.result_bind_eq_ok.2 ⟨_, State.result_add _ _, rfl⟩
    · rename_i hitem
      exact absurd item (hitem _)
  | skipsBody read head checked body record enum skipped =>
    refine Outcome.result_bind_eq_ok.2 ⟨_, read, ?_⟩
    dsimp only
    rw [head]
    refine Outcome.result_bind_eq_ok.2 ⟨(), checked, ?_⟩
    rw [if_pos body]
    unfold openBody
    split
    · rename_i hitem
      exact absurd hitem (record _ _)
    · rename_i hitem
      exact absurd hitem (enum _)
    · refine Outcome.result_bind_eq_ok.2 ⟨_, skipped, ?_⟩
      exact Outcome.result_bind_eq_ok.2 ⟨_, State.result_add _ _, rfl⟩
  | announces read head checked bodiless =>
    refine Outcome.result_bind_eq_ok.2 ⟨_, read, ?_⟩
    dsimp only
    rw [head]
    refine Outcome.result_bind_eq_ok.2 ⟨(), checked, ?_⟩
    rw [if_neg (by simp [bodiless])]
    exact Outcome.result_bind_eq_ok.2 ⟨_, State.result_addAll _ _, rfl⟩

/-- **And each of these is what the turn does.** -/
theorem turn_of_takes {s : Scope} {b : State} {p : Piece} {ps : List Piece} {u : Turn}
    (h : Takes s b p ps u) : (turn s b p ps).result = .ok u := by
  -- What a word's turn does, once the word is known.
  have hword {t : Token} {w : Word} (kind : t.kind = .ident) (is : word t ps = w) :
      turn s b (.token t) ps = readWord s b t ps := by
    unfold turn
    simp [kind]
  cases h with
  | doc block =>
    unfold turn
    exact Outcome.result_bind_eq_ok.2 ⟨_, State.result_dropDoc _ _, rfl⟩
  | inject proxy line _ record =>
    unfold turn
    dsimp only
    rw [if_neg (by simpa [Option.isSome_iff_ne_none] using record)]
    rfl
  | closes t _ kind braced =>
    unfold turn
    simp only [kind, braced, if_true]
    rfl
  | passes t _ why =>
    rcases why with ⟨kind, braced⟩ | kind | ⟨kind, is⟩
    · unfold turn
      simp only [kind, braced]
      rfl
    · unfold turn
      simp only [kind]
      rfl
    · rw [hword kind is]
      unfold readWord
      rw [is]
      rfl
  | label kind is | template kind is | opensLinkage kind is | calls kind is =>
    rw [hword kind is]
    unfold readWord
    rw [is]
    rfl
  | opensNamespace kind is head | endsNamespaceHead kind is head =>
    rw [hword kind is]
    unfold readWord readNamespace
    rw [is]
    refine Outcome.result_bind_eq_ok.2 ⟨_, State.result_dropDoc _ _, ?_⟩
    rw [head]
    rfl
  | aliases kind is head read =>
    rw [hword kind is]
    unfold readWord readNamespace
    rw [is]
    refine Outcome.result_bind_eq_ok.2 ⟨_, State.result_dropDoc _ _, ?_⟩
    rw [head]
    exact Outcome.result_bind_eq_ok.2 ⟨_, read, rfl⟩
  | annotates kind is free read =>
    rw [hword kind is]
    unfold readWord annotate
    rw [is]
    dsimp only
    rw [free]
    exact Outcome.result_bind_eq_ok.2 ⟨_, read, rfl⟩
  | passesOverKeyword kind is read skipped =>
    rw [hword kind is]
    unfold readWord passOverKeyword
    rw [is]
    refine Outcome.result_bind_eq_ok.2 ⟨_, read, Outcome.result_bind_eq_ok.2 ⟨(), rfl, ?_⟩⟩
    exact Outcome.result_bind_eq_ok.2 ⟨_, skipped, rfl⟩
  | @declares t _ _ kind is h =>
    have hdeclare : (turn s b (.token t) ps).result = (declare s b (.token t :: ps)).result := by
      unfold turn
      dsimp only
      split
      · exact absurd (by assumption) kind.1
      · exact absurd (by assumption) kind.2
      · rename_i hident
        unfold readWord
        rw [is hident]
      · rfl
    rw [hdeclare]
    exact declare_of_declares h

end AnnotatedHeader.Scope
