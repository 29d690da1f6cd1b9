import AnnotatedHeader.Proofs.Numbering.Scopes
import AnnotatedHeader.Proofs.Scope.Nodes
import AnnotatedHeader.Proofs.Scope.Unread
import Mathlib

/-! Items that are read alone.

What ends in front of one piece ends in front of any: a statement (`Statement.read_alone`), a
macro, the head of a template and the entry of an enum, unless the piece is a brace that
closes something. So that an item is read up to its end, whatever follows it (`Carries`), can
be seen on its own tokens with one piece behind them (`IsHead`, `IsMacro`, `IsTemplate`), and
they can be numbered from any line. -/
namespace AnnotatedHeader

variable {p : Piece} {xs : List Piece} {g : Nat → Nat}

/-! ### Ends -/

namespace Statement

theorem collect_alone {depth braces : Nat} {s s' : Statement} (hp : p.hasKind .rbrace = false)
    (h : (collect depth braces s (xs ++ [p])).result = .ok (s', [p])) (qs : List Piece) :
    (collect depth braces s (xs ++ qs)).result = .ok (s', qs) := by
  induction xs generalizing depth braces s with
  | nil =>
    obtain ⟨-, t, rfl, kind, -⟩ := collect_unread h (List.suffix_refl _)
    simp [Piece.hasKind, kind] at hp
  | cons x xs ih =>
    rw [List.cons_append] at h ⊢
    cases x with
    | inject proxy line => cases h
    | doc b =>
      rw [result_collect_doc] at h ⊢
      exact ih h
    | token t =>
      rw [collect] at h ⊢
      cases hstep : step depth braces s t.kind with
      | ends | opensBody =>
        rw [hstep] at h
        injection h with h
        obtain ⟨rfl, hxs⟩ := Prod.mk.inj h
        rw [List.append_left_eq_self.1 hxs]
        rfl
      | stops =>
        rw [hstep] at h
        injection h with h
        have hlength := congrArg (·.2.length) h
        simp at hlength
      | goesOn =>
        rw [hstep] at h
        exact ih (s := s.push t) h

/-- A statement that ends in front of `p` ends there in front of anything. -/
theorem read_alone {stmt : Statement} (hp : p.hasKind .rbrace = false) (hne : xs ≠ [])
    (h : (read (xs ++ [p])).result = .ok (stmt, [p])) (qs : List Piece) :
    (read (xs ++ qs)).result = .ok (stmt, qs) := by
  unfold read at h ⊢
  rw [List.head?_append_of_ne_nil _ hne] at h ⊢
  exact collect_alone hp h qs

end Statement

namespace EnumBody

theorem entryTokens_alone {depth : Nat} {ts : List Token} (hp : p.hasKind .rbrace = false)
    (h : entryTokens depth (xs ++ [p]) = (ts, [p])) (qs : List Piece) :
    entryTokens depth (xs ++ qs) = (ts, qs) := by
  induction xs generalizing depth ts with
  | nil =>
    cases p with
    | doc | inject => simp [entryTokens] at h
    | token t =>
      have hkind : t.kind ≠ .rbrace := by simpa [Piece.hasKind] using hp
      rw [List.nil_append, entryTokens] at h
      split at h
      · cases h
      · simp [hkind, entryTokens] at h
  | cons x xs ih =>
    rw [List.cons_append] at h ⊢
    cases x with
    | doc | inject => exact ih h
    | token t =>
      rw [entryTokens] at h ⊢
      split at h
      · rw [if_pos (by assumption)]
        obtain ⟨rfl, hxs⟩ := Prod.mk.inj h
        rw [List.append_left_eq_self.1 hxs]
        rfl
      · rw [if_neg (by assumption)]
        split at h
        · have hlength := congrArg (·.2.length) h
          simp at hlength
        · rw [if_neg (by assumption)]
          obtain ⟨rfl, hrest⟩ := Prod.mk.inj h
          rw [ih (Prod.ext rfl hrest)]

/-- The same tokens declare the same variant in any enum and under any doc block. -/
theorem variant_elsewhere {path : String} {doc : Option DocBlock} {ts : List Token}
    {member : Declaration} (h : variant path doc ts = .ok (some member)) (path' : String)
    (doc' : Option DocBlock) :
    variant path' doc' ts =
      .ok (some { member with path := QualifiedPath.join path' member.name, doc := doc' }) := by
  unfold variant at h ⊢
  split at h
  · dsimp only at h ⊢
    split at h
    · split at h
      · obtain ⟨found, hfound, h⟩ := Except.bind_eq_ok.1 h
        cases h
        simp_all
      · cases h
        simp_all
        rfl
    · cases h
  · cases h

/-- The pieces are the entry of a variant, up to its comma. -/
def IsEntry (name : String) (ps : List Piece) : Prop :=
  ∃ t more, ps = .token t :: more ∧ t.kind = .ident ∧ t.text = name ∧
    ∃ p ts member, p.hasKind .rbrace = false ∧ entryTokens 0 (more ++ [p]) = (ts, [p]) ∧
      variant "" none (t :: ts) = .ok (some member)

/-- An entry adds its variant, whatever follows. -/
theorem IsEntry.exists_member {name : String} {ps : List Piece} (h : IsEntry name ps) (path : String)
    (doc : Option DocBlock) :
    ∃ member : Declaration, member.name = name ∧ member.path = QualifiedPath.join path name ∧
      member.doc = doc ∧ (∃ value, member.item = .variant value) ∧ member.members = [] ∧
      ∀ members rest, (read path members doc (ps ++ rest)).result =
        (read path (Declaration.merged members member) none rest).result := by
  obtain ⟨t, more, rfl, ident, rfl, p, ts, found, hp, htokens, hvariant⟩ := h
  have hmember := variant_elsewhere hvariant path doc
  obtain ⟨name, tokens, reflection, hts, -, hfound⟩ := eq_of_variant hvariant
  obtain ⟨rfl, rfl⟩ := List.cons.inj hts
  have hname : found.name = t.text := by rw [hfound]
  refine ⟨{ found with path := QualifiedPath.join path found.name, doc }, hname,
    congrArg (QualifiedPath.join path) hname, rfl, ⟨_, congrArg (·.item) hfound⟩,
    congrArg (·.members) hfound, fun members rest => ?_⟩
  have hdepth : bracketDepth 0 t.kind = 0 := by rw [ident]; rfl
  rw [List.cons_append, read_entry (by simp [ident]) (by simp [ident]), hdepth,
    entryTokens_alone hp htokens rest, Outcome.result_bind, addEntry, hmember]
  rfl

theorem IsEntry.renumber {name : String} {ps : List Piece} (h : IsEntry name ps) :
    IsEntry name (ps.map (renumber g)) := by
  obtain ⟨t, more, rfl, ident, rfl, p, ts, member, hp, htokens, hvariant⟩ := h
  refine ⟨AnnotatedHeader.renumber g t, more.map (AnnotatedHeader.renumber g), rfl, ident, rfl,
    AnnotatedHeader.renumber g p, ts.map (AnnotatedHeader.renumber g), AnnotatedHeader.renumber g member,
    by rwa [Piece.hasKind_renumber], ?_, ?_⟩
  · have hrenumbered := entryTokens_renumber (g := g) 0 (more ++ [p])
    rwa [htokens, List.map_append] at hrenumbered
  · have hrenumbered := variant_renumber (g := g) "" none (t :: ts)
    rwa [hvariant] at hrenumbered

end EnumBody

namespace Scope

theorem readReflection_alone {t : Token} {r : Reflection}
    (h : (readReflection t (xs ++ [p])).result = .ok (r, [p])) (qs : List Piece) :
    (readReflection t (xs ++ qs)).result = .ok (r, qs) := by
  obtain ⟨zs, hzs⟩ := readReflection_append h (List.suffix_refl _)
  have hself := hzs [p]
  rw [h] at hself
  injection hself with hself
  rw [hzs qs, List.self_eq_append_left.1 (congrArg Prod.snd hself), List.nil_append]

theorem templateTokens_alone {angle : Nat} {ts : List Token}
    (h : templateTokens angle (xs ++ [p]) = (ts, [p])) (qs : List Piece) :
    templateTokens angle (xs ++ qs) = (ts, qs) := by
  have hunread : [p] <:+ (templateTokens angle (xs ++ [p])).2 := by rw [h]
  obtain ⟨ts', zs, hzs⟩ := templateTokens_append hunread
  have hself := hzs [p]
  rw [h] at hself
  obtain ⟨rfl, hrest⟩ := Prod.mk.inj hself
  rw [hzs qs, List.self_eq_append_left.1 hrest, List.nil_append]

/-! ### Reading on -/

/-- What a scope that has reached `b` is read as behind a turn. -/
def Turn.readOn (s : Scope) (b : State) : Turn → Except Fault (Contents × List Piece)
  | .closes rest => (s.finish b).result.map fun found => (found, rest)
  | .continues b rest => s.readOn b rest
  | .opens inner frame rest => inner.readOn inner.start rest >>= fun e =>
      s.readOn (frame.resumed e.1) e.2

theorem readOn_of_takes {s : Scope} {b : State} {ps : List Piece} {u : Turn} (h : Takes s b p ps u) :
    s.readOn b (p :: ps) = u.readOn s b := by
  rw [readOn_cons, turn_of_takes h]
  cases u <;> rfl

/-- Reading the pieces takes a scope from `b` to `b'`, whatever follows. -/
def Carries (s : Scope) (b : State) (ps : List Piece) (b' : State) : Prop :=
  ∀ rest, readOn s b (ps ++ rest) = readOn s b' rest

variable {s : Scope} {b b' b'' : State} {ps qs : List Piece}

theorem carries_nil (s : Scope) (b : State) : Carries s b [] b := fun _ => rfl

theorem Carries.append (hps : Carries s b ps b') (hqs : Carries s b' qs b'') :
    Carries s b (ps ++ qs) b'' := by
  intro rest
  rw [List.append_assoc, hps, hqs]

theorem carries_of_takes (h : ∀ rest, Takes s b p (ps ++ rest) (.continues b' rest)) :
    Carries s b (p :: ps) b' :=
  fun rest => readOn_of_takes (h rest)

theorem carries_doc (s : Scope) (b : State) (block : DocBlock) :
    Carries s b [.doc block] { b with pending.doc := some block } :=
  carries_of_takes fun rest => .doc block rest

theorem carries_semi {t : Token} (kind : t.kind = .semi) (s : Scope) (b : State) :
    Carries s b [.token t] b :=
  carries_of_takes fun rest => .passes t rest (.inr (.inl kind))

/-! ### Macros and templates -/

/-- The pieces are a macro that marks declarations of the kind. -/
def IsMacro (kind : Kind) (ps : List Piece) : Prop :=
  ∃ t more, ps = .token t :: more ∧ t.kind = .ident ∧ markedKind? t.text = some kind ∧
    ∃ p r, (readReflection t (more ++ [p])).result = .ok (r, [p])

/-- The pieces are the head of a template. -/
def IsTemplate (ps : List Piece) : Prop :=
  ∃ t more, ps = .token t :: more ∧ t.isIdent "template" = true ∧ nextIs 0 .less more = true ∧
    ∃ p ts, templateTokens 0 (more ++ [p]) = (ts, [p])

theorem nextIs_zero_append {kind : TokenKind} (h : nextIs 0 kind ps = true) (qs : List Piece) :
    nextIs 0 kind (ps ++ qs) = true := by
  cases ps with
  | nil => cases h
  | cons p ps => exact h

theorem label?_of_nextIs {kind : TokenKind} (hkind : kind ≠ .colon) (h : nextIs 0 kind ps = true)
    (t : Token) : label? t ps = none := by
  cases ps with
  | nil => cases h
  | cons p ps =>
    cases p with
    | doc | inject => cases h
    | token t' =>
      have ht' : t'.kind = kind := by simpa [nextIs, Piece.hasKind] using h
      simp [label?, nextIs, Piece.hasKind, ht', hkind]

theorem mem_reflectionMacros_of_markedKind? {text : String} {kind : Kind}
    (h : markedKind? text = some kind) : (text, kind) ∈ reflectionMacros := by
  obtain ⟨e, he, rfl⟩ := Option.map_eq_some_iff.1 h
  have htext : e.1 = text := by simpa using List.find?_some he
  exact htext ▸ List.mem_of_find?_eq_some he

theorem word_of_marked {t : Token} {kind : Kind} (marked : markedKind? t.text = some kind)
    (hlabel : label? t ps = none) : word t ps = .reflection := by
  have hsome : (markedKind? t.text).isSome = true := by rw [marked]; rfl
  have hmem := mem_reflectionMacros_of_markedKind? marked
  have hplain : t.text ≠ "template" ∧ t.text ≠ "inline" ∧ t.text ≠ "namespace" ∧ t.text ≠ "extern" := by
    simp only [reflectionMacros, List.mem_cons, Prod.mk.injEq, List.not_mem_nil, or_false] at hmem
    rcases hmem with ⟨h, -⟩ | ⟨h, -⟩ | ⟨h, -⟩ | ⟨h, -⟩ | ⟨h, -⟩ | ⟨h, -⟩ <;> rw [h] <;> decide
  simp [word, hlabel, hplain, hsome]

theorem nextIs_of_readReflection {t : Token} {r : Reflection} {rest : List Piece}
    (h : (readReflection t ps).result = .ok (r, rest)) :
    nextIs 0 .lparen ps = true ∧ r.macroName = t.text := by
  unfold readReflection at h
  split at h
  · split at h
    · split at h
      · split at h <;> cases h
        exact ⟨by simpa [nextIs], rfl⟩
      · cases h
    · cases h
  · cases h

/-- A macro waits for a declaration of its kind. -/
theorem IsMacro.carries {kind : Kind} (h : IsMacro kind ps) (free : b.pending.reflection = none) :
    ∃ r, markedKind? r.macroName = some kind ∧
      Carries s b ps { b with pending.reflection := some r } := by
  obtain ⟨t, more, rfl, ident, marked, p, r, hread⟩ := h
  have hname := (nextIs_of_readReflection hread).2
  refine ⟨r, hname ▸ marked, carries_of_takes fun rest => ?_⟩
  have hrest := readReflection_alone hread rest
  exact .annotates ident (word_of_marked marked
    (label?_of_nextIs (by decide) (nextIs_of_readReflection hrest).1 t)) free hrest

theorem IsTemplate.carries (h : IsTemplate ps) :
    ∃ text, Carries s b ps { b with pending.template := some text } := by
  obtain ⟨t, more, rfl, named, less, p, ts, htokens⟩ := h
  obtain ⟨ident, htext⟩ : t.kind = .ident ∧ t.text = "template" := by simpa [Token.isIdent] using named
  refine ⟨Token.join (t :: ts), carries_of_takes fun rest => ?_⟩
  have hnext := nextIs_zero_append less rest
  have hword : word t (more ++ rest) = .template := by
    simp [word, label?_of_nextIs (by decide) hnext, htext, hnext]
  have htakes : Takes s b (.token t) (more ++ rest) _ := .template ident hword
  rwa [templateTokens_alone htokens rest] at htakes

/-! ### Heads -/

/-- The pieces are the head of one declaration, up to its semicolon or the brace of its body. -/
structure IsHead (record : Option String) (ps : List Piece) (stmt : Statement) (h : Heading) :
    Prop where
  parts : ∃ t xs sign, ps = .token t :: (xs ++ [.token sign]) ∧ t.kind ≠ .rbrace ∧ t.kind ≠ .semi ∧
    sign.IsStop ∧ (t.kind = .ident → word t (xs ++ [.token sign]) = .other)
  read : ∃ p, p.hasKind .rbrace = false ∧ (Statement.read (ps ++ [p])).result = .ok (stmt, [p])
  head : Head.classify stmt record = .declares h []

namespace IsHead
variable {record : Option String} {stmt : Statement} {h : Heading}

theorem read_append (head : IsHead record ps stmt h) (rest : List Piece) :
    (Statement.read (ps ++ rest)).result = .ok (stmt, rest) := by
  obtain ⟨p, hp, hread⟩ := head.read
  obtain ⟨t, xs, sign, rfl, -⟩ := head.parts
  exact Statement.read_alone hp (by simp) hread rest

/-- The turn of a scope that stands at a head reads the head. -/
theorem readOn_append (head : IsHead s.record ps stmt h) {rest : List Piece} {u : Turn}
    (declares : Declares s b (ps ++ rest) u) :
    readOn s b (ps ++ rest) = u.readOn s b := by
  obtain ⟨t, xs, sign, rfl, hbrace, hsemi, hstop, hword⟩ := head.parts
  have hother : t.kind = .ident → word t (xs ++ [.token sign] ++ rest) = .other := by
    intro ident
    obtain ⟨w, hw⟩ := word_append hstop t xs
    have hself := (hw []).symm.trans (hword ident)
    cases w <;> cases hself
    rw [List.append_assoc]
    exact hw rest
  exact readOn_of_takes (.declares ⟨hbrace, hsemi⟩ hother declares)

/-- A head without a body. -/
theorem carries (head : IsHead s.record ps stmt h) (bodiless : stmt.hasBody = false)
    (checked : (checkReflection h b.pending.reflection).result = .ok ()) :
    Carries s b ps (({ b with pending := {} } : State).added
      ⟨s.declared b.visibility stmt.line b.pending h, []⟩) := fun rest =>
  head.readOn_append (.announces (head.read_append rest) head.head checked bodiless)

/-- The head of a record. -/
theorem readOn_record (head : IsHead s.record ps stmt h) (body : stmt.hasBody = true)
    (checked : (checkReflection h b.pending.reflection).result = .ok ()) {key : RecordKey}
    {shape : RecordShape} (item : h.item = .record key shape) (rest : List Piece) :
    let inner := ofRecord (QualifiedPath.join s.path h.name) h.name key
    readOn s b (ps ++ rest) = readOn inner inner.start rest >>= fun e =>
      readOn s ((Frame.memberOf { b with pending := {} }
        (s.declared b.visibility stmt.line b.pending h)).resumed e.1) e.2 :=
  head.readOn_append (.opensRecord (head.read_append rest) head.head checked body item)

/-- The head of an enum and its body. -/
theorem readOn_enum (head : IsHead s.record ps stmt h) (body : stmt.hasBody = true)
    (checked : (checkReflection h b.pending.reflection).result = .ok ()) {shape : EnumShape}
    (item : h.item = .enumeration shape) {members : List Declaration} {rest rest' : List Piece}
    (entries : (EnumBody.read (QualifiedPath.join s.path h.name) [] none rest).result =
      .ok (members, rest')) :
    readOn s b (ps ++ rest) = readOn s (({ b with pending := {} } : State).added
      ⟨s.declared b.visibility stmt.line b.pending h, members⟩) rest' :=
  head.readOn_append (.readsEnum (head.read_append rest) head.head checked body item entries)

end IsHead

/-! ### From any line -/

theorem IsMacro.renumber {kind : Kind} (h : IsMacro kind ps) :
    IsMacro kind (ps.map (renumber g)) := by
  obtain ⟨t, more, rfl, ident, marked, p, r, hread⟩ := h
  refine ⟨AnnotatedHeader.renumber g t, more.map (AnnotatedHeader.renumber g), rfl, ident, marked,
    AnnotatedHeader.renumber g p, AnnotatedHeader.renumber g r, ?_⟩
  have hrenumbered := readReflection_renumber (g := g) t (more ++ [p])
  rwa [hread, List.map_append] at hrenumbered

theorem IsTemplate.renumber (h : IsTemplate ps) : IsTemplate (ps.map (renumber g)) := by
  obtain ⟨t, more, rfl, named, less, p, ts, htokens⟩ := h
  refine ⟨AnnotatedHeader.renumber g t, more.map (AnnotatedHeader.renumber g), rfl, named, ?_,
    AnnotatedHeader.renumber g p, ts.map (AnnotatedHeader.renumber g), ?_⟩
  · rw [nextIs_renumber, less]
  · have hrenumbered := templateTokens_renumber (g := g) 0 (more ++ [p])
    rwa [htokens, List.map_append] at hrenumbered

theorem IsHead.renumber (hg : StrictMono g) {record : Option String} {stmt : Statement} {h : Heading}
    (head : IsHead record ps stmt h) :
    IsHead record (ps.map (renumber g)) (renumber g stmt) (renumber g h) := by
  obtain ⟨t, xs, sign, rfl, hbrace, hsemi, hstop, hword⟩ := head.parts
  obtain ⟨p, hp, hread⟩ := head.read
  refine ⟨⟨AnnotatedHeader.renumber g t, xs.map (AnnotatedHeader.renumber g),
    AnnotatedHeader.renumber g sign, by simp, hbrace, hsemi, hstop, fun ident => ?_⟩,
    ⟨AnnotatedHeader.renumber g p, by rwa [Piece.hasKind_renumber], ?_⟩, ?_⟩
  · have hrenumbered := word_renumber hg t (xs ++ [.token sign])
    rwa [hword ident, List.map_append] at hrenumbered
  · have hne : .token t :: (xs ++ [.token sign]) ++ [p] ≠ [] := List.cons_ne_nil _ _
    have hrenumbered := Statement.result_read_renumber (g := g) hne
    rwa [hread, List.map_append] at hrenumbered
  · rw [Head.classify_renumber, head.head]
    rfl

end Scope

end AnnotatedHeader
