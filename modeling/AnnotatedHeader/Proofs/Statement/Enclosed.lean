import AnnotatedHeader.Proofs.EnumBody

/-! Readers of statements stay within brackets.

A reader that counts brackets passes over what is nested, or fails in it (`Counts.goesPast`). So a
statement, a body that is skipped and an enum's body each take the same from the pieces in front of
a closing brace, whatever stands behind that brace (`Settles`). What they leave there is read next:
it is nested but for signs that close parentheses or brackets opened in front of it
(`Piece.Loose`), since a template head may end in those. -/
namespace AnnotatedHeader

theorem Token.IsBare.stray {t : Token} (h : t.IsBare) : t.kind.opens = false ∧ t.kind ≠ .rbrace := by
  refine ⟨h.1, fun hkind => ?_⟩
  have hcloses := h.2
  rw [hkind] at hcloses
  cases hcloses

namespace Piece

/-- A piece that is no bracket. -/
def IsBare (p : Piece) : Prop := ∀ t, p = .token t → t.IsBare

def Pairs (p q : Piece) : Prop :=
  ∃ opening closing, p = .token opening ∧ q = .token closing ∧ opening.Pairs closing

/-- A piece that opens nothing and closes no brace. -/
def IsStray (p : Piece) : Prop := ∀ t, p = .token t → t.kind.opens = false ∧ t.kind ≠ .rbrace

theorem IsBare.isStray {p : Piece} (h : p.IsBare) : p.IsStray := fun t ht => (h t ht).stray

/-- Brackets are nested. -/
def Nested (ps : List Piece) : Prop := Bracketed Pairs IsBare IsBare ps

/-- Brackets are nested, those apart that close parentheses or brackets opened in front. -/
def Loose (ps : List Piece) : Prop := Bracketed Pairs IsBare IsStray ps

theorem Pairs.exists_opens {p q : Piece} (h : p.Pairs q) : ∃ t, p = .token t ∧ t.kind.opens = true := by
  obtain ⟨opening, closing, rfl, rfl, pair⟩ := h
  exact ⟨opening, rfl, (TokenKind.opens_of_closer? pair).1⟩

/-- What opens nothing is no more than itself. -/
theorem of_cons_of_not_opens {lone : Piece → Prop} {p : Piece} {ps : List Piece}
    (h : Bracketed Pairs IsBare lone (p :: ps)) (hp : ∀ t, p = .token t → t.kind.opens = false) :
    lone p ∧ Bracketed Pairs IsBare lone ps := by
  rcases h.of_cons with h | ⟨_, _, _, -, pair, -⟩
  · exact h
  · obtain ⟨t, ht, hopens⟩ := pair.exists_opens
    rw [hp t ht] at hopens
    cases hopens

theorem Nested.loose {ps : List Piece} (h : Nested ps) : Loose ps := h.mono fun _ => IsBare.isStray

theorem Loose.of_token {t : Token} {ps : List Piece} (h : Loose (.token t :: ps))
    (opens : t.kind.opens = false) : Loose ps :=
  (of_cons_of_not_opens h fun _ ht => by cases ht; exact opens).2

theorem Loose.ne_rbrace {t : Token} {ps : List Piece} (h : Loose (.token t :: ps)) :
    t.kind ≠ .rbrace := by
  rcases h.of_cons with ⟨alone, -⟩ | ⟨_, _, _, -, pair, -⟩
  · exact (alone t rfl).2
  · obtain ⟨_, ⟨⟩, hopens⟩ := pair.exists_opens
    intro hkind
    rw [hkind] at hopens
    cases hopens

theorem Loose.of_opens {opening : Token} {ps : List Piece} (h : Loose (.token opening :: ps))
    (opens : opening.kind.opens = true) :
    ∃ inside closing rest, ps = inside ++ .token closing :: rest ∧ opening.Pairs closing ∧
      Nested inside ∧ Loose rest := by
  rcases h.of_cons with ⟨alone, -⟩ | ⟨inside, _, rest, rfl, ⟨_, closing, ⟨⟩, rfl, pair⟩, hinside, hrest⟩
  · exact absurd opens (by simp [(alone opening rfl).1])
  · exact ⟨inside, closing, rest, rfl, pair, hinside, hrest⟩

/-- A body, from behind its brace, with what follows it. -/
def Opened (ps : List Piece) : Prop :=
  ∃ inside closing rest, ps = inside ++ .token closing :: rest ∧ closing.kind = .rbrace ∧
    Nested inside ∧ Loose rest

theorem Loose.opened {opening : Token} {ps : List Piece} (h : Loose (.token opening :: ps))
    (brace : opening.kind = .lbrace) : Opened ps := by
  obtain ⟨inside, closing, rest, rfl, pair, hinside, hrest⟩ := h.of_opens (by rw [brace]; rfl)
  rw [Token.Pairs, brace] at pair
  exact ⟨inside, closing, rest, rfl, (Option.some.inj pair).symm, hinside, hrest⟩

end Piece

/-! ### Passing over what is nested -/

section
variable {σ ℓ β : Type} {Fails : β → Prop} {f : σ → List Piece → β} {level : σ → ℓ} {Inside : ℓ → Prop}
  {a : σ} {xs : List Piece}

/-- The reader fails in the pieces, or goes on behind them where it was in front. -/
def GoesPast (Fails : β → Prop) (f : σ → List Piece → β) (level : σ → ℓ) (xs : List Piece)
    (a : σ) : Prop :=
  (∃ e, Fails e ∧ ∀ ps, f a (xs ++ ps) = e) ∨ ∃ a', level a' = level a ∧ ∀ ps, f a (xs ++ ps) = f a' ps

/-- A reader that counts brackets. -/
structure Counts (Fails : β → Prop) (f : σ → List Piece → β) (level : σ → ℓ) (Inside : ℓ → Prop) :
    Prop where
  single : ∀ p : Piece, p.IsBare → ∀ a, Inside (level a) →
    (∃ e, Fails e ∧ ∀ ps, f a (p :: ps) = e) ∨ ∃ a', level a' = level a ∧ ∀ ps, f a (p :: ps) = f a' ps
  group : ∀ opening closing : Token, opening.Pairs closing → ∀ a, Inside (level a) →
    (∃ e, Fails e ∧ ∀ ps, f a (.token opening :: ps) = e) ∨
      ∃ a₁, Inside (level a₁) ∧ (∀ ps, f a (.token opening :: ps) = f a₁ ps) ∧
        ∀ a₂, level a₂ = level a₁ → ∃ a', level a' = level a ∧ ∀ ps, f a₂ (.token closing :: ps) = f a' ps

/-- What is nested is passed over. -/
theorem Counts.goesPast (hf : Counts Fails f level Inside) {lone : Piece → Prop}
    (hxs : Bracketed Piece.Pairs Piece.IsBare lone xs) (bare : ∀ p, lone p → p.IsBare)
    (inside : Inside (level a)) : GoesPast Fails f level xs a := by
  induction hxs generalizing a with
  | nil => exact .inr ⟨a, rfl, fun _ => rfl⟩
  | single alone _ ih =>
    rcases hf.single _ (bare _ alone) a inside with ⟨e, fails, he⟩ | ⟨a₁, hlevel₁, h₁⟩
    · exact .inl ⟨e, fails, fun ps => he _⟩
    rcases ih bare (hlevel₁ ▸ inside) with ⟨e, fails, he⟩ | ⟨a₂, hlevel₂, h₂⟩
    · exact .inl ⟨e, fails, fun ps => (h₁ _).trans (he ps)⟩
    · exact .inr ⟨a₂, hlevel₂.trans hlevel₁, fun ps => (h₁ _).trans (h₂ ps)⟩
  | @group lone _ _ as bs pair _ _ ihWithin ihRest =>
    obtain ⟨opening, closing, rfl, rfl, pair⟩ := pair
    have hpieces (ps : List Piece) : .token opening :: (as ++ .token closing :: bs) ++ ps =
        .token opening :: (as ++ .token closing :: (bs ++ ps)) := by
      simp
    unfold GoesPast
    simp only [hpieces]
    rcases hf.group _ _ pair a inside with ⟨e, fails, he⟩ | ⟨a₁, inside₁, h₁, hclose⟩
    · exact .inl ⟨e, fails, fun ps => he _⟩
    simp only [h₁]
    rcases ihWithin (fun _ => id) inside₁ with ⟨e, fails, he⟩ | ⟨a₂, hlevel₂, h₂⟩
    · exact .inl ⟨e, fails, fun ps => he _⟩
    obtain ⟨a₃, hlevel₃, h₃⟩ := hclose a₂ hlevel₂
    simp only [h₂, h₃]
    rcases ihRest bare (hlevel₃ ▸ inside) with ⟨e, fails, he⟩ | ⟨a₄, hlevel₄, h₄⟩
    · exact .inl ⟨e, fails, he⟩
    · exact .inr ⟨a₄, hlevel₄.trans hlevel₃, h₄⟩

end

/-! ### What is left -/

/-- Pieces that end, or that a closing brace starts. -/
def Closing (qs : List Piece) : Prop :=
  qs = [] ∨ ∃ closing rest, qs = .token closing :: rest ∧ closing.kind = .rbrace

theorem Closing.of_brace {closing : Token} (closes : closing.kind = .rbrace) (rest : List Piece) :
    Closing (.token closing :: rest) := .inr ⟨closing, rest, rfl, closes⟩

theorem Closing.of_exists {qs : List Piece} {closing : Token} (closes : closing.kind = .rbrace)
    (h : ∃ rest, qs = .token closing :: rest) : Closing qs := by
  obtain ⟨rest, rfl⟩ := h
  exact .of_brace closes rest

/-- What a reader makes in front of `qs` is `P`, and the same whatever `qs` are; `more` puts them
behind what it leaves. -/
def Settles {β : Type} (more : β → List Piece → β) (P : β → Prop) (Q : List Piece → Prop)
    (f : List Piece → Except Fault β) : Prop :=
  ∃ o : Except Fault β, (∀ v, o = .ok v → P v) ∧ ∀ qs, Q qs → f qs = o.map (more · qs)

/-- More behind the pieces that are left beside what is found. -/
def withMore {α : Type} (e : α × List Piece) (qs : List Piece) : α × List Piece := (e.1, e.2 ++ qs)

namespace Settles
variable {β γ : Type} {more : β → List Piece → β} {more' : γ → List Piece → γ} {P : β → Prop}
  {P' : γ → Prop} {Q Q' : List Piece → Prop} {f : List Piece → Except Fault β}

theorem error {e : Fault} (h : ∀ qs, Q qs → f qs = .error e) : Settles more P Q f :=
  ⟨.error e, nofun, h⟩

theorem ok {v : β} (hv : P v) (h : ∀ qs, Q qs → f qs = .ok (more v qs)) : Settles more P Q f :=
  ⟨.ok v, fun _ h => Except.ok.inj h ▸ hv, h⟩

theorem mono (hf : Settles more P Q f) (h : ∀ qs, Q' qs → Q qs) : Settles more P Q' f := by
  obtain ⟨o, ho, hf⟩ := hf
  exact ⟨o, ho, fun qs hqs => hf qs (h qs hqs)⟩

theorem congr {f' : List Piece → Except Fault β} (hf : Settles more P Q f)
    (h : ∀ qs, Q qs → f' qs = f qs) : Settles more P Q f' := by
  obtain ⟨o, ho, hf⟩ := hf
  exact ⟨o, ho, fun qs hqs => (h qs hqs).trans (hf qs hqs)⟩

/-- One reader behind another. -/
theorem bind {g : β → Except Fault γ} (hf : Settles more P Q f)
    (hg : ∀ v, P v → Settles more' P' Q fun qs => g (more v qs)) :
    Settles more' P' Q fun qs => f qs >>= g := by
  obtain ⟨o, ho, hf⟩ := hf
  cases o with
  | error e =>
    refine .error (e := e) fun qs hqs => ?_
    rw [hf qs hqs]
    rfl
  | ok v =>
    refine (hg v (ho v rfl)).congr fun qs hqs => ?_
    rw [hf qs hqs]
    rfl

end Settles

/-! ### Bodies that are skipped -/

theorem braceDepth_of_stray {t : Token} (stray : t.kind.opens = false ∧ t.kind ≠ .rbrace)
    (depth : Nat) : braceDepth depth t.kind = depth := by
  unfold braceDepth
  split
  · exact absurd stray.1 (by simp_all [TokenKind.opens])
  · exact absurd (by assumption) stray.2
  · rfl

theorem braceDepth_of_pairs {opening closing : Token} (pair : opening.Pairs closing) (depth : Nat) :
    braceDepth (braceDepth depth opening.kind) closing.kind = depth := by
  rcases pair.kinds with ⟨hopen, hclose⟩ | ⟨hopen, hclose⟩ | ⟨hopen, hclose⟩ <;>
    rw [hopen, hclose] <;> rfl

theorem skipBody_counts :
    Counts (fun x => ∃ e, x = .error e) (fun depth ps => (skipBody depth ps).result) id fun _ => True where
  single p bare depth _ := by
    cases p with
    | token t =>
      refine .inr ⟨depth, rfl, fun ps => congrArg Outcome.result ?_⟩
      have hstray := (bare t rfl).stray
      rw [skipBody_token, braceDepth_of_stray hstray, if_neg]
      exact fun h => hstray.2 h.1
    | doc b => exact .inr ⟨depth, rfl, fun ps => rfl⟩
    | inject proxy line => exact .inl ⟨_, ⟨_, rfl⟩, fun ps => rfl⟩
  group opening closing pair depth _ := by
    refine .inr ⟨braceDepth depth opening.kind, trivial, fun ps => ?_,
      fun depth' hdepth' => ⟨depth, rfl, fun ps => ?_⟩⟩
    · rcases pair.kinds with ⟨hopen, -⟩ | ⟨hopen, -⟩ | ⟨hopen, -⟩ <;> simp [skipBody_token, hopen]
    · cases hdepth'
      rcases pair.kinds with ⟨hopen, hclose⟩ | ⟨hopen, hclose⟩ | ⟨hopen, hclose⟩ <;>
        simp [skipBody_token, braceDepth, hopen, hclose]

theorem settles_skipBody {zs : List Piece} (h : Piece.Opened zs) (Q : List Piece → Prop) :
    Settles (· ++ ·) Piece.Loose Q fun qs => (skipBody 0 (zs ++ qs)).result := by
  obtain ⟨inside, closing, rest, rfl, closes, nested, loose⟩ := h
  have hpieces (qs : List Piece) :
      inside ++ .token closing :: rest ++ qs = inside ++ .token closing :: (rest ++ qs) := by
    simp
  simp only [hpieces]
  rcases skipBody_counts.goesPast nested (a := 0) (fun _ => id) trivial with
    ⟨_, ⟨e, rfl⟩, he⟩ | ⟨_, rfl, hpast⟩
  · exact .error fun qs _ => he _
  · refine .ok loose fun qs _ => (hpast _).trans ?_
    simp [skipBody_token, closes]

/-! ### Statements -/

namespace Statement

/-- Behind a pair of brackets as many are open as in front, and in it some are. -/
theorem depthsAfter_pairs {opening closing : Token} (pair : opening.Pairs closing) (depth braces : Nat) :
    let inner := depthsAfter depth braces opening.kind
    (inner.1 ≠ 0 ∨ inner.2 ≠ 0) ∧ depthsAfter inner.1 inner.2 closing.kind = (depth, braces) := by
  rcases pair.kinds with ⟨hopen, hclose⟩ | ⟨hopen, hclose⟩ | ⟨hopen, hclose⟩ <;>
    by_cases hbraces : braces = 0 <;> by_cases hdepth : depth = 0 <;>
      simp [depthsAfter, parenDepth, braceDepth, hopen, hclose, hbraces, hdepth]

theorem depthsAfter_of_bare {t : Token} (bare : t.IsBare) (depth braces : Nat) :
    depthsAfter depth braces t.kind = (depth, braces) := by
  have hparen : parenDepth depth t.kind = depth := by
    obtain ⟨hopens, hcloses⟩ := bare
    unfold parenDepth
    split <;> simp_all [TokenKind.opens, TokenKind.closes]
  unfold depthsAfter
  rw [hparen, braceDepth_of_stray bare.stray]
  split
  · rename_i h
    simp only [Bool.and_eq_true, decide_eq_true_eq] at h
    rw [h.1]
  · rfl

theorem collect_of_open {depth braces : Nat} (inside : depth ≠ 0 ∨ braces ≠ 0) (s : Statement) (t : Token)
    (ps : List Piece) :
    collect depth braces s (.token t :: ps) =
      collect (depthsAfter depth braces t.kind).1 (depthsAfter depth braces t.kind).2 (s.push t) ps := by
  rw [collect, step_of_open s t.kind inside]

/-- How much is open around a statement that is read, and whether it has a body. -/
def level (a : Nat × Nat × Statement) : Nat × Nat × Bool := (a.1, a.2.1, a.2.2.hasBody)

theorem collect_counts :
    Counts (fun x => ∃ e, x = .error e) (fun a ps => (collect a.1 a.2.1 a.2.2 ps).result) level
      fun l => l.1 ≠ 0 ∨ l.2.1 ≠ 0 where
  single p bare := by
    rintro ⟨depth, braces, s⟩ inside
    cases p with
    | token t =>
      refine .inr ⟨(depth, braces, s.push t), rfl, fun ps => congrArg Outcome.result ?_⟩
      have hstep := @collect_of_open depth braces inside s t ps
      rwa [depthsAfter_of_bare (bare t rfl)] at hstep
    | doc b =>
      refine .inr ⟨(depth, braces, behindDoc depth braces s b), ?_, result_collect_doc depth braces s b⟩
      simp only [level, hasBody_behindDoc]
    | inject proxy line => exact .inl ⟨_, ⟨_, rfl⟩, fun ps => rfl⟩
  group opening closing pair := by
    rintro ⟨depth, braces, s⟩ inside
    obtain ⟨hinner, hback⟩ := depthsAfter_pairs pair depth braces
    refine .inr ⟨(_, _, s.push opening), hinner,
      fun ps => congrArg Outcome.result (collect_of_open inside s opening ps), ?_⟩
    rintro ⟨depth', braces', s'⟩ hlevel
    obtain ⟨rfl, rfl, hbody⟩ : depth' = _ ∧ braces' = _ ∧ s'.hasBody = s.hasBody := by
      simpa [level, push] using hlevel
    refine ⟨(depth, braces, s'.push closing), ?_, fun ps => congrArg Outcome.result ?_⟩
    · simp [level, push, hbody]
    · have hstep := collect_of_open hinner s' closing ps
      rwa [hback] at hstep

/-- Outside brackets only a semicolon, a brace that closes a scope or one that opens a body ends a
statement. -/
theorem step_of_stray {t : Token} (stray : t.kind.opens = false ∧ t.kind ≠ .rbrace)
    (semi : t.kind ≠ .semi) (s : Statement) :
    s.step 0 0 t.kind = .goesOn ∧ depthsAfter 0 0 t.kind = (0, 0) := by
  obtain ⟨hopens, hbrace⟩ := stray
  unfold step depthsAfter parenDepth
  cases hkind : t.kind <;> simp_all [TokenKind.opens]

theorem step_of_pairs {opening closing : Token} (pair : opening.Pairs closing) (s : Statement) :
    (s.step 0 0 opening.kind = .opensBody ∧ closing.kind = .rbrace) ∨
      s.step 0 0 opening.kind = .goesOn := by
  unfold step
  rcases pair.kinds with ⟨hopen, -⟩ | ⟨hopen, -⟩ | ⟨hopen, hclose⟩ <;> rw [hopen]
  · exact .inr rfl
  · exact .inr rfl
  · dsimp only
    split
    · split
      · exact .inl ⟨rfl, hclose⟩
      · exact .inr rfl
    · exact .inr rfl

/-- A pair of brackets that opens no body goes to the statement with what is in it. -/
theorem collect_pair {opening closing : Token} (pair : opening.Pairs closing) {inside : List Piece}
    (within : Piece.Nested inside) {s : Statement} (goesOn : s.step 0 0 opening.kind = .goesOn) :
    (∃ e, ∀ ps, (collect 0 0 s (.token opening :: (inside ++ .token closing :: ps))).result = .error e) ∨
      ∃ s', s'.hasBody = s.hasBody ∧
        ∀ ps, (collect 0 0 s (.token opening :: (inside ++ .token closing :: ps))).result =
          (collect 0 0 s' ps).result := by
  obtain ⟨hinner, hback⟩ := depthsAfter_pairs pair 0 0
  have hopening (ps : List Piece) : collect 0 0 s (.token opening :: ps) =
      collect (depthsAfter 0 0 opening.kind).1 (depthsAfter 0 0 opening.kind).2 (s.push opening) ps := by
    rw [collect, goesOn]
  simp only [hopening]
  rcases collect_counts.goesPast within (a := (_, _, s.push opening)) (fun _ => id) hinner with
    ⟨_, ⟨e, rfl⟩, he⟩ | ⟨⟨depth, braces, s'⟩, hlevel, hpast⟩
  · exact .inl ⟨e, fun ps => he _⟩
  · obtain ⟨rfl, rfl, hbody⟩ : depth = _ ∧ braces = _ ∧ s'.hasBody = s.hasBody := by
      simpa [level, push] using hlevel
    refine .inr ⟨s'.push closing, hbody, fun ps => (hpast _).trans (congrArg Outcome.result ?_)⟩
    have hstep := collect_of_open hinner s' closing ps
    rwa [hback] at hstep

/-- What stands behind a statement that is read among loose pieces. -/
def Left (e : Statement × List Piece) : Prop :=
  if e.1.hasBody = true then Piece.Opened e.2 else Piece.Loose e.2

theorem left_of_bodiless {s : Statement} (hs : s.hasBody = false) {ys : List Piece}
    (hys : Piece.Loose ys) : Left (s, ys) := by
  rw [Left, if_neg (by simp [hs])]
  exact hys

theorem settles_collect {lone : Piece → Prop} {xs : List Piece}
    (hxs : Bracketed Piece.Pairs Piece.IsBare lone xs) (stray : ∀ p, lone p → p.IsStray) {s : Statement}
    (hs : s.hasBody = false) :
    Settles withMore Left Closing fun qs => (collect 0 0 s (xs ++ qs)).result := by
  induction hxs generalizing s with
  | nil =>
    refine .ok (v := (s, [])) (left_of_bodiless hs .nil) ?_
    rintro _ (rfl | ⟨closing, rest, rfl, closes⟩)
    · rfl
    · rw [List.nil_append, collect, closes]
      rfl
  | @single lone p xs alone hxs ih =>
    cases p with
    | token t =>
      by_cases hsemi : t.kind = .semi
      · refine .ok (v := (s, xs)) (left_of_bodiless hs (hxs.mono stray)) fun qs _ => ?_
        rw [List.cons_append, collect, hsemi]
        rfl
      · refine (ih stray (s := s.push t) hs).congr fun qs _ => ?_
        obtain ⟨hstep, hdepths⟩ := step_of_stray (stray _ alone t rfl) hsemi s
        rw [List.cons_append, collect, hstep, hdepths]
    | doc b =>
      refine (ih stray (s := behindDoc 0 0 s b) ((hasBody_behindDoc ..).trans hs)).congr fun qs _ => ?_
      exact result_collect_doc ..
    | inject proxy line => exact .error fun qs _ => rfl
  | @group lone _ _ inside ys pair within rest _ ih =>
    obtain ⟨opening, closing, rfl, rfl, pair⟩ := pair
    have hpieces (qs : List Piece) : .token opening :: (inside ++ .token closing :: ys) ++ qs =
        .token opening :: (inside ++ .token closing :: (ys ++ qs)) := by
      simp
    simp only [hpieces]
    rcases step_of_pairs pair s with ⟨hstep, closes⟩ | hstep
    · refine .ok (v := ({ s with hasBody := true }, inside ++ .token closing :: ys))
        ⟨inside, closing, ys, rfl, closes, within, rest.mono stray⟩ fun qs _ => ?_
      rw [collect, hstep]
      simp [withMore]
    · rcases collect_pair pair within hstep with ⟨e, he⟩ | ⟨s', hs', hgroup⟩
      · exact .error fun qs _ => he _
      · simp only [hgroup]
        exact ih stray (hs'.trans hs)

/-- **A statement stays within the brackets around it.** -/
theorem settles_read {xs : List Piece} (hxs : Piece.Loose xs) (hne : xs ≠ []) :
    Settles withMore Left Closing fun qs => (read (xs ++ qs)).result := by
  obtain ⟨p, xs, rfl⟩ := List.exists_cons_of_ne_nil hne
  exact settles_collect hxs (fun _ => id) (s := ⟨[], [], false, p.line⟩) rfl

theorem settles_skipBodyOf {stmt : Statement} {zs : List Piece} (h : Left (stmt, zs))
    (Q : List Piece → Prop) :
    Settles (· ++ ·) Piece.Loose Q fun qs => (stmt.skipBodyOf (zs ++ qs)).result := by
  unfold Left at h
  unfold skipBodyOf
  split at h
  · simp only [if_pos (by assumption : stmt.hasBody = true)]
    exact settles_skipBody h Q
  · simp only [if_neg (by assumption : ¬stmt.hasBody = true)]
    exact .ok h fun _ _ => rfl

end Statement

/-! ### Enum bodies -/

namespace EnumBody
variable {inside xs : List Piece} {opening closing : Token}

theorem entryTokens_counts :
    Counts (fun _ => False) (fun a ps => (a.2 ++ (entryTokens a.1 ps).1, (entryTokens a.1 ps).2)) Prod.fst
      fun depth => depth ≠ 0 where
  single p bare := by
    rintro ⟨depth, ts⟩ inside
    refine .inr ?_
    cases p with
    | token t =>
      refine ⟨(depth, ts ++ [t]), rfl, fun ps => ?_⟩
      dsimp only
      rw [entryTokens_token (fun _ => inside) (fun _ => inside),
        bracketDepth_of_sign (bare t rfl).1 (bare t rfl).2]
      simp
    | doc b => exact ⟨(depth, ts), rfl, fun ps => rfl⟩
    | inject proxy line => exact ⟨(depth, ts), rfl, fun ps => rfl⟩
  group opening closing pair := by
    rintro ⟨depth, ts⟩ inside
    obtain ⟨opens, closes⟩ := TokenKind.opens_of_closer? pair
    refine .inr ⟨(depth + 1, ts ++ [opening]), Nat.succ_ne_zero depth, fun ps => ?_, ?_⟩
    · dsimp only
      rw [entryTokens_token (fun _ => inside) (fun _ => inside), bracketDepth_of_opens opens]
      simp
    · rintro ⟨_, ts'⟩ rfl
      refine ⟨(depth, ts' ++ [closing]), rfl, fun ps => ?_⟩
      dsimp only
      rw [entryTokens_token (fun _ => Nat.succ_ne_zero depth) (fun _ => Nat.succ_ne_zero depth),
        bracketDepth_of_closes closes, Nat.succ_sub_one]
      simp

/-- A pair of brackets goes to an entry with what is in it. -/
theorem entryTokens_group (pair : opening.Pairs closing) (nested : Piece.Nested inside) (depth : Nat) :
    ∃ ts, ∀ ps, entryTokens depth (.token opening :: (inside ++ .token closing :: ps)) =
      (ts ++ (entryTokens depth ps).1, (entryTokens depth ps).2) := by
  obtain ⟨opens, closes⟩ := TokenKind.opens_of_closer? pair
  have hopening {kind : TokenKind} (hkind : opening.kind = kind) (other : kind.opens = false) :
      depth ≠ 0 := by
    rw [hkind, other] at opens
    cases opens
  rcases entryTokens_counts.goesPast nested (a := (depth + 1, [opening])) (fun _ => id)
    (Nat.succ_ne_zero depth) with ⟨_, ⟨⟩, -⟩ | ⟨⟨_, ts⟩, rfl, hpast⟩
  refine ⟨ts ++ [closing], fun ps => ?_⟩
  rw [entryTokens_token (hopening · rfl) (hopening · rfl), bracketDepth_of_opens opens]
  refine (hpast _).trans ?_
  dsimp only
  rw [entryTokens_token (fun _ => Nat.succ_ne_zero depth) (fun _ => Nat.succ_ne_zero depth),
    bracketDepth_of_closes closes, Nat.succ_sub_one]
  simp

/-- An entry ends among nested pieces, or in front of the brace behind them. -/
theorem entryTokens_nested {lone : Piece → Prop} (h : Bracketed Piece.Pairs Piece.IsBare lone xs)
    (bare : ∀ p, lone p → p.IsBare) :
    ∃ ts zs, Piece.Nested zs ∧ ∀ qs, Closing qs → entryTokens 0 (xs ++ qs) = (ts, zs ++ qs) := by
  induction h with
  | nil =>
    refine ⟨[], [], .nil, ?_⟩
    rintro _ (rfl | ⟨closing, rest, rfl, closes⟩)
    · rfl
    · simp [entryTokens, closes]
  | @single lone p xs alone hxs ih =>
    obtain ⟨ts, zs, hzs, hentry⟩ := ih bare
    cases p with
    | token t =>
      by_cases hcomma : t.kind = .comma
      · exact ⟨[], xs, hxs.mono bare, fun qs _ => by simp [entryTokens, hcomma]⟩
      · have hbare := bare _ alone t rfl
        refine ⟨t :: ts, zs, hzs, fun qs hqs => ?_⟩
        rw [List.cons_append, entryTokens_token (fun h => absurd h hcomma)
          (fun h => absurd h ((bare _ alone).isStray t rfl).2), bracketDepth_of_sign hbare.1 hbare.2,
          hentry qs hqs]
    | doc b => exact ⟨ts, zs, hzs, hentry⟩
    | inject proxy line => exact ⟨ts, zs, hzs, hentry⟩
  | @group lone _ _ inside ys pair within rest _ ih =>
    obtain ⟨opening, closing, rfl, rfl, pair⟩ := pair
    obtain ⟨ts, zs, hzs, hentry⟩ := ih bare
    obtain ⟨us, hus⟩ := entryTokens_group pair within 0
    refine ⟨us ++ ts, zs, hzs, fun qs hqs => ?_⟩
    have hgroup := hus (ys ++ qs)
    rw [hentry qs hqs] at hgroup
    simpa using hgroup

/-- The entry that a token starts, and what is read behind it. -/
theorem read_entry_nested {t : Token} (nested : Piece.Nested (.token t :: xs)) (comma : t.kind ≠ .comma) :
    ∃ ts zs, Piece.Nested zs ∧ zs.length ≤ xs.length ∧
      ∀ qs, Closing qs → ∀ (path : String) (members : List Declaration) (doc : Option DocBlock),
        read path members doc (.token t :: (xs ++ qs)) =
          addEntry path members doc ts >>= fun members => read path members none (zs ++ qs) := by
  have hbrace : t.kind ≠ .rbrace := nested.loose.ne_rbrace
  obtain ⟨ts, zs, hzs, hentry⟩ := entryTokens_nested nested fun _ => id
  -- Its first token is one of its tokens, and never ends it.
  have htokens (qs : List Piece) (hqs : Closing qs) :
      t :: (entryTokens (bracketDepth 0 t.kind) (xs ++ qs)).1 = ts ∧
        (entryTokens (bracketDepth 0 t.kind) (xs ++ qs)).2 = zs ++ qs := by
    have h := hentry qs hqs
    rw [List.cons_append, entryTokens_token (absurd · comma) (absurd · hbrace)] at h
    exact Prod.mk.inj h
  refine ⟨ts, zs, hzs, ?_, fun qs hqs path members doc => ?_⟩
  · have hlength := (entryTokens_suffix (bracketDepth 0 t.kind) (xs ++ [])).length_le
    rw [(htokens [] (.inl rfl)).2] at hlength
    simpa using hlength
  · rw [read_entry hbrace comma, (htokens qs hqs).1, (htokens qs hqs).2]

/-- **An enum's body is read to its own brace.** -/
theorem settles_read {path : String} {rest : List Piece} (nested : Piece.Nested inside)
    (closes : closing.kind = .rbrace) (loose : Piece.Loose rest) (Q : List Piece → Prop)
    (members : List Declaration) (doc : Option DocBlock) :
    Settles withMore (fun e => Piece.Loose e.2) Q
      fun qs => (read path members doc (inside ++ .token closing :: (rest ++ qs))).result := by
  -- An entry is read from further on, so the induction is on length.
  induction hn : inside.length using Nat.strongRecOn generalizing inside members doc with
  | ind n ih =>
    subst hn
    cases inside with
    | nil =>
      refine .ok (v := (members, rest)) loose fun qs _ => ?_
      rw [List.nil_append, read, closes]
      rfl
    | cons p xs =>
      have hlater (hp : ∀ t, p = .token t → t.kind.opens = false) (members : List Declaration)
          (doc : Option DocBlock) :=
        ih xs.length (by simp) (Piece.of_cons_of_not_opens nested hp).2 members doc rfl
      simp only [List.cons_append]
      cases p with
      | doc b => exact (hlater (fun _ ht => by cases ht) members (some b)).congr fun qs _ => by rw [read]
      | inject proxy line =>
        refine .error (e := ⟨line, .misplacedInject proxy⟩) fun qs _ => ?_
        rw [read]
        rfl
      | token t =>
        by_cases hcomma : t.kind = .comma
        · refine (hlater (fun t' ht' => ?_) members doc).congr fun qs _ => ?_
          · cases ht'
            rw [hcomma]
            rfl
          · rw [read, hcomma]
        · obtain ⟨ts, zs, hzs, hlength, hread⟩ := read_entry_nested nested hcomma
          have hentry (qs : List Piece) := hread _ (.of_brace closes (rest ++ qs))
          simp only [hentry, Outcome.result_bind]
          cases (addEntry path members doc ts).result with
          | error e => exact .error (e := e) fun qs _ => rfl
          | ok members' => exact ih _ (Nat.lt_succ_of_le hlength) hzs members' none rfl

end EnumBody

end AnnotatedHeader
