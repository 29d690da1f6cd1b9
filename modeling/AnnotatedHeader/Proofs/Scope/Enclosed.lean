import AnnotatedHeader.Proofs.Scope.Markers
import AnnotatedHeader.Proofs.Statement.Enclosed

/-! Scopes stay within the braces around them.

Two of a scope's readers do not count braces. A template head counts angle brackets alone and can
end in a brace of its own (`headsEnd` says that none does), and a namespace's alias reads a
statement and leaves the body that the statement opens (`aliasesEnd`). Every other turn keeps to
the braces around it (`settles_turn`), and with those two so does the whole scope
(`readOn_enclosed`): it ends at its own brace and holds the same whatever follows. -/
namespace AnnotatedHeader.Scope

open Piece (IsBare IsStray Pairs Nested Loose Opened)

variable {opening closing : Token} {inside xs : List Piece}

/-! ### Macros -/

theorem argumentTokens_counts :
    Counts (· = none) (fun a ps => (argumentTokens a.1 ps).map fun e => (a.2 ++ e.1, e.2)) Prod.fst
      fun _ => True where
  single p bare := by
    rintro ⟨depth, ts⟩ -
    cases p with
    | token t =>
      obtain ⟨hopens, hcloses⟩ := bare t rfl
      by_cases hsemi : t.kind = .semi
      · exact .inl ⟨none, rfl, fun ps => by simp [argumentTokens, hsemi]⟩
      · refine .inr ⟨(depth, ts ++ [t]), rfl, fun ps => ?_⟩
        have hstep : argumentTokens depth (.token t :: ps) =
            (argumentTokens depth ps).map fun e => (t :: e.1, e.2) := by
          cases hkind : t.kind <;> simp_all [argumentTokens, TokenKind.opens, TokenKind.closes]
        simp [hstep, Function.comp_def]
    | doc b => exact .inr ⟨(depth, ts), rfl, fun ps => rfl⟩
    | inject proxy line => exact .inr ⟨(depth, ts), rfl, fun ps => rfl⟩
  group opening closing pair := by
    rintro ⟨depth, ts⟩ -
    rcases pair.kinds with ⟨hopen, hclose⟩ | ⟨hopen, hclose⟩ | ⟨hopen, hclose⟩
    · refine .inr ⟨(depth + 1, ts ++ [opening]), trivial, fun ps => ?_, ?_⟩
      · simp [argumentTokens, hopen, Function.comp_def]
      · rintro ⟨_, us⟩ rfl
        exact ⟨(_, us ++ [closing]), rfl, fun ps => by simp [argumentTokens, hclose, Function.comp_def]⟩
    · refine .inr ⟨(depth, ts ++ [opening]), trivial, fun ps => ?_, ?_⟩
      · simp [argumentTokens, hopen, Function.comp_def]
      · rintro ⟨_, us⟩ rfl
        exact ⟨(_, us ++ [closing]), rfl, fun ps => by simp [argumentTokens, hclose, Function.comp_def]⟩
    · exact .inl ⟨none, rfl, fun ps => by simp [argumentTokens, hopen]⟩

/-- The arguments end at the parenthesis that closes them. -/
theorem argumentTokens_nested (nested : Nested inside) (closes : closing.kind = .rparen) :
    ∃ o : Option (List Token), ∀ ps,
      argumentTokens 0 (inside ++ .token closing :: ps) = o.map fun ts => (ts, ps) := by
  rcases argumentTokens_counts.goesPast nested (a := (0, [])) (fun _ => id) trivial with
    ⟨_, rfl, hnone⟩ | ⟨⟨_, ts⟩, rfl, hpast⟩
  · exact ⟨none, fun ps => by simpa using hnone (.token closing :: ps)⟩
  · refine ⟨some ts, fun ps => ?_⟩
    have harguments := hpast (.token closing :: ps)
    simpa [argumentTokens, closes] using harguments

theorem callEnd?_counts : Counts (· = none) callEnd? id fun _ => True where
  single p bare depth _ := by
    cases p with
    | token t =>
      obtain ⟨hopens, hcloses⟩ := bare t rfl
      by_cases hsemi : t.kind = .semi
      · exact .inl ⟨none, rfl, fun ps => by simp [callEnd?, hsemi]⟩
      · refine .inr ⟨depth, rfl, fun ps => ?_⟩
        cases hkind : t.kind <;> simp_all [callEnd?, TokenKind.opens, TokenKind.closes]
    | doc b => exact .inl ⟨none, rfl, fun ps => rfl⟩
    | inject proxy line => exact .inl ⟨none, rfl, fun ps => rfl⟩
  group opening closing pair depth _ := by
    rcases pair.kinds with ⟨hopen, hclose⟩ | ⟨hopen, hclose⟩ | ⟨hopen, hclose⟩
    · refine .inr ⟨depth + 1, trivial, fun ps => by simp [callEnd?, hopen], ?_⟩
      rintro _ rfl
      exact ⟨depth, rfl, fun ps => by simp [callEnd?, hclose]⟩
    · refine .inr ⟨depth, trivial, fun ps => by simp [callEnd?, hopen], ?_⟩
      rintro _ rfl
      exact ⟨_, rfl, fun ps => by simp [callEnd?, hclose]⟩
    · exact .inl ⟨none, rfl, fun ps => by simp [callEnd?, hopen]⟩

theorem callEnd?_nested (nested : Nested inside) (closes : closing.kind = .rparen) :
    ∃ o : Option Nat, ∀ ps,
      callEnd? 0 (inside ++ .token closing :: ps) = o.map fun line => (line, ps) := by
  rcases callEnd?_counts.goesPast nested (a := 0) (fun _ => id) trivial with
    ⟨_, rfl, hnone⟩ | ⟨_, rfl, hpast⟩
  · exact ⟨none, fun ps => hnone _⟩
  · exact ⟨some closing.line, fun ps => (hpast _).trans (by simp [callEnd?, closes])⟩

/-- A parenthesis among loose pieces is closed among them. -/
theorem exists_parens {p : Piece} (h : Loose (p :: xs)) (hp : p.hasKind .lparen = true) :
    ∃ inside closing rest, xs = inside ++ .token closing :: rest ∧ closing.kind = .rparen ∧
      Nested inside ∧ Loose rest := by
  cases p with
  | token t =>
    have hkind : t.kind = .lparen := by simpa [Piece.hasKind] using hp
    obtain ⟨inside, closing, rest, rfl, pair, hinside, hrest⟩ := h.of_opens (by rw [hkind]; rfl)
    rw [Token.Pairs, hkind] at pair
    exact ⟨inside, closing, rest, rfl, (Option.some.inj pair).symm, hinside, hrest⟩
  | doc | inject => cases hp

theorem hasKind_of_closing {p : Piece} {ps : List Piece} (h : Closing (p :: ps)) :
    p.hasKind .lparen = false := by
  obtain ⟨closing, rest, ⟨⟩, closes⟩ := h.resolve_left (List.cons_ne_nil _ _)
  simp [Piece.hasKind, closes]

theorem settles_readReflection (h : Loose xs) (t : Token) :
    Settles withMore (fun e => Loose e.2) Closing fun qs => (readReflection t (xs ++ qs)).result := by
  have hnone {ps : List Piece} (hps : ∀ p ∈ ps.head?, p.hasKind .lparen = false) :
      (readReflection t ps).result = .error ⟨t.line, .malformedMetadata t.text .noOpening⟩ := by
    cases ps with
    | nil => rfl
    | cons p ps =>
      unfold readReflection
      dsimp only
      rw [if_neg (by simp [hps p rfl])]
      rfl
  cases xs with
  | nil =>
    refine .error fun qs hqs => hnone fun p hp => ?_
    cases qs with
    | nil => cases hp
    | cons q qs =>
      cases hp
      exact hasKind_of_closing hqs
  | cons p xs =>
    by_cases hp : p.hasKind .lparen = true
    · obtain ⟨inside, closing, rest, rfl, closes, hinside, hrest⟩ := exists_parens h hp
      obtain ⟨o, ho⟩ := argumentTokens_nested hinside closes
      have hpieces (qs : List Piece) : p :: (inside ++ .token closing :: rest) ++ qs =
          p :: (inside ++ .token closing :: (rest ++ qs)) := by
        simp
      simp only [hpieces, readReflection, if_pos hp, ho]
      cases o with
      | none => exact .error fun qs _ => rfl
      | some ts =>
        dsimp only [Option.map_some]
        cases Metadata.read ts with
        | ok metadata => exact .ok (v := (⟨t.text, metadata, t.line⟩, rest)) hrest fun qs _ => rfl
        | error flaw => exact .error fun qs _ => rfl
    · refine .error fun qs _ => hnone fun q hq => ?_
      cases hq
      exact Bool.eq_false_iff.2 hp

/-- What stands behind a macro call is loose. -/
theorem loose_of_afterMacroCall? {t : Token} {zs qs : List Piece} (h : Loose xs) (hqs : Closing qs)
    (hcall : afterMacroCall? t (xs ++ qs) = some (zs ++ qs)) : Loose zs := by
  -- The call is its word alone, or has arguments in parentheses.
  have hends : xs ++ qs = zs ++ qs ∨ ∃ p ps line, xs ++ qs = p :: ps ∧ p.hasKind .lparen = true ∧
      callEnd? 0 ps = some (line, zs ++ qs) := by
    unfold afterMacroCall? at hcall
    split at hcall
    · dsimp only at hcall
      split at hcall
      · rename_i hended
        split at hcall
        · cases hcall
        · cases Option.some.inj hcall
          split at hended
          · rename_i p ps hpieces
            split at hended
            · exact .inr ⟨p, ps, _, hpieces, by assumption, hended⟩
            · exact .inl (Prod.mk.inj (Option.some.inj hended)).2
          · exact .inl (Prod.mk.inj (Option.some.inj hended)).2
      · cases hcall
    · cases hcall
  rcases hends with hends | ⟨p, ps, line, hpieces, hp, hend⟩
  · exact List.append_cancel_right hends ▸ h
  · cases xs with
    | nil =>
      rw [List.nil_append] at hpieces
      rw [hasKind_of_closing (hpieces ▸ hqs)] at hp
      cases hp
    | cons x xs =>
      rw [List.cons_append] at hpieces
      obtain ⟨rfl, rfl⟩ := List.cons.inj hpieces
      obtain ⟨inside, closing, rest, rfl, closes, hinside, hrest⟩ := exists_parens h hp
      obtain ⟨o, ho⟩ := callEnd?_nested hinside closes
      rw [List.append_assoc, List.cons_append, ho] at hend
      obtain ⟨_, -, hrest'⟩ := Option.map_eq_some_iff.1 hend
      exact List.append_cancel_right (Prod.mk.inj hrest').2 ▸ hrest

/-! ### Template heads -/

/-- How many angle brackets are open behind a token. -/
def angleDepth (angle : Nat) : TokenKind → Nat
  | .less => angle + 1
  | .greater => angle - 1
  | _ => angle

/-- A template head in front of the pieces ends among them, in no brace that was opened in it. -/
def headEnds (angle braces : Nat) : List Piece → Bool
  | [] => false
  | .token t :: ps =>
    if t.kind = .greater && angle ≤ 1 then braces == 0
    else if t.kind = .rbrace && braces == 0 then false
    else headEnds (angleDepth angle t.kind) (braceDepth braces t.kind) ps
  | .doc _ :: ps | .inject .. :: ps => headEnds angle braces ps

theorem templateTokens_token {angle : Nat} {t : Token}
    (goesOn : ¬(t.kind = .greater && angle ≤ 1) = true) (ps : List Piece) :
    templateTokens angle (.token t :: ps) =
      (t :: (templateTokens (angleDepth angle t.kind) ps).1,
        (templateTokens (angleDepth angle t.kind) ps).2) := by
  rw [templateTokens, if_neg goesOn]
  rfl

/-- The head goes on at a bracket, with as many angle brackets open as in front of it. -/
theorem angleDepth_of_pairs {t : Token} (pair : opening.Pairs closing) (ht : t = opening ∨ t = closing) :
    (∀ angle : Nat, ¬(t.kind = .greater && angle ≤ 1) = true) ∧
      ∀ angle, angleDepth angle t.kind = angle := by
  rcases pair.kinds with ⟨hopen, hclose⟩ | ⟨hopen, hclose⟩ | ⟨hopen, hclose⟩ <;>
    rcases ht with rfl | rfl <;> simp [hopen, hclose, angleDepth]

theorem headEnds_token {angle braces : Nat} {t : Token} {ps : List Piece}
    (goesOn : ¬(t.kind = .greater && angle ≤ 1) = true)
    (h : headEnds angle braces (.token t :: ps) = true) :
    headEnds (angleDepth angle t.kind) (braceDepth braces t.kind) ps = true := by
  rw [headEnds, if_neg goesOn] at h
  split at h
  · cases h
  · exact h

theorem not_headEnds_of_closing {qs : List Piece} (h : Closing qs) (angle : Nat) :
    headEnds angle 0 qs = false := by
  rcases h with rfl | ⟨closing, rest, rfl, closes⟩
  · rfl
  · simp [headEnds, closes]

/-- A bracket behind which no brace is open is no brace. -/
theorem stray_of_braceDepth (pair : opening.Pairs closing) {braces : Nat}
    (h : braceDepth braces opening.kind = 0) : braces = 0 ∧ IsStray (.token closing) := by
  have hstray (hopens : closing.kind.opens = false) (hbrace : closing.kind ≠ .rbrace) :
      IsStray (.token closing) := by
    rintro _ ⟨⟩
    exact ⟨hopens, hbrace⟩
  rcases pair.kinds with ⟨hopen, hclose⟩ | ⟨hopen, hclose⟩ | ⟨hopen, hclose⟩ <;> rw [hopen] at h
  · exact ⟨h, hstray (by rw [hclose]; rfl) (by simp [hclose])⟩
  · exact ⟨h, hstray (by rw [hclose]; rfl) (by simp [hclose])⟩
  · exact absurd h (Nat.succ_ne_zero braces)

/-- A head ends among the pieces and leaves loose ones, or goes on behind them. -/
theorem templateTokens_bracketed {lone : Piece → Prop} (h : Bracketed Pairs IsBare lone xs)
    (stray : ∀ p, lone p → p.IsStray) {angle braces : Nat} {tail : List Piece}
    (hends : headEnds angle braces (xs ++ tail) = true) :
    (braces = 0 ∧ ∃ ts zs, Loose zs ∧ ∀ qs, templateTokens angle (xs ++ qs) = (ts, zs ++ qs)) ∨
      ∃ angle' ts, headEnds angle' braces tail = true ∧ ∀ qs, templateTokens angle (xs ++ qs) =
        (ts ++ (templateTokens angle' qs).1, (templateTokens angle' qs).2) := by
  induction h generalizing angle braces tail with
  | nil => exact .inr ⟨angle, [], hends, fun qs => rfl⟩
  | @single lone p xs alone hxs ih =>
    cases p with
    | doc | inject => exact ih stray hends
    | token t =>
      by_cases goesOn : (t.kind = .greater && angle ≤ 1) = true
      · rw [List.cons_append, headEnds, if_pos goesOn] at hends
        refine .inl ⟨by simpa using hends, [t], xs, hxs.mono stray, fun qs => ?_⟩
        rw [List.cons_append, templateTokens, if_pos goesOn]
      · replace hends := headEnds_token goesOn hends
        rw [braceDepth_of_stray (stray _ alone t rfl)] at hends
        simp only [List.cons_append, templateTokens_token goesOn]
        rcases ih stray hends with ⟨hzero, ts, zs, hzs, hhead⟩ | ⟨angle', ts, hends', hhead⟩
        · exact .inl ⟨hzero, t :: ts, zs, hzs, fun qs => by rw [hhead]⟩
        · exact .inr ⟨angle', t :: ts, hends', fun qs => by rw [hhead]; rfl⟩
  | @group lone _ _ inside ys pair within rest ihWithin ihRest =>
    obtain ⟨opening, closing, rfl, rfl, pair⟩ := pair
    obtain ⟨hopening, hangle⟩ := angleDepth_of_pairs pair (.inl rfl)
    obtain ⟨hclosing, hangle'⟩ := angleDepth_of_pairs pair (.inr rfl)
    have hpieces (qs : List Piece) : .token opening :: (inside ++ .token closing :: ys) ++ qs =
        .token opening :: (inside ++ .token closing :: (ys ++ qs)) := by
      simp
    rw [hpieces] at hends
    replace hends := headEnds_token (hopening angle) hends
    rw [hangle] at hends
    simp only [hpieces, templateTokens_token (hopening angle), hangle]
    rcases ihWithin (fun _ => IsBare.isStray) hends with
      ⟨hzero, ts, zs, hzs, hhead⟩ | ⟨angle', ts, hends', hhead⟩
    · -- The head ends in the brackets, which are no braces, and the sign that closes them is left.
      obtain ⟨hbraces, hstray⟩ := stray_of_braceDepth pair hzero
      refine .inl ⟨hbraces, opening :: ts, zs ++ .token closing :: ys, ?_, fun qs => ?_⟩
      · exact hzs.append (.single hstray (rest.mono stray))
      · rw [hhead]
        simp
    · replace hends' := headEnds_token (hclosing angle') hends'
      rw [hangle', braceDepth_of_pairs pair] at hends'
      have hpast (qs : List Piece) : templateTokens angle (inside ++ .token closing :: (ys ++ qs)) =
          (ts ++ closing :: (templateTokens angle' (ys ++ qs)).1,
            (templateTokens angle' (ys ++ qs)).2) := by
        rw [hhead, templateTokens_token (hclosing angle'), hangle']
      simp only [hpast]
      rcases ihRest stray hends' with ⟨hzero, us, zs, hzs, hhead'⟩ | ⟨angle'', us, hends'', hhead'⟩
      · exact .inl ⟨hzero, opening :: (ts ++ closing :: us), zs, hzs, fun qs => by rw [hhead']⟩
      · exact .inr ⟨angle'', opening :: (ts ++ closing :: us), hends'', fun qs => by rw [hhead']; simp⟩

/-- **A template head that ends in no brace of its own leaves loose pieces.** -/
theorem templateTokens_loose (h : Loose xs) {tail : List Piece} (htail : Closing tail)
    (hends : headEnds 0 0 (xs ++ tail) = true) :
    ∃ ts zs, Loose zs ∧ ∀ qs, templateTokens 0 (xs ++ qs) = (ts, zs ++ qs) := by
  rcases templateTokens_bracketed h (fun _ => id) hends with ⟨-, hhead⟩ | ⟨angle', ts, hends', -⟩
  · exact hhead
  · rw [not_headEnds_of_closing htail] at hends'
    cases hends'

/-! ### Namespaces -/

/-- What a namespace's head leaves is a body, or loose. -/
def NamespaceHead.Fits : NamespaceHead → Prop
  | .body _ rest => Opened rest
  | .alias rest | .nothing rest => Loose rest

theorem namespaceHead_loose (h : Loose xs) (name : String) :
    ∃ u : NamespaceHead, u.Fits ∧ ∀ qs, Closing qs → namespaceHead name (xs ++ qs) = u.append qs := by
  induction xs generalizing name with
  | nil =>
    refine ⟨.alias [], .nil, ?_⟩
    rintro _ (rfl | ⟨closing, rest, rfl, closes⟩)
    · rfl
    · simp [namespaceHead, closes, NamespaceHead.append]
  | cons p xs ih =>
    cases p with
    | doc | inject => exact ⟨.nothing (_ :: xs), h, fun qs _ => rfl⟩
    | token t =>
      have hlater (hopens : t.kind.opens = false) := ih (h.of_token hopens)
      simp only [List.cons_append, namespaceHead]
      split
      · exact ⟨.body name xs, h.opened (by assumption), fun qs _ => rfl⟩
      · rename_i hkind
        exact hlater (by rw [hkind]; rfl) _
      · rename_i hkind
        exact hlater (by rw [hkind]; rfl) _
      · exact ⟨.alias (.token t :: xs), h, fun qs _ => rfl⟩

/-- Behind `namespace` the pieces say that a name stands for another one, and go on to a body. -/
def aliasBody (ps : List Piece) : Bool :=
  match namespaceHead "" ps with
  | .alias rest =>
    match (Statement.read rest).result with
    | .ok e => e.1.hasBody
    | .error _ => false
  | _ => false

/-! ### Turns -/

/-- What a turn leaves that stays within the braces around it. -/
def Turn.Fits : Turn → Prop
  | .closes _ => False
  | .continues _ rest => Loose rest
  | .opens inner _ rest => inner.braced = true ∧ Opened rest

variable {s : Scope} {b : State} {Q : List Piece → Prop}

theorem settles_continues {b : State} {zs : List Piece} (h : Loose zs) :
    Settles Turn.append Turn.Fits Q fun qs => .ok (.continues b (zs ++ qs)) :=
  .ok (v := .continues b zs) h fun _ _ => rfl

theorem settles_passOver {stmt : Statement} {zs : List Piece} (left : Statement.Left (stmt, zs))
    (reason : SkipReason) :
    Settles Turn.append Turn.Fits Q fun qs => (passOver b stmt reason (zs ++ qs)).result := by
  unfold passOver
  cases b.pending.reflection with
  | some r => exact .error fun qs _ => rfl
  | none =>
    simp only [Outcome.result_bind, Outcome.result_note, State.result_dropDoc]
    exact (Statement.settles_skipBodyOf left Q).bind fun rest hrest => settles_continues hrest

theorem settles_openBody {own : Declared} {zs : List Piece} (h : Opened zs) :
    Settles Turn.append Turn.Fits Q fun qs => (openBody b own (zs ++ qs)).result := by
  unfold openBody
  split
  · exact .ok (v := .opens _ _ zs) ⟨rfl, h⟩ fun qs _ => rfl
  · obtain ⟨inside, closing, rest, rfl, closes, hinside, hrest⟩ := h
    simp only [Outcome.result_bind, List.append_assoc, List.cons_append]
    refine (EnumBody.settles_read hinside closes hrest Q [] none).bind ?_
    rintro ⟨members, zs⟩ hzs
    simp only [withMore, State.result_add]
    exact settles_continues hzs
  · simp only [Outcome.result_bind, State.result_add]
    exact (settles_skipBody h Q).bind fun rest hrest => settles_continues hrest

theorem settles_declare (h : Loose xs) (hne : xs ≠ []) :
    Settles Turn.append Turn.Fits Closing fun qs => (declare s b (xs ++ qs)).result := by
  unfold declare
  simp only [Outcome.result_bind]
  refine (Statement.settles_read h hne).bind ?_
  rintro ⟨stmt, zs⟩ left
  dsimp only [withMore]
  cases Head.classify stmt s.record with
  | skip reason => exact settles_passOver left reason
  | declares first others =>
    dsimp only
    simp only [Outcome.result_bind]
    cases (checkReflection first b.pending.reflection).result with
    | error e => exact .error fun qs _ => rfl
    | ok =>
      by_cases hbody : stmt.hasBody = true
      · rw [Statement.Left, if_pos hbody] at left
        exact (settles_openBody left).congr fun qs _ => congrArg Outcome.result (if_pos hbody)
      · rw [Statement.Left, if_neg hbody] at left
        have hadded (b : State) (ds : List Declaration) : Settles Turn.append Turn.Fits Closing fun qs =>
            (b.addAll ds >>= fun b => pure (.continues b (zs ++ qs)) : Outcome Turn).result := by
          simp only [Outcome.result_bind, State.result_addAll]
          exact settles_continues left
        exact (hadded _ _).congr fun qs _ => congrArg Outcome.result (if_neg hbody)

theorem result_readNamespace (s : Scope) (b : State) (ps : List Piece) :
    (readNamespace s b ps).result =
      match namespaceHead "" ps with
      | .body name rest => .ok (.opens (s.inNamespace name) (.transparent b.withoutDoc) rest)
      | .alias rest => (Statement.read rest).result.map fun e => .continues b.withoutDoc e.2
      | .nothing rest => .ok (.continues b.withoutDoc rest) := by
  unfold readNamespace
  rw [Outcome.result_bind, State.result_dropDoc]
  cases namespaceHead "" ps with
  | body | nothing => rfl
  | «alias» rest =>
    show (Statement.read rest >>= _ : Outcome Turn).result = (Statement.read rest).result.map _
    rw [Outcome.result_bind]
    cases (Statement.read rest).result <;> rfl

theorem settles_readNamespace (h : Loose xs) {tail : List Piece} (htail : Closing tail)
    (plain : aliasBody (xs ++ tail) = false) :
    Settles Turn.append Turn.Fits Closing fun qs => (readNamespace s b (xs ++ qs)).result := by
  obtain ⟨u, hu, hhead⟩ := namespaceHead_loose h ""
  simp only [result_readNamespace]
  cases u with
  | body name zs =>
    refine .ok (v := .opens (s.inNamespace name) (.transparent b.withoutDoc) zs) ⟨rfl, hu⟩
      fun qs hqs => ?_
    rw [hhead qs hqs]
    rfl
  | nothing zs =>
    refine (settles_continues (b := b.withoutDoc) hu).congr fun qs hqs => ?_
    rw [hhead qs hqs]
    rfl
  | «alias» zs =>
    cases zs with
    | nil =>
      refine .ok (v := .continues b.withoutDoc []) .nil fun qs hqs => ?_
      rw [hhead qs hqs]
      rcases hqs with rfl | ⟨closing, rest, rfl, closes⟩
      · rfl
      · have hstops : Statement.read (.token closing :: rest) =
            pure (⟨[], [], false, closing.line⟩, .token closing :: rest) := by
          rw [Statement.read, Statement.collect, closes]
          rfl
        simp only [NamespaceHead.append, List.nil_append, hstops]
        rfl
    | cons z zs =>
      obtain ⟨o, ho, hread⟩ : ∃ o : Except Fault (Statement × List Piece),
          (∀ e, o = .ok e → Statement.Left e) ∧ ∀ qs, Closing qs →
            (Statement.read (z :: zs ++ qs)).result = o.map (withMore · qs) :=
        Statement.settles_read hu (List.cons_ne_nil z zs)
      unfold aliasBody at plain
      rw [hhead tail htail] at plain
      simp only [NamespaceHead.append, hread tail htail] at plain
      simp only [← result_readNamespace]
      have hresult (qs : List Piece) (hqs : Closing qs) :
          (readNamespace s b (xs ++ qs)).result =
            (o.map (withMore · qs)).map fun e => .continues b.withoutDoc e.2 := by
        rw [result_readNamespace, hhead qs hqs, ← hread qs hqs]
        rfl
      cases o with
      | error e => exact .error hresult
      | ok e =>
        have hbodiless : e.1.hasBody = false := plain
        have hleft := ho e rfl
        rw [Statement.Left, if_neg (Bool.eq_false_iff.1 hbodiless)] at hleft
        exact (settles_continues hleft).congr hresult

theorem settles_annotate (h : Loose xs) (t : Token) :
    Settles Turn.append Turn.Fits Closing fun qs => (annotate b t (xs ++ qs)).result := by
  unfold annotate
  cases b.pending.reflection with
  | some r => exact .error fun qs _ => rfl
  | none =>
    simp only [Outcome.result_bind]
    refine (settles_readReflection h t).bind ?_
    rintro ⟨r, zs⟩ hzs
    exact settles_continues (b := { b with pending.reflection := some r }) hzs

theorem settles_passOverKeyword (h : Loose xs) (hne : xs ≠ []) :
    Settles Turn.append Turn.Fits Closing fun qs => (passOverKeyword b (xs ++ qs)).result := by
  unfold passOverKeyword
  simp only [Outcome.result_bind, Outcome.result_note]
  refine (Statement.settles_read h hne).bind ?_
  rintro ⟨stmt, zs⟩ left
  exact (Statement.settles_skipBodyOf left Closing).bind fun rest hrest => settles_continues hrest

/-! ### Conditions -/

/-- Every template head in the pieces ends in them, and in no brace of its own. -/
def headsEnd (ps : List Piece) : Bool :=
  ps.tails.all fun
    | .token t :: ps => !(t.isIdent "template" && nextIs 0 .less ps) || headEnds 0 0 ps
    | _ => true

/-- No name of a namespace in the pieces stands for another one and goes on to a body. -/
def aliasesEnd (ps : List Piece) : Bool :=
  ps.tails.all fun
    | .token t :: ps => !(t.isIdent "namespace" && aliasBody ps)
    | _ => true

/-- Nothing in the pieces is read beyond the brace that closes them. -/
structure Settled (ps : List Piece) : Prop where
  heads : headsEnd ps = true
  aliases : aliasesEnd ps = true

namespace Settled
variable {ps rest : List Piece} {t : Token}

theorem suffix (h : Settled ps) (hrest : rest <:+ ps) : Settled rest := by
  have hall (p : List Piece → Bool) (hp : ps.tails.all p = true) : rest.tails.all p = true :=
    List.all_eq_true.2 fun l hl =>
      List.all_eq_true.1 hp l ((List.mem_tails _ _).2 (((List.mem_tails _ _).1 hl).trans hrest))
  exact ⟨hall _ h.heads, hall _ h.aliases⟩

theorem headEnds (h : Settled (.token t :: ps)) (word : t.isIdent "template" = true)
    (less : nextIs 0 .less ps = true) : headEnds 0 0 ps = true := by
  have hhead := List.all_eq_true.1 h.heads _ ((List.mem_tails _ _).2 (List.suffix_refl _))
  simpa [word, less] using hhead

theorem aliasBody (h : Settled (.token t :: ps)) (word : t.isIdent "namespace" = true) :
    aliasBody ps = false := by
  have halias := List.all_eq_true.1 h.aliases _ ((List.mem_tails _ _).2 (List.suffix_refl _))
  simpa [word] using halias

end Settled

/-! ### Words -/

theorem template_of_word {t : Token} {ps : List Piece} (h : word t ps = .template) :
    t.text = "template" ∧ nextIs 0 .less ps = true := by
  unfold word at h
  split at h
  · cases h
  split at h
  · rename_i htemplate
    simpa using htemplate
  · repeat' split at h
    all_goals cases h

theorem namespace_of_word {t : Token} {ps : List Piece} (h : word t ps = .namespace) :
    t.text = "namespace" := by
  unfold word at h
  split at h
  · cases h
  split at h
  · cases h
  split at h
  · cases h
  split at h
  · rename_i hnamespace
    simpa using hnamespace
  · repeat' split at h
    all_goals cases h

/-- A piece that is looked at, and is no closing brace, is among the pieces in front of one. -/
theorem exists_of_nextIs {kind : TokenKind} {qs : List Piece} (hqs : Closing qs) (hkind : kind ≠ .rbrace)
    (h : nextIs 0 kind (xs ++ qs) = true) : ∃ t xs', xs = .token t :: xs' ∧ t.kind = kind := by
  cases xs with
  | nil =>
    rcases hqs with rfl | ⟨closing, rest, rfl, closes⟩
    · cases h
    · exact absurd (by simpa [nextIs, Piece.hasKind, closes] using h) hkind.symm
  | cons x xs =>
    cases x with
    | token t => exact ⟨t, xs, rfl, by simpa [nextIs, Piece.hasKind] using h⟩
    | doc | inject => cases h

theorem settles_readWord {c t : Token} (closes : c.kind = .rbrace) (kind : t.kind = .ident)
    (h : Loose (.token t :: xs)) {tail : List Piece} (htail : Closing tail)
    (settled : Settled (.token t :: (xs ++ tail))) :
    Settles Turn.append Turn.Fits (fun qs => ∃ rest, qs = .token c :: rest)
      fun qs => (readWord s b t (xs ++ qs)).result := by
  have hxs : Loose xs := h.of_token (by rw [kind]; rfl)
  have hclosing (qs : List Piece) := @Closing.of_exists qs c closes
  obtain ⟨w, hw⟩ := word_append (.inr (.inl closes)) t xs
  have hword (qs : List Piece) (hqs : ∃ rest, qs = .token c :: rest) :
      word t (xs ++ qs) = w.append qs := by
    obtain ⟨rest, rfl⟩ := hqs
    exact hw rest
  have hself := hword _ ⟨[], rfl⟩
  have hself' := hclosing _ ⟨[], rfl⟩
  cases w with
  | label v =>
    obtain ⟨colon, xs, rfl, hcolon⟩ := exists_of_nextIs hself' (by decide) (nextIs_of_label hself)
    have hrest : Loose xs := hxs.of_token (by rw [hcolon]; rfl)
    refine (settles_continues (b := { b with visibility := v }) hrest).congr fun qs hqs => ?_
    rw [readWord, hword qs hqs]
    rfl
  | template =>
    obtain ⟨htext, hless⟩ := template_of_word hself
    obtain ⟨less, xs, rfl, hkind⟩ := exists_of_nextIs hself' (by decide) hless
    have hends := settled.headEnds (by simp [Token.isIdent, kind, htext])
      (by simp [nextIs, Piece.hasKind, hkind])
    obtain ⟨ts, zs, hzs, hhead⟩ := templateTokens_loose hxs htail hends
    refine (settles_continues
      (b := { b with pending.template := some (Token.join (t :: ts)) }) hzs).congr fun qs hqs => ?_
    rw [readWord, hword qs hqs, hhead]
    rfl
  | inlined =>
    refine (settles_continues (b := b) hxs).congr fun qs hqs => ?_
    rw [readWord, hword qs hqs]
    rfl
  | «namespace» =>
    have hplain := settled.aliasBody (by simp [Token.isIdent, kind, namespace_of_word hself])
    refine ((settles_readNamespace (s := s) (b := b) hxs htail hplain).mono hclosing).congr
      fun qs hqs => ?_
    rw [readWord, hword qs hqs]
    rfl
  | linkage =>
    obtain ⟨hstring, hbrace⟩ := nextIs_of_linkage hself
    obtain ⟨string, xs, rfl, hkind⟩ := exists_of_nextIs hself' (by decide) hstring
    obtain ⟨brace, xs, rfl, hkind'⟩ := @exists_of_nextIs xs .lbrace _ hself' (by decide) hbrace
    have hrest : Loose (.token brace :: xs) := hxs.of_token (by rw [hkind]; rfl)
    refine .ok (v := .opens { s with braced := true } (.transparent b) xs) ⟨rfl, hrest.opened hkind'⟩
      fun qs hqs => ?_
    rw [readWord, hword qs hqs]
    rfl
  | reflection =>
    refine ((settles_annotate (b := b) hxs t).mono hclosing).congr fun qs hqs => ?_
    rw [readWord, hword qs hqs]
    rfl
  | passedOver =>
    refine ((settles_passOverKeyword (b := b) h (List.cons_ne_nil _ _)).mono hclosing).congr
      fun qs hqs => ?_
    rw [readWord, hword qs hqs]
    rfl
  | macroCall zs =>
    have hzs := loose_of_afterMacroCall? hxs hself' (word_macroCall hself)
    refine (settles_continues (b := b) hzs).congr fun qs hqs => ?_
    rw [readWord, hword qs hqs]
    rfl
  | other =>
    refine ((settles_declare (s := s) (b := b) h (List.cons_ne_nil _ _)).mono hclosing).congr
      fun qs hqs => ?_
    rw [readWord, hword qs hqs]
    rfl

/-- **A turn stays within the braces around it**, and makes the same whatever stands behind them. -/
theorem settles_turn {c : Token} (closes : c.kind = .rbrace) {p : Piece} (h : Loose (p :: xs))
    {tail : List Piece} (htail : Closing tail) (settled : Settled (p :: (xs ++ tail))) :
    Settles Turn.append Turn.Fits (fun qs => ∃ rest, qs = .token c :: rest)
      fun qs => (turn s b p (xs ++ qs)).result := by
  have hclosing (qs : List Piece) := @Closing.of_exists qs c closes
  cases p with
  | doc block =>
    have hxs : Loose xs := (Piece.of_cons_of_not_opens h nofun).2
    unfold turn
    simp only [Outcome.result_bind, State.result_dropDoc]
    exact settles_continues (b := { b.withoutDoc with pending.doc := some block }) hxs
  | inject proxy line =>
    have hxs : Loose xs := (Piece.of_cons_of_not_opens h nofun).2
    unfold turn
    dsimp only
    split
    · exact .error fun qs _ => rfl
    · exact settles_continues hxs
  | token t =>
    unfold turn
    dsimp only
    split
    · exact absurd (by assumption) h.ne_rbrace
    · rename_i hkind
      exact settles_continues (h.of_token (by rw [hkind]; rfl))
    · rename_i hkind
      exact settles_readWord closes hkind h htail settled
    · exact (settles_declare h (List.cons_ne_nil _ _)).mono hclosing

/-! ### Readings -/

theorem Turn.rest_append (v : Turn) (qs : List Piece) : (v.append qs).rest = v.rest ++ qs := by
  cases v <;> rfl

/-- **A scope ends at the brace that closes it**: what is read up to there depends on nothing behind. -/
theorem readOn_enclosed {c : Token} (closes : c.kind = .rbrace) (braced : s.braced = true) (h : Loose xs)
    {tail : List Piece} (htail : Closing tail) (settled : Settled (xs ++ tail)) :
    ∃ o : Except Fault Contents, ∀ rest, readOn s b (xs ++ .token c :: rest) = o.map (·, rest) := by
  -- A scope opened inside is read from further on, so the induction is on length.
  induction hn : xs.length using Nat.strongRecOn generalizing s b xs c tail with
  | ind n ih =>
    subst hn
    cases xs with
    | nil =>
      refine ⟨(s.finish b).result, fun rest => ?_⟩
      rw [List.nil_append, readOn_cons, turn_of_takes (.closes c rest closes braced)]
      rfl
    | cons p xs =>
      obtain ⟨o, ho, hturn⟩ := settles_turn (s := s) (b := b) closes h htail settled
      have hread (rest : List Piece) : readOn s b (p :: xs ++ .token c :: rest) =
          o.map (Turn.append · (.token c :: rest)) >>= fun t =>
            match t with
            | .closes rest => (s.finish b).result.map fun found => (found, rest)
            | .continues b rest => readOn s b rest
            | .opens inner frame rest => readOn inner inner.start rest >>= fun e =>
                readOn s (frame.resumed e.1) e.2 := by
        rw [List.cons_append, readOn_cons]
        exact congrArg (· >>= _) (hturn _ ⟨rest, rfl⟩)
      simp only [hread]
      cases o with
      | error e => exact ⟨.error e, fun rest => rfl⟩
      | ok v =>
        have hv := ho v rfl
        have hsuffix : v.rest <:+ xs := by
          have hrest := turn_suffix (hturn _ ⟨[], rfl⟩)
          rw [Turn.rest_append] at hrest
          obtain ⟨front, hfront⟩ := hrest
          exact ⟨front, List.append_cancel_right ((List.append_assoc ..).trans hfront)⟩
        have hsettled {zs : List Piece} (hzs : zs <:+ v.rest) : Settled (zs ++ tail) := by
          obtain ⟨front, hfront⟩ := hzs.trans hsuffix
          exact settled.suffix ⟨p :: front, by simp [← hfront]⟩
        cases v with
        | closes => cases hv
        | continues b' zs =>
          exact ih _ (Nat.lt_succ_of_le hsuffix.length_le) closes braced hv htail
            (hsettled (List.suffix_refl _)) rfl
        | opens inner frame zs =>
          obtain ⟨hbraced, inside, closing, ys, rfl, hcloses, hinside, hys⟩ := hv
          have hlength := hsuffix.length_le
          simp only [Turn.rest, List.length_append, List.length_cons] at hlength
          have hwithin : Settled (inside ++ .token closing :: (ys ++ tail)) := by
            have hzs := hsettled (List.suffix_refl _)
            simpa [Turn.rest] using hzs
          obtain ⟨o', ho'⟩ := ih (b := inner.start) inside.length (by simp; omega) hcloses hbraced
            hinside.loose (.of_brace hcloses _) hwithin rfl
          have hinner (rest : List Piece) :
              readOn inner inner.start (inside ++ .token closing :: ys ++ .token c :: rest) =
                o'.map (·, ys ++ .token c :: rest) := by
            rw [List.append_assoc, List.cons_append]
            exact ho' _
          cases o' with
          | error e =>
            refine ⟨.error e, fun rest => ?_⟩
            show readOn inner inner.start (inside ++ .token closing :: ys ++ .token c :: rest) >>= _ = _
            rw [hinner]
            rfl
          | ok found =>
            obtain ⟨o'', ho''⟩ := ih (b := frame.resumed found) ys.length (by simp; omega) closes braced
              hys htail (hsettled ⟨inside ++ [.token closing], by simp [Turn.rest]⟩) rfl
            refine ⟨o'', fun rest => ?_⟩
            show readOn inner inner.start (inside ++ .token closing :: ys ++ .token c :: rest) >>= _ = _
            rw [hinner]
            exact ho'' rest

end AnnotatedHeader.Scope
