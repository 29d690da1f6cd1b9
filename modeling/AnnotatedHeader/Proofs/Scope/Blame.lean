import AnnotatedHeader.Proofs.Scope.Macros
import AnnotatedHeader.Proofs.Text.Ends

/-! What a fault of a scope's reading points at.

A reading fails at a marker of an inject that stands where it may not, or at a reflection macro:
one whose arguments cannot be read, or one that still waits when nothing may. The fault has the
line of that piece, and its cause the name that is written there (`exists_at_of_readOn`). -/
namespace AnnotatedHeader

/-- The reflection macro that a cause names. -/
def Cause.macroName? : Cause → Option String
  | .malformedMetadata macroName _ | .orphaned macroName _ => some macroName
  | _ => none

/-- The fault is that of the piece: it has its line and names what is written there. -/
inductive Fault.At : Fault → Piece → Prop where
  | atMacro {t : Token} {cause : Cause} (kind : t.kind = .ident)
      (named : cause.macroName? = some t.text) : Fault.At ⟨t.line, cause⟩ (.token t)
  | atMarker (proxy : String) (line : Nat) :
      Fault.At ⟨line, .misplacedInject proxy⟩ (.inject proxy line)

/-- The fault is that of a piece among these. -/
def Fault.Among (e : Fault) (ps : List Piece) : Prop := ∃ p ∈ ps, e.At p

section
variable {e : Fault} {p : Piece} {ps qs : List Piece}

theorem Fault.Among.mono (h : e.Among ps) (hsub : ps ⊆ qs) : e.Among qs := by
  obtain ⟨p, hp, hat⟩ := h
  exact ⟨p, hsub hp, hat⟩

theorem Fault.Among.behind (h : e.Among ps) : e.Among (p :: ps) :=
  h.mono (List.subset_cons_self ..)

theorem Fault.among_marker (proxy : String) (line : Nat) (ps : List Piece) :
    Fault.Among ⟨line, .misplacedInject proxy⟩ (.inject proxy line :: ps) :=
  ⟨_, List.mem_cons_self .., .atMarker proxy line⟩

end

/-! ### Statements and bodies -/

theorem Statement.among_of_collect {depth braces : Nat} {s : Statement} {ps : List Piece} {e : Fault}
    (h : (collect depth braces s ps).result = .error e) : e.Among ps := by
  induction ps generalizing depth braces s with
  | nil =>
    rw [collect] at h
    split at h <;> cases h
  | cons p ps ih =>
    cases p with
    | inject proxy line =>
      cases h
      exact Fault.among_marker proxy line ps
    | doc b =>
      rw [collect] at h
      split at h
      · exact (ih h).behind
      · split at h
        · exact (ih h).behind
        · exact (ih h).behind
    | token t =>
      rw [collect] at h
      split at h
      · cases h
      · cases h
      · cases h
      · exact (ih h).behind

theorem Statement.among_of_read {ps : List Piece} {e : Fault}
    (h : (Statement.read ps).result = .error e) : e.Among ps := among_of_collect h

theorem among_of_skipBody {depth : Nat} {ps : List Piece} {e : Fault}
    (h : (skipBody depth ps).result = .error e) : e.Among ps := by
  fun_induction skipBody depth ps with
  | case1 => cases h
  | case2 depth proxy line ps =>
    cases h
    exact Fault.among_marker proxy line ps
  | case3 depth b ps ih => exact (ih h).behind
  | case4 => cases h
  | case5 t ps depth _ ih => exact (ih h).behind
  | case6 depth t ps _ ih => exact (ih h).behind
  | case7 depth t ps _ _ _ ih => exact (ih h).behind

theorem Statement.among_of_skipBodyOf {s : Statement} {ps : List Piece} {e : Fault}
    (h : (s.skipBodyOf ps).result = .error e) : e.Among ps := by
  unfold skipBodyOf at h
  split at h
  · exact among_of_skipBody h
  · cases h

namespace EnumBody

theorem mem_of_mem_entryTokens {depth : Nat} {ps : List Piece} {t : Token}
    (h : t ∈ (entryTokens depth ps).1) : .token t ∈ ps := by
  fun_induction entryTokens depth ps with
  | case1 => cases h
  | case2 => cases h
  | case3 => cases h
  | case4 depth u ps _ _ more ih =>
    rcases List.mem_cons.1 h with rfl | h
    · exact List.mem_cons_self ..
    · exact List.mem_cons_of_mem _ (ih h)
  | case5 depth b ps ih => exact List.mem_cons_of_mem _ (ih h)
  | case6 depth proxy line ps ih => exact List.mem_cons_of_mem _ (ih h)

theorem eq_of_reflection {t : Token} {args : List Token} {e : Fault}
    (h : reflection t args = .error e) : ∃ flaw, e = ⟨t.line, .malformedMetadata metaMacro flaw⟩ := by
  unfold reflection at h
  split at h
  · split at h
    · split at h <;> cases h
      exact ⟨_, rfl⟩
    · cases h
      exact ⟨_, rfl⟩
  · cases h
    exact ⟨_, rfl⟩

/-- An entry fails at its metadata macro. -/
theorem at_of_variant {path : String} {doc : Option DocBlock} {ts : List Token} {e : Fault}
    (h : variant path doc ts = .error e) : ∃ t ∈ ts, e.At (.token t) := by
  unfold variant at h
  split at h
  · rename_i name tail
    split at h
    · dsimp only at h
      split at h
      · rename_i t args hdrop
        have hmem : t ∈ name :: tail :=
          (List.dropWhile_sublist _).subset (hdrop ▸ List.mem_cons_self ..)
        have hmacro : t.isIdent metaMacro = true := by
          simpa using Text.head?_dropWhile_eq_false
            (p := (!·.isIdent metaMacro)) (x := t) (by rw [hdrop]; rfl)
        obtain ⟨hkind, htext⟩ : t.kind = .ident ∧ t.text = metaMacro := by
          simpa [Token.isIdent] using hmacro
        cases hr : reflection t args with
        | ok r =>
          rw [hr] at h
          cases h
        | error e' =>
          rw [hr] at h
          cases h
          obtain ⟨flaw, rfl⟩ := eq_of_reflection hr
          exact ⟨t, hmem, .atMacro hkind (by rw [htext]; rfl)⟩
      · cases h
    · cases h
  · cases h

theorem among_of_read {path : String} {members : List Declaration} {doc : Option DocBlock}
    {ps : List Piece} {e : Fault} (h : (read path members doc ps).result = .error e) :
    e.Among ps := by
  fun_induction read path members doc ps with
  | case1 => cases h
  | case2 members doc b ps ih => exact (ih h).behind
  | case3 members doc proxy line ps =>
    cases h
    exact Fault.among_marker proxy line ps
  | case4 => cases h
  | case5 members doc t ps _ ih => exact (ih h).behind
  | case6 members doc t ps more _ _ ih =>
    rw [Outcome.result_bind] at h
    rcases Except.bind_eq_error.1 h with h | ⟨ms, -, h⟩
    · -- The entry itself fails, for what it declares is merged without a fault.
      have hvariant : variant path doc (t :: more.1) = .error e := by
        unfold addEntry at h
        rw [Outcome.result_bind, Outcome.result_ofExcept] at h
        rcases Except.bind_eq_error.1 h with h | ⟨found, -, h⟩
        · exact h
        · cases found <;> cases h
      obtain ⟨u, hu, hat⟩ := at_of_variant hvariant
      refine ⟨_, ?_, hat⟩
      rcases List.mem_cons.1 hu with rfl | hu
      · exact List.mem_cons_self ..
      · exact List.mem_cons_of_mem _ (mem_of_mem_entryTokens hu)
    · exact ((ih ms h).mono (entryTokens_suffix _ ps).subset).behind

end EnumBody

namespace Scope

/-! ### Macros that wait -/

/-- The macro is left without a declaration, and the fault says so. -/
def Orphans (e : Fault) (r : Reflection) : Prop :=
  e.line = r.line ∧ e.cause.macroName? = some r.macroName

/-- The macro is written at the piece. -/
inductive WrittenAt (r : Reflection) : Piece → Prop where
  | token {t : Token} (kind : t.kind = .ident) (name : r.macroName = t.text)
      (line : r.line = t.line) : WrittenAt r (.token t)

theorem WrittenAt.at {e : Fault} {r : Reflection} {p : Piece} (h : WrittenAt r p)
    (orphans : Orphans e r) : e.At p := by
  obtain ⟨kind, name, line⟩ := h
  obtain ⟨eline, cause⟩ := e
  obtain ⟨hline, hcause⟩ := orphans
  have hline : eline = _ := hline.trans line
  subst hline
  exact .atMacro kind (name ▸ hcause)

theorem orphans_of_finish {s : Scope} {b : State} {e : Fault} (h : (s.finish b).result = .error e) :
    ∃ r ∈ b.waiting, Orphans e r := by
  unfold finish at h
  split at h
  · rename_i r hr
    cases h
    exact ⟨r, by simp [State.waiting, hr], rfl, rfl⟩
  · rw [Outcome.result_bind, State.result_dropDoc] at h
    cases h

theorem written_of_readReflection {t : Token} {ps rest : List Piece} {r : Reflection}
    (kind : t.kind = .ident) (h : (readReflection t ps).result = .ok (r, rest)) :
    WrittenAt r (.token t) := by
  unfold readReflection at h
  split at h
  · split at h
    · split at h
      · split at h <;> cases h
        exact .token kind rfl rfl
      · cases h
    · cases h
  · cases h

theorem at_of_readReflection {t : Token} {ps : List Piece} {e : Fault} (kind : t.kind = .ident)
    (h : (readReflection t ps).result = .error e) : e.At (.token t) := by
  unfold readReflection at h
  split at h
  · split at h
    · split at h
      · split at h <;> cases h
        exact .atMacro kind rfl
      · cases h
        exact .atMacro kind rfl
    · cases h
      exact .atMacro kind rfl
  · cases h
    exact .atMacro kind rfl

/-! ### Turns -/

/-- The fault is that of one of the pieces, or of a macro that waits in the scope. -/
def Faulted (b : State) (ps : List Piece) (e : Fault) : Prop :=
  (∃ r ∈ b.waiting, Orphans e r) ∨ e.Among ps

section
variable {s : Scope} {b : State} {p : Piece} {ps : List Piece} {e : Fault}

theorem faulted_of_passOver {stmt : Statement} {reason : SkipReason}
    (h : (passOver b stmt reason ps).result = .error e) : Faulted b ps e := by
  unfold passOver at h
  split at h
  · rename_i r hr
    cases h
    exact .inl ⟨r, by simp [State.waiting, hr], rfl, rfl⟩
  · rw [Outcome.result_bind, Outcome.result_note] at h
    rcases Except.bind_eq_error.1 h with h | ⟨-, -, h⟩
    · cases h
    rw [Outcome.result_bind] at h
    rcases Except.bind_eq_error.1 h with h | ⟨rest, -, h⟩
    · exact .inr (stmt.among_of_skipBodyOf h)
    · rw [Outcome.result_bind, State.result_dropDoc] at h
      cases h

theorem orphans_of_checkReflection {h : Heading}
    (hcheck : (checkReflection h b.pending.reflection).result = .error e) :
    ∃ r ∈ b.waiting, Orphans e r := by
  unfold checkReflection at hcheck
  split at hcheck
  · rename_i r hr
    split at hcheck <;> cases hcheck
    exact ⟨r, by simp [State.waiting, hr], rfl, rfl⟩
  · cases hcheck

theorem among_of_openBody {own : Declared} (h : (openBody b own ps).result = .error e) :
    e.Among ps := by
  unfold openBody at h
  split at h
  · cases h
  · rw [Outcome.result_bind] at h
    rcases Except.bind_eq_error.1 h with h | ⟨found, -, h⟩
    · exact EnumBody.among_of_read h
    · rw [Outcome.result_bind, State.result_add] at h
      cases h
  · rw [Outcome.result_bind] at h
    rcases Except.bind_eq_error.1 h with h | ⟨rest, -, h⟩
    · exact among_of_skipBody h
    · rw [Outcome.result_bind, State.result_add] at h
      cases h

theorem faulted_of_declare (h : (declare s b ps).result = .error e) : Faulted b ps e := by
  unfold declare at h
  rw [Outcome.result_bind] at h
  rcases Except.bind_eq_error.1 h with h | ⟨⟨stmt, rest⟩, hread, h⟩
  · exact .inr (Statement.among_of_read h)
  have hrest := (Statement.read_suffix hread).subset
  dsimp only at h
  split at h
  · exact (faulted_of_passOver h).imp_right (·.mono hrest)
  · rw [Outcome.result_bind] at h
    rcases Except.bind_eq_error.1 h with h | ⟨-, -, h⟩
    · exact .inl (orphans_of_checkReflection h)
    · split at h
      · exact .inr ((among_of_openBody h).mono hrest)
      · rw [Outcome.result_bind, State.result_addAll] at h
        cases h

theorem among_of_readNamespace (h : (readNamespace s b ps).result = .error e) : e.Among ps := by
  unfold readNamespace at h
  rw [Outcome.result_bind, State.result_dropDoc] at h
  have hhead := namespaceHead_suffix "" ps
  cases hn : namespaceHead "" ps with
  | body | nothing =>
    rw [hn] at h
    cases h
  | «alias» rest =>
    rw [hn] at h hhead
    rcases Except.bind_eq_error.1 ((Outcome.result_bind _ _).symm.trans h) with h | ⟨a, -, h⟩
    · exact (Statement.among_of_read h).mono hhead.subset
    · cases h

theorem faulted_of_annotate {t : Token} (kind : t.kind = .ident)
    (h : (annotate b t ps).result = .error e) : Faulted b (.token t :: ps) e := by
  unfold annotate at h
  split at h
  · rename_i r hr
    cases h
    exact .inl ⟨r, by simp [State.waiting, hr], rfl, rfl⟩
  · rw [Outcome.result_bind] at h
    rcases Except.bind_eq_error.1 h with h | ⟨a, -, h⟩
    · exact .inr ⟨_, List.mem_cons_self .., at_of_readReflection kind h⟩
    · cases h

theorem among_of_passOverKeyword (h : (passOverKeyword b ps).result = .error e) : e.Among ps := by
  unfold passOverKeyword at h
  rw [Outcome.result_bind] at h
  rcases Except.bind_eq_error.1 h with h | ⟨⟨stmt, rest⟩, hread, h⟩
  · exact Statement.among_of_read h
  dsimp only at h
  rw [Outcome.result_bind, Outcome.result_note] at h
  rcases Except.bind_eq_error.1 h with h | ⟨-, -, h⟩
  · cases h
  rw [Outcome.result_bind] at h
  rcases Except.bind_eq_error.1 h with h | ⟨a, -, h⟩
  · exact (stmt.among_of_skipBodyOf h).mono (Statement.read_suffix hread).subset
  · cases h

theorem faulted_of_readWord {t : Token} (kind : t.kind = .ident)
    (h : (readWord s b t ps).result = .error e) : Faulted b (.token t :: ps) e := by
  unfold readWord at h
  split at h
  · cases h
  · cases h
  · cases h
  · exact .inr (among_of_readNamespace h).behind
  · cases h
  · exact faulted_of_annotate kind h
  · exact .inr (among_of_passOverKeyword h)
  · cases h
  · exact faulted_of_declare h

/-- **A turn that fails** names one of the pieces in front of it, or a macro that waits. -/
theorem faulted_of_turn (h : (turn s b p ps).result = .error e) : Faulted b (p :: ps) e := by
  unfold turn at h
  split at h
  · rw [Outcome.result_bind, State.result_dropDoc] at h
    cases h
  · rename_i proxy line
    split at h <;> cases h
    exact .inr (Fault.among_marker proxy line ps)
  · split at h
    · split at h <;> cases h
    · cases h
    · rename_i hkind
      exact faulted_of_readWord hkind h
    · exact faulted_of_declare h

/-! ### Readings -/

/-- What waits is written at pieces among these. -/
def Waits (all : List Piece) (b : State) : Prop := ∀ r ∈ b.waiting, ∃ p ∈ all, WrittenAt r p

theorem Faulted.among {all : List Piece} (h : Faulted b ps e) (hps : ps ⊆ all)
    (waits : Waits all b) : e.Among all := by
  rcases h with ⟨r, hr, orphans⟩ | h
  · obtain ⟨p, hp, written⟩ := waits r hr
    exact ⟨p, hp, written.at orphans⟩
  · exact h.mono hps

/-- What waits behind a turn waited before, or the turn has read it. -/
theorem Hands.waits {all : List Piece} {b' : State} {macros : List Reflection}
    {made : List Declaration} (h : Hands b b' macros made) (waits : Waits all b)
    (hmacros : ∀ r ∈ macros, ∃ p ∈ all, WrittenAt r p) : Waits all b' := by
  intro r hr
  have hmem : r ∈ b.waiting ++ macros := h.macros ▸ List.mem_append_right _ hr
  exact (List.mem_append.1 hmem).elim (waits r) (hmacros r)

theorem written_of_mem_macroAt {r : Reflection} (h : r ∈ macroAt p ps) : WrittenAt r p := by
  unfold macroAt at h
  split at h
  · rename_i t hitem
    have hkind : t.kind = .ident := by
      unfold item at hitem
      dsimp only at hitem
      split at hitem <;> first | assumption | cases hitem
    split at h
    · rename_i hread
      rw [List.mem_singleton.1 h]
      exact written_of_readReflection hkind hread
    · cases h
  · cases h

theorem among_of_readOn {all : List Piece} (hps : ps ⊆ all) (waits : Waits all b)
    (h : readOn s b ps = .error e) : e.Among all := by
  -- A scope opened inside is read from further on, so the induction is on length.
  induction hn : ps.length using Nat.strongRecOn generalizing s b ps with
  | ind n ih =>
    subst hn
    have hfinish {b : State} {rest : List Piece} (waits : Waits all b)
        (h : ((s.finish b).result.map fun found => (found, rest)) = .error e) : e.Among all := by
      cases hf : (s.finish b).result with
      | ok found =>
        rw [hf] at h
        cases h
      | error e' =>
        rw [hf] at h
        cases h
        exact Faulted.among (.inl (orphans_of_finish hf)) (List.nil_subset _) waits
    cases ps with
    | nil =>
      rw [readOn_nil] at h
      exact hfinish waits h
    | cons p ps =>
      rw [readOn_cons] at h
      rcases Except.bind_eq_error.1 h with h | ⟨t, hturn, h⟩
      · exact (faulted_of_turn h).among hps waits
      have hp := hps (List.mem_cons_self ..)
      have hlength : t.rest.length < (p :: ps).length :=
        Nat.lt_succ_of_le (turn_suffix hturn).length_le
      have hrest : t.rest ⊆ all := fun q hq =>
        hps (List.mem_cons_of_mem p ((turn_suffix hturn).subset hq))
      cases t with
      | closes rest => exact hfinish waits h
      | continues b' rest =>
        have hstep := (takes_of_turn hturn).step
        have hwaits := hstep.toHands.waits waits fun r hr => ⟨p, hp, written_of_mem_macroAt hr⟩
        exact ih _ hlength hrest hwaits h rfl
      | opens inner frame rest =>
        rcases Except.bind_eq_error.1 h with h | ⟨⟨within, rest'⟩, hwithin, h⟩
        · exact ih _ hlength hrest (by rintro r ⟨⟩) h rfl
        · have hands := (takes_of_turn hturn).hands within
          obtain ⟨x, hx, hrest'⟩ := Except.map_eq_ok.1 hwithin
          have hsuffix : rest' <:+ rest := by
            cases hrest'
            exact x.2.2
          exact ih _ (Nat.lt_of_le_of_lt hsuffix.length_le hlength)
            (List.Subset.trans hsuffix.subset hrest) (hands.waits waits (by rintro r ⟨⟩)) h rfl

/-- **A reading that fails does so at one of its pieces**, whose line and name the fault has. -/
theorem exists_at_of_readOn (h : readOn s s.start ps = .error e) : ∃ p ∈ ps, e.At p :=
  among_of_readOn (List.Subset.refl ps) (by rintro r ⟨⟩) h

end

end Scope

end AnnotatedHeader
