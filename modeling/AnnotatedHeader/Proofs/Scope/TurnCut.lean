import AnnotatedHeader.Proofs.Scope.Bodies
import AnnotatedHeader.Proofs.Scope.Templates

/-! Turns on the last line of some code.

A turn that leaves the pieces of later lines unread is the same without them (`Scope.turn_cut`).
Nearly all of it is read without a look ahead. But words look at what stands behind them, and a
macro call ends its line, which is told by the line of the piece behind it; so it is used that the
pieces behind stand on later lines (`Scope.word_cut`). -/
namespace AnnotatedHeader

namespace Scope
variable {p : Piece} {xs ps rest : List Piece}

/-! ### Words at the end of the code -/

theorem suffix_of_callEnd?_cons {depth line : Nat}
    (h : callEnd? depth (p :: ps) = some (line, rest)) : rest <:+ ps := by
  cases p with
  | doc | inject => cases h
  | token t =>
    unfold callEnd? at h
    split at h
    · cases h
      exact List.suffix_refl _
    · exact callEnd?_suffix h
    · exact callEnd?_suffix h
    · cases h
    · cases h
    · cases h
    · exact callEnd?_suffix h

/-- What a turn that starts with a word leaves. -/
theorem Takes.rest_of_word {s : Scope} {b : State} {t : Token} {u : Turn}
    (h : Takes s b (.token t) ps u) (kind : t.kind = .ident) :
    match word t ps with
    | .label _ => u.rest = ps.drop 1
    | .template => u.rest = (templateTokens 0 ps).2
    | .linkage => u.rest = ps.drop 2
    | .macroCall rest => u.rest = rest
    | .other => Declares s b (.token t :: ps) u
    | .inlined => u = .continues b ps
    | _ => True := by
  cases h with
  | closes _ _ kind' => cases kind.symm.trans kind'
  | passes _ _ why =>
    rcases why with ⟨kind', -⟩ | kind' | ⟨-, is⟩
    · cases kind.symm.trans kind'
    · cases kind.symm.trans kind'
    · rw [is]
  | label _ is | template _ is | opensLinkage _ is | calls _ is =>
    rw [is]
    rfl
  | opensNamespace _ is | aliases _ is | endsNamespaceHead _ is | annotates _ is
  | passesOverKeyword _ is => rw [is]; trivial
  | declares _ is h =>
    rw [is kind]
    exact h

/-- What follows a call, if that stands on a later line. -/
def endsLine? : Option (Nat × List Piece) → Option (List Piece)
  | some (line, rest) => if rest.head?.any (·.line ≤ line) then none else some rest
  | none => none

theorem afterMacroCall?_nil {t : Token} (name : isMacroName t.text.toList = true) :
    afterMacroCall? t [] = endsLine? (some (t.line, [])) := by
  unfold afterMacroCall?
  rw [if_pos name]
  rfl

theorem afterMacroCall?_cons {t : Token} (name : isMacroName t.text.toList = true) (x : Piece)
    (xs : List Piece) : afterMacroCall? t (x :: xs) =
      endsLine? (if x.hasKind .lparen then callEnd? 0 xs else some (t.line, x :: xs)) := by
  unfold afterMacroCall?
  rw [if_pos name]
  rfl

theorem endsLine?_append {line : Nat} (hline : line < p.line) (zs : List Piece) :
    endsLine? (some (line, zs ++ p :: ps)) = (endsLine? (some (line, zs))).map (· ++ p :: ps) := by
  unfold endsLine?
  cases zs with
  | nil => simp [hline]
  | cons z zs => by_cases hz : z.line ≤ line <;> simp [hz]

theorem endsLine?_of_suffix {e : Option (Nat × List Piece)}
    (h : ∀ line rest, e = some (line, rest) → rest <:+ ps) :
    endsLine? e = none ∨ ∃ rest, rest <:+ ps ∧ endsLine? e = some rest := by
  cases e with
  | none => exact .inl rfl
  | some e =>
    unfold endsLine?
    dsimp only
    split
    · exact .inl rfl
    · exact .inr ⟨e.2, h e.1 e.2 rfl, rfl⟩

/-- What follows a macro call that ends its line is told by the code in front, if what stands behind
is on a later line, or the call takes some of that. -/
theorem afterMacroCall?_cut {t : Token} (hlines : ∀ x ∈ .token t :: xs, x.line < p.line) :
    afterMacroCall? t (xs ++ p :: ps) = (afterMacroCall? t xs).map (· ++ p :: ps) ∨
    (∃ rest, rest <:+ ps ∧ afterMacroCall? t (xs ++ p :: ps) = some rest) ∨
    (xs = [] ∧ p.hasKind .lparen = true ∧ afterMacroCall? t (xs ++ p :: ps) = none) := by
  obtain ⟨hline, hlines⟩ := List.forall_mem_cons.1 hlines
  by_cases name : isMacroName t.text.toList = true
  · cases xs with
    | nil =>
      rw [List.nil_append, afterMacroCall?_cons name, afterMacroCall?_nil name]
      cases hparen : p.hasKind .lparen with
      | false => exact .inl (endsLine?_append hline [])
      | true =>
        rw [if_pos rfl]
        rcases endsLine?_of_suffix fun _ _ h => callEnd?_suffix h with hends | hends
        · exact .inr (.inr ⟨rfl, rfl, hends⟩)
        · exact .inr (.inl hends)
    | cons x xs =>
      rw [List.cons_append, afterMacroCall?_cons name, afterMacroCall?_cons name]
      split
      · cases callCut 0 xs with
        | ends own line append =>
          obtain ⟨x', hx', hline'⟩ := line
          rw [append, own]
          exact .inl (endsLine?_append (hline' ▸ hlines x' (List.mem_cons_of_mem _ hx')) _)
        | broken append =>
          have hown := append []
          rw [List.append_nil] at hown
          rw [append, hown]
          exact .inl rfl
        | goesOn own append =>
          rw [append, own]
          exact (endsLine?_of_suffix fun _ _ h => suffix_of_callEnd?_cons h).imp_right .inl
      · exact .inl (endsLine?_append hline (x :: xs))
  · unfold afterMacroCall?
    rw [if_neg name, if_neg name]
    exact .inl rfl

@[simp] theorem Word.append_nil (w : Word) : w.append [] = w := by
  cases w with
  | macroCall rest => rw [Word.append, List.append_nil]
  | _ => rfl

theorem Declares.read_suffix {s : Scope} {b : State} {u : Turn} (h : Declares s b ps u) :
    ∃ stmt rest, (Statement.read ps).result = .ok (stmt, rest) ∧ u.rest <:+ rest := by
  cases h with
  | passesOver read _ _ skipped => exact ⟨_, _, read, Statement.skipBodyOf_suffix skipped⟩
  | opensRecord read => exact ⟨_, _, read, List.suffix_refl _⟩
  | readsEnum read _ _ _ _ entries => exact ⟨_, _, read, EnumBody.read_suffix entries⟩
  | skipsBody read _ _ _ _ _ skipped => exact ⟨_, _, read, skipBody_suffix skipped⟩
  | announces read => exact ⟨_, _, read, List.suffix_refl _⟩

theorem word_nil (t : Token) :
    word t [] =
      if t.text == "namespace" then .namespace
      else if (markedKind? t.text).isSome then .reflection
      else if passedOver.contains t.text then .passedOver
      else
        match afterMacroCall? t [] with
        | some rest => .macroCall rest
        | none => .other := by
  have hlabel : label? t [] = none := rfl
  have hnext (i : Nat) (kind : TokenKind) : nextIs i kind [] = false := rfl
  have hnamespace : startsNamespace [] = false := rfl
  unfold word
  cases afterMacroCall? t [] <;>
    simp only [hlabel, hnext, hnamespace, Bool.and_false, Bool.false_eq_true, if_false]

section
variable {s : Scope} {b : State} {t : Token} {u : Turn}

/-- A word that is left alone with a later line behind it means what it means at the end, but for
an `inline` that a namespace follows. -/
theorem word_cut_nil (h : Takes s b (.token t) (p :: ps) u) (kind : t.kind = .ident)
    (hrest : p :: ps <:+ u.rest) (hline : t.line < p.line) :
    (t.text = "inline" ∧ u = .continues b (p :: ps)) ∨
      word t (p :: ps) = (word t []).append (p :: ps) := by
  have hleft := h.rest_of_word kind
  -- What a word takes with it is in front of `p`.
  have htaken {rest : List Piece} (hrest' : u.rest = rest) : ¬ rest <:+ ps :=
    fun hsuffix => not_cons_suffix hsuffix (hrest' ▸ hrest)
  generalize hword : word t (p :: ps) = w at hleft ⊢
  rw [word_nil]
  unfold word at hword
  split at hword
  · subst hword
    exact absurd (List.suffix_refl _) (htaken hleft)
  split at hword
  · subst hword
    exact absurd (suffix_of_templateTokens_cons 0 p ps) (htaken hleft)
  split at hword
  · subst hword
    exact .inl ⟨by simp_all, hleft⟩
  split at hword
  · subst hword
    simp_all [Word.append]
  split at hword
  · subst hword
    exact absurd (List.drop_suffix 1 ps) (htaken hleft)
  split at hword
  · subst hword
    simp_all [Word.append]
  split at hword
  · subst hword
    simp_all [Word.append]
  have hlines : ∀ x ∈ [Piece.token t], x.line < p.line := List.forall_mem_singleton.2 hline
  have hcut := @afterMacroCall?_cut p [] ps t hlines
  split at hword
  · rename_i hnamespace _ hreflection hpassed _ rest hcall
    rw [if_neg hnamespace, if_neg hreflection, if_neg hpassed]
    subst hword
    rcases hcut with hcut | ⟨rest', hrest', hcut⟩ | ⟨-, -, hcut⟩
    · rw [List.nil_append, hcall] at hcut
      obtain ⟨zs, hzs, rfl⟩ := Option.map_eq_some_iff.1 hcut.symm
      rw [hzs]
      exact .inr rfl
    · cases hcall.symm.trans hcut
      exact absurd hrest' (htaken hleft)
    · cases hcall.symm.trans hcut
  · rename_i hnamespace _ hreflection hpassed _ hcall
    rw [if_neg hnamespace, if_neg hreflection, if_neg hpassed]
    subst hword
    rcases hcut with hcut | ⟨rest', hrest', hcut⟩ | ⟨-, hparen, -⟩
    · rw [List.nil_append, hcall] at hcut
      rw [Option.map_eq_none_iff.1 hcut.symm]
      exact .inr rfl
    · cases hcall.symm.trans hcut
    · obtain ⟨stmt, rest, hread, hsuffix⟩ := Declares.read_suffix hleft
      have hbrace := Statement.hasKind_of_read kind hread (hrest.trans hsuffix)
      cases p <;> simp_all [Piece.hasKind]

theorem word_cut_cons {x : Piece} (h : Takes s b (.token t) (x :: xs ++ p :: ps) u)
    (kind : t.kind = .ident) (hrest : p :: ps <:+ u.rest)
    (hlines : ∀ y ∈ .token t :: x :: xs, y.line < p.line) :
    word t (x :: xs ++ p :: ps) = (word t (x :: xs)).append (p :: ps) := by
  have hleft := h.rest_of_word kind
  have htaken {rest : List Piece} (hrest' : u.rest = rest) : ¬ rest <:+ ps :=
    fun hsuffix => not_cons_suffix hsuffix (hrest' ▸ hrest)
  have hcut := @afterMacroCall?_cut p (x :: xs) ps t hlines
  -- All but the brace of a linkage block is seen on the first piece.
  have hlabel : label? t (x :: xs ++ p :: ps) = label? t (x :: xs) := rfl
  have hless : nextIs 0 .less (x :: xs ++ p :: ps) = nextIs 0 .less (x :: xs) := rfl
  have hstring : nextIs 0 .string (x :: xs ++ p :: ps) = nextIs 0 .string (x :: xs) := rfl
  have hnamespace : startsNamespace (x :: xs ++ p :: ps) = startsNamespace (x :: xs) := by
    cases x <;> rfl
  have hbrace : nextIs 1 .lbrace (x :: xs) = true → nextIs 1 .lbrace (x :: xs ++ p :: ps) = true := by
    cases xs with
    | nil => exact fun h => absurd h (by simp [nextIs])
    | cons y ys => exact id
  generalize hword : word t (x :: xs ++ p :: ps) = w at hleft ⊢
  unfold word at hword ⊢
  rw [hlabel, hless, hstring, hnamespace] at hword
  split at hword
  · rw [← hword]
    rfl
  split at hword <;> rename_i his
  · rw [if_pos his, ← hword]
    rfl
  rw [if_neg his]
  split at hword <;> rename_i his
  · rw [if_pos his, ← hword]
    rfl
  rw [if_neg his]
  split at hword <;> rename_i his
  · rw [if_pos his, ← hword]
    rfl
  rw [if_neg his]
  split at hword <;> rename_i his
  · subst hword
    cases xs with
    | nil => exact absurd (List.suffix_refl ps) (htaken hleft)
    | cons y ys =>
      have his : (t.text == "extern" && nextIs 0 .string (x :: y :: ys) &&
        nextIs 1 .lbrace (x :: y :: ys)) = true := his
      rw [if_pos his]
      rfl
  rw [if_neg fun h => his (by simp_all)]
  split at hword <;> rename_i his
  · rw [if_pos his, ← hword]
    rfl
  rw [if_neg his]
  split at hword <;> rename_i his
  · rw [if_pos his, ← hword]
    rfl
  rw [if_neg his]
  split at hword
  · rename_i rest hcall
    subst hword
    rcases hcut with hcut | ⟨rest', hrest', hcut⟩ | ⟨hnil, -⟩
    · rw [hcall] at hcut
      obtain ⟨zs, hzs, rfl⟩ := Option.map_eq_some_iff.1 hcut.symm
      rw [hzs]
      rfl
    · cases hcall.symm.trans hcut
      exact absurd hrest' (htaken hleft)
    · cases hnil
  · rename_i hcall
    rcases hcut with hcut | ⟨rest', hrest', hcut⟩ | ⟨hnil, -⟩
    · rw [hcall] at hcut
      rw [Option.map_eq_none_iff.1 hcut.symm, ← hword]
      rfl
    · cases hcall.symm.trans hcut
    · cases hnil

/-- **A word at whose turn the code behind is left alone**, which stands on a later line, means the
same without that code, but for an `inline` that a namespace follows. -/
theorem word_cut (h : Takes s b (.token t) (xs ++ p :: ps) u) (kind : t.kind = .ident)
    (hrest : p :: ps <:+ u.rest) (hlines : ∀ x ∈ .token t :: xs, x.line < p.line) :
    (t.text = "inline" ∧ xs = [] ∧ u = .continues b (p :: ps)) ∨
      word t (xs ++ p :: ps) = (word t xs).append (p :: ps) := by
  cases xs with
  | nil =>
    exact (word_cut_nil h kind hrest (hlines _ List.mem_cons_self)).imp_left fun h => ⟨h.1, rfl, h.2⟩
  | cons x xs => exact .inr (word_cut_cons h kind hrest hlines)

end

/-! ### Turns at the end of the code -/

/-- The last turn of the code in front is the same alone: an `inline` alone declares nothing. -/
inductive TurnCut (s : Scope) (b : State) (p q : Piece) (xs ps : List Piece) : Turn → Prop where
  | same {v : Turn} (taken : (turn s b q xs).result = .ok (v.append [])) :
      TurnCut s b p q xs ps (v.append (p :: ps))
  | inlined {t : Token} (word : q = .token t) (kind : t.kind = .ident) (text : t.text = "inline")
      (last : xs = []) : TurnCut s b p q xs ps (.continues b (p :: ps))

theorem turn_cut {s : Scope} {b : State} {q : Piece} {u : Turn}
    (h : (turn s b q (xs ++ p :: ps)).result = .ok u) (hrest : p :: ps <:+ u.rest)
    (hlines : ∀ x ∈ q :: xs, x.line < p.line) : TurnCut s b p q xs ps u := by
  have htakes := takes_of_turn h
  by_cases hinlined : ∃ t, q = .token t ∧ t.kind = .ident ∧ t.text = "inline" ∧ xs = [] ∧
      u = .continues b (p :: ps)
  · obtain ⟨t, hq, kind, text, hxs, rfl⟩ := hinlined
    exact .inlined hq kind text hxs
  · have hword (t : Token) (ht : q = .token t) (kind : t.kind = .ident) :
        ∃ w : Word, ∀ qs, qs = [] ∨ qs = p :: ps → word t (xs ++ qs) = w.append qs := by
      subst ht
      rcases word_cut htakes kind hrest hlines with ⟨text, hxs, hu⟩ | hcut
      · exact absurd ⟨t, rfl, kind, text, hxs, hu⟩ hinlined
      · refine ⟨word t xs, ?_⟩
        rintro qs (rfl | rfl)
        · rw [List.append_nil, Word.append_nil]
        · exact hcut
    have hleads (qs : List Piece) (hqs : qs = [] ∨ qs = p :: ps) : p.Leads qs := by
      rcases hqs with rfl | rfl
      · rintro q ⟨⟩
      · exact Piece.leads_cons p ps
    obtain ⟨v, hv⟩ := htakes.append hleads (.inr rfl) hword hrest
    cases h.symm.trans (turn_of_takes (hv _ (.inr rfl)))
    have halone := turn_of_takes (hv [] (.inl rfl))
    rw [List.append_nil] at halone
    exact .same halone

/-- An `inline` with nothing behind it is a statement that declares nothing. -/
theorem turn_inline {s : Scope} {b : State} {t : Token} (kind : t.kind = .ident)
    (text : t.text = "inline") (free : b.pending.reflection = none) :
    (turn s b (.token t) []).result = .ok (.continues { b with pending := {} } []) := by
  obtain ⟨_, _, line⟩ := t
  cases kind
  cases text
  have his : word ⟨.ident, "inline", line⟩ [] = .other := by
    cbv
  have head : Head.classify ⟨[⟨.ident, "inline", line⟩], [], false, line⟩ s.record =
      .skip .statement := by
    cases s.record <;> cbv
  exact turn_of_takes (.declares (by simp) (fun _ => his) (.passesOver rfl head free rfl))

end Scope

end AnnotatedHeader
