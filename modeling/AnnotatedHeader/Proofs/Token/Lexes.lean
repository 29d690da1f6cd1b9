import AnnotatedHeader.Proofs.Token.Written

/-! Code that is nothing but gaps and tokens.

`Lexes cs ss` says so of `cs` and lists its tokens. Such pieces can be put together
(`Lexes.append`) as long as a character follows that ends any token, and `Lexes.shapes`
says what is read of the whole. -/
namespace AnnotatedHeader.Lexeme

open Text

inductive Lexes : List Char → List (TokenKind × String) → Prop where
  | nil : Lexes [] []
  | gap {c : Char} {cs : List Char} {ss : List (TokenKind × String)} (blank : isGap c = true)
      (rest : Lexes cs ss) : Lexes (c :: cs) ss
  | token {k : TokenKind} {w cs : List Char} {ss : List (TokenKind × String)} (written : Written k w)
      (ends : first? (w ++ cs) = some ⟨.token k, w⟩) (rest : Lexes cs ss) :
      Lexes (w ++ cs) ((k, .ofList w) :: ss)

variable {behind rest : List Char}

theorem Lexes.shapes {cs : List Char} {ss : List (TokenKind × String)} (h : Lexes cs ss) :
    (scan cs).filterMap shape? = ss := by
  induction h with
  | nil => simp [scan]
  | gap blank _ ih => rw [filterMap_shape?_scan_gap blank, ih]
  | token written ends _ ih => rw [written.filterMap_shape?_scan ends, ih]

/-! ### Putting code together -/

theorem forall_head?_append {P : Char → Prop} (hrest : ∀ d ∈ rest.head?, P d)
    (hbehind : ∀ d ∈ behind.head?, P d) : ∀ d ∈ (rest ++ behind).head?, P d := by
  cases rest with
  | nil => exact hbehind
  | cons c cs => exact hrest

/-- No sign goes on with a character that ends any token. -/
theorem isPrefix_of_sign {s : String × TokenKind} (hs : s ∈ signs) {w cs : List Char}
    (hsign : s.1.toList = w ++ cs) (hw : w ≠ []) (h : cs <+: rest ++ behind)
    (hb : ∀ c ∈ behind.head?, breaks c = true) : cs <+: rest := by
  obtain ⟨tail, htail⟩ := h
  rcases List.append_eq_append_iff.1 htail with ⟨more, rfl, -⟩ | ⟨more, rfl, rfl⟩
  · exact List.prefix_append ..
  · cases more with
    | nil => simp
    | cons c more =>
      have hc := hb c rfl
      simp only [breaks, Bool.and_eq_true, List.all_eq_true] at hc
      have hnone := hc.2 s hs
      obtain ⟨d, ds, rfl⟩ := List.exists_cons_of_ne_nil hw
      rw [hsign] at hnone
      simp at hnone

/-- A token that ends where it does still ends there with more code behind it, if that starts
with a character that ends any token. -/
theorem Written.first?_append {k : TokenKind} {w : List Char} (hw : Written k w)
    (h : first? (w ++ rest) = some ⟨.token k, w⟩) (hb : ∀ c ∈ behind.head?, breaks c = true) :
    first? (w ++ (rest ++ behind)) = some ⟨.token k, w⟩ := by
  have hb' (c : Char) (hc : c ∈ behind.head?) := hb c hc
  simp only [breaks, Bool.and_eq_true, Bool.not_eq_true', bne_iff_ne, ne_eq] at hb'
  cases hw with
  | ident start word =>
    obtain ⟨hends, hbare⟩ := (first?_ident_iff start word).1 h
    refine (first?_ident_iff start word).2 ⟨forall_head?_append hends fun d hd => ?_, fun hlead => ?_⟩
    · exact (hb' d hd).1.1.1.1.1
    · have hquote := forall_head?_append (P := (· ≠ '"')) (fun d hd hquote => hbare hlead (hquote ▸ hd))
        fun d hd => (hb' d hd).1.1.1.2
      exact fun h => hquote _ h rfl
  | number start word =>
    have hends := (first?_number_iff start word).1 h
    exact (first?_number_iff start word).2 (forall_head?_append hends fun d hd => (hb' d hd).1.1.1.1.2)
  | string leads inside => exact first?_string leads inside
  | char inside => exact first?_char inside
  | sign listed =>
    obtain ⟨hfree, hlongest⟩ := (first?_sign_iff listed).1 h
    refine (first?_sign_iff listed).2 ⟨fun hslash => ?_, fun s hs c cs hsign hstarts => ?_⟩
    · exact forall_head?_append (hfree hslash) fun d hd => ⟨(hb' d hd).1.1.2, (hb' d hd).1.2⟩
    · obtain ⟨d, ds, hne, -⟩ := (Written.sign listed).exists_cons
      exact hlongest s hs c cs hsign (isPrefix_of_sign hs hsign (by simp [hne]) hstarts hb)

theorem Lexes.append {cs : List Char} {ss ss' : List (TokenKind × String)} (h : Lexes cs ss)
    (more : Lexes behind ss') (hb : ∀ c ∈ behind.head?, breaks c = true) :
    Lexes (cs ++ behind) (ss ++ ss') := by
  induction h with
  | nil => exact more
  | gap blank _ ih => exact .gap blank ih
  | token written ends _ ih =>
    rw [List.append_assoc]
    exact .token written (written.first?_append ends hb) ih

theorem Lexes.gaps {g cs : List Char} {ss : List (TokenKind × String)} (blank : ∀ c ∈ g, isGap c = true)
    (h : Lexes cs ss) : Lexes (g ++ cs) ss := by
  induction g with
  | nil => exact h
  | cons c g ih =>
    obtain ⟨hc, hg⟩ := List.forall_mem_cons.1 blank
    exact .gap hc (ih hg)

/-! ### Reading it off the lexemes -/

/-- Whether the lexeme is a gap or a token that code can hold. -/
def isPlain (l : Lexeme) : Bool :=
  match l.kind with
  | .gap => true
  | .token k => !k.isTrivia
  | .stray | .openComment => false

theorem text_of_gap {c : Char} {cs w : List Char} (h : first c cs = ⟨.gap, w⟩) :
    ∀ d ∈ w, isGap d = true := by
  have hliteral {kind : TokenKind} {lead cs : List Char} {quote : Char} :
      literal kind lead quote cs ≠ ⟨.gap, w⟩ := fun h => by
    unfold literal at h
    dsimp only at h
    split at h <;> cases h
  have hbranch := branch_first c cs
  generalize first c cs = l at h hbranch
  cases hbranch with
  | gap hc =>
    cases h
    exact List.forall_mem_cons.2 ⟨hc, fun d hd => List.mem_takeWhile_imp hd⟩
  | word =>
    unfold wordLexeme at h
    split at h
    · exact absurd h hliteral
    · cases h
  | string | char => exact absurd h hliteral
  | number | preprocessor | lineComment | blockComment | openComment | sign | stray => cases h

theorem lexes_of_scan {cs : List Char} (h : ∀ l ∈ scan cs, l.isPlain = true) :
    Lexes cs ((scan cs).filterMap shape?) := by
  fun_induction scan cs with
  | case1 => exact .nil
  | case2 c cs ih =>
    obtain ⟨hl, hls⟩ := List.forall_mem_cons.1 h
    have hih := ih hls
    have hsplit := List.prefix_iff_eq_append.1 (first_isPrefix c cs)
    generalize hrest : (c :: cs).drop (first c cs).text.length = rest at hih hsplit ⊢
    generalize hfirst : first c cs = l at *
    obtain ⟨kind, w⟩ := l
    cases kind with
    | gap =>
      rw [← hsplit, List.filterMap_cons_none rfl]
      exact .gaps (text_of_gap hfirst) hih
    | token k =>
      have hk : k.isTrivia = false := by simpa [isPlain] using hl
      have hshape : shape? ⟨.token k, w⟩ = some (k, .ofList w) := by
        simp [shape?, tokenKind?, hk]
      rw [List.filterMap_cons_some hshape, ← hsplit]
      refine .token (written_of_first hfirst hk) ?_ hih
      have hcs : w ++ rest = c :: cs := hsplit
      rw [hcs, first?, hfirst]
    | stray => cases hl
    | openComment => cases hl

end AnnotatedHeader.Lexeme
