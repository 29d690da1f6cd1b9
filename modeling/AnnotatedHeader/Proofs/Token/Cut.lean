import AnnotatedHeader.Proofs.Token.Joined

/-! What every token is like that code is cut into, and what that means for joined tokens.

A stray lexeme is a token too, and no text of a `Written` one. But no token holds a line feed,
and one that starts with a slash is a sign of division (`Token.isCut_of_mem_tokenize`). So joined
tokens stand on one line, and no comment of slashes starts it (`Token.uncommented_join`). -/
namespace AnnotatedHeader

open Text

/-! ### Lexemes -/

namespace Lexeme

theorem not_mem_of_inside {quote : Char} {body : List Char} (h : Inside quote body) :
    '\n' ∉ body := by
  induction h with
  | nil => exact List.not_mem_nil
  | escape same _ ih => simp [same.symm, ih]
  | char plain _ ih => simp [plain.2.2.symm, ih]

/-- A stray lexeme is a literal without an end or a single character. -/
theorem stray_of_first {c : Char} {cs w : List Char} (h : first c cs = ⟨.stray, w⟩) :
    (∃ lead quote body, lead ∈ [] :: encodings ∧ (quote = '"' ∨ quote = '\x27') ∧
      Inside quote body ∧ w = lead ++ quote :: body) ∨
    (w = [c] ∧ isGap c = false ∧ c ≠ '/') := by
  have hliteral {kind : TokenKind} {lead : List Char} {quote : Char} {cs : List Char}
      (hlead : lead ∈ [] :: encodings) (hquote : quote = '"' ∨ quote = '\x27')
      (h : literal kind lead quote cs = ⟨.stray, w⟩) :
      ∃ lead quote body, lead ∈ [] :: encodings ∧ (quote = '"' ∨ quote = '\x27') ∧
        Inside quote body ∧ w = lead ++ quote :: body := by
    unfold literal at h
    dsimp only at h
    split at h
    · cases h
    · cases h
      exact ⟨lead, quote, _, hlead, hquote, inside_literalBody quote cs, rfl⟩
  have hbranch := branch_first c cs
  generalize first c cs = l at h hbranch
  cases hbranch with
  | word start =>
    unfold wordLexeme at h
    split at h
    · rename_i hstring
      rw [Bool.and_eq_true, List.contains_iff_mem] at hstring
      exact .inl (hliteral (List.mem_cons_of_mem _ hstring.1) (.inl rfl) h)
    · cases h
  | string => exact .inl (hliteral (List.mem_cons_self ..) (.inl rfl) h)
  | char => exact .inl (hliteral (List.mem_cons_self ..) (.inr rfl) h)
  | gap | number | preprocessor | lineComment | blockComment | openComment | sign => cases h
  | stray start _ none =>
    cases h
    refine .inr ⟨rfl, ?_, ?_⟩
    · cases hgap : isGap c with
      | false => rfl
      | true => simp [startsSign, hgap] at start
    · rintro rfl
      -- A slash alone is a sign.
      exact none ("/", .op) (by decide) (List.prefix_append ['/'] cs)

/-- What is known of every token's text, a stray one included. -/
structure Cut (kind : TokenKind) (text : List Char) : Prop where
  nonempty : text ≠ []
  unbroken : '\n' ∉ text
  slash : ∀ cs, text = '/' :: cs → kind = .op ∧ (cs = [] ∨ cs = ['='])
  space : ∀ c cs, text = c :: cs → isAsciiSpace c = true → cs = []

theorem cut_of_head {kind : TokenKind} {c : Char} {cs : List Char} (unbroken : '\n' ∉ c :: cs)
    (hc : isAsciiSpace c = false ∧ c ≠ '/') : Cut kind (c :: cs) where
  nonempty := List.cons_ne_nil c cs
  unbroken := unbroken
  slash := by
    rintro cs ⟨⟩
    exact absurd rfl hc.2
  space := by
    rintro c cs ⟨⟩ h
    rw [hc.1] at h
    cases h

/-- A literal, with its closing quote or without. -/
theorem cut_of_literal {kind : TokenKind} {lead body : List Char} {quote : Char}
    (leads : lead ∈ [] :: encodings) (hquote : quote = '"' ∨ quote = '\x27') (hbody : '\n' ∉ body) :
    Cut kind (lead ++ quote :: body) := by
  simp only [encodings, List.mem_cons, List.not_mem_nil, or_false] at leads
  rcases hquote with rfl | rfl <;> rcases leads with rfl | rfl | rfl | rfl | rfl <;>
    exact cut_of_head (by simp [hbody]) (by decide)

theorem eq_of_isAsciiSpace {c : Char} (h : isAsciiSpace c = true) :
    c ∈ [' ', '\t', '\n', '\x0b', '\x0c', '\r'] := by
  simp only [isAsciiSpace, Bool.or_eq_true, Bool.and_eq_true, decide_eq_true_eq, beq_iff_eq] at h
  rcases h with ⟨hlow, hhigh⟩ | rfl
  · rw [← Char.ofNat_toNat c]
    interval_cases c.toNat <;> decide
  · decide

/-- A run that starts with `p` and goes on with `q`. -/
theorem cut_of_run {kind : TokenKind} {p q : Char → Bool} {c : Char} {cs : List Char}
    (hp : [' ', '\t', '\n', '\x0b', '\x0c', '\r', '/'].all (!p ·) = true) (hq : q '\n' = false)
    (start : p c = true) (rest : ∀ d ∈ cs, q d = true) : Cut kind (c :: cs) := by
  have hstart : ∀ d ∈ [' ', '\t', '\n', '\x0b', '\x0c', '\r', '/'], c ≠ d := by
    rintro d hd rfl
    have hnot := List.all_eq_true.1 hp c hd
    rw [start] at hnot
    cases hnot
  refine cut_of_head ?_ ⟨?_, hstart '/' (by simp)⟩
  · rw [List.mem_cons, not_or]
    refine ⟨(hstart '\n' (by simp)).symm, fun hmem => ?_⟩
    rw [rest _ hmem] at hq
    cases hq
  · by_contra hspace
    have hmem := eq_of_isAsciiSpace (Bool.not_eq_false _ ▸ hspace)
    exact hstart c (List.mem_append_left ['/'] hmem) rfl

theorem signs_cut : ∀ s ∈ signs, s.1.toList ≠ [] ∧ '\n' ∉ s.1.toList ∧
    s.1.toList.head?.any isAsciiSpace = false ∧ (s.1 = "/" ∨ s.1 = "/=" → s.2 = .op) := by
  decide

theorem Written.cut {kind : TokenKind} {text : List Char} (h : Written kind text) :
    Cut kind text := by
  cases h with
  | ident start rest => exact cut_of_run (by decide) (by decide) start rest
  | number start rest => exact cut_of_run (by decide) (by decide) start rest
  | @string lead body leads inside =>
    rw [List.append_assoc, List.cons_append]
    exact cut_of_literal leads (.inl rfl) (by simp [not_mem_of_inside inside])
  | char inside =>
    exact @cut_of_literal _ [] _ _ (List.mem_cons_self ..) (.inr rfl)
      (by simp [not_mem_of_inside inside])
  | @sign sign _ listed =>
    obtain ⟨hnonempty, hunbroken, hspace, hop⟩ := signs_cut _ listed
    refine ⟨hnonempty, hunbroken, ?_, ?_⟩
    · intro cs hcs
      have hsign : sign = "/" ∨ sign = "/=" := slash_signs _ listed (by rw [hcs]; rfl)
      refine ⟨hop hsign, ?_⟩
      rcases hsign with rfl | rfl <;> cases hcs
      · exact .inl rfl
      · exact .inr rfl
    · intro c cs hcs h
      rw [hcs] at hspace
      exact absurd h (by simpa using hspace)

theorem cut_of_mem_scan {cs : List Char} {l : Lexeme} {s : TokenKind × String}
    (hl : l ∈ scan cs) (hs : l.shape? = some s) : Cut s.1 s.2.toList := by
  by_cases hstray : l.kind = .stray
  · obtain ⟨kind, hkind, rfl⟩ := Option.map_eq_some_iff.1 hs
    obtain ⟨c, ds, hfirst⟩ := exists_first_of_mem_scan hl
    obtain ⟨lkind, text⟩ := l
    cases hstray
    rw [String.toList_ofList]
    rcases stray_of_first hfirst.symm with
      ⟨lead, quote, body, hlead, hquote, hbody, rfl⟩ | ⟨rfl, hgap, hslash⟩
    · exact cut_of_literal hlead hquote (not_mem_of_inside hbody)
    · refine ⟨List.cons_ne_nil _ _, ?_, ?_, ?_⟩
      · rw [List.mem_singleton]
        rintro rfl
        cases hgap
      · rintro cs ⟨⟩
        exact absurd rfl hslash
      · rintro c cs ⟨⟩ -
        rfl
  · exact (written_of_mem_scan hl hstray hs).cut

end Lexeme

/-! ### Tokens -/

namespace Token

def IsCut (t : Token) : Prop := Lexeme.Cut t.kind t.text.toList

theorem isCut_of_mem_tokenize {source : String} {line : Nat} : ∀ t ∈ tokenize source line, t.IsCut := by
  intro t ht
  have hshape := List.mem_map_of_mem (f := shape) ht
  rw [map_shape_tokenize] at hshape
  obtain ⟨l, hl, hs⟩ := List.mem_filterMap.1 hshape
  exact Lexeme.cut_of_mem_scan hl hs

end Token

/-! ### Joined tokens -/

namespace Text

/-- Behind its white space the text does not start with two slashes. -/
def Uncommented (cs : List Char) : Prop :=
  ∀ rest, cs.dropWhile isAsciiSpace = '/' :: rest → rest.head? ≠ some '/'

theorem uncommented_nil : Uncommented [] := by
  rintro rest ⟨⟩

theorem uncommented_cons_of_isAsciiSpace {c : Char} (hc : isAsciiSpace c = true) {cs : List Char} :
    Uncommented (c :: cs) ↔ Uncommented cs := by
  rw [Uncommented, List.dropWhile_cons_of_pos hc, ← Uncommented]

theorem uncommented_of_head? {cs : List Char} (hspace : ∀ c ∈ cs.head?, isAsciiSpace c = false)
    (h : cs.head? = some '/' → cs.tail.head? ≠ some '/') : Uncommented cs := by
  intro rest hrest
  cases cs with
  | nil => cases hrest
  | cons c cs =>
    rw [List.dropWhile_cons_of_neg (by simp [hspace c rfl])] at hrest
    cases hrest
    exact h rfl

/-- A space keeps apart what stands before and behind it. -/
theorem Uncommented.append_space {cs ds : List Char} (h : Uncommented cs) (hds : Uncommented ds) :
    Uncommented (cs ++ ' ' :: ds) := by
  intro rest hrest
  rw [List.dropWhile_append] at hrest
  split at hrest
  · exact (uncommented_cons_of_isAsciiSpace rfl).2 hds rest hrest
  · cases hcs : cs.dropWhile isAsciiSpace with
    | nil => simp_all
    | cons c cs' =>
      rw [hcs] at hrest
      cases hrest
      have hhead := h cs' hcs
      cases cs' with
      | nil => simp
      | cons d ds => simpa using hhead

end Text

theorem Lexeme.Cut.uncommented {kind : TokenKind} {text : List Char} (h : Cut kind text) :
    Uncommented text := by
  obtain ⟨c, cs, rfl⟩ := List.exists_cons_of_ne_nil h.nonempty
  by_cases hspace : isAsciiSpace c = true
  · rw [h.space c cs rfl hspace, uncommented_cons_of_isAsciiSpace hspace]
    exact uncommented_nil
  · refine uncommented_of_head? (by simpa using hspace) fun hslash => ?_
    cases hslash
    rcases (h.slash cs rfl).2 with rfl | rfl <;> simp

namespace Token

variable {a b : Token} {ts : List Token}

theorem needsSpace_of_slash {before : Option Token} (ha : a.kind = .op) (hslash : a.text = "/")
    (hb : b.IsCut) (h : b.text.toList.head? = some '/') :
    needsSpace before a b = true := by
  obtain ⟨cs, hcs⟩ := List.head?_eq_some_iff.1 h
  obtain ⟨hkind, hrest⟩ := hb.slash cs hcs
  have htext : b.text = "/" ∨ b.text = "/=" := by
    rcases hrest with rfl | rfl
    · exact .inl (String.toList_inj.1 hcs)
    · exact .inr (String.toList_inj.1 hcs)
  obtain ⟨akind, atext, aline⟩ := a
  obtain ⟨bkind, btext, bline⟩ := b
  cases ha
  cases hslash
  cases hkind
  rcases htext with htext | htext <;> cases htext <;> exact needsSpace_of_none rfl (by simp) rfl

theorem uncommented_spelled (before : Option Token)
    (h : ∀ t ∈ a :: ts, t.IsCut) : Uncommented (spelled before a ts) := by
  induction ts generalizing before a with
  | nil =>
    rw [spelled_nil]
    exact (h a (List.mem_singleton_self a)).uncommented
  | cons b ts ih =>
    obtain ⟨ha, hts⟩ := List.forall_mem_cons.1 h
    have hrest := ih (some a) hts
    rw [spelled_cons]
    split
    · exact ha.uncommented.append_space hrest
    · rename_i hclose
      rw [List.nil_append]
      obtain ⟨c, cs, hcs⟩ := List.exists_cons_of_ne_nil ha.nonempty
      rw [hcs]
      by_cases hspace : isAsciiSpace c = true
      · rw [ha.space c cs hcs hspace]
        exact (uncommented_cons_of_isAsciiSpace hspace).2 hrest
      · refine uncommented_of_head? (by simpa using hspace) fun hslash => ?_
        cases hslash
        obtain ⟨hkind, rfl | rfl⟩ := ha.slash cs hcs
        · -- A slash stands apart from what starts with one.
          intro hhead
          have hb := (List.forall_mem_cons.1 hts).1
          obtain ⟨d, ds, hds⟩ := List.exists_cons_of_ne_nil hb.nonempty
          refine hclose (needsSpace_of_slash hkind (String.toList_inj.1 hcs) hb ?_)
          rw [spelled, hds] at hhead
          rw [hds]
          exact hhead
        · simp

theorem uncommented_join (h : ∀ t ∈ ts, t.IsCut) :
    Uncommented (join ts).toList := by
  cases ts with
  | nil => exact uncommented_nil
  | cons t ts =>
    rw [join, String.toList_append]
    exact uncommented_spelled none h

theorem not_mem_joinAfter (before : Option Token) (a : Token) (h : ∀ t ∈ ts, '\n' ∉ t.text.toList) :
    '\n' ∉ (joinAfter before a ts).toList := by
  induction ts generalizing before a with
  | nil => exact List.not_mem_nil
  | cons t ts ih =>
    obtain ⟨ht, hts⟩ := List.forall_mem_cons.1 h
    rw [joinAfter, String.toList_append, String.toList_append, List.mem_append, List.mem_append]
    rintro ((hspace | hmem) | hmem)
    · split at hspace <;> simp at hspace
    · exact ht hmem
    · exact ih _ _ hts hmem

/-- Joined tokens stand on one line. -/
theorem not_mem_join (h : ∀ t ∈ ts, '\n' ∉ t.text.toList) : '\n' ∉ (join ts).toList := by
  cases ts with
  | nil => exact List.not_mem_nil
  | cons t ts =>
    obtain ⟨ht, hts⟩ := List.forall_mem_cons.1 h
    rw [join, String.toList_append, List.mem_append, not_or]
    exact ⟨ht, not_mem_joinAfter none t hts⟩

end Token

end AnnotatedHeader
