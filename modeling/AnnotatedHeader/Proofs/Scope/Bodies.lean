import AnnotatedHeader.Proofs.Scope.Unread

/-! Function bodies are opaque.

A body that closes each brace it opens is skipped to the brace behind it
(`skipBody_of_balanced`), so its turn is the same for every such body (`Enters.takes`). What
the scope has read before does not look behind the body's own brace, and what it reads
afterwards stands behind the body. Hence `Scope.result_read_of_skips`: where reading comes to
skip a body, another body in its place gives the same declarations, markers or fault. -/
namespace AnnotatedHeader

/-! ### Balanced pieces -/

namespace Piece

/-- Whether the pieces are tokens and doc blocks that close all braces; `depth` counts those
that are open in front of them. -/
def balancedFrom (depth : Nat) : List Piece → Bool
  | [] => depth == 0
  | .token t :: ps =>
    !(t.kind == .rbrace && depth == 0) && balancedFrom (braceDepth depth t.kind) ps
  | .doc _ :: ps => balancedFrom depth ps
  | .inject .. :: _ => false

def balanced (ps : List Piece) : Bool := balancedFrom 0 ps

end Piece

theorem braceDepth_add {depth : Nat} {kind : TokenKind} (h : kind = .rbrace → depth ≠ 0) (more : Nat) :
    braceDepth (depth + more) kind = braceDepth depth kind + more := by
  unfold braceDepth
  split
  · omega
  · have := h rfl
    omega
  · rfl

theorem skipBody_of_balancedFrom {depth : Nat} {body : List Piece}
    (h : Piece.balancedFrom depth body = true) (more : Nat) (rest : List Piece) :
    skipBody (depth + more) (body ++ rest) = skipBody more rest := by
  induction body generalizing depth with
  | nil =>
    have hdepth : depth = 0 := by simpa [Piece.balancedFrom] using h
    rw [hdepth, Nat.zero_add, List.nil_append]
  | cons p body ih =>
    rw [List.cons_append]
    cases p with
    | inject proxy line => cases h
    | doc b => exact ih h
    | token t =>
      rw [Piece.balancedFrom, Bool.and_eq_true] at h
      obtain ⟨hcloses, hbody⟩ := h
      have hdepth : t.kind = .rbrace → depth ≠ 0 := by
        intro hkind hzero
        simp [hkind, hzero] at hcloses
      rw [skipBody_token, if_neg, braceDepth_add hdepth]
      · exact ih hbody
      · rintro ⟨hkind, hzero⟩
        exact hdepth hkind (by omega)

/-- **A body is skipped to the brace that closes it.** -/
theorem skipBody_of_balanced {body : List Piece} {closing : Token} (h : Piece.balanced body = true)
    (hclose : closing.kind = .rbrace) (rest : List Piece) :
    skipBody 0 (body ++ .token closing :: rest) = pure rest := by
  have hskip := skipBody_of_balancedFrom h 0 (.token closing :: rest)
  rwa [skipBody_token, if_pos ⟨hclose, rfl⟩] at hskip

/-! ### Turns that skip a body -/

namespace Scope

/-- The turn at a piece comes to a body that it skips, and `after` is what it makes of the
scope's state. The statement in front of the body declares a function, or nothing, or starts
with a word that never declares anything. -/
inductive Enters (s : Scope) (b : State) (body : List Piece) : Piece → List Piece → State → Prop where
  | declares {t : Token} {ps : List Piece} {stmt : Statement} {first : Heading}
      {others : List Heading} (kind : t.kind ≠ .rbrace ∧ t.kind ≠ .semi)
      (is : t.kind = .ident → word t ps = .other)
      (read : (Statement.read (.token t :: ps)).result = .ok (stmt, body))
      (opened : stmt.hasBody = true)
      (head : Head.classify stmt s.record = .declares first others)
      (checked : (checkReflection first b.pending.reflection).result = .ok ())
      (record : ∀ key shape, first.item ≠ .record key shape)
      (enum : ∀ shape, first.item ≠ .enumeration shape) :
      Enters s b body (.token t) ps (({ b with pending := {} } : State).added
        ⟨s.declared b.visibility stmt.line b.pending first, []⟩)
  | passesOver {t : Token} {ps : List Piece} {stmt : Statement} {reason : SkipReason}
      (kind : t.kind ≠ .rbrace ∧ t.kind ≠ .semi) (is : t.kind = .ident → word t ps = .other)
      (read : (Statement.read (.token t :: ps)).result = .ok (stmt, body))
      (opened : stmt.hasBody = true) (head : Head.classify stmt s.record = .skip reason)
      (free : b.pending.reflection = none) :
      Enters s b body (.token t) ps { b with pending := {} }
  | passesOverKeyword {t : Token} {ps : List Piece} {stmt : Statement} (kind : t.kind = .ident)
      (is : word t ps = .passedOver)
      (read : (Statement.read (.token t :: ps)).result = .ok (stmt, body))
      (opened : stmt.hasBody = true) : Enters s b body (.token t) ps b

/-- A scope in whose reading `b` has been reached comes to skip `body`, itself or in a scope
inside it. -/
inductive Skips (body : List Piece) : Scope → State → List Piece → Prop where
  | now {s : Scope} {b after : State} {p : Piece} {ps : List Piece}
      (enters : Enters s b body p ps after) : Skips body s b (p :: ps)
  | later {s : Scope} {b b' : State} {p : Piece} {ps rest : List Piece}
      (taken : (turn s b p ps).result = .ok (.continues b' rest)) (skips : Skips body s b' rest) :
      Skips body s b (p :: ps)
  | inside {s inner : Scope} {b : State} {p : Piece} {ps rest : List Piece} {frame : Frame}
      (taken : (turn s b p ps).result = .ok (.opens inner frame rest))
      (skips : Skips body inner inner.start rest) : Skips body s b (p :: ps)
  | behind {s inner : Scope} {b : State} {p : Piece} {ps rest rest' : List Piece} {frame : Frame}
      {within : Contents} (taken : (turn s b p ps).result = .ok (.opens inner frame rest))
      (read : Reads inner inner.start rest within rest')
      (skips : Skips body s (frame.resumed within) rest') : Skips body s b (p :: ps)

section
variable {s : Scope} {b after : State} {p : Piece} {xs ps qs pieces rest : List Piece} {opening : Token}

theorem Enters.takes (h : Enters s b ps p pieces after) (skipped : (skipBody 0 ps).result = .ok rest) :
    Takes s b p pieces (.continues after rest) := by
  have hskipped {stmt : Statement} (opened : stmt.hasBody = true) :
      (stmt.skipBodyOf ps).result = .ok rest := by
    rwa [Statement.skipBodyOf, if_pos opened]
  cases h with
  | declares kind is read opened head checked record enum =>
    exact .declares kind is (.skipsBody read head checked opened record enum skipped)
  | passesOver kind is read opened head free =>
    exact .declares kind is (.passesOver read head free (hskipped opened))
  | passesOverKeyword kind is read opened =>
    exact .passesOverKeyword kind is read (hskipped opened)

/-- With another body behind the same brace a statement is the same up to there, and so is a word
at its start. -/
theorem read_upTo_word {t : Token} {stmt : Statement} (hopen : opening.kind = .lbrace)
    (read : (Statement.read (.token t :: pieces)).result = .ok (stmt, ps))
    (opened : stmt.hasBody = true) (hpieces : .token t :: pieces = xs ++ .token opening :: ps)
    (qs : List Piece) :
    ∃ pieces', .token t :: pieces' = xs ++ .token opening :: qs ∧
      (Statement.read (.token t :: pieces')).result = .ok (stmt, qs) ∧
      (t.kind = .ident → ∀ w : Word, (∀ rest, w ≠ .macroCall rest) →
        word t pieces = w → word t pieces' = w) := by
  have hread := Statement.read_upTo (hpieces ▸ read) opened qs
  cases xs with
  | nil =>
    cases hpieces
    exact ⟨qs, rfl, hread, fun h => absurd h (by simp [hopen])⟩
  | cons x xs =>
    cases hpieces
    exact ⟨xs ++ .token opening :: qs, rfl, hread, fun _ w hw h => word_eq_of_append hopen h hw qs⟩

/-- With another body behind the same brace the turn is the same up to there. -/
theorem Enters.upTo (hopen : opening.kind = .lbrace) (h : Enters s b ps p pieces after)
    (hpieces : p :: pieces = xs ++ .token opening :: ps) (qs : List Piece) :
    ∃ pieces', p :: pieces' = xs ++ .token opening :: qs ∧ Enters s b qs p pieces' after := by
  cases h with
  | declares kind is read opened head checked record enum =>
    obtain ⟨pieces', hpieces', hread, hword⟩ := read_upTo_word hopen read opened hpieces qs
    exact ⟨pieces', hpieces', .declares kind (fun h => hword h _ (by simp) (is h)) hread opened head
      checked record enum⟩
  | passesOver kind is read opened head free =>
    obtain ⟨pieces', hpieces', hread, hword⟩ := read_upTo_word hopen read opened hpieces qs
    exact ⟨pieces', hpieces', .passesOver kind (fun h => hword h _ (by simp) (is h)) hread opened head
      free⟩
  | passesOverKeyword kind is read opened =>
    obtain ⟨pieces', hpieces', hread, hword⟩ := read_upTo_word hopen read opened hpieces qs
    exact ⟨pieces', hpieces', .passesOverKeyword kind (hword kind _ (by simp) is) hread opened⟩

theorem Enters.length_lt (h : Enters s b ps p pieces after) : ps.length < (p :: pieces).length := by
  cases h with
  | declares _ _ read opened | passesOver _ _ read opened | passesOverKeyword _ _ read opened =>
    exact Statement.length_of_collect rfl read opened

theorem Skips.length_lt (h : Skips ps s b pieces) : ps.length < pieces.length := by
  induction h with
  | now enters => exact enters.length_lt
  | later taken _ ih | inside taken _ ih =>
    exact Nat.lt_trans ih (Nat.lt_succ_of_le (turn_suffix taken).length_le)
  | behind taken read _ ih =>
    exact Nat.lt_trans ih (Nat.lt_succ_of_le (read.suffix.trans (turn_suffix taken)).length_le)

/-- The brace in front of a body that is still to be skipped has not been read. -/
theorem Skips.cons_suffix (h : Skips ps s b rest) (hrest : rest <:+ xs ++ .token opening :: ps) :
    .token opening :: ps <:+ rest :=
  List.suffix_of_suffix_length_le (List.suffix_append ..) hrest h.length_lt

/-- **Only what is behind the skipped body counts.** -/
theorem readOn_of_skips (hopen : opening.kind = .lbrace) (hps : (skipBody 0 ps).result = .ok rest)
    (hqs : (skipBody 0 qs).result = .ok rest) (h : Skips ps s b (xs ++ .token opening :: ps)) :
    readOn s b (xs ++ .token opening :: ps) = readOn s b (xs ++ .token opening :: qs) := by
  generalize hpieces : xs ++ .token opening :: ps = pieces at h
  -- What a turn leaves is a suffix of the pieces, with the brace in it.
  have hbehind {s : Scope} {b : State} {p : Piece} {tail rest : List Piece} {xs : List Piece}
      (hpieces : xs ++ .token opening :: ps = p :: tail) (h : Skips ps s b rest)
      (hrest : rest <:+ tail) : .token opening :: ps <:+ rest := by
    have hsuffix : rest <:+ xs ++ .token opening :: ps :=
      hpieces ▸ hrest.trans (List.suffix_cons ..)
    exact h.cons_suffix hsuffix
  induction h generalizing xs with
  | now enters =>
    obtain ⟨pieces', hpieces', enters'⟩ := enters.upTo hopen hpieces.symm qs
    rw [← hpieces', readOn_cons, readOn_cons, turn_of_takes (enters.takes hps),
      turn_of_takes (enters'.takes hqs)]
  | later taken skips ih =>
    obtain ⟨v, hv, hturn⟩ := turn_append hopen hpieces taken
      (hbehind hpieces skips (turn_suffix taken))
    obtain ⟨ys, rfl, rfl⟩ := Turn.eq_continues_of_append hv
    obtain ⟨pieces', hpieces', taken'⟩ := hturn qs
    rw [hpieces', readOn_cons, readOn_cons, taken, taken']
    exact ih rfl
  | inside taken skips ih =>
    obtain ⟨v, hv, hturn⟩ := turn_append hopen hpieces taken
      (hbehind hpieces skips (turn_suffix taken))
    obtain ⟨ys, rfl, rfl⟩ := Turn.eq_opens_of_append hv
    obtain ⟨pieces', hpieces', taken'⟩ := hturn qs
    rw [hpieces', readOn_cons, readOn_cons, taken, taken']
    show readOn _ _ _ >>= _ = readOn _ _ _ >>= _
    rw [ih rfl]
  | behind taken read skips ih =>
    have hrest := hbehind hpieces skips (read.suffix.trans (turn_suffix taken))
    obtain ⟨v, hv, hturn⟩ := turn_append hopen hpieces taken (hrest.trans read.suffix)
    obtain ⟨ys, rfl, rfl⟩ := Turn.eq_opens_of_append hv
    obtain ⟨zs, rfl, hread⟩ := read.append hopen hrest
    obtain ⟨pieces', hpieces', taken'⟩ := hturn qs
    rw [hpieces', readOn_cons, readOn_cons, taken, taken']
    show readOn _ _ _ >>= _ = readOn _ _ _ >>= _
    rw [readOn_of_reads (hread ps), readOn_of_reads (hread qs)]
    exact ih rfl

end

/-- **Function bodies are opaque.** Where reading comes to skip a body behind its brace, any
other body that closes its braces gives the same declarations and markers or the same fault. -/
theorem result_read_of_skips {s : Scope} {before body body' behind : List Piece}
    {opening closing : Token} (hopen : opening.kind = .lbrace) (hclose : closing.kind = .rbrace)
    (hbody : Piece.balanced body = true) (hbody' : Piece.balanced body' = true)
    (h : Skips (body ++ .token closing :: behind) s s.start
      (before ++ .token opening :: (body ++ .token closing :: behind))) :
    (s.read (before ++ .token opening :: (body ++ .token closing :: behind))).result =
      (s.read (before ++ .token opening :: (body' ++ .token closing :: behind))).result := by
  have hskipped {body : List Piece} (hbody : Piece.balanced body = true) :
      (skipBody 0 (body ++ .token closing :: behind)).result = .ok behind := by
    rw [skipBody_of_balanced hbody hclose]
    rfl
  rw [result_read, result_read, readOn_of_skips hopen (hskipped hbody) (hskipped hbody') h]

/-- A function whose body holds a block, and one whose body holds nothing but a comment. -/
theorem result_read_of_skips_function :
    (file.read [.token ⟨.ident, "void", 1⟩, .token ⟨.ident, "F", 1⟩, .token ⟨.lparen, "(", 1⟩,
        .token ⟨.rparen, ")", 1⟩, .token ⟨.lbrace, "\x7b", 1⟩, .token ⟨.lbrace, "\x7b", 2⟩,
        .token ⟨.rbrace, "\x7d", 2⟩, .token ⟨.rbrace, "\x7d", 3⟩]).result =
      (file.read [.token ⟨.ident, "void", 1⟩, .token ⟨.ident, "F", 1⟩, .token ⟨.lparen, "(", 1⟩,
        .token ⟨.rparen, ")", 1⟩, .token ⟨.lbrace, "\x7b", 1⟩, .doc ⟨2, [], []⟩,
        .token ⟨.rbrace, "\x7d", 3⟩]).result := by
  have read : (Statement.read [.token ⟨.ident, "void", 1⟩, .token ⟨.ident, "F", 1⟩,
      .token ⟨.lparen, "(", 1⟩, .token ⟨.rparen, ")", 1⟩, .token ⟨.lbrace, "\x7b", 1⟩,
      .token ⟨.lbrace, "\x7b", 2⟩, .token ⟨.rbrace, "\x7d", 2⟩, .token ⟨.rbrace, "\x7d", 3⟩]).result =
      .ok (⟨[⟨.ident, "void", 1⟩, ⟨.ident, "F", 1⟩, ⟨.lparen, "(", 1⟩, ⟨.rparen, ")", 1⟩], [], true, 1⟩,
        [.token ⟨.lbrace, "\x7b", 2⟩, .token ⟨.rbrace, "\x7d", 2⟩, .token ⟨.rbrace, "\x7d", 3⟩]) := rfl
  have head : Head.classify
      ⟨[⟨.ident, "void", 1⟩, ⟨.ident, "F", 1⟩, ⟨.lparen, "(", 1⟩, ⟨.rparen, ")", 1⟩], [], true, 1⟩ none =
      .declares ⟨"F", "void F()", .function ⟨some "void", [], none, false, true⟩⟩ [] := rfl
  have enters := Enters.declares (s := file) (b := file.start) (by decide) (fun _ => rfl) read rfl
    head rfl (by simp) (by simp)
  exact @result_read_of_skips file
    [.token ⟨.ident, "void", 1⟩, .token ⟨.ident, "F", 1⟩, .token ⟨.lparen, "(", 1⟩,
      .token ⟨.rparen, ")", 1⟩]
    [.token ⟨.lbrace, "\x7b", 2⟩, .token ⟨.rbrace, "\x7d", 2⟩] [.doc ⟨2, [], []⟩] [] _ _ rfl rfl
    (by decide) (by decide) (.now enters)

end Scope

end AnnotatedHeader
