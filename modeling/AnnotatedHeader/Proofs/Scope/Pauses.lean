import AnnotatedHeader.Proofs.Declaration.Merge
import AnnotatedHeader.Proofs.Scope.Macros
import AnnotatedHeader.Proofs.Scope.TurnCut

/-! Code whose end is left out.

Where reading pauses at the end of a line, the code up to there can be read alone: what it declares
differs only in members from what has been declared when the line is read as a part of the whole
(`Scope.Pauses.reads`). Reading pauses between two items of a scope with no macro waiting, and of a
record opened in it, between two entries of an enum and inside a body that is skipped. A record or
an enum that is open there is declared with the members that it has by then. -/
namespace AnnotatedHeader

section
variable {p q : Piece} {xs ys ps pieces rest : List Piece} {opening : Token}

theorem exists_cons_of_suffix (h : q :: pieces = xs ++ ps) (hsuffix : ps <:+ pieces) :
    ∃ xs', xs = q :: xs' ∧ pieces = xs' ++ ps := by
  cases xs with
  | nil =>
    cases h
    exact absurd hsuffix (not_cons_suffix (List.suffix_refl _))
  | cons x xs =>
    cases h
    exact ⟨xs, rfl, rfl⟩

/-! ### Bodies that are left open -/

theorem skipBody_of_suffix {depth : Nat} (h : (skipBody depth (ys ++ ps)).result = .ok rest)
    (hrest : rest <:+ ps) : (skipBody depth ys).result = .ok [] := by
  induction ys generalizing depth with
  | nil => rfl
  | cons y ys ih =>
    rw [List.cons_append] at h
    cases y with
    | inject proxy line => cases h
    | doc b => exact ih h
    | token t =>
      rw [skipBody_token] at h ⊢
      split at h
      · rename_i hcloses
        cases h
        have hnil : ys = [] := by
          have hlength := hrest.length_le
          rw [List.length_append] at hlength
          exact List.eq_nil_of_length_eq_zero (by omega)
        rw [if_pos hcloses, hnil]
        rfl
      · rename_i hcloses
        rw [if_neg hcloses]
        exact ih h

namespace Statement

theorem kind_of_step {depth braces : Nat} {s : Statement} {kind : TokenKind}
    (h : step depth braces s kind = .opensBody) : kind = .lbrace := by
  unfold step at h
  split at h
  · cases kind <;> simp_all
  · cases h

theorem exists_opening {depth braces : Nat} {s s' : Statement} (hs : s.hasBody = false)
    (h : (collect depth braces s ps).result = .ok (s', rest)) (hbody : s'.hasBody = true) :
    ∃ xs opening, ps = xs ++ .token opening :: rest ∧ opening.kind = .lbrace := by
  have hbehind (p : Piece) {ps : List Piece}
      (h : ∃ xs opening, ps = xs ++ .token opening :: rest ∧ opening.kind = .lbrace) :
      ∃ xs opening, p :: ps = xs ++ .token opening :: rest ∧ opening.kind = .lbrace := by
    obtain ⟨xs, opening, rfl, kind⟩ := h
    exact ⟨p :: xs, opening, rfl, kind⟩
  induction ps generalizing depth braces s with
  | nil =>
    rw [collect] at h
    split at h <;> cases h <;> cases hs.symm.trans hbody
  | cons p ps ih =>
    cases p with
    | inject proxy line => cases h
    | doc b =>
      rw [result_collect_doc] at h
      exact hbehind _ (ih ((hasBody_behindDoc ..).trans hs) h)
    | token t =>
      rw [collect] at h
      cases hstep : step depth braces s t.kind with
      | ends | stops =>
        rw [hstep] at h
        cases h
        cases hs.symm.trans hbody
      | opensBody =>
        rw [hstep] at h
        cases h
        exact ⟨[], t, rfl, kind_of_step hstep⟩
      | goesOn =>
        rw [hstep] at h
        exact hbehind _ (ih (s := s.push t) hs h)

end Statement

namespace EnumBody
variable {path : String} {members found : List Declaration} {doc : Option DocBlock}

/-- What is read of an enum's body comes to stand between two entries in front of `behind`. -/
inductive Pauses (behind : List Piece) : List Piece → Prop where
  | here : Pauses behind behind
  | doc {b : DocBlock} {ps : List Piece} (pauses : Pauses behind ps) :
      Pauses behind (.doc b :: ps)
  | comma {t : Token} {ps : List Piece} (kind : t.kind = .comma) (pauses : Pauses behind ps) :
      Pauses behind (.token t :: ps)
  | entry {t : Token} {ps : List Piece} (kind : t.kind ≠ .rbrace ∧ t.kind ≠ .comma)
      (pauses : Pauses behind (entryTokens (bracketDepth 0 t.kind) ps).2) :
      Pauses behind (.token t :: ps)

theorem Pauses.suffix (h : Pauses ps pieces) : ps <:+ pieces := by
  induction h with
  | here => exact List.suffix_refl _
  | doc _ ih | comma _ _ ih => exact ih.trans (List.suffix_cons ..)
  | entry _ _ ih => exact (ih.trans (entryTokens_suffix ..)).trans (List.suffix_cons ..)

/-- An enum's body that goes on behind the code is read to the code's end. -/
theorem Pauses.read (h : Pauses (p :: ps) (xs ++ p :: ps))
    (hread : (read path members doc (xs ++ p :: ps)).result = .ok (found, rest)) :
    rest <:+ p :: ps ∧ ∃ found', (EnumBody.read path members doc xs).result = .ok (found', []) := by
  generalize hxs : xs ++ p :: ps = pieces at h hread
  induction h generalizing xs members doc with
  | here =>
    have hnil : xs = [] := by simpa using hxs
    rw [hnil, EnumBody.read]
    exact ⟨read_suffix hread, members, rfl⟩
  | doc pauses ih =>
    obtain ⟨xs, rfl, rfl⟩ := exists_cons_of_suffix hxs.symm pauses.suffix
    rw [EnumBody.read] at hread ⊢
    exact ih rfl hread
  | comma kind pauses ih =>
    obtain ⟨xs, rfl, rfl⟩ := exists_cons_of_suffix hxs.symm pauses.suffix
    simp only [EnumBody.read, kind] at hread ⊢
    exact ih rfl hread
  | entry kind pauses ih =>
    obtain ⟨xs, rfl, rfl⟩ := exists_cons_of_suffix hxs.symm
      (pauses.suffix.trans (entryTokens_suffix ..))
    rw [read_entry kind.1 kind.2] at hread ⊢
    obtain ⟨members', hentry, hread⟩ := Outcome.result_bind_eq_ok.1 hread
    obtain ⟨ts, zs, hzs⟩ := entryTokens_append pauses.suffix
    have hself := hzs _ (Piece.leads_cons p ps)
    have halone := hzs [] (by rintro q ⟨⟩)
    rw [List.append_nil, List.append_nil] at halone
    rw [hself] at hentry hread ih
    obtain ⟨hrest, found', hfound'⟩ := ih rfl hread
    rw [halone]
    exact ⟨hrest, found', Outcome.result_bind_eq_ok.2 ⟨members', hentry, hfound'⟩⟩

end EnumBody

namespace Scope
variable {s : Scope} {b after : State} {own : Declared}

/-- The turn at a piece comes to the body of an enum that `own` declares. -/
inductive EntersEnum (s : Scope) (b : State) (body : List Piece) :
    Piece → List Piece → Declared → Prop where
  | intro {t : Token} {ps : List Piece} {stmt : Statement} {first : Heading}
      {others : List Heading} {shape : EnumShape} (kind : t.kind ≠ .rbrace ∧ t.kind ≠ .semi)
      (is : t.kind = .ident → word t ps = .other)
      (read : (Statement.read (.token t :: ps)).result = .ok (stmt, body))
      (opened : stmt.hasBody = true)
      (head : Head.classify stmt s.record = .declares first others)
      (checked : (checkReflection first b.pending.reflection).result = .ok ())
      (item : first.item = .enumeration shape) :
      EntersEnum s b body (.token t) ps (s.declared b.visibility stmt.line b.pending first)

theorem EntersEnum.takes {members : List Declaration} (h : EntersEnum s b ps p pieces own)
    (entries : (EnumBody.read own.path [] none ps).result = .ok (members, rest)) :
    Takes s b p pieces
      (.continues (({ b with pending := {} } : State).added ⟨own, members⟩) rest) := by
  cases h with
  | intro kind is read opened head checked item =>
    exact .declares kind is (.readsEnum read head checked opened item entries)

/-- Without the code behind the turn comes to what is left of the body. -/
theorem cut_of_read {t : Token} {stmt : Statement} (opened : stmt.hasBody = true)
    (read : (Statement.read (.token t :: (xs ++ ps))).result = .ok (stmt, ys ++ ps)) :
    (Statement.read (.token t :: xs)).result = .ok (stmt, ys) ∧
      (t.kind = .ident → ∀ w : Word, (∀ rest, w ≠ .macroCall rest) →
        word t (xs ++ ps) = w → word t xs = w) := by
  obtain ⟨zs, opening, hpieces, hopen⟩ := Statement.exists_opening rfl read opened
  obtain ⟨pieces', hpieces', hread, hword⟩ := read_upTo_word hopen read opened hpieces ys
  have happend : .token t :: pieces' ++ ps = .token t :: xs ++ ps := by
    rw [hpieces', List.append_assoc]
    exact hpieces.symm
  cases List.append_cancel_right happend
  exact ⟨hread, hword⟩

theorem Enters.cut (h : Enters s b (ys ++ ps) q (xs ++ ps) after) : Enters s b ys q xs after := by
  cases h with
  | declares kind is read opened head checked record enum =>
    obtain ⟨hread, hword⟩ := cut_of_read opened read
    exact .declares kind (fun h => hword h _ (by simp) (is h)) hread opened head checked record enum
  | passesOver kind is read opened head free =>
    obtain ⟨hread, hword⟩ := cut_of_read opened read
    exact .passesOver kind (fun h => hword h _ (by simp) (is h)) hread opened head free
  | passesOverKeyword kind is read opened =>
    obtain ⟨hread, hword⟩ := cut_of_read opened read
    exact .passesOverKeyword kind (hword kind _ (by simp) is) hread opened

theorem EntersEnum.cut (h : EntersEnum s b (ys ++ ps) q (xs ++ ps) own) :
    EntersEnum s b ys q xs own := by
  cases h with
  | intro kind is read opened head checked item =>
    obtain ⟨hread, hword⟩ := cut_of_read opened read
    exact .intro kind (fun h => hword h _ (by simp) (is h)) hread opened head checked item

theorem Enters.suffix (h : Enters s b ps q pieces after) : ps <:+ pieces := by
  cases h with
  | declares kind is read | passesOver kind is read =>
    exact Statement.read_suffix_of_token kind.1 read
  | passesOverKeyword kind is read =>
    exact Statement.read_suffix_of_token (by simp [kind]) read

theorem EntersEnum.suffix (h : EntersEnum s b ps q pieces own) : ps <:+ pieces := by
  cases h with
  | intro kind is read => exact Statement.read_suffix_of_token kind.1 read

/-! ### Turns and scopes that leave the code behind alone -/

theorem closes_cut (taken : (turn s b q (xs ++ p :: ps)).result = .ok (.closes rest))
    (hrest : p :: ps <:+ rest) (hlines : ∀ x ∈ q :: xs, x.line < p.line) :
    ∃ ys, rest = ys ++ p :: ps ∧ (turn s b q xs).result = .ok (.closes ys) := by
  generalize hu : Turn.closes rest = u at taken
  have hcut := turn_cut taken (by rwa [← hu]) hlines
  cases hcut with
  | same alone =>
    obtain ⟨ys, rfl, rfl⟩ := Turn.eq_closes_of_append hu
    rw [Turn.append, List.append_nil] at alone
    exact ⟨ys, rfl, alone⟩
  | inlined => cases hu

theorem opens_cut {inner : Scope} {frame : Frame}
    (taken : (turn s b q (xs ++ p :: ps)).result = .ok (.opens inner frame rest))
    (hrest : p :: ps <:+ rest) (hlines : ∀ x ∈ q :: xs, x.line < p.line) :
    ∃ ys, rest = ys ++ p :: ps ∧ (turn s b q xs).result = .ok (.opens inner frame ys) := by
  generalize hu : Turn.opens inner frame rest = u at taken
  have hcut := turn_cut taken (by rwa [← hu]) hlines
  cases hcut with
  | same alone =>
    obtain ⟨ys, rfl, rfl⟩ := Turn.eq_opens_of_append hu
    rw [Turn.append, List.append_nil] at alone
    exact ⟨ys, rfl, alone⟩
  | inlined => cases hu

/-- An `inline` in front of a namespace on the next line is a turn that does nothing, and a statement
that declares nothing when it stands alone. -/
theorem continues_cut {b' : State}
    (taken : (turn s b q (xs ++ p :: ps)).result = .ok (.continues b' rest))
    (hrest : p :: ps <:+ rest) (hlines : ∀ x ∈ q :: xs, x.line < p.line) :
    (∃ ys, rest = ys ++ p :: ps ∧ (turn s b q xs).result = .ok (.continues b' ys)) ∨
      (rest = p :: ps ∧ b' = b ∧ (b.pending.reflection = none →
        (turn s b q xs).result = .ok (.continues { b with pending := {} } []))) := by
  generalize hu : Turn.continues b' rest = u at taken
  have hcut := turn_cut taken (by rwa [← hu]) hlines
  cases hcut with
  | same alone =>
    obtain ⟨ys, rfl, rfl⟩ := Turn.eq_continues_of_append hu
    rw [Turn.append, List.append_nil] at alone
    exact .inl ⟨ys, rfl, alone⟩
  | inlined word kind text last =>
    cases hu
    subst word last
    exact .inr ⟨rfl, rfl, turn_inline kind text⟩

theorem Reads.suffix_of_cons {found : Contents} (h : Reads s b (p :: ps) found rest) :
    rest <:+ ps := by
  cases h with
  | closes taken => exact turn_suffix taken
  | continues taken more => exact more.suffix.trans (turn_suffix taken)
  | opens taken inside more => exact (more.suffix.trans inside.suffix).trans (turn_suffix taken)

theorem Reads.of_continues {b' : State} {found : Contents} (h : Reads s b (p :: ps) found rest)
    (taken : (turn s b p ps).result = .ok (.continues b' pieces)) :
    Reads s b' pieces found rest := by
  cases h with
  | closes taken' => cases taken.symm.trans taken'
  | continues taken' more =>
    cases taken.symm.trans taken'
    exact more
  | opens taken' => cases taken.symm.trans taken'

theorem Reads.of_opens {inner : Scope} {frame : Frame} {found within : Contents}
    (h : Reads s b (p :: ps) found rest)
    (taken : (turn s b p ps).result = .ok (.opens inner frame pieces))
    (inside : Reads inner inner.start pieces within ys) :
    Reads s (frame.resumed within) ys found rest := by
  cases h with
  | closes taken' => cases taken.symm.trans taken'
  | continues taken' => cases taken.symm.trans taken'
  | opens taken' inside' more =>
    cases taken.symm.trans taken'
    obtain ⟨rfl, rfl⟩ := inside.unique inside'
    exact more

theorem lines_of_suffix {line : Nat} (h : ys <:+ xs) (hlines : ∀ x ∈ q :: xs, x.line < line) :
    ∀ x ∈ ys, x.line < line :=
  fun x hx => hlines x (List.mem_cons_of_mem _ (h.subset hx))

/-- A scope that leaves the code behind alone is read the same without it. -/
theorem Reads.cut {found : Contents} (h : Reads s b pieces found rest)
    (hpieces : pieces = xs ++ p :: ps) (hrest : p :: ps <:+ rest)
    (hlines : ∀ x ∈ xs, x.line < p.line) :
    ∃ ys, rest = ys ++ p :: ps ∧ Reads s b xs found ys := by
  induction h generalizing xs with
  | ends => simp at hpieces
  | closes taken free =>
    obtain ⟨xs, rfl, rfl⟩ := exists_cons_of_suffix hpieces (hrest.trans (turn_suffix taken))
    obtain ⟨ys, rfl, alone⟩ := closes_cut taken hrest hlines
    exact ⟨ys, rfl, .closes alone free⟩
  | continues taken more ih =>
    have hbehind := hrest.trans more.suffix
    obtain ⟨xs, rfl, rfl⟩ := exists_cons_of_suffix hpieces (hbehind.trans (turn_suffix taken))
    rcases continues_cut taken hbehind hlines with ⟨ys, rfl, alone⟩ | ⟨rfl, -, -⟩
    · obtain ⟨zs, rfl, later⟩ := ih rfl hrest (lines_of_suffix (turn_suffix alone) hlines)
      exact ⟨zs, rfl, .continues alone later⟩
    · exact absurd hrest (not_cons_suffix more.suffix_of_cons)
  | opens taken inside more ihInside ihMore =>
    have hbehind := hrest.trans more.suffix
    have hwithin := hbehind.trans inside.suffix
    obtain ⟨xs, rfl, rfl⟩ := exists_cons_of_suffix hpieces (hwithin.trans (turn_suffix taken))
    obtain ⟨ys, rfl, alone⟩ := opens_cut taken hwithin hlines
    have hys : ∀ x ∈ ys, x.line < p.line := lines_of_suffix (turn_suffix alone) hlines
    obtain ⟨zs, rfl, within⟩ := ihInside rfl hbehind hys
    obtain ⟨ws, rfl, later⟩ := ihMore rfl hrest fun x hx => hys x (within.suffix.subset hx)
    exact ⟨ws, rfl, .opens alone within later⟩

/-! ### Records that are left open -/

theorem Takes.pending_of_memberOf {inner : Scope} {outer : State}
    (h : Takes s b p ps (.opens inner (.memberOf outer own) rest)) : outer.pending = {} := by
  cases h with
  | declares _ _ h =>
    cases h
    rfl

/-- A declaration is merged the same whatever its members are. -/
theorem map_toDeclared_merged (ds : List Declaration) (own : Declared)
    (members members' : List Declaration) :
    (Declaration.merged ds ⟨own, members⟩).map (·.toDeclared) =
      (Declaration.merged ds ⟨own, members'⟩).map (·.toDeclared) := by
  induction ds with
  | nil => rfl
  | cons d ds ih =>
    have hsame : Declaration.sameEntity d ⟨own, members⟩ = Declaration.sameEntity d ⟨own, members'⟩ :=
      rfl
    have hcombine : (Declaration.combine d ⟨own, members⟩).toDeclared =
        (Declaration.combine d ⟨own, members'⟩).toDeclared := by
      have houtlasts : Declaration.outlasts d ⟨own, members⟩ =
          Declaration.outlasts d ⟨own, members'⟩ := rfl
      unfold Declaration.combine
      rw [houtlasts]
      split <;> rfl
    rw [Declaration.merged, Declaration.merged, hsame]
    split
    · rw [List.map_cons, List.map_cons, hcombine]
    · rw [List.map_cons, List.map_cons, ih]

theorem map_members_added {b b' : State} (h : b.members = b'.members) (own : Declared)
    (members members' : List Declaration) :
    (b.added ⟨own, members⟩).members.map (·.toDeclared) =
      (b'.added ⟨own, members'⟩).members.map (·.toDeclared) := by
  have hname : (⟨own, members⟩ : Declaration).name = (⟨own, members'⟩ : Declaration).name := rfl
  unfold State.added
  rw [hname]
  split
  · rw [h]
  · rw [h]
    exact map_toDeclared_merged ..

/-! ### Pauses -/

/-- While `s` is read from `b` on, reading pauses in front of `behind`: it comes to stand between
two items of the scope or of a record opened in it, with no macro waiting, between two entries of an
enum or in a body that it skips. Once the item in progress is over, `after` is the scope's state, and
`rest` is still to be read. -/
inductive Pauses (behind : List Piece) : Scope → State → List Piece → State → List Piece → Prop where
  | here {s : Scope} {b : State} (free : b.pending.reflection = none) :
      Pauses behind s b behind b behind
  | later {s : Scope} {b b' after : State} {p : Piece} {ps ps' rest : List Piece}
      (taken : (turn s b p ps).result = .ok (.continues b' ps'))
      (pauses : Pauses behind s b' ps' after rest) : Pauses behind s b (p :: ps) after rest
  | past {s inner : Scope} {b after : State} {p : Piece} {ps ps' ps'' rest : List Piece}
      {frame : Frame} {within : Contents}
      (taken : (turn s b p ps).result = .ok (.opens inner frame ps'))
      (inside : Reads inner inner.start ps' within ps'')
      (pauses : Pauses behind s (frame.resumed within) ps'' after rest) :
      Pauses behind s b (p :: ps) after rest
  | inRecord {s inner : Scope} {b outer after : State} {p : Piece} {ps ps' rest rest' : List Piece}
      {own : Declared} {within : Contents}
      (taken : (turn s b p ps).result = .ok (.opens inner (.memberOf outer own) ps'))
      (pauses : Pauses behind inner inner.start ps' after rest)
      (inside : Reads inner inner.start ps' within rest') :
      Pauses behind s b (p :: ps) ((Frame.memberOf outer own).resumed within) rest'
  | inEnum {s : Scope} {b : State} {p : Piece} {ps body rest : List Piece} {own : Declared}
      {members : List Declaration} (enters : EntersEnum s b body p ps own)
      (pauses : EnumBody.Pauses behind body)
      (entries : (EnumBody.read own.path [] none body).result = .ok (members, rest)) :
      Pauses behind s b (p :: ps) (({ b with pending := {} } : State).added ⟨own, members⟩) rest
  | inBody {s : Scope} {b after : State} {p : Piece} {ps body rest : List Piece}
      (enters : Enters s b body p ps after) (free : after.pending.reflection = none)
      (inside : behind <:+ body) (skipped : (skipBody 0 body).result = .ok rest)
      (opened : rest <:+ behind) : Pauses behind s b (p :: ps) after rest

namespace Pauses

theorem suffix (h : Pauses ps s b pieces after rest) : ps <:+ pieces := by
  induction h with
  | here => exact List.suffix_refl _
  | later taken _ ih => exact (ih.trans (turn_suffix taken)).trans (List.suffix_cons ..)
  | past taken inside _ ih =>
    exact ((ih.trans inside.suffix).trans (turn_suffix taken)).trans (List.suffix_cons ..)
  | inRecord taken _ _ ih => exact (ih.trans (turn_suffix taken)).trans (List.suffix_cons ..)
  | inEnum enters pauses => exact (pauses.suffix.trans enters.suffix).trans (List.suffix_cons ..)
  | inBody enters _ inside => exact (inside.trans enters.suffix).trans (List.suffix_cons ..)

theorem eq_of_here (h : Pauses (p :: ps) s b (p :: ps) after rest) :
    after = b ∧ rest = p :: ps ∧ b.pending.reflection = none := by
  cases h with
  | here free => exact ⟨rfl, rfl, free⟩
  | later taken pauses => exact absurd pauses.suffix (not_cons_suffix (turn_suffix taken))
  | past taken inside pauses =>
    exact absurd pauses.suffix (not_cons_suffix (inside.suffix.trans (turn_suffix taken)))
  | inRecord taken pauses => exact absurd pauses.suffix (not_cons_suffix (turn_suffix taken))
  | inEnum enters pauses => exact absurd pauses.suffix (not_cons_suffix enters.suffix)
  | inBody enters _ inside => exact absurd inside (not_cons_suffix enters.suffix)

/-- What is read goes on behind the pause. -/
theorem reads_behind {found : Contents} {rest' : List Piece} (h : Pauses ps s b pieces after rest)
    (read : Reads s b pieces found rest') : Reads s after rest found rest' := by
  induction h with
  | here => exact read
  | later taken _ ih => exact ih (read.of_continues taken)
  | past taken inside _ ih => exact ih (read.of_opens taken inside)
  | inRecord taken _ inside => exact read.of_opens taken inside
  | inEnum enters _ entries => exact read.of_continues (turn_of_takes (enters.takes entries))
  | inBody enters _ _ skipped => exact read.of_continues (turn_of_takes (enters.takes skipped))

/-- **Where reading pauses, the code up to there is read alone**, and it declares what has been
declared, members apart. -/
theorem reads (h : Pauses (p :: ps) s b pieces after rest) (hpieces : pieces = xs ++ p :: ps)
    (hlines : ∀ x ∈ xs, x.line < p.line) :
    rest <:+ p :: ps ∧ ∃ found, Reads s b xs found [] ∧
      found.declarations.map (·.toDeclared) = after.members.map (·.toDeclared) := by
  induction h generalizing xs with
  | here free =>
    have hnil : xs = [] := by simpa using hpieces.symm
    rw [hnil]
    exact ⟨List.suffix_refl _, _, .ends free, rfl⟩
  | later taken pauses ih =>
    obtain ⟨xs, rfl, rfl⟩ := exists_cons_of_suffix hpieces (pauses.suffix.trans (turn_suffix taken))
    rcases continues_cut taken pauses.suffix hlines with ⟨ys, rfl, alone⟩ | ⟨rfl, rfl, alone⟩
    · obtain ⟨hrest, found, more, hfound⟩ :=
        ih rfl (lines_of_suffix (turn_suffix alone) hlines)
      exact ⟨hrest, found, .continues alone more, hfound⟩
    · obtain ⟨rfl, rfl, free⟩ := pauses.eq_of_here
      exact ⟨List.suffix_refl _, _, .continues (alone free) (.ends rfl), rfl⟩
  | past taken inside pauses ih =>
    have hbehind := pauses.suffix.trans inside.suffix
    obtain ⟨xs, rfl, rfl⟩ := exists_cons_of_suffix hpieces (hbehind.trans (turn_suffix taken))
    obtain ⟨ys, rfl, alone⟩ := opens_cut taken hbehind hlines
    have hys : ∀ x ∈ ys, x.line < p.line := lines_of_suffix (turn_suffix alone) hlines
    obtain ⟨zs, rfl, within⟩ := inside.cut rfl pauses.suffix hys
    obtain ⟨hrest, found, more, hfound⟩ := ih rfl fun x hx => hys x (within.suffix.subset hx)
    exact ⟨hrest, found, .opens alone within more, hfound⟩
  | inRecord taken pauses inside ih =>
    obtain ⟨xs, rfl, rfl⟩ := exists_cons_of_suffix hpieces (pauses.suffix.trans (turn_suffix taken))
    obtain ⟨ys, rfl, alone⟩ := opens_cut taken pauses.suffix hlines
    obtain ⟨hrest, found, within, -⟩ := ih rfl (lines_of_suffix (turn_suffix alone) hlines)
    refine ⟨(pauses.reads_behind inside).suffix.trans hrest, _, .opens alone within (.ends ?_), ?_⟩
    · rw [Frame.pending_resumed]
      exact congrArg Pending.reflection (takes_of_turn alone).pending_of_memberOf
    · refine map_members_added ?_ ..
      rfl
  | inEnum enters pauses entries =>
    have hbehind := pauses.suffix
    obtain ⟨xs, rfl, rfl⟩ := exists_cons_of_suffix hpieces (hbehind.trans enters.suffix)
    obtain ⟨ys, rfl⟩ := hbehind
    obtain ⟨hrest, members, hmembers⟩ := pauses.read entries
    refine ⟨hrest, _, .continues (turn_of_takes (enters.cut.takes hmembers)) (.ends ?_),
      map_members_added rfl ..⟩
    rw [State.pending_added]
  | inBody enters free inside skipped opened =>
    obtain ⟨xs, rfl, rfl⟩ := exists_cons_of_suffix hpieces (inside.trans enters.suffix)
    obtain ⟨ys, rfl⟩ := inside
    have hskipped := skipBody_of_suffix skipped opened
    exact ⟨opened, _, .continues (turn_of_takes (enters.cut.takes hskipped)) (.ends free), rfl⟩

end Pauses

/-! ### What is declared behind -/

theorem Takes.members_of_opens {inner : Scope} {frame : Frame}
    (h : Takes s b p ps (.opens inner frame rest)) : frame.state.members = b.members := by
  cases h with
  | opensNamespace | opensLinkage => rfl
  | declares _ _ h =>
    cases h
    rfl

/-- What is declared is merged from declarations of the entities that are made. -/
theorem Logs.exists_merged {log : Log} {found : Contents} (h : Logs s b pieces log)
    (read : Reads s b pieces found rest) :
    ∃ made : List Declaration, found.declarations = made.foldl Declaration.merged b.members ∧
      ∀ d ∈ made, ∃ o ∈ log.made, o.entity = d.entity := by
  induction h generalizing found rest with
  | ends =>
    cases read
    exact ⟨[], rfl, by simp⟩
  | closes taken =>
    cases read with
    | closes => exact ⟨[], rfl, by simp⟩
    | continues taken' => cases taken.symm.trans taken'
    | opens taken' => cases taken.symm.trans taken'
  | @continues s b b' p ps _ more taken _ ih =>
    obtain ⟨made, hfound, hmade⟩ := ih (read.of_continues taken)
    refine ⟨(madeAt s b p ps).filter (!·.name.isEmpty) ++ made, ?_, ?_⟩
    · rw [hfound, (takes_of_turn taken).step.members, List.foldl_append]
    · refine List.forall_mem_append.2 ⟨fun d hd => ?_, fun d hd => ?_⟩
      · exact ⟨d, List.mem_append_left _ (List.mem_filter.1 hd).1, rfl⟩
      · obtain ⟨o, ho, heq⟩ := hmade d hd
        exact ⟨o, List.mem_append_right _ ho, heq⟩
  | @opens s inner b p ps _ _ frame within inside more taken inner_read _ _ ihInside ihMore =>
    obtain ⟨made, hfound, hmade⟩ := ihMore (read.of_opens taken inner_read)
    obtain ⟨madeInside, hwithin, hmadeInside⟩ := ihInside inner_read
    have hmembers := (takes_of_turn taken).members_of_opens
    have hbehind : ∀ d ∈ made, ∃ o ∈ (inside.append (.append ⟨[], frame.made within⟩ more)).made,
        o.entity = d.entity := by
      intro d hd
      obtain ⟨o, ho, heq⟩ := hmade d hd
      exact ⟨o, List.mem_append_right _ (List.mem_append_right _ ho), heq⟩
    cases frame with
    | transparent outer =>
      refine ⟨within.declarations ++ made, ?_, List.forall_mem_append.2 ⟨fun d hd => ?_, hbehind⟩⟩
      · rw [hfound, List.foldl_append, ← hmembers]
        rfl
      · rw [hwithin] at hd
        obtain ⟨o, ho, heq⟩ := Declaration.exists_of_mem_foldl_merged hd
        obtain ⟨o', ho', heq'⟩ := hmadeInside o ho
        exact ⟨o', List.mem_append_left _ ho', heq'.trans heq⟩
    | memberOf outer own =>
      refine ⟨[(⟨own, within.declarations⟩ : Declaration)].filter (!·.name.isEmpty) ++ made, ?_,
        List.forall_mem_append.2 ⟨fun d hd => ?_, hbehind⟩⟩
      · rw [hfound, List.foldl_append, ← hmembers]
        congr 1
        exact State.members_added _ [⟨own, within.declarations⟩]
      · exact ⟨d, List.mem_append_right _ (List.mem_append_left _ (List.mem_filter.1 hd).1), rfl⟩

/-- **The first declaration of the whole code is the first of the code in front**, members apart,
unless the code behind declares its entity. -/
theorem Pauses.first {found : Contents} {rest' : List Piece}
    (h : Pauses (p :: ps) s b (xs ++ p :: ps) after rest) (hlines : ∀ x ∈ xs, x.line < p.line)
    (read : Reads s b (xs ++ p :: ps) found rest') :
    ∃ alone, Reads s b xs alone [] ∧ ∀ (log : Log) (d : Declaration), Logs s after rest log →
      found.declarations.head? = some d → (∀ o ∈ log.made, o.entity ≠ d.entity) →
      alone.declarations.head?.map (·.toDeclared) = some d.toDeclared := by
  obtain ⟨-, alone, halone, hdeclared⟩ := h.reads rfl hlines
  refine ⟨alone, halone, fun log d logs hd hnew => ?_⟩
  obtain ⟨made, hfound, hmade⟩ := logs.exists_merged (h.reads_behind read)
  have hapart : ∀ o ∈ made, o.entity ≠ d.entity := by
    intro o ho heq
    obtain ⟨o', ho', heq'⟩ := hmade o ho
    exact hnew o' ho' (heq'.trans heq)
  rw [hfound] at hd
  rw [← List.head?_map, hdeclared, List.head?_map]
  cases hmembers : after.members with
  | nil =>
    rw [hmembers] at hd
    obtain ⟨o, ho, heq⟩ := Declaration.exists_of_mem_foldl_merged (List.mem_of_mem_head? hd)
    exact absurd heq (hapart o ho)
  | cons x members =>
    obtain ⟨y, ys, hcons, hentity, hsame⟩ := Declaration.exists_cons_foldl_merged x members made
    rw [hmembers, hcons] at hd
    cases hd
    rw [hsame (hentity ▸ hapart)]
    rfl

end Scope

end

end AnnotatedHeader
