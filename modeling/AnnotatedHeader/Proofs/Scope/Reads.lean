import AnnotatedHeader.Proofs.Result
import AnnotatedHeader.Proofs.Scope.Takes

/-! How a scope is read, as a relation.

`Reads s b ps found rest` holds when the scope `s`, of whose contents `b` has been
read, holds `found` and ends in front of `rest` on the pieces `ps`. The readings that
succeed are the derivations (`reads_iff`), so what a turn preserves is carried through a
whole scope, and through the scopes inside it, by induction on `Reads`. -/
namespace AnnotatedHeader

theorem Outcome.result_of_attach {α : Type} {x : Outcome α} {P : α → Prop}
    {hP : ∀ a, x.result = .ok a → P a} {a : { a // P a }} (h : (x.attach P hP).result = .ok a) :
    x.result = .ok a.1 := by
  rw [← x.result_map_attach P hP, h]
  rfl

theorem Outcome.result_attach {α : Type} {x : Outcome α} {P : α → Prop}
    {hP : ∀ a, x.result = .ok a → P a} {a : α} (h : x.result = .ok a) :
    (x.attach P hP).result = .ok ⟨a, hP a h⟩ := by
  unfold attach
  split
  · rename_i a' ha'
    cases h.symm.trans ha'
    rfl
  · rename_i e he
    cases h.symm.trans he

theorem Outcome.result_attach_error {α : Type} {x : Outcome α} {P : α → Prop}
    {hP : ∀ a, x.result = .ok a → P a} {e : Fault} (h : x.result = .error e) :
    (x.attach P hP).result = .error e := by
  have hval := x.result_map_attach P hP
  rw [h] at hval
  cases hx : (x.attach P hP).result with
  | ok a =>
    rw [hx] at hval
    cases hval
  | error e' =>
    rw [hx] at hval
    cases hval
    rfl

namespace Scope

theorem Takes.braced_of_closes {s : Scope} {b : State} {p : Piece} {ps rest : List Piece}
    (h : Takes s b p ps (.closes rest)) : s.braced = true := by
  cases h with
  | closes _ _ _ braced => exact braced
  | declares _ _ h => cases h

inductive Reads : Scope → State → List Piece → Contents → List Piece → Prop where
  | ends {s : Scope} {b : State} (free : b.pending.reflection = none) :
      Reads s b [] ⟨b.members, b.injects⟩ []
  | closes {s : Scope} {b : State} {p : Piece} {ps rest : List Piece}
      (taken : (turn s b p ps).result = .ok (.closes rest)) (free : b.pending.reflection = none) :
      Reads s b (p :: ps) ⟨b.members, b.injects⟩ rest
  | continues {s : Scope} {b b' : State} {p : Piece} {ps rest rest' : List Piece} {found : Contents}
      (taken : (turn s b p ps).result = .ok (.continues b' rest))
      (more : Reads s b' rest found rest') : Reads s b (p :: ps) found rest'
  | opens {s inner : Scope} {b : State} {p : Piece} {ps rest rest' rest'' : List Piece}
      {frame : Frame} {within found : Contents}
      (taken : (turn s b p ps).result = .ok (.opens inner frame rest))
      (inside : Reads inner inner.start rest within rest')
      (more : Reads s (frame.resumed within) rest' found rest'') :
      Reads s b (p :: ps) found rest''

theorem reads_of_readFrom {s : Scope} {b : State} {ps : List Piece} {found : Contents}
    {rest : { rest : List Piece // rest <:+ ps }} (h : (readFrom s b ps).result = .ok (found, rest)) :
    Reads s b ps found rest.1 := by
  -- A scope opened inside is read from further on, so the induction is on length.
  induction hn : ps.length using Nat.strongRecOn generalizing s b ps found with
  | ind n ih =>
    subst hn
    cases ps with
    | nil =>
      rw [readFrom] at h
      have hends : ∃ found', (s.finish b).result = .ok found' ∧ found' = found ∧ rest.1 = [] := by
        dsimp only at h
        split at h
        · obtain ⟨-, -, h⟩ := Outcome.result_bind_eq_ok.1 h
          obtain ⟨found', hfinish, h⟩ := Outcome.result_bind_eq_ok.1 h
          cases h
          exact ⟨_, hfinish, rfl, rfl⟩
        · obtain ⟨found', hfinish, h⟩ := Outcome.result_bind_eq_ok.1 h
          cases h
          exact ⟨_, hfinish, rfl, rfl⟩
      obtain ⟨found', hfinish, rfl, hrest⟩ := hends
      obtain ⟨hfree, rfl⟩ := result_finish_eq_ok.1 hfinish
      rw [hrest]
      exact .ends hfree
    | cons p ps =>
      rw [readFrom] at h
      obtain ⟨⟨t, ht⟩, hturn, h⟩ := Outcome.result_bind_eq_ok.1 h
      have htaken := Outcome.result_of_attach hturn
      cases t with
      | closes rest' =>
        obtain ⟨found', hfinish, h⟩ := Outcome.result_bind_eq_ok.1 h
        cases h
        obtain ⟨hfree, rfl⟩ := result_finish_eq_ok.1 hfinish
        exact .closes htaken hfree
      | continues b' rest' =>
        obtain ⟨⟨found', rest'', _⟩, hread, h⟩ := Outcome.result_bind_eq_ok.1 h
        cases h
        exact .continues htaken (ih _ (Nat.lt_succ_of_le ht.length_le) hread rfl)
      | opens inner frame rest' =>
        obtain ⟨⟨within, rest'', h''⟩, hwithin, h⟩ := Outcome.result_bind_eq_ok.1 h
        obtain ⟨b', hresume, h⟩ := Outcome.result_bind_eq_ok.1 h
        obtain ⟨⟨found', rest''', _⟩, hread, h⟩ := Outcome.result_bind_eq_ok.1 h
        cases h
        rw [Frame.result_resume] at hresume
        cases hresume
        exact .opens htaken (ih _ (Nat.lt_succ_of_le ht.length_le) hwithin rfl)
          (ih _ (Nat.lt_succ_of_le (h''.trans ht).length_le) hread rfl)

namespace Reads
variable {s : Scope} {b : State} {ps rest rest₁ rest₂ : List Piece} {found found₁ found₂ : Contents}

theorem suffix (h : Reads s b ps found rest) : rest <:+ ps := by
  induction h with
  | ends => exact List.suffix_refl _
  | closes taken _ => exact (turn_suffix taken).trans (List.suffix_cons ..)
  | continues taken _ ih => exact (ih.trans (turn_suffix taken)).trans (List.suffix_cons ..)
  | opens taken _ _ ihInside ihMore =>
    exact ((ihMore.trans ihInside).trans (turn_suffix taken)).trans (List.suffix_cons ..)

/-- What no brace ends is read to the end. -/
theorem rest_of_unbraced (h : Reads s b ps found rest) (unbraced : s.braced = false) : rest = [] := by
  induction h with
  | ends => rfl
  | closes taken _ =>
    have hbraced := (takes_of_turn taken).braced_of_closes
    rw [unbraced] at hbraced
    cases hbraced
  | continues _ _ ih => exact ih unbraced
  | opens _ _ _ _ ihMore => exact ihMore unbraced

/-- Pieces can be read in one way only. -/
theorem unique (h₁ : Reads s b ps found₁ rest₁) (h₂ : Reads s b ps found₂ rest₂) :
    found₁ = found₂ ∧ rest₁ = rest₂ := by
  induction h₁ generalizing found₂ rest₂ with
  | ends =>
    cases h₂
    exact ⟨rfl, rfl⟩
  | closes taken₁ _ =>
    cases h₂ with
    | closes taken₂ _ =>
      cases taken₁.symm.trans taken₂
      exact ⟨rfl, rfl⟩
    | continues taken₂ _ => cases taken₁.symm.trans taken₂
    | opens taken₂ _ _ => cases taken₁.symm.trans taken₂
  | continues taken₁ _ ih =>
    cases h₂ with
    | closes taken₂ _ => cases taken₁.symm.trans taken₂
    | continues taken₂ more =>
      cases taken₁.symm.trans taken₂
      exact ih more
    | opens taken₂ _ _ => cases taken₁.symm.trans taken₂
  | opens taken₁ _ _ ihInside ihMore =>
    cases h₂ with
    | closes taken₂ _ => cases taken₁.symm.trans taken₂
    | continues taken₂ _ => cases taken₁.symm.trans taken₂
    | opens taken₂ inside more =>
      cases taken₁.symm.trans taken₂
      obtain ⟨rfl, rfl⟩ := ihInside inside
      exact ihMore more

end Reads

theorem result_readFrom_of_reads {s : Scope} {b : State} {ps rest : List Piece} {found : Contents}
    (h : Reads s b ps found rest) : (readFrom s b ps).result = .ok (found, ⟨rest, h.suffix⟩) := by
  induction h with
  | @ends s b free =>
    have hfinish := (@result_finish_eq_ok s).2 ⟨free, rfl⟩
    rw [readFrom]
    split
    · exact Outcome.result_bind_eq_ok.2 ⟨(), rfl, Outcome.result_bind_eq_ok.2 ⟨_, hfinish, rfl⟩⟩
    · exact Outcome.result_bind_eq_ok.2 ⟨_, hfinish, rfl⟩
  | @closes s b p ps rest taken free =>
    have hfinish := (@result_finish_eq_ok s).2 ⟨free, rfl⟩
    rw [readFrom]
    refine Outcome.result_bind_eq_ok.2 ⟨_, Outcome.result_attach taken, ?_⟩
    exact Outcome.result_bind_eq_ok.2 ⟨_, hfinish, rfl⟩
  | continues taken more ih =>
    rw [readFrom]
    refine Outcome.result_bind_eq_ok.2 ⟨_, Outcome.result_attach taken, ?_⟩
    exact Outcome.result_bind_eq_ok.2 ⟨_, ih, rfl⟩
  | opens taken inside more ihInside ihMore =>
    rw [readFrom]
    refine Outcome.result_bind_eq_ok.2 ⟨_, Outcome.result_attach taken, ?_⟩
    refine Outcome.result_bind_eq_ok.2 ⟨_, ihInside, ?_⟩
    refine Outcome.result_bind_eq_ok.2 ⟨_, Frame.result_resume _ _, ?_⟩
    exact Outcome.result_bind_eq_ok.2 ⟨_, ihMore, rfl⟩

theorem reads_iff {s : Scope} {ps : List Piece} {found : Contents} :
    (s.read ps).result = .ok found ↔ ∃ rest, Reads s s.start ps found rest := by
  unfold read
  constructor
  · intro h
    obtain ⟨⟨found', rest⟩, hread, h⟩ := Outcome.result_bind_eq_ok.1 h
    cases h
    exact ⟨rest.1, reads_of_readFrom hread⟩
  · rintro ⟨rest, h⟩
    exact Outcome.result_bind_eq_ok.2 ⟨_, result_readFrom_of_reads h, rfl⟩

/-! ### Readings as data -/

/-- A scope's contents and what is behind its end, as data. -/
def readOn (s : Scope) (b : State) (ps : List Piece) : Except Fault (Contents × List Piece) :=
  (readFrom s b ps).result.map fun e => (e.1, e.2.1)

theorem readOn_nil (s : Scope) (b : State) :
    readOn s b [] = (s.finish b).result.map fun found => (found, []) := by
  have hends : ((s.finish b >>= fun found =>
      pure (found, (⟨[], List.suffix_refl _⟩ : { rest : List Piece // rest <:+ [] }))).result.map
        fun e => (e.1, e.2.1)) = (s.finish b).result.map fun found => (found, []) := by
    rw [Outcome.result_bind]
    cases (s.finish b).result <;> rfl
  unfold readOn
  rw [readFrom]
  split
  · exact hends
  · exact hends

theorem readOn_cons (s : Scope) (b : State) (p : Piece) (ps : List Piece) :
    readOn s b (p :: ps) = (turn s b p ps).result >>= fun t =>
      match t with
      | .closes rest => (s.finish b).result.map fun found => (found, rest)
      | .continues b rest => readOn s b rest
      | .opens inner frame rest => readOn inner inner.start rest >>= fun e =>
          readOn s (frame.resumed e.1) e.2 := by
  unfold readOn
  rw [readFrom, Outcome.result_bind]
  cases hturn : (turn s b p ps).result with
  | error e =>
    rw [Outcome.result_attach_error hturn]
    rfl
  | ok t =>
    rw [Outcome.result_attach hturn]
    cases t with
    | closes rest =>
      show ((s.finish b >>= _ : Outcome _).result).map _ = (s.finish b).result.map _
      rw [Outcome.result_bind]
      cases (s.finish b).result <;> rfl
    | continues b rest =>
      show ((readFrom s b rest >>= _ : Outcome _).result).map _ = (readFrom s b rest).result.map _
      rw [Outcome.result_bind]
      cases (readFrom s b rest).result <;> rfl
    | opens inner frame rest =>
      show ((readFrom inner inner.start rest >>= _ : Outcome _).result).map _ =
        (readFrom inner inner.start rest).result.map _ >>= _
      rw [Outcome.result_bind]
      cases (readFrom inner inner.start rest).result with
      | error e => rfl
      | ok e =>
        obtain ⟨within, rest', h⟩ := e
        show ((frame.resume within >>= _ : Outcome _).result).map _ = _
        rw [Outcome.result_bind, Frame.result_resume]
        show ((readFrom s (frame.resumed within) rest' >>= _ : Outcome _).result).map _ =
          (readFrom s (frame.resumed within) rest').result.map _
        rw [Outcome.result_bind]
        cases (readFrom s (frame.resumed within) rest').result <;> rfl

theorem readOn_of_reads {s : Scope} {b : State} {ps rest : List Piece} {found : Contents}
    (h : Reads s b ps found rest) : readOn s b ps = .ok (found, rest) := by
  unfold readOn
  rw [result_readFrom_of_reads h]
  rfl

theorem readOn_suffix {s : Scope} {b : State} {ps rest : List Piece} {found : Contents}
    (h : readOn s b ps = .ok (found, rest)) : rest <:+ ps := by
  obtain ⟨e, -, he⟩ := Except.map_eq_ok.1 h
  cases he
  exact e.2.2

theorem result_read (s : Scope) (ps : List Piece) :
    (s.read ps).result = (readOn s s.start ps).map Prod.fst := by
  unfold read readOn
  rw [Outcome.result_bind]
  cases (readFrom s s.start ps).result <;> rfl

end Scope

/-! ### Headers and fragments -/

theorem Scope.Contents.result_ofLines (lines : List SourceLine) (blocks : List CommentBlock) :
    (ofLines lines blocks).result = (Scope.file.read (Piece.ofLines lines blocks)).result := by
  unfold ofLines
  rw [Outcome.result_bind, Outcome.result_noteAll]
  rfl

theorem Scope.Contents.result_ofLines_eq_ok {lines : List SourceLine} {blocks : List CommentBlock}
    {found : Scope.Contents} :
    (ofLines lines blocks).result = .ok found ↔
      ∃ rest, Scope.Reads .file Scope.file.start (Piece.ofLines lines blocks) found rest := by
  rw [result_ofLines]
  exact Scope.reads_iff

theorem Declaration.reads_of_ofFragment {text owner : String} {firstLine : Nat}
    {ds : List Declaration} (h : (ofFragment text firstLine owner).result = .ok ds) :
    ∃ injects rest, Scope.Reads (.ofFragment owner) (Scope.ofFragment owner).start
      ((Token.tokenize text firstLine).map .token) ⟨ds, injects⟩ rest := by
  unfold ofFragment at h
  obtain ⟨-, -, h⟩ := Outcome.result_bind_eq_ok.1 h
  obtain ⟨found, hread, h⟩ := Outcome.result_bind_eq_ok.1 h
  cases h
  obtain ⟨rest, hread⟩ := Scope.reads_iff.1 hread
  exact ⟨found.injects, rest, hread⟩

end AnnotatedHeader
