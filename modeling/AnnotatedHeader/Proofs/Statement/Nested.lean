import AnnotatedHeader.Statement.Nesting
import Mathlib

/-! What stands at the top of a run of tokens.

The searches that cut a head apart read its tokens with the nesting in front of each
(`Nesting.visited`). A run in which nothing of interest stands at the top is passed over:
`findFrom_append`, `partsFrom_append` and `splitCallFrom_append_eq_none` say so. Types and
initializers are such runs, which `TypeWords` and `Balanced` describe. -/
namespace AnnotatedHeader

namespace Nesting

/-- The nesting behind the tokens. -/
def run (n : Nesting) (ts : List Token) : Nesting := ts.foldl step n

/-- Each token with the nesting in front of it. -/
def visited (n : Nesting) : List Token → List (Nesting × Token)
  | [] => []
  | t :: ts => (n, t) :: visited (n.step t) ts

variable {n : Nesting} {t : Token} {ts us : List Token} {kind : TokenKind}

@[simp] theorem run_nil (n : Nesting) : n.run [] = n := rfl

@[simp] theorem run_cons (n : Nesting) (t : Token) (ts : List Token) :
    n.run (t :: ts) = (n.step t).run ts := rfl

@[simp] theorem run_append (n : Nesting) (ts us : List Token) :
    n.run (ts ++ us) = (n.run ts).run us := List.foldl_append ..

@[simp] theorem visited_nil (n : Nesting) : n.visited [] = [] := rfl

@[simp] theorem visited_cons (n : Nesting) (t : Token) (ts : List Token) :
    n.visited (t :: ts) = (n, t) :: (n.step t).visited ts := rfl

@[simp] theorem visited_append (n : Nesting) (ts us : List Token) :
    n.visited (ts ++ us) = n.visited ts ++ (n.run ts).visited us := by
  induction ts generalizing n with
  | nil => rfl
  | cons t ts ih => rw [List.cons_append, visited_cons, ih]; rfl

theorem snd_mem_of_visited {e : Nesting × Token} (h : e ∈ n.visited ts) : e.2 ∈ ts := by
  induction ts generalizing n with
  | nil => cases h
  | cons t ts ih =>
    rcases List.mem_cons.1 h with rfl | h
    · exact List.mem_cons_self ..
    · exact List.mem_cons_of_mem _ (ih h)

@[simp] theorem step_prev (n : Nesting) (t : Token) : (n.step t).prev = some t := by
  unfold step
  split <;> rfl

theorem prev_run_concat (n : Nesting) (ts : List Token) (t : Token) :
    (n.run (ts ++ [t])).prev = some t := by
  rw [run_append, run_cons, run_nil, step_prev]

/-! ### Searches -/

theorem findFrom_eq_none_iff :
    findFrom kind n ts = none ↔ ∀ e ∈ n.visited ts, e.2.kind = kind → e.1.isTop = false := by
  induction ts generalizing n with
  | nil => simp [findFrom]
  | cons t ts ih =>
    rw [findFrom, visited_cons, List.forall_mem_cons, ← ih]
    by_cases htop : t.kind = kind ∧ n.isTop = true
    · simp [htop]
    · rw [if_neg (by simpa using htop), Option.map_eq_none_iff]
      exact (and_iff_right fun hkind => by simpa [show t.kind = kind from hkind] using htop).symm

theorem findFrom_append (h : findFrom kind n ts = none) :
    findFrom kind n (ts ++ us) = (findFrom kind (n.run ts) us).map (· + ts.length) := by
  induction ts generalizing n with
  | nil => simp
  | cons t ts ih =>
    rw [findFrom] at h
    split at h
    · cases h
    · rename_i htop
      rw [List.cons_append, findFrom, if_neg htop, ih (Option.map_eq_none_iff.1 h), Option.map_map]
      rfl

theorem partsFrom_of_findFrom {offset : Nat} (h : findFrom .comma n ts = none) :
    partsFrom n offset ts = [(offset, ts)] := by
  induction ts generalizing n offset with
  | nil => rfl
  | cons t ts ih =>
    rw [findFrom] at h
    split at h
    · cases h
    · rename_i htop
      rw [partsFrom, if_neg htop, ih (Option.map_eq_none_iff.1 h)]
      rfl

/-- A comma at the top ends a part. -/
theorem partsFrom_append {offset : Nat} (h : findFrom .comma n ts = none)
    (top : (n.run ts).isTop = true) (comma : t.kind = .comma) :
    partsFrom n offset (ts ++ t :: us) =
      (offset, ts) :: partsFrom ((n.run ts).step t) (offset + ts.length + 1) us := by
  induction ts generalizing n offset with
  | nil =>
    rw [List.nil_append, partsFrom, if_pos (by simpa [comma] using top)]
    rfl
  | cons t' ts ih =>
    rw [findFrom] at h
    split at h
    · cases h
    · rename_i hpass
      rw [List.cons_append, partsFrom, if_neg hpass, ih (Option.map_eq_none_iff.1 h) top, consToken,
        List.length_cons]
      congr 3
      omega

/-- No parameter list opens in front of one that does not open. -/
theorem splitCallFrom_append_eq_none
    (quiet : ∀ e ∈ n.visited ts, e.1.angle = 0 → e.2.kind ≠ .lparen)
    (h : splitCallFrom (n.run ts) us = none) : splitCallFrom n (ts ++ us) = none := by
  induction ts generalizing n with
  | nil => exact h
  | cons t ts ih =>
    obtain ⟨ht, hts⟩ := List.forall_mem_cons.1 quiet
    have hfurther := ih hts h
    rw [List.cons_append]
    unfold splitCallFrom
    dsimp only
    rw [hfurther, Option.map_none]
    split
    · rename_i hangle
      have hparen := ht hangle
      split
      · exact ite_self _
      · rfl
      · exact absurd (by assumption) hparen
      · exact absurd (by assumption) hparen
      · rfl
    · rfl

end Nesting

/-! ### Brackets -/

/-- The sign opens parentheses, brackets or braces. -/
def TokenKind.opens : TokenKind → Bool
  | .lparen | .lbracket | .lbrace => true
  | _ => false

/-- The sign closes parentheses, brackets or braces. -/
def TokenKind.closes : TokenKind → Bool
  | .rparen | .rbracket | .rbrace => true
  | _ => false

/-- The sign needs no other to be balanced. A `>` alone closes nothing. -/
def TokenKind.isSingle (kind : TokenKind) : Bool := !kind.opens && !kind.closes && kind != .less

/-- The sign neither opens anything nor closes it. -/
def TokenKind.isFlat (kind : TokenKind) : Bool := kind.isSingle && kind != .greater

namespace Nesting
variable {n : Nesting} {t : Token}

theorem step_of_flat (h : t.kind.isFlat = true) (n : Nesting) :
    (n.step t).depth = n.depth ∧ (n.step t).angle = n.angle := by
  unfold step
  cases hkind : t.kind <;> rw [hkind] at h <;> first | exact ⟨rfl, rfl⟩ | cases h

theorem step_of_opens (h : t.kind.opens = true) (n : Nesting) :
    (n.step t).depth = n.depth + 1 ∧ (n.step t).angle = n.angle := by
  unfold step
  cases hkind : t.kind <;> rw [hkind] at h <;> first | exact ⟨rfl, rfl⟩ | cases h

theorem step_of_closes (h : t.kind.closes = true) (n : Nesting) :
    (n.step t).depth = n.depth - 1 ∧ (n.step t).angle = n.angle := by
  unfold step
  cases hkind : t.kind <;> rw [hkind] at h <;> first | exact ⟨rfl, rfl⟩ | cases h

theorem step_of_greater (h : t.kind = .greater) (n : Nesting) :
    (n.step t).depth = n.depth ∧ (n.step t).angle = n.angle - 1 := by
  unfold step
  rw [h]
  exact ⟨rfl, rfl⟩

/-- Right behind an identifier a `<` opens an argument list. -/
theorem step_of_less {name opening : Token} (word : name.kind = .ident ∧ name.text ≠ "operator")
    (opens : opening.kind = .less) (n : Nesting) :
    ((n.step name).step opening).depth = n.depth ∧
      ((n.step name).step opening).angle = n.angle + 1 := by
  obtain ⟨hdepth, hangle⟩ := step_of_flat (t := name) (by rw [word.1]; rfl) n
  have hopen : (n.step name).angleMayOpen = true := by
    simp [angleMayOpen, Token.isIdent, word.1, word.2]
  have hless : (n.step name).step opening =
      { n.step name with angle := (n.step name).angle + 1, prev := some opening } := by
    rw [step, opens]
    dsimp only
    rw [if_pos hopen]
  rw [hless]
  exact ⟨hdepth, congrArg (· + 1) hangle⟩

end Nesting

theorem Token.kind_of_isPointer {t : Token} (h : t.isPointer = true) : t.kind = .op := by
  unfold isPointer isOp at h
  simp only [Bool.or_eq_true, Bool.and_eq_true, beq_iff_eq] at h
  rcases h with (h | h) | h <;> exact h.1

/-! ### Types -/

/-- Identifiers, `::` and argument lists right behind an identifier. Inside such a list other signs
may stand as well, and groups in brackets. -/
inductive TypeWords : Bool → List Token → Prop where
  | nil {inside : Bool} : TypeWords inside []
  | word {inside : Bool} {t : Token} {ts : List Token} (kind : t.kind = .ident ∨ t.kind = .scope)
      (rest : TypeWords inside ts) : TypeWords inside (t :: ts)
  | arguments {inside : Bool} {name opening closing : Token} {ts us : List Token}
      (word : name.kind = .ident ∧ name.text ≠ "operator") (opens : opening.kind = .less)
      (closes : closing.kind = .greater) (within : TypeWords true ts) (rest : TypeWords inside us) :
      TypeWords inside (name :: opening :: (ts ++ closing :: us))
  | sign {t : Token} {ts : List Token} (flat : t.kind.isFlat = true) (rest : TypeWords true ts) :
      TypeWords true (t :: ts)
  | group {opening closing : Token} {ts us : List Token} (opens : opening.kind.opens = true)
      (closes : closing.kind.closes = true) (within : TypeWords true ts) (rest : TypeWords true us) :
      TypeWords true (opening :: (ts ++ closing :: us))

namespace TypeWords
variable {inside : Bool} {ts : List Token}

/-- A type leaves open what was open before it. -/
theorem run (h : TypeWords inside ts) (n : Nesting) :
    (n.run ts).depth = n.depth ∧ (n.run ts).angle = n.angle := by
  induction h generalizing n with
  | nil => exact ⟨rfl, rfl⟩
  | @word _ t _ kind _ ih =>
    have hstep := Nesting.step_of_flat (t := t) (by rcases kind with h | h <;> rw [h] <;> rfl) n
    simpa [hstep] using ih (n.step t)
  | @arguments _ name opening closing ts us word opens closes _ _ ihWithin ihRest =>
    have hopens := Nesting.step_of_less word opens n
    have hwithin := ihWithin ((n.step name).step opening)
    have hcloses := Nesting.step_of_greater closes (((n.step name).step opening).run ts)
    have hrest := ihRest ((((n.step name).step opening).run ts).step closing)
    simp only [Nesting.run_cons, Nesting.run_append]
    omega
  | @sign t _ flat _ ih =>
    have hstep := Nesting.step_of_flat flat n
    simpa [hstep] using ih (n.step t)
  | @group opening closing ts us opens closes _ _ ihWithin ihRest =>
    have hopens := Nesting.step_of_opens opens n
    have hwithin := ihWithin (n.step opening)
    have hcloses := Nesting.step_of_closes closes ((n.step opening).run ts)
    have hrest := ihRest (((n.step opening).run ts).step closing)
    simp only [Nesting.run_cons, Nesting.run_append]
    omega

/-- Outside argument lists stand only words and the signs that open such lists. -/
theorem kind_of_visited (h : TypeWords inside ts) (n : Nesting) (within : inside = true → 0 < n.angle) :
    ∀ e ∈ n.visited ts, e.1.angle = 0 →
      e.2.kind = .ident ∨ e.2.kind = .scope ∨ e.2.kind = .less := by
  induction h generalizing n with
  | nil => rintro e ⟨⟩
  | @word _ t _ kind _ ih =>
    have hstep := Nesting.step_of_flat (t := t) (by rcases kind with h | h <;> rw [h] <;> rfl) n
    refine List.forall_mem_cons.2 ⟨fun _ => kind.imp_right .inl, ih _ fun h => ?_⟩
    rw [hstep.2]
    exact within h
  | @arguments _ name opening closing ts us word opens closes hts _ ihWithin ihRest =>
    have hopens := Nesting.step_of_less word opens n
    have hlevel := hts.run ((n.step name).step opening)
    have hcloses := Nesting.step_of_greater closes (((n.step name).step opening).run ts)
    refine List.forall_mem_cons.2 ⟨fun _ => .inl word.1, ?_⟩
    refine List.forall_mem_cons.2 ⟨fun _ => .inr (.inr opens), ?_⟩
    rw [Nesting.visited_append]
    refine List.forall_mem_append.2 ⟨ihWithin _ fun _ => by omega, ?_⟩
    refine List.forall_mem_cons.2 ⟨fun hangle => ?_, ihRest _ fun h => ?_⟩
    · exact absurd (show (((n.step name).step opening).run ts).angle = 0 from hangle) (by omega)
    · have := within h
      omega
  | @sign t _ flat _ ih =>
    have hstep := Nesting.step_of_flat flat n
    have hangle := within rfl
    refine List.forall_mem_cons.2 ⟨fun h => absurd h (Nat.pos_iff_ne_zero.1 hangle), ih _ fun _ => ?_⟩
    rw [hstep.2]
    exact hangle
  | @group opening closing ts us opens closes hts _ ihWithin ihRest =>
    have hopens := Nesting.step_of_opens opens n
    have hlevel := hts.run (n.step opening)
    have hcloses := Nesting.step_of_closes closes ((n.step opening).run ts)
    have hangle := within rfl
    refine List.forall_mem_cons.2 ⟨fun h => absurd h (Nat.pos_iff_ne_zero.1 hangle), ?_⟩
    rw [Nesting.visited_append]
    refine List.forall_mem_append.2 ⟨ihWithin _ fun _ => by omega, ?_⟩
    refine List.forall_mem_cons.2 ⟨fun h => ?_, ihRest _ fun _ => by omega⟩
    exact absurd (show ((n.step opening).run ts).angle = 0 from h) (by omega)

theorem kind_getLast (h : TypeWords inside ts) (outside : inside = false) :
    ∀ t ∈ ts.getLast?, t.kind = .ident ∨ t.kind = .scope ∨ t.kind = .greater := by
  induction h with
  | nil => rintro t ⟨⟩
  | @word _ t ts kind _ ih =>
    by_cases hts : ts = []
    · rw [hts]
      rintro t ⟨⟩
      exact kind.imp_right .inl
    · rw [List.getLast?_cons_of_ne_nil hts]
      exact ih outside
  | @arguments _ name opening closing ts us _ _ closes _ _ _ ihRest =>
    by_cases hus : us = []
    · rw [hus, ← List.cons_append, ← List.cons_append, List.getLast?_concat]
      rintro t ⟨⟩
      exact .inr (.inr closes)
    · rw [← List.cons_append, ← List.cons_append, List.append_cons, List.getLast?_append_of_ne_nil _ hus]
      exact ihRest outside
  | sign | group => cases outside

end TypeWords

/-! ### Initializers -/

/-- The brackets are balanced, there is no `<`, and commas stand in brackets, unless the whole does. -/
inductive Balanced : Bool → List Token → Prop where
  | nil {inside : Bool} : Balanced inside []
  | sign {inside : Bool} {t : Token} {ts : List Token}
      (single : t.kind.isSingle = true)
      (comma : t.kind = .comma → inside = true) (rest : Balanced inside ts) :
      Balanced inside (t :: ts)
  | group {inside : Bool} {opening closing : Token} {ts us : List Token}
      (opens : opening.kind.opens = true) (closes : closing.kind.closes = true)
      (within : Balanced true ts) (rest : Balanced inside us) :
      Balanced inside (opening :: (ts ++ closing :: us))

namespace Balanced
variable {inside : Bool} {ts us : List Token}

theorem append (h : Balanced inside ts) (hus : Balanced inside us) : Balanced inside (ts ++ us) := by
  induction h with
  | nil => exact hus
  | sign single comma _ ih => exact .sign single comma (ih hus)
  | group opens closes within _ _ ihRest =>
    rw [List.cons_append, List.append_assoc]
    exact .group opens closes within (ihRest hus)

/-- Signs that need no others are balanced. -/
theorem of_single (h : ∀ t ∈ ts, t.kind.isSingle = true ∧ (t.kind = .comma → inside = true)) :
    Balanced inside ts := by
  induction ts with
  | nil => exact .nil
  | cons t ts ih =>
    obtain ⟨ht, hts⟩ := List.forall_mem_cons.1 h
    exact .sign ht.1 ht.2 (ih hts)

theorem step_of_single {t : Token} (single : t.kind.isSingle = true) {n : Nesting}
    (flat : n.angle = 0) : (n.step t).depth = n.depth ∧ (n.step t).angle = 0 := by
  by_cases hgreater : t.kind = .greater
  · obtain ⟨hdepth, hangle⟩ := Nesting.step_of_greater hgreater n
    exact ⟨hdepth, by omega⟩
  · rw [← flat]
    exact Nesting.step_of_flat (by simp [TokenKind.isFlat, single, hgreater]) n

/-- Nothing is open behind balanced tokens that was not open before them. -/
theorem run (h : Balanced inside ts) {n : Nesting} (flat : n.angle = 0) :
    (n.run ts).depth = n.depth ∧ (n.run ts).angle = 0 := by
  induction h generalizing n with
  | nil => exact ⟨rfl, flat⟩
  | sign single _ _ ih =>
    have hstep := step_of_single single flat
    rw [← hstep.1]
    exact ih hstep.2
  | @group _ opening closing ts us opens closes _ _ ihWithin ihRest =>
    have hopens := Nesting.step_of_opens opens n
    have hwithin := ihWithin (n := n.step opening) (by omega)
    have hcloses := Nesting.step_of_closes closes ((n.step opening).run ts)
    have hrest := ihRest (n := ((n.step opening).run ts).step closing) (by omega)
    simp only [Nesting.run_cons, Nesting.run_append]
    omega

/-- Balanced tokens never close what was open before them, and a comma stands in brackets. -/
theorem visited (h : Balanced inside ts) {n : Nesting} (flat : n.angle = 0) :
    ∀ e ∈ n.visited ts, e.1.angle = 0 ∧ n.depth ≤ e.1.depth ∧
      (e.2.kind = .comma → inside = true ∨ n.depth < e.1.depth) := by
  induction h generalizing n with
  | nil => rintro e ⟨⟩
  | @sign _ t ts single comma _ ih =>
    have hstep := step_of_single single flat
    refine List.forall_mem_cons.2 ⟨⟨flat, le_rfl, fun h => .inl (comma h)⟩, ?_⟩
    rw [← hstep.1]
    exact ih hstep.2
  | @group _ opening closing ts us opens closes hts _ ihWithin ihRest =>
    have hopens := Nesting.step_of_opens opens n
    have hflat : (n.step opening).angle = 0 := by omega
    have hlevel := hts.run hflat
    have hcloses := Nesting.step_of_closes closes ((n.step opening).run ts)
    refine List.forall_mem_cons.2 ⟨⟨flat, le_rfl, fun h => ?_⟩, ?_⟩
    · rw [show opening.kind = .comma from h] at opens
      cases opens
    rw [Nesting.visited_append]
    refine List.forall_mem_append.2 ⟨fun e he => ?_, List.forall_mem_cons.2 ⟨?_, fun e he => ?_⟩⟩
    · obtain ⟨hangle, hdepth, -⟩ := ihWithin hflat e he
      exact ⟨hangle, by omega, fun _ => .inr (by omega)⟩
    · show ((n.step opening).run ts).angle = 0 ∧ n.depth ≤ ((n.step opening).run ts).depth ∧
        (closing.kind = .comma → _ ∨ n.depth < ((n.step opening).run ts).depth)
      exact ⟨hlevel.2, by omega, fun _ => .inr (by omega)⟩
    · obtain ⟨hangle, hdepth, hcomma⟩ := ihRest (n := ((n.step opening).run ts).step closing)
        (by omega) e he
      exact ⟨hangle, by omega, fun h => (hcomma h).imp_right (by omega)⟩

/-- Nothing in brackets stands at the top. -/
theorem findFrom_group {opening closing : Token} {kind : TokenKind} (opens : opening.kind.opens = true)
    (other : opening.kind ≠ kind) (h : Balanced true ts) {n : Nesting} (flat : n.angle = 0) :
    n.findFrom kind (opening :: (ts ++ [closing])) = none := by
  have hopens := Nesting.step_of_opens opens n
  have hflat : (n.step opening).angle = 0 := by omega
  have hdeep {m : Nesting} (hm : 0 < m.depth) : m.isTop = false := by
    simp [Nesting.isTop, Nat.pos_iff_ne_zero.1 hm]
  refine Nesting.findFrom_eq_none_iff.2 (List.forall_mem_cons.2 ⟨fun hk => absurd hk other, ?_⟩)
  rw [Nesting.visited_append]
  refine List.forall_mem_append.2 ⟨fun e he _ => hdeep ?_, List.forall_mem_cons.2 ⟨fun _ => hdeep ?_, ?_⟩⟩
  · have := (h.visited hflat e he).2.1
    omega
  · show 0 < ((n.step opening).run ts).depth
    have := (h.run hflat).1
    omega
  · rintro e ⟨⟩

end Balanced

/-! ### Parts between commas -/

/-- Between commas at the top the tokens are one part. -/
def IsPart (ts : List Token) : Prop :=
  ∀ n : Nesting, n.isTop = true → n.findFrom .comma ts = none ∧ (n.run ts).isTop = true

theorem Nesting.isTop_iff {n : Nesting} : n.isTop = true ↔ n.depth = 0 ∧ n.angle = 0 := by
  simp [isTop]

theorem IsPart.append {ts us : List Token} (hts : IsPart ts) (hus : IsPart us) : IsPart (ts ++ us) := by
  intro n hn
  obtain ⟨hnone, htop⟩ := hts n hn
  obtain ⟨hnone', htop'⟩ := hus _ htop
  rw [Nesting.findFrom_append hnone, hnone', Nesting.run_append]
  exact ⟨rfl, htop'⟩

/-- Outside argument lists a type has words only. -/
theorem TypeWords.findFrom_eq_none {kind : TokenKind} {ts : List Token} (h : TypeWords false ts)
    (sign : kind ≠ .ident ∧ kind ≠ .scope ∧ kind ≠ .less) (n : Nesting) :
    n.findFrom kind ts = none := by
  refine Nesting.findFrom_eq_none_iff.2 fun e he hkind => ?_
  by_contra htop
  have hangle := (Nesting.isTop_iff.1 (Bool.not_eq_false _ ▸ htop)).2
  have hword := h.kind_of_visited n (by simp) e he hangle
  rw [hkind] at hword
  exact hword.elim sign.1 (Or.elim · sign.2.1 sign.2.2)

theorem TypeWords.isPart {ts : List Token} (h : TypeWords false ts) : IsPart ts := by
  intro n hn
  refine ⟨h.findFrom_eq_none (by simp) n, ?_⟩
  rw [Nesting.isTop_iff] at hn ⊢
  rw [(h.run n).1, (h.run n).2]
  exact hn

theorem Balanced.isPart {ts : List Token} (h : Balanced false ts) : IsPart ts := by
  intro n hn
  obtain ⟨hdepth, hangle⟩ := Nesting.isTop_iff.1 hn
  constructor
  · refine Nesting.findFrom_eq_none_iff.2 fun e he hkind => ?_
    by_contra htop
    have htop := Nesting.isTop_iff.1 (Bool.not_eq_false _ ▸ htop)
    rcases (h.visited hangle e he).2.2 hkind with h | h
    · cases h
    · omega
  · rw [Nesting.isTop_iff, (h.run hangle).1, (h.run hangle).2]
    exact ⟨hdepth, rfl⟩

/-- Tokens with further ones behind signs. -/
def listed (first : List Token) (more : List (Token × List Token)) : List Token :=
  first ++ more.flatMap fun e => e.1 :: e.2

theorem Nesting.map_snd_partsFrom_listed {n : Nesting} {offset : Nat} {ts : List Token}
    {more : List (Token × List Token)} (hn : n.isTop = true) (first : IsPart ts)
    (rest : ∀ e ∈ more, e.1.kind = .comma ∧ IsPart e.2) :
    (partsFrom n offset (listed ts more)).map Prod.snd = ts :: more.map Prod.snd := by
  induction more generalizing n offset ts with
  | nil => rw [listed, List.flatMap_nil, List.append_nil, partsFrom_of_findFrom (first n hn).1]; rfl
  | cons e more ih =>
    obtain ⟨⟨hcomma, hpart⟩, hrest⟩ := List.forall_mem_cons.1 rest
    obtain ⟨hnone, htop⟩ := first n hn
    have hstep : ((n.run ts).step e.1).isTop = true := by
      have hflat := step_of_flat (t := e.1) (by rw [hcomma]; rfl) (n.run ts)
      rw [isTop_iff, hflat.1, hflat.2]
      exact isTop_iff.1 htop
    rw [listed, List.flatMap_cons, List.cons_append, partsFrom_append hnone htop hcomma,
      List.map_cons, List.map_cons]
    exact congrArg (ts :: ·) (ih hstep hpart hrest)

/-- Whatever the tokens are, they are the parts with commas between. -/
theorem Nesting.exists_listed (n : Nesting) (offset : Nat) (ts : List Token) :
    ∃ (first : List Token) (more : List (Token × List Token)), ts = listed first more ∧
      (partsFrom n offset ts).map Prod.snd = first :: more.map Prod.snd ∧
      ∀ e ∈ more, e.1.kind = .comma := by
  induction ts generalizing n offset with
  | nil => exact ⟨[], [], rfl, rfl, by simp⟩
  | cons t ts ih =>
    obtain ⟨first, more, hts, hparts, hmore⟩ := ih (n.step t) (offset + 1)
    rw [partsFrom]
    split
    · rename_i htop
      rw [Bool.and_eq_true, decide_eq_true_eq] at htop
      refine ⟨[], (t, first) :: more, ?_, ?_, List.forall_mem_cons.2 ⟨htop.1, hmore⟩⟩
      · rw [hts]
        rfl
      · rw [List.map_cons, hparts]
        rfl
    · refine ⟨t :: first, more, by rw [hts]; rfl, ?_, hmore⟩
      cases hlater : partsFrom (n.step t) (offset + 1) ts with
      | nil =>
        rw [hlater] at hparts
        cases hparts
      | cons part parts =>
        rw [hlater, List.map_cons, List.cons.injEq] at hparts
        rw [consToken, List.map_cons, hparts.2]
        exact congrArg (fun part => (t :: part) :: more.map Prod.snd) hparts.1

/-- **Commas at the top cut a list into its parts**, whatever stands in brackets. -/
theorem map_snd_commaParts_listed {ts : List Token} {more : List (Token × List Token)}
    (first : IsPart ts) (rest : ∀ e ∈ more, e.1.kind = .comma ∧ IsPart e.2) :
    (commaParts (listed ts more)).map Prod.snd = ts :: more.map Prod.snd :=
  Nesting.map_snd_partsFrom_listed rfl first rest

end AnnotatedHeader
