import AnnotatedHeader.Proofs.Statement.Nested

/-! Commas cut a list of tokens exactly.

`commaParts` cuts and `findTop?` searches, each with what is open counted on its own. Behind a
comma at the top both count from nothing again (`Nesting.IsFresh`), so a part reads the same
inside the list and by itself. `commaParts_exact`: the parts and the commas between them are the
list, each part stands at the place it is reported at, what is found first ends the first part,
and no part can be cut again. -/
namespace AnnotatedHeader

namespace Nesting
variable {n : Nesting} {t : Token} {ts : List Token} {kind : TokenKind}

/-! ### Counting from nothing -/

/-- Nothing is open, and a `<` would open nothing. -/
structure IsFresh (n : Nesting) : Prop where
  top : n.isTop = true
  less : n.angleMayOpen = false

theorem isFresh_start : IsFresh {} := ⟨rfl, rfl⟩

/-- A comma at the top leaves nothing behind. -/
theorem isFresh_step_comma (top : n.isTop = true) (comma : t.kind = .comma) : (n.step t).IsFresh := by
  obtain ⟨hdepth, hangle⟩ := step_of_flat (t := t) (by rw [comma]; rfl) n
  refine ⟨?_, ?_⟩
  · rw [isTop_iff, hdepth, hangle]
    exact isTop_iff.1 top
  · simp [angleMayOpen, comma]

/-- Where nothing is open it does not matter what has been read before. -/
theorem IsFresh.step_eq (h : n.IsFresh) (t : Token) : n.step t = step {} t := by
  obtain ⟨hdepth, hangle⟩ := isTop_iff.1 h.top
  have hless := h.less
  unfold step
  rw [hdepth, hangle, hless]
  rfl

theorem IsFresh.findFrom_eq (h : n.IsFresh) (kind : TokenKind) (ts : List Token) :
    n.findFrom kind ts = findTop? kind ts := by
  cases ts with
  | nil => rfl
  | cons t ts =>
    show (if t.kind = kind && n.isTop then some 0 else ((n.step t).findFrom kind ts).map (· + 1)) =
      if t.kind = kind && isTop {} then some 0 else ((step {} t).findFrom kind ts).map (· + 1)
    rw [h.step_eq, h.top]
    rfl

/-! ### The first sign at the top -/

theorem findFrom_eq_some_iff {i : Nat} :
    n.findFrom kind ts = some i ↔ ∃ before t behind, ts = before ++ t :: behind ∧ before.length = i ∧
      n.findFrom kind before = none ∧ t.kind = kind ∧ (n.run before).isTop = true := by
  constructor
  · intro h
    induction ts generalizing n i with
    | nil => cases h
    | cons t ts ih =>
      rw [findFrom] at h
      split at h
      · rename_i htop
        cases h
        rw [Bool.and_eq_true, decide_eq_true_eq] at htop
        exact ⟨[], t, ts, rfl, rfl, rfl, htop.1, htop.2⟩
      · rename_i hpass
        obtain ⟨j, hj, rfl⟩ := Option.map_eq_some_iff.1 h
        obtain ⟨before, t', behind, rfl, rfl, hnone, hkind, htop⟩ := ih hj
        refine ⟨t :: before, t', behind, rfl, rfl, ?_, hkind, htop⟩
        rw [findFrom, if_neg hpass, hnone, Option.map_none]
  · rintro ⟨before, t, behind, rfl, rfl, hnone, hkind, htop⟩
    rw [findFrom_append hnone, findFrom, if_pos (by simp [hkind, htop]), Option.map_some, Nat.zero_add]

/-! ### Every comma at the top -/

/-- The sign at this place is a comma, and nothing is open in front of it. -/
def IsTopComma (n : Nesting) (ts : List Token) (i : Nat) : Prop :=
  ∃ t ∈ ts[i]?, t.kind = .comma ∧ (n.run (ts.take i)).isTop = true

theorem isTopComma_zero : n.IsTopComma (t :: ts) 0 ↔ t.kind = .comma ∧ n.isTop = true := by
  constructor
  · rintro ⟨u, hu, h⟩
    obtain rfl : t = u := Option.some.inj hu
    exact h
  · intro h
    exact ⟨t, rfl, h⟩

theorem isTopComma_succ {i : Nat} : n.IsTopComma (t :: ts) (i + 1) ↔ (n.step t).IsTopComma ts i := Iff.rfl

/-- A part starts behind each comma at the top, and only there. -/
theorem exists_partsFrom (n : Nesting) (k : Nat) (ts : List Token) :
    ∃ part parts, partsFrom n k ts = (k, part) :: parts ∧ (∀ e ∈ parts, k < e.1) ∧
      ∀ i, n.IsTopComma ts i ↔ k + i + 1 ∈ parts.map Prod.fst := by
  induction ts generalizing n k with
  | nil => exact ⟨[], [], rfl, by simp, by simp [IsTopComma]⟩
  | cons t ts ih =>
    obtain ⟨part, parts, heq, hbehind, hplaces⟩ := ih (n.step t) (k + 1)
    rw [partsFrom, heq]
    split
    · rename_i htop
      rw [Bool.and_eq_true, decide_eq_true_eq] at htop
      refine ⟨[], _, rfl, List.forall_mem_cons.2 ⟨Nat.lt_succ_self k, fun e he => ?_⟩, fun i => ?_⟩
      · exact Nat.lt_of_succ_lt (hbehind e he)
      · rw [List.map_cons, List.mem_cons]
        cases i with
        | zero => exact iff_of_true (isTopComma_zero.2 htop) (.inl rfl)
        | succ i =>
          rw [isTopComma_succ, hplaces, show k + 1 + i + 1 = k + (i + 1) + 1 by omega]
          exact (or_iff_right (by omega)).symm
    · rename_i hpass
      refine ⟨t :: part, parts, rfl, fun e he => Nat.lt_of_succ_lt (hbehind e he), fun i => ?_⟩
      cases i with
      | zero =>
        refine iff_of_false (fun h => hpass ?_) fun h => ?_
        · simpa using isTopComma_zero.1 h
        · obtain ⟨e, he, hplace⟩ := List.mem_map.1 h
          exact absurd (hbehind e he) (by omega)
      | succ i => rw [isTopComma_succ, hplaces, show k + 1 + i + 1 = k + (i + 1) + 1 by omega]

end Nesting

/-! ### One cut after the other -/

/-- `parts` are the tokens between commas at the top, the first of them at place `k`. -/
inductive CutAtCommas : Nat → List Token → List (Nat × List Token) → Prop where
  | whole {k : Nat} {ts : List Token} (uncut : findTop? .comma ts = none) :
      CutAtCommas k ts [(k, ts)]
  | comma {k : Nat} {part rest : List Token} {sign : Token} {parts : List (Nat × List Token)}
      (is : sign.kind = .comma) (uncut : findTop? .comma part = none)
      (first : findTop? .comma (part ++ sign :: rest) = some part.length)
      (others : CutAtCommas (k + part.length + 1) rest parts) :
      CutAtCommas k (part ++ sign :: rest) ((k, part) :: parts)

theorem Nesting.IsFresh.cutAtCommas {n : Nesting} (h : n.IsFresh) (k : Nat) (ts : List Token) :
    CutAtCommas k ts (partsFrom n k ts) := by
  induction hlength : ts.length using Nat.strong_induction_on generalizing n k ts with
  | _ length ih =>
    cases hfind : n.findFrom .comma ts with
    | none =>
      rw [partsFrom_of_findFrom hfind]
      exact .whole (by rw [← h.findFrom_eq, hfind])
    | some i =>
      obtain ⟨part, sign, rest, rfl, rfl, hnone, hcomma, htop⟩ := findFrom_eq_some_iff.1 hfind
      have hshorter : rest.length < length := by
        rw [← hlength, List.length_append, List.length_cons]
        omega
      rw [partsFrom_append hnone htop hcomma]
      refine .comma hcomma ?_ ?_ (ih _ hshorter (isFresh_step_comma htop hcomma) _ rest rfl)
      · rw [← h.findFrom_eq, hnone]
      · rw [← h.findFrom_eq, hfind]

namespace CutAtCommas
variable {k : Nat} {ts : List Token} {parts : List (Nat × List Token)}

theorem ne_nil (h : CutAtCommas k ts parts) : parts ≠ [] := by
  cases h <;> exact List.cons_ne_nil _ _

theorem head? (h : CutAtCommas k ts parts) : parts.head?.map Prod.fst = some k := by
  cases h <;> rfl

theorem uncut (h : CutAtCommas k ts parts) : ∀ e ∈ parts, findTop? .comma e.2 = none := by
  induction h with
  | whole uncut => exact List.forall_mem_singleton.2 uncut
  | comma _ uncut _ _ ih => exact List.forall_mem_cons.2 ⟨uncut, ih⟩

/-- The parts with the commas between them are the tokens. -/
theorem exists_listed (h : CutAtCommas k ts parts) :
    ∃ first more, parts.map Prod.snd = first :: more.map Prod.snd ∧
      (∀ e ∈ more, e.1.kind = .comma) ∧ listed first more = ts := by
  induction h with
  | @whole k ts _ => exact ⟨ts, [], rfl, by simp, List.append_nil ts⟩
  | @comma k part rest sign parts is _ _ _ ih =>
    obtain ⟨first, more, hparts, hmore, hrest⟩ := ih
    refine ⟨part, (sign, first) :: more, ?_, List.forall_mem_cons.2 ⟨is, hmore⟩, ?_⟩
    · rw [List.map_cons, hparts, List.map_cons]
    · rw [← hrest]
      rfl

/-- A part is what stands at its place. -/
theorem sliced (h : CutAtCommas k ts parts) : ∀ e ∈ parts, k ≤ e.1 ∧
    e.1 - k + e.2.length ≤ ts.length ∧ (ts.drop (e.1 - k)).take e.2.length = e.2 := by
  induction h with
  | whole uncut => simp
  | @comma k part rest sign parts is uncut _ _ ih =>
    refine List.forall_mem_cons.2 ⟨by simp, fun e he => ?_⟩
    obtain ⟨hplace, hend, hslice⟩ := ih e he
    have hbehind : e.1 - k = part.length + (1 + (e.1 - (k + part.length + 1))) := by omega
    refine ⟨by omega, ?_, ?_⟩
    · rw [List.length_append, List.length_cons]
      omega
    · rw [hbehind, ← List.drop_drop, List.drop_left, ← List.drop_drop, List.drop_one, List.tail_cons]
      exact hslice

/-- From one part to the next it is one comma, and the last part ends with the tokens. -/
theorem chained (h : CutAtCommas k ts parts) :
    parts.IsChain (fun e next => next.1 = e.1 + e.2.length + 1) ∧
      ∀ e ∈ parts.getLast?, e.1 + e.2.length = k + ts.length := by
  induction h with
  | whole uncut => exact ⟨.singleton _, by simp⟩
  | @comma k part rest sign parts is uncut _ others ih =>
    obtain ⟨next, later, rfl⟩ := List.exists_cons_of_ne_nil others.ne_nil
    have hnext : next.1 = k + part.length + 1 := Option.some.inj others.head?
    refine ⟨ih.1.cons_cons hnext, fun e he => ?_⟩
    rw [List.getLast?_cons_cons] at he
    rw [ih.2 e he, List.length_append, List.length_cons]
    omega

/-- What is found first ends the first part. -/
theorem findTop?_eq (h : CutAtCommas k ts parts) : findTop? .comma ts =
    if parts.length = 1 then none else parts.head?.map (·.2.length) := by
  cases h with
  | whole uncut => exact uncut
  | comma is uncut first others =>
    rw [if_neg ?_, first]
    · rfl
    · rw [List.length_cons]
      have := List.length_pos_iff.2 others.ne_nil
      omega

end CutAtCommas

/-! ### The whole list -/

/-- What a list of tokens is to the parts that it is cut into. -/
structure CommaPartition (ts : List Token) (parts : List (Nat × List Token)) : Prop where
  /-- Put back with a comma between two parts, they are the list. -/
  rejoined : ∃ first more, parts.map Prod.snd = first :: more.map Prod.snd ∧
    (∀ e ∈ more, e.1.kind = .comma) ∧ listed first more = ts
  /-- Each is the slice of the list at its place. -/
  sliced : ∀ e ∈ parts, e.1 + e.2.length ≤ ts.length ∧ (ts.drop e.1).take e.2.length = e.2
  /-- They lie one comma apart, from the start of the list to its end. -/
  starts : parts.head?.map Prod.fst = some 0
  chained : parts.IsChain fun e next => next.1 = e.1 + e.2.length + 1
  ends : ∀ e ∈ parts.getLast?, e.1 + e.2.length = ts.length
  /-- Another part starts behind a comma at the top and nowhere else. -/
  commas : ∀ i, Nesting.IsTopComma {} ts i ↔ i + 1 ∈ parts.tail.map Prod.fst
  /-- The first comma that is found ends the first part. -/
  found : findTop? .comma ts = if parts.length = 1 then none else parts.head?.map (·.2.length)
  /-- By itself a part has no comma at the top and is its only part. -/
  uncut : ∀ e ∈ parts, findTop? .comma e.2 = none ∧ commaParts e.2 = [(0, e.2)]

/-- **Cutting at commas is an exact partition**, whatever is open or closed in the list. -/
theorem commaParts_exact (ts : List Token) : CommaPartition ts (commaParts ts) := by
  have hcut : CutAtCommas 0 ts (commaParts ts) := Nesting.isFresh_start.cutAtCommas 0 ts
  refine
    { rejoined := hcut.exists_listed
      sliced := fun e he => ?_
      starts := hcut.head?
      chained := hcut.chained.1
      ends := ?_
      commas := fun i => ?_
      found := hcut.findTop?_eq
      uncut := fun e he => ?_ }
  · obtain ⟨-, hend, hslice⟩ := hcut.sliced e he
    exact ⟨hend, hslice⟩
  · simpa using hcut.chained.2
  · obtain ⟨part, parts, heq, -, hplaces⟩ := Nesting.exists_partsFrom {} 0 ts
    rw [hplaces, commaParts, heq, List.tail_cons, Nat.zero_add]
  · have hnone := hcut.uncut e he
    exact ⟨hnone, Nesting.partsFrom_of_findFrom hnone⟩

end AnnotatedHeader
