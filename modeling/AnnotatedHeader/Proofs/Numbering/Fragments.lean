import AnnotatedHeader.Proofs.Numbering.Scopes
import AnnotatedHeader.Proofs.Scope.Blame
import AnnotatedHeader.Proofs.Token.Places

/-! Fragments whose lines come from anywhere.

The lines of a fragment are numbered in a row, wherever in a header they stand. With the numbers
that they have there the fragment is read the same way, only that what is found has those lines
(`Declaration.exists_renumber_ofFragmentOn`). So a fragment that fails, fails for the same macro
with either, and the two lines say where that macro is in the fragment and where it is in the
header (`Declaration.exists_line_of_ofFragment`). -/
namespace AnnotatedHeader

/-- Numbers that increase can be continued. -/
theorem exists_strictMono_of_pairwise {numbers : List Nat} (h : numbers.Pairwise (· < ·)) :
    ∃ g : Nat → Nat, StrictMono g ∧ ∀ k n, numbers[k]? = some n → g k = n := by
  refine ⟨fun k => if hk : k < numbers.length then numbers[k] else numbers.sum + k, ?_, ?_⟩
  · refine strictMono_nat_of_lt_succ fun k => ?_
    by_cases hnext : k + 1 < numbers.length
    · rw [dif_pos (Nat.lt_of_succ_lt hnext), dif_pos hnext]
      exact List.pairwise_iff_getElem.1 h k (k + 1) _ hnext (Nat.lt_succ_self k)
    · rw [dif_neg hnext]
      split
      · rename_i hk
        have hle := List.le_sum_of_mem (List.getElem_mem hk)
        omega
      · omega
  · intro k n hn
    obtain ⟨hk, rfl⟩ := List.getElem?_eq_some_iff.1 hn
    exact dif_pos hk

theorem Cause.renumbered_of_macroName? {g : Nat → Nat} {cause : Cause} {name : String}
    (h : cause.macroName? = some name) : cause.renumbered g = cause := by
  cases cause <;> first | rfl | cases h

/-- The tokens of a text whose lines have these numbers. -/
def Token.tokenizeOn (text : String) (numbers : List Nat) : List Token :=
  (tokenize text 0).map fun t => { t with line := numbers.getD t.line 0 }

namespace Declaration

/-- What code declares in the body of the record at `owner` when its lines have these numbers. -/
def ofFragmentOn (text : String) (numbers : List Nat) (owner : String) :
    Except Fault (List Declaration) :=
  ((Scope.ofFragment owner).read ((Token.tokenizeOn text numbers).map .token)).result.map
    (·.declarations)

variable {lines : List String} {numbers : List Nat} {owner : String} {first : Nat} {f : Fault}

theorem result_ofFragment (text : String) (first : Nat) (owner : String) :
    (ofFragment text first owner).result =
      ((Scope.ofFragment owner).read ((Token.tokenize text first).map .token)).result.map
        (·.declarations) := by
  unfold ofFragment
  rw [Outcome.result_bind, Outcome.result_noteAll]
  show ((Scope.ofFragment owner).read _ >>= _ : Outcome _).result = _
  rw [Outcome.result_bind]
  cases ((Scope.ofFragment owner).read ((Token.tokenize text first).map .token)).result <;> rfl

/-- Other numbers for a fragment's lines, if they increase too, are all that changes. -/
theorem exists_renumber_ofFragmentOn (hlines : ∀ l ∈ lines, '\n' ∉ l.toList)
    (increasing : numbers.Pairwise (· < ·)) (enough : lines.length ≤ numbers.length)
    (owner : String) :
    ∃ g : Nat → Nat, (∀ k n, numbers[k]? = some n → g k = n) ∧
      ofFragmentOn (Text.joinLines lines) numbers owner =
        renumber g (ofFragment (Text.joinLines lines) 0 owner).result := by
  obtain ⟨g, hg, hnumbers⟩ := exists_strictMono_of_pairwise increasing
  refine ⟨g, hnumbers, ?_⟩
  have htokens : (Token.tokenizeOn (Text.joinLines lines) numbers).map Piece.token =
      ((Token.tokenize (Text.joinLines lines) 0).map Piece.token).map (renumber g) := by
    unfold Token.tokenizeOn
    rw [List.map_map, List.map_map]
    refine List.map_congr_left fun t ht => ?_
    obtain ⟨k, l, hl, hline, -⟩ := Token.exists_line_of_mem_tokenize hlines ht
    have hk : t.line < numbers.length := by
      have hlt := (List.getElem?_eq_some_iff.1 hl).1
      omega
    have hnumber : numbers.getD t.line 0 = g t.line := by
      rw [List.getD_eq_getElem _ _ hk, hnumbers _ _ (List.getElem?_eq_getElem hk)]
    exact congrArg (fun line => Piece.token { t with line }) hnumber
  unfold ofFragmentOn
  rw [htokens, Scope.result_read_renumber hg, result_ofFragment]
  cases ((Scope.ofFragment owner).read ((Token.tokenize (Text.joinLines lines) 0).map .token)).result
    <;> rfl

theorem exists_at_of_ofFragment {text : String}
    (h : (ofFragment text first owner).result = .error f) :
    ∃ t ∈ Token.tokenize text first, f.At (.token t) := by
  rw [result_ofFragment, Scope.result_read] at h
  cases hread : Scope.readOn (.ofFragment owner) (Scope.ofFragment owner).start
      ((Token.tokenize text first).map .token) with
  | ok found =>
    rw [hread] at h
    cases h
  | error e =>
    rw [hread] at h
    cases h
    obtain ⟨p, hp, hat⟩ := Scope.exists_at_of_readOn hread
    obtain ⟨t, ht, rfl⟩ := List.mem_map.1 hp
    exact ⟨t, ht, hat⟩

/-- **A fragment that fails** does so at a macro, and with other numbers for its lines it fails at
the same one. -/
theorem exists_line_of_ofFragment (hlines : ∀ l ∈ lines, '\n' ∉ l.toList)
    (h : (ofFragment (Text.joinLines lines) first owner).result = .error f) :
    ∃ k l name, lines[k]? = some l ∧ f.line = first + k ∧ f.cause.macroName? = some name ∧
      name.toList <:+: l.toList ∧
      ∀ numbers : List Nat, numbers.Pairwise (· < ·) → lines.length ≤ numbers.length →
        ∀ n, numbers[k]? = some n →
          ofFragmentOn (Text.joinLines lines) numbers owner = .error ⟨n, f.cause⟩ := by
  have hsteps : Steps (fun n => first + n) 0 ((Text.joinLines lines).toList.count '\n') :=
    fun j _ => (Nat.add_assoc first 0 j).symm
  have hfirst := result_ofFragment_renumber (fun _ _ h => Nat.add_lt_add_left h first) hsteps owner
  rw [Nat.add_zero, h] at hfirst
  cases hzero : (ofFragment (Text.joinLines lines) 0 owner).result with
  | ok ds =>
    rw [hzero] at hfirst
    cases hfirst
  | error e =>
    rw [hzero] at hfirst
    obtain ⟨t, ht, hat⟩ := exists_at_of_ofFragment hzero
    obtain ⟨k, l, hl, hline, hinfix⟩ := Token.exists_line_of_mem_tokenize hlines ht
    cases hat with
    | @atMacro _ cause _ named =>
      have hcause (g : Nat → Nat) : renumber g cause = cause := Cause.renumbered_of_macroName? named
      rw [Nat.zero_add] at hline
      have hf : f = ⟨first + k, cause⟩ := by
        rw [renumber_error] at hfirst
        injection hfirst with hfirst
        rw [hfirst, ← hline]
        exact congrArg (Fault.mk _) (hcause _)
      subst hf
      refine ⟨k, l, t.text, hl, rfl, named, hinfix, fun numbers increasing enough n hn => ?_⟩
      obtain ⟨g, hg, hon⟩ := exists_renumber_ofFragmentOn hlines increasing enough owner
      rw [hon, hzero, renumber_error, ← hg k n hn, ← hline]
      exact congrArg (fun cause => Except.error (Fault.mk (g t.line) cause)) (hcause g)

end Declaration

end AnnotatedHeader
