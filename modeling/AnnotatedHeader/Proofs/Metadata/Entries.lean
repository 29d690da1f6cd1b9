import AnnotatedHeader.Metadata.Parse
import AnnotatedHeader.Proofs.Token.Written

/-! Reading metadata one entry at a time.

Parentheses in an entry balance, and its commas stand inside them: `depthAfter?` follows
them through the tokens. So an entry is split off whole (`splitTop?_append`), a group ends
where it should (`insideGroup?_append`), and reading the entries is reading the first and
then the others (`readEntries_flag`, `readEntries_value`). -/
namespace AnnotatedHeader

namespace Token

/-- The token with nothing known of its place. -/
def unplaced (t : Token) : Token := { t with line := 0 }

theorem needsSpace_unplaced (before : Option Token) (a b : Token) :
    needsSpace (before.map unplaced) a.unplaced b.unplaced = needsSpace before a b := by
  cases before <;> rfl

theorem joinAfter_unplaced (before : Option Token) (a : Token) (ts : List Token) :
    joinAfter (before.map unplaced) a.unplaced (ts.map unplaced) = joinAfter before a ts := by
  induction ts generalizing before a with
  | nil => rfl
  | cons b ts ih =>
    rw [List.map_cons, joinAfter, joinAfter, needsSpace_unplaced, ← ih (some a) b]
    rfl

theorem join_unplaced (ts : List Token) : join (ts.map unplaced) = join ts := by
  cases ts with
  | nil => rfl
  | cons a ts =>
    rw [List.map_cons, join, join, ← joinAfter_unplaced none a ts]
    rfl

/-- Where tokens stand does not matter to how they are joined. -/
theorem join_congr {ts ts' : List Token} (h : ts.map shape = ts'.map shape) :
    join ts = join ts' := by
  have hunplaced (ts : List Token) :
      ts.map unplaced = (ts.map shape).map fun s => ⟨s.1, s.2, 0⟩ := by
    rw [List.map_map]
    rfl
  rw [← join_unplaced ts, hunplaced, h, ← hunplaced, join_unplaced]

end Token

namespace Metadata

open Token

/-! ### Parentheses -/

/-- How many parentheses are open behind a token of this kind, of which `depth` were open
before it. There is no answer to one that closes and is not open, and with
`commas = false` none to a comma outside them all. -/
def depthBehind? (commas : Bool) : Nat → TokenKind → Option Nat
  | d, .lparen => some (d + 1)
  | 0, .rparen => none
  | d + 1, .rparen => some d
  | 0, .comma => if commas then some 0 else none
  | d, _ => some d

/-- The same behind all the tokens. -/
def depthAfter? (commas : Bool) (depth : Nat) (ks : List TokenKind) : Option Nat :=
  ks.foldlM (depthBehind? commas) depth

variable {commas : Bool} {d d' : Nat} {k : TokenKind} {ks ks' : List TokenKind}

theorem depthAfter?_cons :
    depthAfter? commas d (k :: ks) = some d' ↔
      ∃ e, depthBehind? commas d k = some e ∧ depthAfter? commas e ks = some d' := by
  unfold depthAfter?
  rw [List.foldlM_cons]
  exact Option.bind_eq_some_iff

theorem depthAfter?_append {e : Nat} (h : depthAfter? commas d ks = some e) (ks' : List TokenKind) :
    depthAfter? commas d (ks ++ ks') = depthAfter? commas e ks' := by
  unfold depthAfter? at h ⊢
  rw [List.foldlM_append, h]
  rfl

/-- Inside a parenthesis commas do not count. -/
theorem depthBehind?_succ (h : depthBehind? true d k = some d') :
    depthBehind? false (d + 1) k = some (d' + 1) := by
  cases d <;> cases k <;> simp_all [depthBehind?]

theorem depthBehind?_true (h : depthBehind? false d k = some d') : depthBehind? true d k = some d' := by
  cases d <;> cases k <;> simp_all [depthBehind?]
  subst h
  rfl

theorem depthAfter?_succ (h : depthAfter? true d ks = some d') :
    depthAfter? false (d + 1) ks = some (d' + 1) := by
  induction ks generalizing d with
  | nil => simpa [depthAfter?] using h
  | cons k ks ih =>
    obtain ⟨e, hk, hks⟩ := depthAfter?_cons.1 h
    exact depthAfter?_cons.2 ⟨e + 1, depthBehind?_succ hk, ih hks⟩

theorem depthAfter?_true (h : depthAfter? false d ks = some d') : depthAfter? true d ks = some d' := by
  induction ks generalizing d with
  | nil => exact h
  | cons k ks ih =>
    obtain ⟨e, hk, hks⟩ := depthAfter?_cons.1 h
    exact depthAfter?_cons.2 ⟨e, depthBehind?_true hk, ih hks⟩

theorem depthAfter?_of_plain (h : ∀ k ∈ ks, k ≠ .lparen ∧ k ≠ .rparen ∧ k ≠ .comma) :
    depthAfter? commas d ks = some d := by
  induction ks with
  | nil => rfl
  | cons k ks ih =>
    obtain ⟨hk, hks⟩ := List.forall_mem_cons.1 h
    refine depthAfter?_cons.2 ⟨d, ?_, ih hks⟩
    cases d <;> cases k <;> simp_all [depthBehind?]

/-- Tokens of a single entry. -/
def IsOneEntry (ts : List Token) : Prop := depthAfter? false 0 (ts.map (·.kind)) = some 0

/-! ### Splitting -/

theorem splitTop?_cons {t : Token} (h : depthBehind? false d t.kind = some d') (ts : List Token) :
    splitTop? d (t :: ts) = (splitTop? d' ts).map (consToken t) := by
  rw [splitTop?.eq_def]
  dsimp only
  cases d <;> cases hk : t.kind <;> simp_all [depthBehind?]
  subst h
  rfl

theorem splitTop?_append {ts : List Token} (h : depthAfter? false d (ts.map (·.kind)) = some d')
    (more : List Token) :
    splitTop? d (ts ++ more) = (splitTop? d' more).map fun ps => ts.foldr consToken ps := by
  induction ts generalizing d with
  | nil =>
    cases h
    simp
  | cons t ts ih =>
    obtain ⟨e, ht, hts⟩ := depthAfter?_cons.1 h
    rw [List.cons_append, splitTop?_cons ht, ih hts, Option.map_map]
    rfl

theorem foldr_consToken (ts p : List Token) (ps : List (List Token)) :
    ts.foldr consToken (p :: ps) = (ts ++ p) :: ps := by
  induction ts with
  | nil => rfl
  | cons t ts ih => rw [List.foldr_cons, ih]; rfl

theorem IsOneEntry.splitTop? {ts : List Token} (h : IsOneEntry ts) :
    splitTop? 0 ts = some [ts] := by
  have hsplit := splitTop?_append h []
  rw [List.append_nil] at hsplit
  rw [hsplit]
  simp [Metadata.splitTop?, foldr_consToken]

theorem IsOneEntry.splitTop?_append {ts : List Token} (h : IsOneEntry ts) {t : Token}
    (ht : t.kind = .comma) (more : List Token) :
    Metadata.splitTop? 0 (ts ++ t :: more) = (Metadata.splitTop? 0 more).map (ts :: ·) := by
  have hcomma : Metadata.splitTop? 0 (t :: more) = (Metadata.splitTop? 0 more).map ([] :: ·) := by
    rw [Metadata.splitTop?]
    simp [ht]
  rw [Metadata.splitTop?_append h, hcomma, Option.map_map]
  refine congrArg (Option.map · _) (funext fun ps => ?_)
  exact (foldr_consToken ts [] ps).trans (by rw [List.append_nil])

theorem insideGroup?_cons {t : Token} (h : depthBehind? true d t.kind = some d') (ts : List Token) :
    insideGroup? d (t :: ts) = (insideGroup? d' ts).map (t :: ·) := by
  rw [insideGroup?.eq_def]
  dsimp only
  cases d <;> cases hk : t.kind <;> simp_all [depthBehind?]

theorem insideGroup?_append {ts : List Token} (h : depthAfter? true d (ts.map (·.kind)) = some d')
    (more : List Token) : insideGroup? d (ts ++ more) = (insideGroup? d' more).map (ts ++ ·) := by
  induction ts generalizing d with
  | nil =>
    cases h
    simp
  | cons t ts ih =>
    obtain ⟨e, ht, hts⟩ := depthAfter?_cons.1 h
    rw [List.cons_append, insideGroup?_cons ht, ih hts, Option.map_map]
    rfl

theorem group?_of_parens {inside : List Token} {opening closing : Token} (ho : opening.kind = .lparen)
    (hc : closing.kind = .rparen) (h : depthAfter? true 0 (inside.map (·.kind)) = some 0) :
    group? (opening :: (inside ++ [closing])) = some inside := by
  have hend : insideGroup? 0 [closing] = some [] := by
    simp [insideGroup?, hc]
  rw [group?, if_pos ho, insideGroup?_append h, hend, Option.map_some, List.append_nil]

theorem exists_singleton_of_consToken {t : Token} {p : List Token} {ps : List (List Token)}
    (hps : ps ≠ []) (h : consToken t ps = [p]) : ∃ q, ps = [q] := by
  cases ps with
  | nil => exact absurd rfl hps
  | cons q qs =>
    cases h
    exact ⟨q, rfl⟩

theorem eq_of_depthBehind?_eq_none (h : depthBehind? false d k = none) :
    d = 0 ∧ (k = .comma ∨ k = .rparen) := by
  cases d <;> cases k <;> simp_all [depthBehind?]

theorem depthBehind?_of_splitTop? {t : Token} {ts p : List Token} (h : splitTop? d (t :: ts) = some [p]) :
    ∃ e, depthBehind? false d t.kind = some e ∧ ∃ q, splitTop? e ts = some [q] := by
  cases hdepth : depthBehind? false d t.kind with
  | some e =>
    rw [splitTop?_cons hdepth] at h
    obtain ⟨qs, hqs, hcons⟩ := Option.map_eq_some_iff.1 h
    obtain ⟨q, rfl⟩ := exists_singleton_of_consToken (length_splitTop? hqs).1 hcons
    exact ⟨e, rfl, q, hqs⟩
  | none =>
    obtain ⟨rfl, hk⟩ := eq_of_depthBehind?_eq_none hdepth
    rcases hk with hk | hk
    · simp only [splitTop?, hk] at h
      obtain ⟨qs, hqs, hcons⟩ := Option.map_eq_some_iff.1 h
      exact absurd (List.cons.inj hcons).2 (length_splitTop? hqs).1
    · simp [splitTop?, hk] at h

/-- What is not split is one entry. -/
theorem depthAfter?_of_splitTop? {ts p : List Token} (h : splitTop? d ts = some [p]) :
    depthAfter? false d (ts.map (·.kind)) = some 0 := by
  induction ts generalizing d p with
  | nil =>
    unfold splitTop? at h
    split at h
    · rename_i hd
      subst hd
      rfl
    · cases h
  | cons t ts ih =>
    obtain ⟨e, ht, q, hq⟩ := depthBehind?_of_splitTop? h
    exact depthAfter?_cons.2 ⟨e, ht, ih hq⟩

/-! ### Entries -/

theorem takeWhile_of_plain {ts : List Token} (h : ∀ t ∈ ts, t.kind ≠ .equals) (more : List Token) :
    (ts ++ more).takeWhile (!isEquals ·) = ts ++ more.takeWhile (!isEquals ·) ∧
      (ts ++ more).dropWhile (!isEquals ·) = more.dropWhile (!isEquals ·) := by
  have hplain : ∀ t ∈ ts, (!isEquals t) = true := fun t ht => by simpa [isEquals] using h t ht
  exact ⟨List.takeWhile_append_of_pos hplain, List.dropWhile_append_of_pos hplain⟩

theorem readEntries_flag {ts : List Token} (hne : ts ≠ []) (plain : ∀ t ∈ ts, t.kind ≠ .equals)
    (parts : List (List Token)) :
    readEntries (ts :: parts) = (readEntries parts).map ((join ts, .flag) :: ·) := by
  obtain ⟨htake, hdrop⟩ := takeWhile_of_plain plain []
  rw [List.append_nil] at htake hdrop
  rw [readEntries, if_neg (by simpa using hne)]
  split
  · rw [htake]
    simp
  · rename_i hrest
    rw [hdrop] at hrest
    cases hrest

theorem readEntries_value {ks vs : List Token} {equals : Token} {v : MetaValue}
    (hequals : equals.kind = .equals) (plain : ∀ t ∈ ks, t.kind ≠ .equals) (hkey : join ks ≠ "")
    (hvs : vs ≠ []) (hv : readValue vs = .ok v) (parts : List (List Token)) :
    readEntries ((ks ++ equals :: vs) :: parts) =
      (readEntries parts).map ((join ks, v) :: ·) := by
  obtain ⟨htake, hdrop⟩ := takeWhile_of_plain plain (equals :: vs)
  rw [List.takeWhile_cons_of_neg (by simp [isEquals, hequals]), List.append_nil] at htake
  rw [List.dropWhile_cons_of_neg (by simp [isEquals, hequals])] at hdrop
  rw [readEntries, if_neg (by simp)]
  split
  · rename_i hrest
    rw [hdrop] at hrest
    cases hrest
  · rename_i value hrest
    rw [hdrop] at hrest
    cases hrest
    rw [htake]
    dsimp only
    rw [if_neg (by simpa using hkey), if_neg (by simpa using hvs), hv]
    cases readEntries parts <;> rfl

theorem valueText_eq_join {ts : List Token} (h : ∀ t ∈ ts, t.kind ≠ .string) :
    valueText ts = join ts := by
  unfold valueText
  split
  · rename_i t
    rw [if_neg (h t (List.mem_singleton_self t))]
    simp [join, joinAfter]
  · rfl

theorem readValue_text {ts : List Token} (h : ∀ t ∈ ts.head?, t.kind ≠ .lparen) :
    readValue ts = .ok (.text (valueText ts)) := by
  have hgroup : group? ts = none := by
    cases ts with
    | nil => rfl
    | cons t ts => rw [group?, if_neg (h t rfl)]
  rw [readValue]
  split
  · rename_i hsome
    rw [hgroup] at hsome
    cases hsome
  · rfl

theorem readValue_group {inside : List Token} {opening closing : Token} (ho : opening.kind = .lparen)
    (hc : closing.kind = .rparen) (h : depthAfter? true 0 (inside.map (·.kind)) = some 0) :
    readValue (opening :: (inside ++ [closing])) = (read inside).map .group := by
  have hgroup := group?_of_parens ho hc h
  rw [readValue]
  split
  · rename_i hsome
    rw [hgroup] at hsome
    cases hsome
    rfl
  · rename_i hnone
    rw [hgroup] at hnone
    cases hnone

end Metadata

end AnnotatedHeader
