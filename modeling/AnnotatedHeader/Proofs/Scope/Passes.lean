import AnnotatedHeader.Proofs.EnumBody
import AnnotatedHeader.Proofs.Scope.Markers

/-! Scopes are read in finitely many passes.

The loop over a scope's items and the loop over an enum's entries are made of passes, and a
pass fails, ends its loop or goes on at a position further on. Some readers may leave
everything where it is — a statement does at a closing brace, an entry at a comma is empty, a
namespace's name ends at a doc block — but the passes call them where they do not
(`MakesProgress`). So a loop takes no more passes than there are pieces, and reading that gives
up after one more than that many, one inside another, never gives up (`reading_ends`). -/
namespace AnnotatedHeader

variable {σ α : Type} {all ps rest : List Piece} {p : Piece} {k n : Nat}

/-! ### Positions -/

/-- The pieces stand in `all` at position `k` or behind it. -/
def StandsFrom (all : List Piece) (k : Nat) (rest : List Piece) : Prop :=
  ∃ k', k ≤ k' ∧ k' ≤ all.length ∧ all.drop k' = rest

theorem StandsFrom.mono {m : Nat} (h : StandsFrom all m rest) (hle : k ≤ m) :
    StandsFrom all k rest := by
  obtain ⟨k', hm, hk', hrest⟩ := h
  exact ⟨k', Nat.le_trans hle hm, hk', hrest⟩

theorem standsFrom_of_suffix (hk : k ≤ all.length) (hrest : rest <:+ all.drop k) :
    StandsFrom all k rest := by
  obtain ⟨front, hfront⟩ := hrest
  have hlength : front.length + rest.length = all.length - k := by
    rw [← List.length_append, hfront, List.length_drop]
  refine ⟨k + front.length, Nat.le_add_right .., by omega, ?_⟩
  rw [← List.drop_drop, ← hfront, List.drop_left]

theorem length_of_drop (hat : all.drop k = p :: ps) : all.length = k + 1 + ps.length := by
  have hlength := congrArg List.length hat
  rw [List.length_drop, List.length_cons] at hlength
  omega

/-- What is behind the piece at a position is further on. -/
theorem standsFrom_succ (hat : all.drop k = p :: ps) (hrest : rest <:+ ps) :
    StandsFrom all (k + 1) rest := by
  have hlength := length_of_drop hat
  refine standsFrom_of_suffix (by omega) ?_
  rw [← List.drop_drop, hat]
  exact hrest

/-! ### Passes -/

/-- What one pass of a loop comes to. -/
inductive Pass (σ α : Type) where
  | ends (found : α) (rest : List Piece)
  | goesOn (state : σ) (rest : List Piece)

namespace Pass

/-- A pass from position `k` fails, ends its loop or goes on further on. -/
def Progresses (all : List Piece) (k : Nat) : Except Fault (Pass σ α) → Prop
  | .error _ => True
  | .ok (.ends _ rest) => StandsFrom all k rest
  | .ok (.goesOn _ rest) => StandsFrom all (k + 1) rest

theorem progresses_ends {x : Except Fault α} (h : StandsFrom all k rest) :
    Progresses all k (x.map fun found => (.ends found rest : Pass σ α)) := by
  cases x with
  | error e => exact trivial
  | ok found => exact h

theorem progresses_goesOn {β : Type} {x : Except Fault β} {state : β → σ} {rest : β → List Piece}
    (h : ∀ e, x = .ok e → StandsFrom all (k + 1) (rest e)) :
    Progresses all k (x.map fun e => (.goesOn (state e) (rest e) : Pass σ α)) := by
  cases x with
  | error e => exact trivial
  | ok e => exact h e rfl

/-- What a loop comes to from a pass on, when `read` is what it comes to from a state on. -/
def continued (read : σ → List Piece → Except Fault (α × List Piece)) :
    Pass σ α → Except Fault (α × List Piece)
  | .ends found rest => .ok (found, rest)
  | .goesOn b rest => read b rest

/-- The loop, given up after so many passes. -/
def loop (pass : σ → List Piece → Except Fault (Pass σ α)) :
    Nat → σ → List Piece → Option (Except Fault (α × List Piece))
  | 0, _, _ => none
  | fuel + 1, b, ps =>
    match pass b ps with
    | .error e => some (.error e)
    | .ok (.ends found rest) => some (.ok (found, rest))
    | .ok (.goesOn b rest) => loop pass fuel b rest

/-- So many passes in a row, each from where the one before it has left off. -/
inductive Chain (pass : σ → List Piece → Except Fault (Pass σ α)) :
    Nat → σ → List Piece → σ → List Piece → Prop where
  | zero (b : σ) (ps : List Piece) : Chain pass 0 b ps b ps
  | succ {n : Nat} {b b' b'' : σ} {ps rest rest' : List Piece}
      (first : pass b ps = .ok (.goesOn b' rest)) (others : Chain pass n b' rest b'' rest') :
      Chain pass (n + 1) b ps b'' rest'

variable {pass : σ → List Piece → Except Fault (Pass σ α)} {b b' : σ}

/-- Each pass of a chain takes a piece at least. -/
theorem Chain.standsFrom (h : Chain pass n b (all.drop k) b' rest) (hk : k ≤ all.length)
    (hpass : ∀ k b, k ≤ all.length → Progresses all k (pass b (all.drop k))) :
    StandsFrom all (k + n) rest := by
  generalize hps : all.drop k = ps at h
  induction h generalizing k with
  | zero b ps => exact ⟨k, Nat.le_refl k, hk, hps⟩
  | succ first others ih =>
    rename_i b _ _ _ _ _
    have hfirst := hpass k b hk
    rw [hps, first] at hfirst
    obtain ⟨k', hle, hk', hrest⟩ := hfirst
    exact (ih hk' hrest).mono (by omega)

/-- A loop of passes that progress comes to its end in one more pass than there are pieces. -/
theorem loop_eq {read : σ → List Piece → Except Fault (α × List Piece)}
    (hread : ∀ b ps, read b ps = pass b ps >>= continued read)
    (hpass : ∀ all k b, k ≤ all.length → Progresses all k (pass b (all.drop k)))
    {fuel : Nat} (hfuel : ps.length < fuel) : loop pass fuel b ps = some (read b ps) := by
  induction fuel generalizing b ps with
  | zero => exact absurd hfuel (Nat.not_lt_zero _)
  | succ fuel ih =>
    rw [loop, hread]
    have hfirst := hpass ps 0 b (Nat.zero_le _)
    rw [List.drop_zero] at hfirst
    cases htaken : pass b ps with
    | error e => rfl
    | ok taken =>
      rw [htaken] at hfirst
      cases taken with
      | ends found rest => rfl
      | goesOn b' rest =>
        obtain ⟨k', hle, hk', hrest⟩ := hfirst
        have hlength : rest.length = ps.length - k' := by rw [← hrest, List.length_drop]
        exact ih (by omega)

end Pass

/-! ### Entries of an enum -/

namespace EnumBody

/-- One pass of the loop over an enum's entries, with the variants and the doc block met
before. An entry is read from a token that neither ends the body nor separates entries. -/
def pass (path : String) : List Declaration × Option DocBlock → List Piece →
    Except Fault (Pass (List Declaration × Option DocBlock) (List Declaration))
  | (members, _), [] => .ok (.ends members [])
  | (members, _), .doc block :: ps => .ok (.goesOn (members, some block) ps)
  | _, .inject proxy line :: _ => .error ⟨line, .misplacedInject proxy⟩
  | (members, doc), .token t :: ps =>
    match t.kind with
    | .rbrace => .ok (.ends members ps)
    | .comma => .ok (.goesOn (members, doc) ps)
    | _ =>
      let entry := entryTokens 0 (.token t :: ps)
      (addEntry path members doc entry.1).result.map fun members => .goesOn (members, none) entry.2

theorem pass_of_entry {t : Token} (hbrace : t.kind ≠ .rbrace) (hcomma : t.kind ≠ .comma)
    (path : String) (members : List Declaration) (doc : Option DocBlock) (ps : List Piece) :
    pass path (members, doc) (.token t :: ps) =
      (addEntry path members doc (t :: (entryTokens (bracketDepth 0 t.kind) ps).1)).result.map
        fun members => .goesOn (members, none) (entryTokens (bracketDepth 0 t.kind) ps).2 := by
  rw [pass]
  split
  · exact absurd ‹_› hbrace
  · exact absurd ‹_› hcomma
  · rw [entryTokens_token (absurd · hcomma) (absurd · hbrace)]

/-- The loop over the entries is made of its passes. -/
theorem result_read (path : String) (b : List Declaration × Option DocBlock) (ps : List Piece) :
    (read path b.1 b.2 ps).result =
      pass path b ps >>= Pass.continued fun b ps => (read path b.1 b.2 ps).result := by
  obtain ⟨members, doc⟩ := b
  match ps with
  | [] =>
    rw [read]
    rfl
  | .doc block :: ps =>
    rw [read]
    rfl
  | .inject proxy line :: ps =>
    rw [read]
    rfl
  | .token t :: ps =>
    rw [read]
    split <;> rename_i hkind
    · rw [pass, hkind]
      rfl
    · rw [pass, hkind]
      rfl
    · rename_i hbrace
      rw [pass_of_entry hbrace hkind, Outcome.result_bind]
      cases (addEntry path members doc
        (t :: (entryTokens (bracketDepth 0 t.kind) ps).1)).result with
      | error e => rfl
      | ok found => rfl

theorem progresses_pass (path : String) (b : List Declaration × Option DocBlock)
    (hk : k ≤ all.length) : Pass.Progresses all k (pass path b (all.drop k)) := by
  obtain ⟨members, doc⟩ := b
  cases hat : all.drop k with
  | nil => exact ⟨k, Nat.le_refl k, hk, hat⟩
  | cons p ps =>
    cases p with
    | doc block => exact standsFrom_succ hat (List.suffix_refl ps)
    | inject proxy line => exact trivial
    | token t =>
      by_cases hbrace : t.kind = .rbrace
      · rw [pass, hbrace]
        exact (standsFrom_succ hat (List.suffix_refl ps)).mono (Nat.le_succ k)
      by_cases hcomma : t.kind = .comma
      · rw [pass, hcomma]
        exact standsFrom_succ hat (List.suffix_refl ps)
      rw [pass_of_entry hbrace hcomma]
      exact Pass.progresses_goesOn fun _ _ => standsFrom_succ hat (entryTokens_suffix ..)

end EnumBody

/-! ### Items of a scope -/

namespace Scope

/-- What a turn comes to when the scope that it may open has been read. -/
def completed (s : Scope) (b : State) : Turn → Except Fault (Pass State Contents)
  | .closes rest => (s.finish b).result.map (.ends · rest)
  | .continues b rest => .ok (.goesOn b rest)
  | .opens inner frame rest =>
    (readOn inner inner.start rest).map fun e => .goesOn (frame.resumed e.1) e.2

/-- One pass of the loop over a scope's items. -/
def pass (s : Scope) (b : State) : List Piece → Except Fault (Pass State Contents)
  | [] => (s.finish b).result.map (.ends · [])
  | p :: ps => (turn s b p ps).result >>= s.completed b

/-- The loop over the items is made of its passes. -/
theorem readOn_eq_pass (s : Scope) (b : State) (ps : List Piece) :
    readOn s b ps = s.pass b ps >>= Pass.continued (readOn s) := by
  cases ps with
  | nil =>
    rw [readOn_nil, pass]
    cases (s.finish b).result with
    | error e => rfl
    | ok found => rfl
  | cons p ps =>
    rw [readOn_cons, pass]
    cases (turn s b p ps).result with
    | error e => rfl
    | ok t =>
      cases t with
      | closes rest =>
        show (s.finish b).result.map _ = (s.finish b).result.map _ >>= _
        cases (s.finish b).result with
        | error e => rfl
        | ok found => rfl
      | continues b' rest => rfl
      | opens inner frame rest =>
        show (readOn inner inner.start rest >>= fun e => readOn s (frame.resumed e.1) e.2) =
          (readOn inner inner.start rest).map _ >>= _
        cases readOn inner inner.start rest with
        | error e => rfl
        | ok e => rfl

/-- A reader that leaves what is behind the piece at a position makes a pass progress. -/
theorem progresses_completed (s : Scope) (b : State) {x : Outcome Turn} (hat : all.drop k = p :: ps)
    (hx : ∀ t, x.result = .ok t → t.rest <:+ ps) :
    Pass.Progresses all k (x.result >>= s.completed b) := by
  cases htaken : x.result with
  | error e => exact trivial
  | ok t =>
    have hrest := hx t htaken
    cases t with
    | closes rest => exact Pass.progresses_ends ((standsFrom_succ hat hrest).mono (Nat.le_succ k))
    | continues b' rest => exact standsFrom_succ hat hrest
    | opens inner frame rest =>
      exact Pass.progresses_goesOn fun _ hinside =>
        standsFrom_succ hat ((readOn_suffix hinside).trans hrest)

theorem progresses_pass (s : Scope) (b : State) (hk : k ≤ all.length) :
    Pass.Progresses all k (s.pass b (all.drop k)) := by
  cases hat : all.drop k with
  | nil => exact Pass.progresses_ends ⟨k, Nat.le_refl k, hk, hat⟩
  | cons p ps => exact progresses_completed s b hat fun _ => turn_suffix

/-- Reading a scope, given up when scopes and passes are nested deeper than the fuel. -/
def readWithin : Nat → Scope → State → List Piece → Option (Except Fault (Contents × List Piece))
  | 0, _, _, _ => none
  | _ + 1, s, b, [] => some ((s.finish b).result.map fun found => (found, []))
  | fuel + 1, s, b, p :: ps =>
    match (turn s b p ps).result with
    | .error e => some (.error e)
    | .ok (.closes rest) => some ((s.finish b).result.map fun found => (found, rest))
    | .ok (.continues b rest) => readWithin fuel s b rest
    | .ok (.opens inner frame rest) =>
      match readWithin fuel inner inner.start rest with
      | some (.ok (within, rest)) => readWithin fuel s (frame.resumed within) rest
      | other => other

theorem readWithin_eq {fuel : Nat} (hfuel : ps.length < fuel) (s : Scope) (b : State) :
    readWithin fuel s b ps = some (readOn s b ps) := by
  induction fuel generalizing s b ps with
  | zero => exact absurd hfuel (Nat.not_lt_zero _)
  | succ fuel ih =>
    cases ps with
    | nil => rw [readWithin, readOn_nil]
    | cons p ps =>
      have hps : ps.length < fuel := Nat.lt_of_succ_lt_succ hfuel
      rw [readWithin, readOn_cons]
      cases htaken : (turn s b p ps).result with
      | error e => rfl
      | ok t =>
        have hrest := (turn_suffix htaken).length_le
        cases t with
        | closes rest => rfl
        | continues b' rest => exact ih (Nat.lt_of_le_of_lt hrest hps) s b'
        | opens inner frame rest =>
          have hinside : readWithin fuel inner inner.start rest =
              some (readOn inner inner.start rest) := ih (Nat.lt_of_le_of_lt hrest hps) _ _
          show (match readWithin fuel inner inner.start rest with
            | some (.ok (within, rest)) => readWithin fuel s (frame.resumed within) rest
            | other => other) =
            some (readOn inner inner.start rest >>= fun e => readOn s (frame.resumed e.1) e.2)
          rw [hinside]
          cases hread : readOn inner inner.start rest with
          | error e => rfl
          | ok e =>
            have hlength : e.2.length ≤ rest.length := (readOn_suffix hread).length_le
            have hshorter : e.2.length < fuel := Nat.lt_of_le_of_lt (hlength.trans hrest) hps
            exact ih hshorter s (frame.resumed e.1)

/-! ### Progress -/

theorem lt_length_of_nextIs {i : Nat} {kind : TokenKind} (h : nextIs i kind ps = true) :
    i < ps.length := by
  refine Nat.lt_of_not_le fun hle => ?_
  rw [nextIs, List.getElem?_eq_none hle] at h
  cases h

/-- At position `k` of the pieces, in this scope and state, nothing stands still. -/
structure MakesProgress (all : List Piece) (k : Nat) (s : Scope) (b : State) : Prop where
  itemLoop : readOn s b (all.drop k) = s.pass b (all.drop k) >>= Pass.continued (readOn s)
  item : Pass.Progresses all k (s.pass b (all.drop k))
  word {t : Token} {ps : List Piece} (hat : all.drop k = .token t :: ps) (kind : t.kind = .ident) :
    Pass.Progresses all k ((readWord s b t ps).result >>= s.completed b)
  /-- A label is two pieces, and what opens a linkage three. -/
  label {t : Token} {ps : List Piece} {v : Visibility} (hat : all.drop k = .token t :: ps)
    (is : Scope.word t ps = .label v) : k + 2 ≤ all.length
  linkage {t : Token} {ps : List Piece} (hat : all.drop k = .token t :: ps)
    (is : Scope.word t ps = .linkage) : k + 3 ≤ all.length
  declaration {t : Token} {ps : List Piece} (hat : all.drop k = .token t :: ps)
    (kind : t.kind ≠ .rbrace) :
    Pass.Progresses all k ((declare s b (.token t :: ps)).result >>= s.completed b)
  inNamespace {t : Token} {ps : List Piece} (hat : all.drop k = .token t :: ps) :
    Pass.Progresses all k ((readNamespace s b ps).result >>= s.completed b)
  annotation {t : Token} {ps : List Piece} (hat : all.drop k = .token t :: ps) :
    Pass.Progresses all k ((annotate b t ps).result >>= s.completed b)
  entryLoop (path : String) (found : List Declaration × Option DocBlock) :
    (EnumBody.read path found.1 found.2 (all.drop k)).result =
      EnumBody.pass path found (all.drop k) >>=
        Pass.continued fun found ps => (EnumBody.read path found.1 found.2 ps).result
  entry (path : String) (found : List Declaration × Option DocBlock) :
    Pass.Progresses all k (EnumBody.pass path found (all.drop k))
  /-- So many passes come so many positions further, at the end of the pieces at most. -/
  items {n : Nat} {b' : State} {rest : List Piece}
    (chain : Pass.Chain s.pass n b (all.drop k) b' rest) : StandsFrom all (k + n) rest
  entries {path : String} {n : Nat} {found found' : List Declaration × Option DocBlock}
    {rest : List Piece} (chain : Pass.Chain (EnumBody.pass path) n found (all.drop k) found' rest) :
    StandsFrom all (k + n) rest
  /-- The loops come to their ends, with a scope inside another and however braces stand. -/
  ends {fuel : Nat} (enough : all.length - k < fuel) :
    readWithin fuel s b (all.drop k) = some (readOn s b (all.drop k))
  entriesEnd {fuel : Nat} (enough : all.length - k < fuel) (path : String)
    (found : List Declaration × Option DocBlock) :
    Pass.loop (EnumBody.pass path) fuel found (all.drop k) =
      some (EnumBody.read path found.1 found.2 (all.drop k)).result

theorem makesProgress (hk : k ≤ all.length) (s : Scope) (b : State) : MakesProgress all k s b where
  itemLoop := readOn_eq_pass s b (all.drop k)
  item := progresses_pass s b hk
  word hat kind := progresses_completed s b hat fun _ => readWord_suffix (by simp [kind])
  label hat is := by
    have hcolon := lt_length_of_nextIs (nextIs_of_label is)
    have hlength := length_of_drop hat
    omega
  linkage hat is := by
    have hbrace := lt_length_of_nextIs (nextIs_of_linkage is).2
    have hlength := length_of_drop hat
    omega
  declaration hat kind := progresses_completed s b hat fun _ => declare_suffix kind
  inNamespace hat := progresses_completed s b hat fun _ => readNamespace_suffix
  annotation hat := progresses_completed s b hat fun _ => annotate_suffix
  entryLoop path found := EnumBody.result_read path found (all.drop k)
  entry path found := EnumBody.progresses_pass path found hk
  items chain := chain.standsFrom hk fun _ b hk => progresses_pass s b hk
  entries chain := chain.standsFrom hk fun _ found hk => EnumBody.progresses_pass _ found hk
  ends enough := readWithin_eq (by rwa [List.length_drop]) s b
  entriesEnd enough path found :=
    Pass.loop_eq (EnumBody.result_read path)
      (fun _ _ found hk => EnumBody.progresses_pass path found hk) (by rwa [List.length_drop])

/-- Every pass and every reader in it goes on further on, at any position and in any scope, so
headers and fragments are read to an end. -/
theorem reading_ends (hk : k ≤ all.length) (s : Scope) (b : State) :
    MakesProgress all k s b ∧
    (∀ lines blocks fuel, (Piece.ofLines lines blocks).length < fuel →
      (readWithin fuel .file Scope.file.start (Piece.ofLines lines blocks)).map (·.map Prod.fst) =
        some (Contents.ofLines lines blocks).result) ∧
    (∀ text firstLine owner fuel, (Token.tokenize text firstLine).length < fuel →
      (readWithin fuel (.ofFragment owner) (Scope.ofFragment owner).start
          ((Token.tokenize text firstLine).map .token)).map (·.map (·.1.declarations)) =
        some (Declaration.ofFragment text firstLine owner).result) := by
  refine ⟨makesProgress hk s b, fun lines blocks fuel hfuel => ?_,
    fun text firstLine owner fuel hfuel => ?_⟩
  · rw [readWithin_eq hfuel, Option.map_some, ← result_read, Contents.ofLines, Outcome.result_bind]
    rfl
  · rw [readWithin_eq (by rwa [List.length_map]), Option.map_some]
    show _ = some (((Scope.ofFragment owner).read
      ((Token.tokenize text firstLine).map .token) >>= fun found => pure found.declarations).result)
    rw [Outcome.result_bind, result_read]
    cases readOn _ _ ((Token.tokenize text firstLine).map .token) with
    | error e => rfl
    | ok e => rfl

/-- Braces that close nothing and bodies that are not closed. -/
def unbalanced : List Piece :=
  [.token ⟨.rbrace, "\x7d", 1⟩, .token ⟨.ident, "enum", 1⟩, .token ⟨.ident, "E", 1⟩,
    .token ⟨.lbrace, "\x7b", 1⟩, .token ⟨.comma, ",", 2⟩, .token ⟨.ident, "A", 2⟩]

theorem reading_ends_unbalanced :
    Scope.file.pass Scope.file.start unbalanced =
      .ok (.goesOn Scope.file.start (unbalanced.drop 1)) ∧
    1 ≤ unbalanced.length ∧ MakesProgress unbalanced 1 .file Scope.file.start :=
  ⟨rfl, by decide, (reading_ends (by decide) _ _).1⟩

/-- A statement read at a closing brace leaves it standing. -/
example : (declare .file Scope.file.start unbalanced).result =
    .ok (.continues Scope.file.start unbalanced) := by
  rfl

end Scope

end AnnotatedHeader
