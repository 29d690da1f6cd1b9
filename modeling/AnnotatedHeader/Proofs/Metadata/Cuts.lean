import AnnotatedHeader.Proofs.Declaration.MapDocs
import AnnotatedHeader.Proofs.Metadata.RoundTrip
import AnnotatedHeader.Proofs.Numbering.Tokens
import AnnotatedHeader.Proofs.Result

/-! Where entries are cut into keys and values.

Commas separate entries only outside parentheses, so in each entry parentheses balance. The
sign that separates an entry's key from its value is its first `=`, wherever that is:
`HidesEquals` says of an entry that the first one is in parentheses. `cuts_balance_iff` follows
the entries of every level to what is read of them, and says that keys and values balance but
for these entries, whose key and value then both have half of a pair. -/
namespace AnnotatedHeader.Metadata

open List (Forall₂)
open Token

variable {ts part key value inner : List Token} {parts : List (List Token)} {m : Metadata}

/-! ### Entries and their cuts -/

/-- Each parenthesis that is opened is closed behind it. -/
def Balanced (ts : List Token) : Prop := depthAfter? true 0 (ts.map (·.kind)) = some 0

instance (ts : List Token) : Decidable (Balanced ts) :=
  inferInstanceAs (Decidable (_ = _))

/-- The tokens in front of the first `=` of an entry, and those behind it. -/
structure Cuts (part key value : List Token) : Prop where
  cut : ∃ equals : Token, equals.kind = .equals ∧ part = key ++ equals :: value
  first : ∀ t ∈ key, t.kind ≠ .equals

/-- The entries of the tokens and those of the groups that are values of entries, of every
level. -/
inductive HasEntry : List Token → List Token → Prop where
  | here {ts part : List Token} {parts : List (List Token)} (split : splitTop? 0 ts = some parts)
      (mem : part ∈ parts) (nonempty : part ≠ []) : HasEntry ts part
  | inside {ts whole key value inner part : List Token} {parts : List (List Token)}
      (split : splitTop? 0 ts = some parts) (mem : whole ∈ parts) (cut : Cuts whole key value)
      (group : group? value = some inner) (within : HasEntry inner part) : HasEntry ts part

/-- What is read of an entry. -/
inductive Gives : List Token → String × MetaValue → Prop where
  | flag {part : List Token} (plain : ∀ t ∈ part, t.kind ≠ .equals) : Gives part (join part, .flag)
  | value {part key value : List Token} {v : MetaValue} (cut : Cuts part key value)
      (reads : readValue value = .ok v) : Gives part (join key, v)

/-- A pair of parentheses holds a `=`, and none stands in front of the pair. -/
def HidesEquals (part : List Token) : Prop :=
  ∃ before opening inside closing after, part = before ++ opening :: (inside ++ closing :: after) ∧
    opening.kind = .lparen ∧ closing.kind = .rparen ∧ Balanced inside ∧
    (∃ t ∈ inside, t.kind = .equals) ∧ ∀ t ∈ before, t.kind ≠ .equals

theorem cuts_iff : Cuts part key value ↔
    part.takeWhile (!isEquals ·) = key ∧ ∃ equals, part.dropWhile (!isEquals ·) = equals :: value := by
  constructor
  · rintro ⟨⟨equals, is, rfl⟩, first⟩
    obtain ⟨htake, hdrop⟩ := takeWhile_of_plain first (equals :: value)
    rw [List.takeWhile_cons_of_neg (by simp [isEquals, is]), List.append_nil] at htake
    rw [List.dropWhile_cons_of_neg (by simp [isEquals, is])] at hdrop
    exact ⟨htake, equals, hdrop⟩
  · rintro ⟨rfl, equals, hdrop⟩
    refine ⟨⟨equals, ?_, ?_⟩, fun t ht => ?_⟩
    · have hnot := List.head?_dropWhile_not (!isEquals ·) part
      rw [hdrop] at hnot
      simpa [isEquals] using hnot
    · rw [← hdrop, List.takeWhile_append_dropWhile]
    · have hpass := List.mem_takeWhile_imp ht
      simpa [isEquals] using hpass

theorem Cuts.unique {key' value' : List Token} (h : Cuts part key value) (h' : Cuts part key' value') :
    key = key' ∧ value = value' := by
  obtain ⟨hkey, equals, hvalue⟩ := cuts_iff.1 h
  obtain ⟨hkey', equals', hvalue'⟩ := cuts_iff.1 h'
  exact ⟨hkey.symm.trans hkey', (List.cons.inj (hvalue.symm.trans hvalue')).2⟩

theorem Cuts.not_plain (h : Cuts part key value) : ¬ ∀ t ∈ part, t.kind ≠ .equals := by
  obtain ⟨⟨equals, is, rfl⟩, -⟩ := h
  exact fun plain => plain equals (by simp) is

theorem Cuts.ne_nil (h : Cuts part key value) : part ≠ [] := by
  rintro rfl
  exact h.not_plain (by simp)

theorem Gives.unique {e e' : String × MetaValue} (h : Gives part e) (h' : Gives part e') : e = e' := by
  cases h with
  | flag plain =>
    cases h' with
    | flag => rfl
    | value cut => exact absurd plain cut.not_plain
  | value cut reads =>
    cases h' with
    | flag plain => exact absurd plain cut.not_plain
    | value cut' reads' =>
      obtain ⟨rfl, rfl⟩ := cut.unique cut'
      cases reads.symm.trans reads'
      rfl

/-! ### What is read -/

/-- What is read of parts is read of those that are not empty, one by one. -/
theorem gives_of_readEntries (h : readEntries parts = .ok m) :
    Forall₂ Gives (parts.filter (!·.isEmpty)) m := by
  induction parts generalizing m with
  | nil =>
    rw [readEntries] at h
    cases h
    exact .nil
  | cons part parts ih =>
    rw [readEntries_cons] at h
    by_cases hempty : part.isEmpty = true
    · rw [if_pos hempty] at h
      rw [List.filter_cons_of_neg (by simpa using hempty)]
      exact ih h
    · rw [if_neg hempty] at h
      rw [List.filter_cons_of_pos (by simpa using hempty)]
      cases hdrop : part.dropWhile (!isEquals ·) with
      | nil =>
        rw [hdrop] at h
        obtain ⟨rest, hrest, rfl⟩ := Except.map_eq_ok.1 h
        have hplain : ∀ t ∈ part, t.kind ≠ .equals := by
          simpa [isEquals] using List.dropWhile_eq_nil_iff.1 hdrop
        have hkey : part.takeWhile (!isEquals ·) = part := by
          rw [← List.append_nil (part.takeWhile _), ← hdrop, List.takeWhile_append_dropWhile]
        rw [hkey]
        exact .cons (.flag hplain) (ih hrest)
      | cons equals value =>
        rw [hdrop] at h
        dsimp only at h
        split at h
        · cases h
        split at h
        · cases h
        obtain ⟨v, hv, h⟩ := Except.bind_eq_ok.1 h
        obtain ⟨rest, hrest, h⟩ := Except.bind_eq_ok.1 h
        cases h
        exact .cons (.value (cuts_iff.2 ⟨rfl, equals, hdrop⟩) hv) (ih hrest)

theorem exists_group_of_readValue {v : MetaValue} (h : group? value = some inner)
    (reads : readValue value = .ok v) : ∃ es, v = .group es ∧ read inner = .ok es := by
  rw [readValue] at reads
  split at reads
  · rename_i hsome
    cases h.symm.trans hsome
    obtain ⟨es, hes, rfl⟩ := Except.map_eq_ok.1 reads
    exact ⟨es, rfl, hes⟩
  · rename_i hnone
    cases h.symm.trans hnone

theorem readValue_eq_group_iff {es : Metadata} :
    readValue value = .ok (.group es) ↔ ∃ inner, group? value = some inner ∧ read inner = .ok es := by
  rw [readValue]
  split
  · rename_i inner hinner
    simp [hinner, Except.map_eq_ok]
  · rename_i hnone
    simp [hnone]

theorem mem_walk_iff {e : String × MetaValue} : e ∈ walk m ↔ ∃ e' ∈ m, e = e' ∨ e ∈ e'.2.inner := by
  induction m with
  | nil => simp [walk]
  | cons e' m ih => rw [walk, List.mem_cons, List.mem_append, ih, List.exists_mem_cons_iff, or_assoc]

theorem exists_parts_of_read (h : read ts = .ok m) :
    ∃ parts, splitTop? 0 ts = some parts ∧
      (∀ part ∈ parts, part ≠ [] → ∃ e ∈ m, Gives part e) ∧
      ∀ e ∈ m, ∃ part ∈ parts, part ≠ [] ∧ Gives part e := by
  obtain ⟨parts, hparts, hentries⟩ := read_eq_ok.1 h
  have hgives := gives_of_readEntries hentries
  refine ⟨parts, hparts, fun part hpart hne => ?_, fun e he => ?_⟩
  · have hkept : part ∈ parts.filter (!·.isEmpty) := List.mem_filter.2 ⟨hpart, by simpa using hne⟩
    exact exists_left_of_forall₂ hgives.flip hkept
  · obtain ⟨part, hpart, hpartGives⟩ := exists_left_of_forall₂ hgives he
    obtain ⟨hpart, hne⟩ := List.mem_filter.1 hpart
    exact ⟨part, hpart, by simpa using hne, hpartGives⟩

/-- Every entry is read. -/
theorem HasEntry.exists_gives (h : HasEntry ts part) (hread : read ts = .ok m) :
    ∃ e ∈ walk m, Gives part e := by
  induction h generalizing m with
  | here split mem nonempty =>
    obtain ⟨parts, hparts, heach, -⟩ := exists_parts_of_read hread
    cases split.symm.trans hparts
    obtain ⟨e, he, hgives⟩ := heach _ mem nonempty
    exact ⟨e, mem_walk_iff.2 ⟨e, he, .inl rfl⟩, hgives⟩
  | inside split mem cut group _ ih =>
    obtain ⟨parts, hparts, heach, -⟩ := exists_parts_of_read hread
    cases split.symm.trans hparts
    obtain ⟨e', he', hgives⟩ := heach _ mem cut.ne_nil
    cases hgives with
    | flag plain => exact absurd plain cut.not_plain
    | value cut' reads =>
      obtain ⟨rfl, rfl⟩ := cut.unique cut'
      obtain ⟨es, rfl, hes⟩ := exists_group_of_readValue group reads
      obtain ⟨e, he, hgives⟩ := ih hes
      exact ⟨e, mem_walk_iff.2 ⟨_, he', .inr he⟩, hgives⟩

/-- What is read of a value's entries is read of entries inside its group. -/
def FromEntries (v : MetaValue) : Prop :=
  ∀ value, readValue value = .ok v → ∀ e ∈ v.inner,
    ∃ inner part, group? value = some inner ∧ HasEntry inner part ∧ Gives part e

theorem exists_hasEntry_of_each (each : ∀ e ∈ m, FromEntries e.2) (h : read ts = .ok m) :
    ∀ e ∈ walk m, ∃ part, HasEntry ts part ∧ Gives part e := by
  obtain ⟨parts, hparts, -, hof⟩ := exists_parts_of_read h
  intro e he
  obtain ⟨e', he', hplace⟩ := mem_walk_iff.1 he
  obtain ⟨whole, hwhole, hne, hgives⟩ := hof e' he'
  rcases hplace with rfl | hinner
  · exact ⟨whole, .here hparts hwhole hne, hgives⟩
  · cases hgives with
    | flag => cases hinner
    | value cut reads =>
      obtain ⟨inner, part, hgroup, hentry, hgives⟩ := each _ he' _ reads e hinner
      exact ⟨part, .inside hparts hwhole cut hgroup hentry, hgives⟩

theorem fromEntries (v : MetaValue) : FromEntries v := by
  induction v using MetaValue.induction with
  | flag => exact fun _ _ e he => by cases he
  | text => exact fun _ _ e he => by cases he
  | group entries each =>
    intro value hvalue e he
    obtain ⟨inner, hgroup, hread⟩ := readValue_eq_group_iff.1 hvalue
    obtain ⟨part, hentry, hgives⟩ := exists_hasEntry_of_each each hread e he
    exact ⟨inner, part, hgroup, hentry, hgives⟩

/-- What is read is what the entries of all levels give. -/
theorem mem_walk_iff_gives (h : read ts = .ok m) {e : String × MetaValue} :
    e ∈ walk m ↔ ∃ part, HasEntry ts part ∧ Gives part e := by
  constructor
  · exact exists_hasEntry_of_each (fun e _ => fromEntries e.2) h e
  · rintro ⟨part, hentry, hgives⟩
    obtain ⟨e', he', hgives'⟩ := hentry.exists_gives h
    cases hgives.unique hgives'
    exact he'

/-! ### Parentheses -/

/-- What is split off has its parentheses closed, and its commas in them. -/
theorem isOneEntry_of_splitTop? {d : Nat} (h : splitTop? d ts = some parts) :
    ∃ first others, parts = first :: others ∧ depthAfter? false d (first.map (·.kind)) = some 0 ∧
      ∀ part ∈ others, IsOneEntry part := by
  induction ts generalizing d parts with
  | nil =>
    rw [splitTop?] at h
    split at h
    · rename_i hd
      cases h
      exact ⟨[], [], rfl, by rw [hd]; rfl, by simp⟩
    · cases h
  | cons t ts ih =>
    cases hdepth : depthBehind? false d t.kind with
    | some e =>
      rw [splitTop?_cons hdepth] at h
      obtain ⟨parts', hparts, rfl⟩ := Option.map_eq_some_iff.1 h
      obtain ⟨first, others, rfl, hfirst, hothers⟩ := ih hparts
      exact ⟨t :: first, others, rfl, depthAfter?_cons.2 ⟨e, hdepth, hfirst⟩, hothers⟩
    | none =>
      obtain ⟨rfl, hkind | hkind⟩ := eq_of_depthBehind?_eq_none hdepth
      · simp only [splitTop?, hkind] at h
        obtain ⟨parts', hparts, rfl⟩ := Option.map_eq_some_iff.1 h
        obtain ⟨first, others, rfl, hfirst, hothers⟩ := ih hparts
        exact ⟨[], first :: others, rfl, rfl, List.forall_mem_cons.2 ⟨hfirst, hothers⟩⟩
      · simp [splitTop?, hkind] at h

theorem HasEntry.isOneEntry (h : HasEntry ts part) : IsOneEntry part := by
  induction h with
  | here split mem =>
    obtain ⟨first, others, rfl, hfirst, hothers⟩ := isOneEntry_of_splitTop? split
    rcases List.mem_cons.1 mem with rfl | mem
    · exact hfirst
    · exact hothers _ mem
  | inside _ _ _ _ _ ih => exact ih

theorem IsOneEntry.balanced (h : IsOneEntry part) : Balanced part := depthAfter?_true h

/-- More that is open in front of the tokens is open behind them. -/
theorem depthAfter?_add {d d' : Nat} {ks : List TokenKind} (h : depthAfter? true d ks = some d')
    (n : Nat) : depthAfter? true (d + n) ks = some (d' + n) := by
  induction n with
  | zero => exact h
  | succ n ih => exact depthAfter?_true (depthAfter?_succ ih)

theorem Balanced.depthAfter? (h : Balanced ts) (d : Nat) :
    depthAfter? true d (ts.map (·.kind)) = some d := by
  have hd := depthAfter?_add h d
  rwa [Nat.zero_add] at hd

theorem depthAfter?_append_iff {d d' : Nat} {ks ks' : List TokenKind} :
    depthAfter? true d (ks ++ ks') = some d' ↔
      ∃ e, depthAfter? true d ks = some e ∧ depthAfter? true e ks' = some d' := by
  unfold Metadata.depthAfter?
  rw [List.foldlM_append]
  exact Option.bind_eq_some_iff

theorem depthBehind?_of_plain {d : Nat} {k : TokenKind} (hopen : k ≠ .lparen) (hclose : k ≠ .rparen) :
    depthBehind? true d k = some d := by
  cases d <;> cases k <;> simp_all [depthBehind?]

theorem balanced_cons_of_plain {t : Token} (hopen : t.kind ≠ .lparen) (hclose : t.kind ≠ .rparen) :
    Balanced (t :: ts) ↔ Balanced ts := by
  unfold Balanced
  rw [List.map_cons, depthAfter?_cons, depthBehind?_of_plain hopen hclose]
  simp

theorem balanced_pair {opening closing : Token} {inside after : List Token}
    (hopen : opening.kind = .lparen) (hclose : closing.kind = .rparen) (hinside : Balanced inside) :
    Balanced (opening :: (inside ++ closing :: after)) ↔ Balanced after := by
  unfold Balanced
  rw [List.map_cons, List.map_append, List.map_cons, hopen, hclose]
  show depthAfter? true 1 (inside.map (·.kind) ++ .rparen :: after.map (·.kind)) = some 0 ↔ _
  rw [depthAfter?_append (hinside.depthAfter? 1)]
  exact Iff.rfl

/-- What is open is closed. -/
theorem exists_closing {d : Nat} (h : depthAfter? true (d + 1) (ts.map (·.kind)) = some 0) :
    ∃ inside closing after, ts = inside ++ closing :: after ∧ closing.kind = .rparen ∧
      Balanced inside ∧ depthAfter? true d (after.map (·.kind)) = some 0 := by
  induction hn : ts.length using Nat.strongRecOn generalizing ts d with
  | ind n ih =>
    cases ts with
    | nil => cases h
    | cons t ts =>
      rw [List.length_cons] at hn
      obtain ⟨e, ht, hts⟩ := depthAfter?_cons.1 h
      dsimp only at ht
      by_cases hclose : t.kind = .rparen
      · rw [hclose] at ht
        cases ht
        exact ⟨[], t, ts, rfl, hclose, rfl, hts⟩
      by_cases hopen : t.kind = .lparen
      · -- A pair that is opened here is closed before the one that was open.
        rw [hopen] at ht
        cases ht
        obtain ⟨inner, closing, rest, rfl, hclosing, hinner, hrest⟩ := ih ts.length (by omega) hts rfl
        rw [List.length_append, List.length_cons] at hn
        obtain ⟨more, closing', after, rfl, hclosing', hmore, hafter⟩ :=
          ih rest.length (by omega) hrest rfl
        refine ⟨t :: (inner ++ closing :: more), closing', after, ?_, hclosing', ?_, hafter⟩
        · simp
        · exact (balanced_pair hopen hclosing hinner).2 hmore
      · rw [depthBehind?_of_plain hopen hclose] at ht
        cases ht
        obtain ⟨inside, closing, after, rfl, hkind, hinside, hafter⟩ := ih ts.length (by omega) hts rfl
        exact ⟨t :: inside, closing, after, rfl, hkind,
          (balanced_cons_of_plain hopen hclose).2 hinside, hafter⟩

/-! ### The sign between key and value -/

theorem Cuts.of_append {front rest : List Token} (plain : ∀ t ∈ front, t.kind ≠ .equals)
    (h : Cuts (front ++ rest) key value) : ∃ key', key = front ++ key' ∧ Cuts rest key' value := by
  obtain ⟨hkey, equals, hvalue⟩ := cuts_iff.1 h
  obtain ⟨htake, hdrop⟩ := takeWhile_of_plain plain rest
  exact ⟨_, hkey.symm.trans htake, cuts_iff.2 ⟨rfl, equals, hdrop.symm.trans hvalue⟩⟩

theorem HidesEquals.append {front rest : List Token} (plain : ∀ t ∈ front, t.kind ≠ .equals)
    (h : HidesEquals rest) : HidesEquals (front ++ rest) := by
  obtain ⟨before, opening, inside, closing, after, rfl, hopen, hclose, hinside, his, hbefore⟩ := h
  refine ⟨front ++ before, opening, inside, closing, after, ?_, hopen, hclose, hinside, his, ?_⟩
  · rw [List.append_assoc]
  · exact List.forall_mem_append.2 ⟨plain, hbefore⟩

/-- Balanced tokens in front that hold no `=` make no difference. -/
theorem hidesEquals_or_balanced_append {front behind : List Token}
    (plain : ∀ t ∈ front, t.kind ≠ .equals) (closed : ∀ us, Balanced us → Balanced (front ++ us))
    (cut : Cuts (front ++ behind) key value)
    (later : ∀ key', Cuts behind key' value → HidesEquals behind ∨ Balanced key' ∧ Balanced value) :
    HidesEquals (front ++ behind) ∨ Balanced key ∧ Balanced value := by
  obtain ⟨key', rfl, cut'⟩ := cut.of_append plain
  refine (later key' cut').imp (HidesEquals.append plain) ?_
  rintro ⟨hkey, hvalue⟩
  exact ⟨closed key' hkey, hvalue⟩

/-- The first `=` of an entry is in parentheses, or the entry is cut outside of them all. -/
theorem hidesEquals_or_balanced (h : Balanced part) (cut : Cuts part key value) :
    HidesEquals part ∨ Balanced key ∧ Balanced value := by
  induction hn : part.length using Nat.strongRecOn generalizing part key with
  | ind n ih =>
    cases part with
    | nil => exact absurd rfl cut.ne_nil
    | cons t ts =>
      rw [List.length_cons] at hn
      by_cases hequals : t.kind = .equals
      · obtain ⟨hkey, equals, hvalue⟩ := cuts_iff.1 cut
        rw [List.takeWhile_cons_of_neg (by simp [isEquals, hequals])] at hkey
        rw [List.dropWhile_cons_of_neg (by simp [isEquals, hequals])] at hvalue
        obtain rfl := (List.cons.inj hvalue).2
        refine .inr ⟨hkey ▸ rfl, ?_⟩
        exact (balanced_cons_of_plain (by simp [hequals]) (by simp [hequals])).1 h
      by_cases hclose : t.kind = .rparen
      · obtain ⟨e, ht, -⟩ := depthAfter?_cons.1 h
        dsimp only at ht
        rw [hclose] at ht
        cases ht
      by_cases hopen : t.kind = .lparen
      · obtain ⟨e, ht, hts⟩ := depthAfter?_cons.1 h
        dsimp only at ht
        rw [hopen] at ht
        cases ht
        obtain ⟨inside, closing, after, rfl, hclosing, hinside, hafter⟩ := exists_closing hts
        by_cases his : ∃ u ∈ inside, u.kind = .equals
        · exact .inl ⟨[], t, inside, closing, after, rfl, hopen, hclosing, hinside, his, by simp⟩
        · have hplain : ∀ u ∈ t :: (inside ++ [closing]), u.kind ≠ .equals := by
            refine List.forall_mem_cons.2 ⟨hequals, List.forall_mem_append.2 ⟨?_, ?_⟩⟩
            · exact fun u hu hkind => his ⟨u, hu, hkind⟩
            · simp [hclosing]
          have hpair (us : List Token) : t :: (inside ++ closing :: us) = t :: (inside ++ [closing]) ++ us := by
            simp
          rw [hpair] at cut ⊢
          rw [List.length_append, List.length_cons] at hn
          refine hidesEquals_or_balanced_append hplain (fun us hus => ?_) cut
            fun key' cut' => ih after.length (by omega) hafter cut' rfl
          rw [← hpair]
          exact (balanced_pair hopen hclosing hinside).2 hus
      · have hplain : ∀ u ∈ [t], u.kind ≠ .equals := List.forall_mem_singleton.2 hequals
        have hts := (balanced_cons_of_plain hopen hclose).1 h
        rw [← List.singleton_append] at cut ⊢
        exact hidesEquals_or_balanced_append hplain
          (fun us hus => (balanced_cons_of_plain hopen hclose).2 hus) cut
          fun key' cut' => ih ts.length (by omega) hts cut' rfl

theorem exists_cuts (h : ∃ t ∈ part, t.kind = .equals) : ∃ key value, Cuts part key value := by
  obtain ⟨t, ht, is⟩ := h
  cases hdrop : part.dropWhile (!isEquals ·) with
  | nil =>
    have hpass := List.dropWhile_eq_nil_iff.1 hdrop t ht
    simp [isEquals, is] at hpass
  | cons equals value => exact ⟨_, value, cuts_iff.2 ⟨rfl, equals, hdrop⟩⟩

theorem Cuts.append (h : Cuts part key value) (rest : List Token) :
    Cuts (part ++ rest) key (value ++ rest) := by
  obtain ⟨⟨equals, is, rfl⟩, first⟩ := h
  exact ⟨⟨equals, is, by simp⟩, first⟩

/-- What the key leaves open the value closes. -/
theorem Cuts.exists_depth (h : Balanced part) (cut : Cuts part key value) :
    ∃ d, depthAfter? true 0 (key.map (·.kind)) = some d ∧
      depthAfter? true d (value.map (·.kind)) = some 0 := by
  obtain ⟨⟨equals, is, rfl⟩, -⟩ := cut
  unfold Balanced at h
  rw [List.map_append, List.map_cons] at h
  obtain ⟨d, hkey, hvalue⟩ := depthAfter?_append_iff.1 h
  obtain ⟨e, hequals, hvalue⟩ := depthAfter?_cons.1 hvalue
  rw [is, depthBehind?_of_plain (by simp) (by simp)] at hequals
  cases hequals
  exact ⟨d, hkey, hvalue⟩

theorem Cuts.balanced_iff (h : Balanced part) (cut : Cuts part key value) :
    Balanced value ↔ Balanced key := by
  obtain ⟨d, hkey, hvalue⟩ := cut.exists_depth h
  constructor
  · intro hbalanced
    cases (hbalanced.depthAfter? d).symm.trans hvalue
    exact hkey
  · intro hbalanced
    cases hbalanced.symm.trans hkey
    exact hvalue

/-- In front of an `=` in parentheses one of them is open. -/
theorem HidesEquals.not_balanced (h : HidesEquals part) (hpart : Balanced part)
    (cut : Cuts part key value) : ¬ Balanced key := by
  obtain ⟨before, opening, inside, closing, after, rfl, hopen, -, hinside, his, plain⟩ := h
  obtain ⟨inner, more, hinner⟩ := exists_cuts his
  have hfront : ∀ t ∈ before ++ [opening], t.kind ≠ .equals :=
    List.forall_mem_append.2 ⟨plain, by simp [hopen]⟩
  rw [List.append_cons] at cut
  obtain ⟨key', rfl, cut'⟩ := cut.of_append hfront
  obtain ⟨rfl, -⟩ := cut'.unique (hinner.append _)
  obtain ⟨e, hbefore, -⟩ : ∃ e, depthAfter? true 0 (before.map (·.kind)) = some e ∧ _ := by
    unfold Balanced at hpart
    rw [List.map_append] at hpart
    exact depthAfter?_append_iff.1 hpart
  obtain ⟨d, hkey, -⟩ := hinner.exists_depth hinside
  have hdepth : depthAfter? true 0 ((before ++ [opening] ++ key').map (·.kind)) = some (d + (e + 1)) := by
    rw [List.map_append, List.map_append, List.append_assoc, depthAfter?_append hbefore,
      List.map_singleton, hopen, List.singleton_append]
    refine depthAfter?_cons.2 ⟨e + 1, by cases e <;> rfl, ?_⟩
    have hlifted := depthAfter?_add hkey (e + 1)
    rwa [Nat.zero_add] at hlifted
  intro hbalanced
  cases hbalanced.symm.trans hdepth

/-- **Entries are cut outside of parentheses, but for those whose first `=` stands in them.** What
is read is what the entries of all levels give; in each of them parentheses balance and commas stand
in parentheses, and key and value balance exactly if no pair of parentheses hides the first `=`. -/
theorem cuts_balance_iff (h : read ts = .ok m) :
    (∀ e, e ∈ walk m ↔ ∃ part, HasEntry ts part ∧ Gives part e) ∧
      ∀ part, HasEntry ts part → IsOneEntry part ∧
        ∀ key value, Cuts part key value →
          (Balanced key ↔ ¬ HidesEquals part) ∧ (Balanced value ↔ ¬ HidesEquals part) := by
  refine ⟨fun e => mem_walk_iff_gives h, fun part hentry => ⟨hentry.isOneEntry, fun key value cut => ?_⟩⟩
  have hpart := hentry.isOneEntry.balanced
  have hkey : Balanced key ↔ ¬ HidesEquals part := by
    constructor
    · exact fun hbalanced hhides => hhides.not_balanced hpart cut hbalanced
    · exact fun hhides => ((hidesEquals_or_balanced hpart cut).resolve_left hhides).1
  exact ⟨hkey, (cut.balanced_iff hpart).trans hkey⟩

/-- A flag with arguments, and a group. -/
def flagAndGroup : List Token := tokenize "Foo(A = B), Meta = (C = D)" 1

/-- The flag is cut in its arguments, the group's entry where it should be. -/
theorem cuts_balance_iff_nested :
    read flagAndGroup = .ok [("Foo(A", .text "B)"), ("Meta", .group [("C", .text "D")])] ∧
      (∃ part key value, HasEntry flagAndGroup part ∧ Cuts part key value ∧ join key = "Foo(A" ∧
        ¬ Balanced key ∧ ¬ Balanced value) ∧
      ∃ part key value, HasEntry flagAndGroup part ∧ Cuts part key value ∧ join key = "C" ∧
        Balanced key ∧ Balanced value := by
  let t (kind : TokenKind) (text : String) : Token := ⟨kind, text, 1⟩
  let flag := [t .ident "Foo", t .lparen "(", t .ident "A", t .equals "=", t .ident "B", t .rparen ")"]
  let entry := [t .ident "C", t .equals "=", t .ident "D"]
  let group := t .lparen "(" :: (entry ++ [t .rparen ")"])
  have hread : read flagAndGroup =
      .ok [("Foo(A", .text "B)"), ("Meta", .group [("C", .text "D")])] := by
    unfold flagAndGroup
    cbv
  have hparts : splitTop? 0 flagAndGroup = some [flag, t .ident "Meta" :: t .equals "=" :: group] := by
    decide +kernel
  obtain ⟨-, hcuts⟩ := cuts_balance_iff hread
  have hflag : HasEntry flagAndGroup flag := .here hparts (by simp) (by simp [flag])
  have hflagCut : Cuts flag [t .ident "Foo", t .lparen "(", t .ident "A"] [t .ident "B", t .rparen ")"] :=
    ⟨⟨t .equals "=", rfl, rfl⟩, by decide⟩
  have hhides : HidesEquals flag :=
    ⟨[t .ident "Foo"], t .lparen "(", [t .ident "A", t .equals "=", t .ident "B"], t .rparen ")", [],
      rfl, rfl, rfl, by decide, by decide, by decide⟩
  have hgroup : group? group = some entry := by decide +kernel
  have hgroupCut : Cuts (t .ident "Meta" :: t .equals "=" :: group) [t .ident "Meta"] group :=
    ⟨⟨t .equals "=", rfl, rfl⟩, by decide⟩
  have hentryParts : splitTop? 0 entry = some [entry] := by decide +kernel
  have hentry : HasEntry flagAndGroup entry :=
    .inside hparts (by simp) hgroupCut hgroup (.here hentryParts (by simp) (by simp [entry]))
  have hentryCut : Cuts entry [t .ident "C"] [t .ident "D"] := ⟨⟨t .equals "=", rfl, rfl⟩, by decide⟩
  have hshows : ¬ HidesEquals entry := by
    rintro ⟨before, opening, inside, closing, after, heq, hopen, -⟩
    have hmem : opening ∈ entry := by simp [heq]
    exact absurd hopen ((by decide : ∀ u ∈ entry, u.kind ≠ .lparen) opening hmem)
  obtain ⟨hkey, hvalue⟩ := (hcuts flag hflag).2 _ _ hflagCut
  obtain ⟨hkey', hvalue'⟩ := (hcuts entry hentry).2 _ _ hentryCut
  refine ⟨hread, ⟨flag, _, _, hflag, hflagCut, by decide +kernel, ?_, ?_⟩,
    entry, _, _, hentry, hentryCut, by decide +kernel, hkey'.2 hshows, hvalue'.2 hshows⟩
  · exact fun hbalanced => hkey.1 hbalanced hhides
  · exact fun hbalanced => hvalue.1 hbalanced hhides

/-- A flag with an argument that has a default is taken for a key and a value, each with one
parenthesis of the pair. -/
theorem exists_unbalanced_cut :
    ¬ ∀ (ts : List Token) (m : Metadata), read ts = .ok m →
      ∀ part key value, HasEntry ts part → Cuts part key value → Balanced key ∧ Balanced value := by
  intro hall
  let t (kind : TokenKind) (text : String) : Token := ⟨kind, text, 1⟩
  let flag := [t .ident "Foo", t .lparen "(", t .ident "A", t .equals "=", t .ident "B", t .rparen ")"]
  have hread : read (tokenize "Foo(A = B)" 1) = .ok [("Foo(A", .text "B)")] := by cbv
  have hparts : splitTop? 0 (tokenize "Foo(A = B)" 1) = some [flag] := by decide +kernel
  have hflag : HasEntry (tokenize "Foo(A = B)" 1) flag := .here hparts (by simp) (by simp [flag])
  have hcut : Cuts flag [t .ident "Foo", t .lparen "(", t .ident "A"] [t .ident "B", t .rparen ")"] :=
    ⟨⟨t .equals "=", rfl, rfl⟩, by decide⟩
  obtain ⟨hkey, -⟩ := hall _ _ hread flag _ _ hflag hcut
  exact absurd hkey (by decide)

end AnnotatedHeader.Metadata
