import AnnotatedHeader.Proofs.Token.Written
import AnnotatedHeader.Token.Spacing

/-! Which tokens can be read back once they are joined.

Joining separates most tokens. Of those that it leaves next to each other a few read as
one: a number and the dot behind it, signs that another sign makes longer, and three dots
(`blends`). `map_shape_join_iff` says that nothing else can go wrong: joined tokens are read
back as themselves if and only if none of them run together. -/
namespace AnnotatedHeader.Token

open Lexeme

/-! ### Tokens that read as one -/

/-- Signs, each with a character that makes it another sign. -/
def growths : List (String × Char) :=
  [("-", '-'), ("-", '='), ("-", '>'), ("+", '+'), ("+", '='), ("&", '&'), ("&", '='), ("!", '='),
    ("*", '='), ("<", '='), (":", ':')]

/-- Whether `a` and `b` read as one, or start to, with nothing between them and `next` behind
them. -/
def blends (a b : Token) (next : Option Token) : Bool :=
  (a.kind == .number && b.isOp ".") ||
    (a.isOp "." && (b.isOp "..." || b.isOp "." && next.any fun c => c.isOp "." || c.isOp "...")) ||
    growths.any fun (sign, c) => a.text == sign && b.text.toList.head? == some c

/-- Whether two of the tokens, which follow `before`, are joined without a space and read as
one. -/
def runsTogether (before : Option Token) : List Token → Bool
  | a :: b :: ts =>
    (!needsSpace before a b && blends a b ts.head?) || runsTogether (some a) (b :: ts)
  | _ => false

/-- The characters of `a` and what follows it, joined. -/
def spelled (before : Option Token) (a : Token) (ts : List Token) : List Char :=
  a.text.toList ++ (joinAfter before a ts).toList

theorem spelled_nil (before : Option Token) (a : Token) : spelled before a [] = a.text.toList := by
  simp [spelled, joinAfter]

theorem spelled_cons (before : Option Token) (a b : Token) (ts : List Token) :
    spelled before a (b :: ts) =
      a.text.toList ++ ((if needsSpace before a b then [' '] else []) ++ spelled (some a) b ts) := by
  unfold spelled
  rw [joinAfter, String.toList_append, String.toList_append, List.append_assoc]
  split <;> rfl

/-! ### What stands next to what -/

/-- Signs, each with a character that a space always keeps away. -/
def separated : List ((String × TokenKind) × Char) :=
  [(("|", .op), '='), (("|", .op), '|'), (("/", .op), '='), (("/", .op), '/'), (("/", .op), '*'),
    (("%", .op), '='), (("^", .op), '='), ((">", .greater), '='), (("=", .equals), '=')]

/-- Which signs start with which. -/
theorem eq_of_longer_sign :
    ∀ s ∈ signs, ∀ s' ∈ signs, s.1.toList.isPrefixOf s'.1.toList = true →
      s.1.toList.length < s'.1.toList.length →
      (s = (".", .op) ∧ s'.1 = "...") ∨
        (∃ g ∈ growths, s.1 = g.1 ∧ s'.1.toList = s.1.toList ++ [g.2]) ∨
        (∃ e ∈ separated, s = e.1 ∧ s'.1.toList = s.1.toList ++ [e.2]) := by
  decide +kernel

theorem sign_of_growth :
    ∀ g ∈ growths, ∃ s ∈ signs,
      s.1.toList = g.1.toList ++ [g.2] ∧ s.1.toList.head? ≠ some '/' := by
  decide

theorem number_of_sign : ∀ s ∈ signs, s.2 ≠ .number := by
  decide

variable {a b : Token} {before : Option Token}

/-- Next to a word or a literal stands a sign. -/
theorem sign_of_close (ha : a.kind = .ident ∨ a.kind = .number) (hb : Written b.kind b.text.toList)
    (close : needsSpace before a b = false) : (b.text, b.kind) ∈ signs := by
  have hclose (hkind : b.kind = .ident ∨ b.kind = .number ∨ b.kind = .string ∨ b.kind = .char) :
      needsSpace before a b = true := by
    rcases ha with ha | ha <;> rcases hkind with hb | hb | hb | hb <;>
      simp [needsSpace, closesUp, holdsOn, isAccess, isOp, isUnary, isSign, spaced, ha, hb]
  rw [close] at hclose
  generalize hk : b.kind = k at hb hclose
  generalize hw : b.text.toList = w at hb
  cases hb with
  | ident | number | string | char => simp at hclose
  | sign listed => rwa [String.toList_inj.1 hw]

theorem sign_of_startsSign (hb : Written b.kind b.text.toList)
    (hstart : b.text.toList.head?.any startsSign = true) : (b.text, b.kind) ∈ signs := by
  generalize b.kind = k at hb
  generalize hw : b.text.toList = w at hb hstart
  cases hb with
  | ident start =>
    simp [startsSign, start] at hstart
  | number start =>
    simp [startsSign, start] at hstart
  | string leads =>
    simp only [encodings, List.mem_cons, List.not_mem_nil, or_false] at leads
    rcases leads with rfl | rfl | rfl | rfl | rfl <;> cases hstart
  | char => cases hstart
  | sign listed => rwa [String.toList_inj.1 hw]

/-- What stands before two tokens only matters to a sign and to a parenthesis. -/
theorem needsSpace_of_none (hsign : a.isSign = false) (hparen : b.kind ≠ .lparen)
    (h : needsSpace none a b = true) : needsSpace before a b = true := by
  have hunary (before : Option Token) : isUnary before a = false := by
    rw [isUnary, hsign, Bool.false_and]
  have hspaced : spaced before a b = spaced none a b := by
    unfold spaced
    split
    · exact absurd ‹_› hparen
    all_goals rfl
  unfold needsSpace at h ⊢
  rwa [hunary, hspaced, ← hunary none]

theorem separates :
    ∀ e ∈ separated, (⟨e.1.2, e.1.1, 0⟩ : Token).isSign = false ∧ startsSign e.2 = true ∧
      ∀ s ∈ signs, s.1.toList.head? = some e.2 →
        s.2 ≠ .lparen ∧ needsSpace none ⟨e.1.2, e.1.1, 0⟩ ⟨s.2, s.1, 0⟩ = true := by
  decide

theorem needsSpace_of_separated {d : Char} (ha : ((a.text, a.kind), d) ∈ separated)
    (hb : Written b.kind b.text.toList) (hhead : b.text.toList.head? = some d) :
    needsSpace before a b = true := by
  obtain ⟨hsign, hstart, hspace⟩ := separates _ ha
  have hb := sign_of_startsSign hb (by simpa [hhead] using hstart)
  obtain ⟨hparen, hspace⟩ := hspace _ hb hhead
  exact needsSpace_of_none hsign hparen hspace

/-! ### Dots -/

theorem sign_of_dot : ∀ s ∈ signs, s.1.toList.head? = some '.' → s = (".", .op) ∨ s = ("...", .op) := by
  decide

theorem dots_of_head? (hb : Written b.kind b.text.toList) (hhead : b.text.toList.head? = some '.') :
    b.isOp "." = true ∨ b.isOp "..." = true := by
  have hlisted := sign_of_startsSign hb (by simp [hhead, show startsSign '.' = true by decide])
  unfold isOp
  rcases sign_of_dot _ hlisted hhead with h | h
  · cases b
    cases h
    exact .inl rfl
  · cases b
    cases h
    exact .inr rfl

theorem toList_of_isOp {text : String} (h : a.isOp text = true) : a.kind = .op ∧ a.text = text := by
  simpa [isOp] using h

theorem head?_of_dots (h : a.isOp "." = true ∨ a.isOp "..." = true) :
    a.text.toList.head? = some '.' := by
  rcases h with h | h <;> rw [(toList_of_isOp h).2] <;> rfl

theorem spelled_of_dot (h : a.isOp "." = true) (b : Token) (ts : List Token) :
    spelled before a (b :: ts) = '.' :: spelled (some a) b ts := by
  have hclose : needsSpace before a b = false := by
    simp [needsSpace, isAccess, h]
  rw [spelled_cons, hclose, (toList_of_isOp h).2]
  rfl

theorem head?_spelled (before : Option Token) (ha : Written a.kind a.text.toList) (ts : List Token) :
    (spelled before a ts).head? = a.text.toList.head? := by
  obtain ⟨c, cs, htext, -⟩ := ha.exists_cons
  rw [spelled, htext]
  rfl

/-- Two dots come next when an ellipsis does, or a dot that one of both follows. -/
theorem dots_iff {ts : List Token} (hb : Written b.kind b.text.toList)
    (hts : ∀ t ∈ ts, Written t.kind t.text.toList) :
    ['.', '.'] <+: spelled before b ts ↔
      (b.isOp "..." || b.isOp "." && ts.head?.any fun c => c.isOp "." || c.isOp "...") = true := by
  simp only [Bool.or_eq_true, Bool.and_eq_true]
  constructor
  · intro hdots
    have hhead := head?_spelled before hb ts
    obtain ⟨more, hmore⟩ := hdots
    rw [← hmore] at hhead
    rcases dots_of_head? hb hhead.symm with h | h
    · refine .inr ⟨h, ?_⟩
      cases ts with
      | nil =>
        rw [spelled_nil, (toList_of_isOp h).2] at hmore
        simp at hmore
      | cons c ts =>
        rw [spelled_of_dot h] at hmore
        have hc := hts c (List.mem_cons_self ..)
        have hnext := head?_spelled (some b) hc ts
        rw [← (List.cons.inj hmore).2] at hnext
        simpa using dots_of_head? hc hnext.symm
    · exact .inl h
  · rintro (h | ⟨h, hnext⟩)
    · rw [spelled, (toList_of_isOp h).2]
      exact ⟨'.' :: _, rfl⟩
    · cases ts with
      | nil => cases hnext
      | cons c ts =>
        have hc := head?_of_dots (a := c) (by simpa using hnext)
        have hhead := head?_spelled (some b) (hts c (List.mem_cons_self ..)) ts
        rw [spelled_of_dot h]
        rw [hc] at hhead
        obtain ⟨more, hmore⟩ := List.head?_eq_some_iff.1 hhead
        rw [hmore]
        exact ⟨more, rfl⟩

/-! ### Next to each other -/

/-- Joining starts no comment. -/
theorem free_of_slash (listed : (a.text, a.kind) ∈ signs) (hb : Written b.kind b.text.toList)
    (close : needsSpace before a b = false) (hslash : a.text = "/") :
    ∀ d ∈ b.text.toList.head?, d ≠ '/' ∧ d ≠ '*' := by
  intro d hd
  have hkind : a.kind = .op := kind_of_sign _ listed ("/", .op) (by decide) hslash
  have hspace (hlisted : (("/", .op), d) ∈ separated) : needsSpace before a b = true :=
    needsSpace_of_separated (by rwa [hslash, hkind]) hb hd
  rw [close] at hspace
  constructor
  · rintro rfl
    cases hspace (by decide)
  · rintro rfl
    cases hspace (by decide)

/-- A sign that is made longer without a space blends with what does it. -/
theorem blends_of_longer {ts : List Token} (listed : (a.text, a.kind) ∈ signs)
    (hb : Written b.kind b.text.toList) (hts : ∀ t ∈ ts, Written t.kind t.text.toList)
    (close : needsSpace before a b = false) {s : String × TokenKind} (hs : s ∈ signs) {c : Char}
    {cs : List Char} (hsign : s.1.toList = a.text.toList ++ c :: cs)
    (hstarts : c :: cs <+: spelled (some a) b ts) : blends a b ts.head? = true := by
  have hhead : b.text.toList.head? = some c := by
    obtain ⟨more, hmore⟩ := hstarts
    rw [← head?_spelled (some a) hb ts, ← hmore]
    rfl
  have hlonger := eq_of_longer_sign _ listed s hs
    (List.isPrefixOf_iff_prefix.2 ⟨c :: cs, hsign.symm⟩) (by simp [hsign])
  unfold blends
  rw [Bool.or_eq_true, Bool.or_eq_true]
  rcases hlonger with ⟨hdot, hs⟩ | ⟨g, hg, hga, hsd⟩ | ⟨e, he, hea, hsd⟩
  · obtain ⟨htext, hkind⟩ := Prod.mk.inj hdot
    have ha : a.isOp "." = true := by
      simp [isOp, htext, hkind]
    rw [hs, htext] at hsign
    cases hsign
    exact .inl (.inr (Bool.and_eq_true_iff.2 ⟨ha, (dots_iff hb hts).1 hstarts⟩))
  · rw [hsign, List.append_cancel_left_eq] at hsd
    cases hsd
    exact .inr (List.any_eq_true.2 ⟨g, hg, by simp [show a.text = g.1 from hga, hhead]⟩)
  · rw [hsign, List.append_cancel_left_eq] at hsd
    cases hsd
    have hspace : needsSpace before a b = true := needsSpace_of_separated (by rwa [hea]) hb hhead
    rw [close] at hspace
    cases hspace

/-- A number that is made longer without a space blends with the dot behind it. -/
theorem blends_of_number {next : Option Token} (ha : a.kind = .number)
    (hb : Written b.kind b.text.toList) (close : needsSpace before a b = false)
    (hhead : b.text.toList.head? = some '.') : blends a b next = true := by
  rcases dots_of_head? hb hhead with h | h
  · simp [blends, ha, h]
  · obtain ⟨hkind, htext⟩ := toList_of_isOp h
    simp [needsSpace, closesUp, holdsOn, isAccess, isPointer, isOp, isIdent, isUnary, isSign,
      spaced, ha, hkind, htext] at close

/-- Without a space a token ends in front of another unless the two blend. -/
theorem first?_of_not_blends {ts : List Token} (ha : Written a.kind a.text.toList)
    (hb : Written b.kind b.text.toList) (hts : ∀ t ∈ ts, Written t.kind t.text.toList)
    (close : needsSpace before a b = false) (apart : blends a b ts.head? = false) :
    first? (a.text.toList ++ spelled (some a) b ts) = some ⟨.token a.kind, a.text.toList⟩ := by
  have hblends : ¬ blends a b ts.head? = true := by simp [apart]
  have hhead := head?_spelled (some a) hb ts
  have hstart {d : Char} (hword : a.kind = .ident ∨ a.kind = .number)
      (hd : d ∈ (spelled (some a) b ts).head?) : startsSign d = true := by
    rw [hhead] at hd
    simpa [Option.mem_def.1 hd] using startsSign_of_mem _ (sign_of_close hword hb close)
  generalize hk : a.kind = k at ha
  generalize hw : a.text.toList = w at ha
  cases ha with
  | ident start rest =>
    refine (first?_ident_iff start rest).2 ⟨fun d hd => ?_, fun _ hquote => ?_⟩
    · exact isIdentRest_of_startsSign (hstart (.inl hk) hd)
    · cases hstart (.inl hk) hquote
  | number start rest =>
    refine (first?_number_iff start rest).2 fun d hd => ?_
    refine isNumberRest_of_startsSign (hstart (.inr hk) hd) ?_
    rintro rfl
    exact hblends (blends_of_number hk hb close (hhead ▸ hd))
  | string leads inside => exact first?_string leads inside
  | char inside => exact first?_char inside
  | sign listed =>
    cases String.toList_inj.1 hw
    cases hk
    refine (first?_sign_iff listed).2 ⟨fun hslash d hd => ?_, fun s hs c cs hsign hstarts => ?_⟩
    · exact free_of_slash listed hb close hslash d (hhead ▸ hd)
    · exact hblends (blends_of_longer listed hb hts close hs hsign hstarts)

/-- A longer sign that starts at `a` is read in its place. -/
theorem longer_of_sign {behind : List Char} {s : String × TokenKind} (hs : s ∈ signs)
    (hstarts : s.1.toList <+: a.text.toList ++ behind)
    (hlonger : a.text.toList.length < s.1.toList.length)
    (free : s.1.toList.head? ≠ some '/') :
    ∃ k w, first? (a.text.toList ++ behind) = some ⟨.token k, w⟩ ∧ k.isTrivia = false ∧
      a.text.toList.length < w.length := by
  obtain ⟨c, cs, hsign, -⟩ := (Written.sign hs).exists_cons
  have hhead : (a.text.toList ++ behind).head? = s.1.toList.head? := by
    obtain ⟨rest, hrest⟩ := hstarts
    rw [← hrest, hsign]
    rfl
  obtain ⟨s', hs', hfirst, -, hlongest⟩ :=
    first?_of_sign hs hstarts fun hslash => absurd (hhead ▸ hslash) free
  exact ⟨s'.2, s'.1.toList, hfirst, isTrivia_of_sign s' hs', hlonger.trans_le (hlongest s hs hstarts)⟩

/-- Tokens that blend are not read as the first of them. -/
theorem longer_of_blends {ts : List Token} (ha : Written a.kind a.text.toList)
    (hb : Written b.kind b.text.toList) (hts : ∀ t ∈ ts, Written t.kind t.text.toList)
    (h : blends a b ts.head? = true) :
    ∃ k w, first? (a.text.toList ++ spelled (some a) b ts) = some ⟨.token k, w⟩ ∧
      k.isTrivia = false ∧ a.text.toList.length < w.length := by
  unfold blends at h
  rw [Bool.or_eq_true, Bool.or_eq_true] at h
  rcases h with (h | h) | h
  · rw [Bool.and_eq_true, beq_iff_eq] at h
    obtain ⟨hnumber, hdot⟩ := h
    obtain ⟨more, hmore⟩ : ∃ more, spelled (some a) b ts = '.' :: more := by
      rw [spelled, (toList_of_isOp hdot).2]
      exact ⟨_, rfl⟩
    rw [hnumber] at ha
    generalize a.text.toList = w at ha ⊢
    cases ha with
    | number start rest =>
      refine ⟨.number, _, first?_number start rest, rfl, ?_⟩
      rw [hmore, List.takeWhile_cons_of_pos (by decide), List.length_append, List.length_cons]
      exact Nat.lt_add_of_pos_right (Nat.zero_lt_succ _)
    | sign listed => exact absurd rfl (number_of_sign _ listed)
  · rw [Bool.and_eq_true] at h
    obtain ⟨hdot, hnext⟩ := h
    have htext := (toList_of_isOp hdot).2
    obtain ⟨more, hmore⟩ := (dots_iff hb hts).2 hnext
    refine longer_of_sign (s := ("...", .op)) (by decide) ?_ ?_ ?_
    · rw [htext, ← hmore]
      exact ⟨more, rfl⟩
    · rw [htext]
      decide
    · decide
  · obtain ⟨g, hg, h⟩ := List.any_eq_true.1 h
    rw [Bool.and_eq_true, beq_iff_eq, beq_iff_eq] at h
    obtain ⟨htext, hhead⟩ := h
    obtain ⟨s, hs, hsign, hslash⟩ := sign_of_growth g hg
    obtain ⟨more, hmore⟩ := List.head?_eq_some_iff.1 ((head?_spelled (some a) hb ts).trans hhead)
    refine longer_of_sign hs ?_ ?_ hslash
    · rw [hsign, htext, hmore]
      exact ⟨more, by simp⟩
    · simp [hsign, htext]

/-! ### All tokens -/

theorem map_shape_spelled_iff {ts : List Token} (h : ∀ t ∈ a :: ts, Written t.kind t.text.toList) :
    (scan (spelled before a ts)).filterMap shape? = (a :: ts).map shape ↔
      runsTogether before (a :: ts) = false := by
  induction ts generalizing before a with
  | nil =>
    have ha := h a (List.mem_cons_self ..)
    have hfirst : first? (a.text.toList ++ []) = some ⟨.token a.kind, a.text.toList⟩ :=
      ha.first?_of_breaks (by simp)
    refine iff_of_true ?_ rfl
    rw [spelled_nil, ← List.append_nil a.text.toList, ha.filterMap_shape?_scan hfirst]
    simp [scan, shape]
  | cons b ts ih =>
    obtain ⟨ha, hbs⟩ := List.forall_mem_cons.1 h
    obtain ⟨hb, hts⟩ := List.forall_mem_cons.1 hbs
    -- Once `a` is read, what is left to compare is what follows it.
    have hread (behind : List Char)
        (hfirst : first? (a.text.toList ++ behind) = some ⟨.token a.kind, a.text.toList⟩) :
        (scan (a.text.toList ++ behind)).filterMap shape? = (a :: b :: ts).map shape ↔
          (scan behind).filterMap shape? = (b :: ts).map shape := by
      rw [ha.filterMap_shape?_scan hfirst, String.ofList_toList, List.map_cons]
      exact List.cons_inj_right _
    rw [spelled_cons, runsTogether]
    by_cases hspace : needsSpace before a b = true
    · rw [if_pos hspace, hspace, hread _ (ha.first?_of_breaks (by rintro d ⟨⟩; decide)),
        List.singleton_append, filterMap_shape?_scan_gap (by decide)]
      simpa using ih hbs
    · have hclose : needsSpace before a b = false := by simpa using hspace
      rw [if_neg hspace, hclose, List.nil_append]
      by_cases hblend : blends a b ts.head? = true
      · obtain ⟨k, w, hfirst, hk, hlonger⟩ := longer_of_blends ha hb hts hblend
        refine iff_of_false (fun heq => ?_) (by simp [hblend])
        rw [filterMap_shape?_scan hfirst hk, List.map_cons] at heq
        have htext : String.ofList w = a.text := congrArg Prod.snd (List.cons.inj heq).1
        rw [← htext, String.toList_ofList] at hlonger
        omega
      · have hapart : blends a b ts.head? = false := by simpa using hblend
        rw [hread _ (first?_of_not_blends ha hb hts hclose hapart), hapart]
        simpa using ih hbs

theorem map_shape_scan_join_iff {ts : List Token} (h : ∀ t ∈ ts, Written t.kind t.text.toList) :
    (scan (join ts).toList).filterMap shape? = ts.map shape ↔ runsTogether none ts = false := by
  cases ts with
  | nil => simp [join, scan, runsTogether]
  | cons a ts =>
    rw [join, String.toList_append]
    exact map_shape_spelled_iff h

/-- **Joining loses no token if and only if no two run together.** -/
theorem map_shape_join_iff {source : String} {line line' : Nat}
    (clean : ∀ l ∈ scan source.toList, l.kind ≠ .stray) :
    (tokenize (join (tokenize source line)) line').map shape = (tokenize source line).map shape ↔
      runsTogether none (tokenize source line) = false := by
  have hwritten : ∀ t ∈ tokenize source line, Written t.kind t.text.toList :=
    written_of_mem_tokenize clean
  rw [map_shape_tokenize (join _)]
  cases hts : tokenize source line with
  | nil => simp [join, scan, runsTogether]
  | cons a ts =>
    rw [hts] at hwritten
    rw [join, String.toList_append]
    exact map_shape_spelled_iff hwritten

theorem map_shape_join_of_initializer :
    (∀ l ∈ scan "int X = -1 + - Y".toList, l.kind ≠ .stray) ∧
      (tokenize (join (tokenize "int X = -1 + - Y" 1)) 1).map shape =
        (tokenize "int X = -1 + - Y" 1).map shape := by
  have hclean : (scan "int X = -1 + - Y".toList).all (·.kind ≠ .stray) = true := by
    cbv
  have hclean : ∀ l ∈ scan "int X = -1 + - Y".toList, l.kind ≠ .stray := by
    simpa using hclean
  exact ⟨hclean, (map_shape_join_iff hclean).2 (by cbv)⟩

/-- Two signs that each have one operand become a decrement. -/
theorem exists_map_shape_join_ne :
    ¬ ∀ (source : String) (line line' : Nat), (∀ l ∈ scan source.toList, l.kind ≠ .stray) →
      (tokenize (join (tokenize source line)) line').map shape =
        (tokenize source line).map shape := by
  intro hall
  have hclean : (scan "int X = - -1".toList).all (·.kind ≠ .stray) = true := by
    cbv
  have hjoined : (tokenize (join (tokenize "int X = - -1" 1)) 1).map shape =
      [(.ident, "int"), (.ident, "X"), (.equals, "="), (.op, "--"), (.number, "1")] := by
    cbv
  have htokens : (tokenize "int X = - -1" 1).map shape =
      [(.ident, "int"), (.ident, "X"), (.equals, "="), (.op, "-"), (.op, "-"), (.number, "1")] := by
    cbv
  have hsame := hall "int X = - -1" 1 1 (by simpa using hclean)
  rw [hjoined, htokens] at hsame
  exact absurd hsame (by decide)

end AnnotatedHeader.Token
