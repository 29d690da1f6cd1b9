import AnnotatedHeader.Proofs.Statement.ByPlace
import AnnotatedHeader.Proofs.Statement.CommaParts
import AnnotatedHeader.Proofs.Statement.FunctionHead

/-! Searches by place stay in range.

A search by place (`ByPlace`) has come to a place and has counted what is in front: `Reading` says
so, and a token more is one step of it. So each search has an answer, the one that is found on
lists. Behind an opening sign no closing sign is one too many (`exists_matching`). -/
namespace AnnotatedHeader.ByPlace

/-! ### Stretches of a list -/

section Stretches
variable {α : Type} {xs within : List α} {start stop : Nat}

theorem minus?_of_le {a b : Nat} (h : b ≤ a) : minus? a b = some (a - b) := if_pos h

theorem slice?_eq (before behind : List α) (h : xs = before ++ (within ++ behind))
    (hstart : before.length = start) (hstop : start + within.length = stop) :
    slice? xs start stop = some within := by
  subst h hstart hstop
  rw [slice?, if_pos ⟨Nat.le_add_right .., by simp⟩, ← List.append_assoc, ← List.length_append,
    List.take_left, List.drop_left]

theorem slice?_take (h : stop ≤ xs.length) : slice? xs 0 stop = some (xs.take stop) := by
  rw [slice?, if_pos ⟨Nat.zero_le _, h⟩, List.drop_zero]

theorem slice?_drop (h : start ≤ xs.length) : slice? xs start xs.length = some (xs.drop start) := by
  rw [slice?, if_pos ⟨h, Nat.le_refl _⟩, List.take_length]

theorem slice?_front (front behind : List α) :
    slice? (front ++ behind) 0 front.length = some front := by
  rw [slice?_take (by simp), List.take_left]

theorem slice?_inner (first : α) (middle : List α) (last : α) :
    slice? (first :: (middle ++ [last])) 1 ((first :: (middle ++ [last])).length - 1) = some middle :=
  slice?_eq [first] [last] rfl rfl (by simp; omega)

theorem slice?_behind (front : List α) (x : α) (behind : List α) :
    slice? (front ++ x :: behind) (front.length + 1) (front ++ x :: behind).length = some behind := by
  rw [slice?_drop (by simp), ← List.drop_drop, List.drop_left, List.drop_one, List.tail_cons]

theorem slice?_min (start : Nat) (h : stop ≤ xs.length) :
    slice? xs (min start stop) stop = some ((xs.take stop).drop start) := by
  rw [slice?, if_pos ⟨Nat.min_le_right .., h⟩]
  rcases Nat.le_total start stop with hle | hle
  · rw [Nat.min_eq_left hle]
  · rw [Nat.min_eq_right hle, List.drop_of_length_le (by simp), List.drop_of_length_le (by simp [hle])]

theorem slice?_self (h : start ≤ xs.length) : slice? xs start start = some [] := by
  rw [slice?, if_pos ⟨Nat.le_refl _, h⟩, List.drop_eq_nil_of_le (List.length_take_le ..)]

/-- A stretch grows by the item behind it. -/
theorem slice?_succ {x : α} (h : slice? xs start stop = some within) (hx : xs[stop]? = some x) :
    slice? xs start (stop + 1) = some (within ++ [x]) := by
  unfold slice? at h
  split at h
  · rename_i hplaces
    cases h
    obtain ⟨hlt, -⟩ := List.getElem?_eq_some_iff.1 hx
    rw [slice?, if_pos ⟨by omega, hlt⟩, List.take_add_one, hx,
      List.drop_append_of_le_length (by rw [List.length_take_of_le hplaces.2]; exact hplaces.1)]
    rfl
  · cases h

/-- What is found first parts the list. -/
theorem findIdx?_cases (sought : α → Bool) (xs : List α) :
    (xs.findIdx? sought = none ∧ (∀ x ∈ xs, sought x = false) ∧ xs.takeWhile (!sought ·) = xs ∧
      xs.dropWhile (!sought ·) = []) ∨
    ∃ before x behind, xs = before ++ x :: behind ∧ sought x = true ∧
      xs.findIdx? sought = some before.length ∧ xs.takeWhile (!sought ·) = before ∧
      xs.dropWhile (!sought ·) = x :: behind := by
  induction xs with
  | nil => exact .inl ⟨rfl, by simp, rfl, rfl⟩
  | cons x xs ih =>
    cases hx : sought x with
    | true => exact .inr ⟨[], x, xs, by simp [hx, List.findIdx?_cons]⟩
    | false =>
      rcases ih with ⟨hnone, hall, htake, hdrop⟩ | ⟨before, y, behind, rfl, hy, hsome, htake, hdrop⟩
      · refine .inl ⟨?_, List.forall_mem_cons.2 ⟨hx, hall⟩, ?_, ?_⟩
        · rw [List.findIdx?_cons, hx, hnone]
          rfl
        · rw [List.takeWhile_cons_of_pos (by simp [hx]), htake]
        · rw [List.dropWhile_cons_of_pos (by simp [hx]), hdrop]
      · exact .inr ⟨x :: before, y, behind, by simp [List.findIdx?_cons, hx, hy, hsome, htake, hdrop]⟩

end Stretches

variable {n : Nesting} {ts rest : List Token} {i : Nat} {t : Token}

/-! ### Text -/

theorem back?_one (before rest : List Token) :
    back? (before ++ rest) before.length 1 = before.getLast? := by
  rcases List.eq_nil_or_concat' before with rfl | ⟨front, prev, rfl⟩
  · rfl
  · simp [back?, minus?]

theorem standsBack_succ (sought : Token → Bool) (ts : List Token) (i k : Nat) :
    standsBack sought ts (i + 1) (k + 1) = standsBack sought ts i k := by
  simp [standsBack, back?, minus?]

theorem standsBack_one (sought : Token → Bool) (before rest : List Token) :
    standsBack sought (before ++ rest) before.length 1 = some (before.getLast?.any sought) := by
  rw [standsBack, back?_one]
  rcases List.eq_nil_or_concat' before with rfl | ⟨front, prev, rfl⟩
  · rfl
  · rw [List.getLast?_concat, if_pos (by simp)]
    rfl

theorem spaceAt_eq (front rest : List Token) (prev t : Token) :
    spaceAt (front ++ prev :: rest) (front.length + 1) t =
      some (Token.needsSpace front.getLast? prev t) := by
  rcases List.eq_nil_or_concat' front with rfl | ⟨front, before, rfl⟩
  · rfl
  · simp [spaceAt, back?, minus?]

theorem joinFrom_eq (front : List Token) (prev : Token) (rest : List Token) :
    joinFrom (front ++ prev :: rest) (front.length + 1) rest =
      some (Token.joinAfter front.getLast? prev rest) := by
  induction rest generalizing front prev with
  | nil => rfl
  | cons t rest ih =>
    have hlater := ih (front ++ [prev]) t
    rw [List.append_assoc, List.singleton_append, List.length_append, List.length_singleton,
      List.getLast?_concat] at hlater
    rw [joinFrom, spaceAt_eq, hlater]
    rfl

@[simp] theorem join_eq (ts : List Token) : join ts = some (Token.join ts) := by
  cases ts with
  | nil => rfl
  | cons t ts =>
    have hlater := joinFrom_eq [] t ts
    rw [List.nil_append, List.length_nil, Nat.zero_add] at hlater
    rw [join, joinFrom, spaceAt, if_neg (Nat.lt_irrefl 0), hlater]
    simp [Token.join]

/-! ### Nesting -/

/-- Reading has come to place `i`: `rest` stands from there on, and the nesting has counted what is
in front. -/
structure Reading (n : Nesting) (ts : List Token) (i : Nat) (rest : List Token) : Prop where
  place : i ≤ ts.length
  rest : ts.drop i = rest
  prev : n.prev = (ts.take i).getLast?

namespace Reading

theorem start (ts : List Token) : Reading {} ts 0 ts := ⟨Nat.zero_le _, rfl, rfl⟩

theorem getElem?_eq (h : Reading n ts i rest) (k : Nat) : ts[i + k]? = rest[k]? := by
  rw [← h.rest, List.getElem?_drop]

theorem step (h : Reading n ts i (t :: rest)) : Reading (n.step t) ts (i + 1) rest := by
  have ht : ts[i]? = some t := h.getElem?_eq 0
  obtain ⟨hlt, -⟩ := List.getElem?_eq_some_iff.1 ht
  refine ⟨hlt, ?_, ?_⟩
  · rw [← List.drop_drop, h.rest, List.drop_one, List.tail_cons]
  · rw [Nesting.step_prev, List.take_add_one, ht, Option.toList_some, List.getLast?_concat]

theorem place_eq (h : Reading n ts i []) : i = ts.length :=
  Nat.le_antisymm h.place (List.drop_eq_nil_iff.1 h.rest)

theorem standsBack_eq (h : Reading n ts i rest) (sought : Token → Bool) :
    standsBack sought ts i 1 = some (n.prev.any sought) := by
  have hback := standsBack_one sought (ts.take i) (ts.drop i)
  rwa [List.take_append_drop, List.length_take_of_le h.place, ← h.prev] at hback

theorem angleBehind_eq (h : Reading n ts i rest) (t : Token) :
    angleBehind ts i n.angle t = some (n.step t).angle := by
  unfold angleBehind Nesting.step
  cases t.kind with
  | less =>
    dsimp only
    rw [opensAngle, h.standsBack_eq]
    rfl
  | greater =>
    dsimp only
    split
    · exact minus?_of_le ‹_›
    · congr 1
      omega
  | _ => rfl

end Reading

theorem bracketDepth_eq (n : Nesting) (t : Token) :
    EnumBody.bracketDepth n.depth t.kind = (n.step t).depth := by
  unfold EnumBody.bracketDepth Nesting.step
  cases t.kind <;> rfl

theorem Reading.findFrom_eq (h : Reading n ts i rest) (kind : TokenKind) :
    findFrom ts kind i n.depth n.angle rest = some ((n.findFrom kind rest).map (i + ·)) := by
  induction rest generalizing n i with
  | nil => rfl
  | cons t rest ih =>
    rw [findFrom, Nesting.findFrom]
    by_cases htop : t.kind = kind ∧ n.depth = 0 ∧ n.angle = 0
    · rw [if_pos htop, if_pos (by simp [Nesting.isTop, htop])]
      rfl
    · rw [if_neg htop, if_neg (by simpa [Nesting.isTop] using htop), h.angleBehind_eq,
        bracketDepth_eq, Option.map_map]
      refine (ih h.step).trans ?_
      congr 2
      funext k
      show i + 1 + k = i + (k + 1)
      omega

@[simp] theorem findTop_eq (ts : List Token) (kind : TokenKind) :
    findTop ts kind = some (findTop? kind ts) := by
  have h := (Reading.start ts).findFrom_eq kind
  simpa [findTop, findTop?] using h

/-- What is read of the part that is open is put in front of the rest of it. -/
theorem Reading.partsFrom_eq {start : Nat} {part later : List Token} {parts : List (Nat × List Token)}
    (h : Reading n ts i rest) (hpart : slice? ts start i = some part)
    (hparts : n.partsFrom i rest = (i, later) :: parts) :
    partsFrom ts start i n.depth n.angle rest = some ((start, part ++ later) :: parts) := by
  induction rest generalizing n i start part later parts with
  | nil =>
    cases hparts
    rw [partsFrom, ← h.place_eq, hpart, List.append_nil]
    rfl
  | cons t rest ih =>
    obtain ⟨next, more, hnext, -, -⟩ := (n.step t).exists_partsFrom (i + 1) rest
    rw [Nesting.partsFrom, hnext] at hparts
    rw [partsFrom]
    by_cases hcut : t.kind = .comma ∧ n.depth = 0 ∧ n.angle = 0
    · rw [if_pos (by simp [Nesting.isTop, hcut])] at hparts
      cases hparts
      obtain ⟨hdepth, hangle⟩ := Nesting.step_of_flat (t := t) (by rw [hcut.1]; rfl) n
      have hlater := ih h.step (slice?_self h.step.place) hnext
      rw [hdepth, hangle, List.nil_append] at hlater
      rw [if_pos hcut, hpart, hlater, List.append_nil]
      rfl
    · rw [if_neg (by simpa [Nesting.isTop] using hcut)] at hparts
      cases hparts
      have hlater := ih h.step (slice?_succ hpart (h.getElem?_eq 0)) hnext
      rw [List.append_assoc] at hlater
      rw [if_neg hcut, h.angleBehind_eq, bracketDepth_eq]
      exact hlater

@[simp] theorem commaParts_eq (ts : List Token) :
    commaParts ts = some (AnnotatedHeader.commaParts ts) := by
  obtain ⟨part, parts, hparts, -, -⟩ := Nesting.exists_partsFrom {} 0 ts
  have h := (Reading.start ts).partsFrom_eq (slice?_self (Nat.zero_le _)) hparts
  rw [AnnotatedHeader.commaParts, hparts]
  exact h

/-! ### Brackets -/

/-- An opening sign has been read, so no closing sign is one too many. -/
theorem exists_matchingFrom (opens closes : TokenKind) (i depth : Nat) (ts : List Token) :
    ∃ place, matchingFrom opens closes i (depth + 1) ts = some place ∧
      ∀ close ∈ place, i ≤ close ∧ close < i + ts.length := by
  induction ts generalizing i depth with
  | nil => exact ⟨none, rfl, by simp⟩
  | cons t ts ih =>
    have hlater (depth : Nat) : ∃ place, matchingFrom opens closes (i + 1) (depth + 1) ts = some place ∧
        ∀ close ∈ place, i ≤ close ∧ close < i + (t :: ts).length := by
      obtain ⟨place, hplace, hbounds⟩ := ih (i + 1) depth
      refine ⟨place, hplace, fun close hclose => ?_⟩
      have := hbounds close hclose
      rw [List.length_cons]
      omega
    rw [matchingFrom]
    split
    · exact hlater (depth + 1)
    · split
      · cases depth with
        | zero => exact ⟨some i, rfl, by simp⟩
        | succ depth => exact hlater depth
      · exact hlater depth

theorem exists_matching {opening : Nat} (h : opening < ts.length) :
    ∃ place, matching ts opening = some place ∧
      ∀ close ∈ place, opening < close ∧ close < ts.length := by
  have hfrom (opens closes : TokenKind) (hkind : ts[opening].kind = opens) :
      ∃ place, matchingFrom opens closes opening 0 (ts.drop opening) = some place ∧
        ∀ close ∈ place, opening < close ∧ close < ts.length := by
    obtain ⟨place, hplace, hbounds⟩ := exists_matchingFrom opens closes (opening + 1) 0
      (ts.drop (opening + 1))
    refine ⟨place, ?_, fun close hclose => ?_⟩
    · rw [List.drop_eq_getElem_cons h, matchingFrom, if_pos hkind, hplace]
    · have := hbounds close hclose
      rw [List.length_drop] at this
      omega
  rw [matching, List.getElem?_eq_getElem h, Option.bind_eq_bind, Option.bind_some]
  split
  · exact hfrom _ _ ‹_›
  · exact hfrom _ _ ‹_›
  · exact hfrom _ _ ‹_›
  · exact ⟨none, rfl, by simp⟩

/-- A place is one further on in a list that is longer by a token in front. -/
theorem map_length_cons (t : Token) (i : Nat) (cut : Option (List Token × List Token)) :
    (cut.map fun (inside, behind) => (t :: inside, behind)).map (i + ·.1.length) =
      cut.map (i + 1 + ·.1.length) := by
  rw [Option.map_map]
  congr 1
  funext e
  show i + (e.1.length + 1) = i + 1 + e.1.length
  omega

theorem matchingFrom_eq (i depth : Nat) (ts : List Token) :
    matchingFrom .lparen .rparen i (depth + 1) ts =
      some ((splitClose? depth ts).map (i + ·.1.length)) := by
  fun_induction splitClose? depth ts generalizing i with
  | case1 => rfl
  | case2 t ts kind => simp [matchingFrom, kind, minus?]
  | case3 t ts depth kind ih =>
    rw [map_length_cons, ← ih, matchingFrom, if_neg (by simp [kind]), if_pos kind]
    rfl
  | case4 t ts depth kind ih => rw [map_length_cons, ← ih, matchingFrom, if_pos kind]
  | case5 t ts depth hclose hclose' hopen ih =>
    have hkind : t.kind ≠ .rparen := fun kind => by
      cases depth with
      | zero => exact hclose kind rfl
      | succ depth => exact hclose' depth kind rfl
    rw [map_length_cons, ← ih, matchingFrom, if_neg hopen, if_neg hkind]

theorem matching_eq {opening : Token} (before behind : List Token) (is : opening.kind = .lparen) :
    matching (before ++ opening :: behind) before.length =
      some ((splitClose? 0 behind).map (before.length + 1 + ·.1.length)) := by
  have hat : (before ++ opening :: behind)[before.length]? = some opening := by simp
  rw [matching, hat, Option.bind_eq_bind, Option.bind_some, is]
  dsimp only
  rw [List.drop_left, matchingFrom, if_pos is, matchingFrom_eq]

/-- The closing parenthesis stands behind what is between the two. -/
theorem exists_closed {opening : Token} (before : List Token) {inside behind rest : List Token}
    (is : opening.kind = .lparen) (h : splitClose? 0 rest = some (inside, behind)) :
    ∃ closing, before ++ opening :: rest = before ++ opening :: inside ++ closing :: behind ∧
      matching (before ++ opening :: rest) before.length =
        some (some (before ++ opening :: inside).length) := by
  obtain ⟨closing, -, rfl⟩ := exists_closing_of_splitClose? h
  refine ⟨closing, by simp, ?_⟩
  rw [matching_eq before _ is, h, Option.map_some, List.length_append, List.length_cons,
    Nat.add_right_comm, Nat.add_assoc]

/-! ### Parameter lists -/

/-- The four things that a token can mean for the search. -/
theorem splitCallFrom_cons (n : Nesting) (t : Token) (rest : List Token) :
    splitCallFrom n (t :: rest) =
      if t.kind = .equals ∧ n.angle = 0 ∧ n.afterOperator = false then none
      else if t.kind = .lbrace ∧ n.angle = 0 then none
      else if t.kind = .lparen ∧ n.angle = 0 then
        if n.afterOperator && rest[0]?.any (·.kind == .rparen) && rest[1]?.any (·.kind == .lparen) then
          some (t :: rest.take 1, rest.drop 2)
        else some ([], rest)
      else (splitCallFrom (n.step t) rest).map fun (before, behind) => (t :: before, behind) := by
  conv => lhs; unfold splitCallFrom
  dsimp only
  by_cases hangle : n.angle = 0
  · simp only [hangle, if_true, and_true, true_and]
    split
    · rename_i hkind
      cases n.afterOperator <;> simp [hkind]
    · rename_i hkind
      simp [hkind]
    · rename_i close opening rest hkind
      simp [hkind]
    · rename_i rest _ _ hkind hshort
      have hbehind : rest[1]? = none := by
        match rest, hshort with
        | [], _ => rfl
        | [_], _ => rfl
        | close :: opening :: rest, hshort => exact absurd rfl (hshort close opening rest)
      simp [hkind, hbehind]
    · rename_i hequals hbrace hparen _
      rw [if_neg (fun h => hequals h.1), if_neg hbrace, if_neg hparen]
  · simp [hangle]

theorem Reading.findCallFrom_eq (h : Reading n ts i rest) :
    findCallFrom ts i n.angle rest = some ((splitCallFrom n rest).map (i + ·.1.length)) := by
  induction rest generalizing n i with
  | nil => rfl
  | cons t rest ih =>
    have hlater := ih h.step
    rw [← map_length_cons t] at hlater
    have hbehind (k : Nat) : ts[i + (k + 1)]? = rest[k]? := h.getElem?_eq (k + 1)
    have hoperator : n.prev.any (·.isIdent "operator") = n.afterOperator := rfl
    rw [findCallFrom, h.standsBack_eq, h.angleBehind_eq, splitCallFrom_cons, hoperator]
    dsimp only [Option.bind_eq_bind, Option.bind_some]
    rw [hlater, hbehind 0, hbehind 1]
    split_ifs with hequals hbrace hparen hpair
    · rfl
    · rfl
    · cases rest with
      | nil => simp at hpair
      | cons close rest => rfl
    · rfl
    · rfl

@[simp] theorem findCall_eq (ts : List Token) :
    findCall ts = some ((splitCall? ts).map (·.1.length)) := by
  have h := (Reading.start ts).findCallFrom_eq
  simpa [findCall, splitCall?] using h

theorem braceRole_eq (ts : List Token) : braceRole ts = some (AnnotatedHeader.braceRole ts) := by
  unfold braceRole AnnotatedHeader.braceRole
  cases ts with
  | nil => rfl
  | cons first ts =>
    dsimp only
    rw [findCall_eq, findTop_eq]
    cases hcall : splitCall? (first :: ts) with
    | none => rfl
    | some cut =>
      obtain ⟨before, behind⟩ := cut
      obtain ⟨opening, is, htokens⟩ := exists_opening_of_splitCallFrom hcall
      rw [htokens]
      dsimp only [Option.map_some, Option.bind_eq_bind, Option.bind_some]
      cases hclose : splitClose? 0 behind with
      | none =>
        rw [matching_eq before behind is, hclose]
        rfl
      | some cut =>
        obtain ⟨inside, qualifiers⟩ := cut
        obtain ⟨closing, hclosed, hmatching⟩ := exists_closed before is hclose
        rw [hmatching, hclosed]
        dsimp only [Option.bind_some]
        rw [slice?_behind]
        rfl

end AnnotatedHeader.ByPlace
