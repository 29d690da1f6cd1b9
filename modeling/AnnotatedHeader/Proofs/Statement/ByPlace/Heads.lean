import AnnotatedHeader.Proofs.Statement.ByPlace.Searches

/-! Heads by place stay in range.

A head is cut at places that searches have found, one of them in what another has left. Each reader
of `ByPlace` answers what is read on lists, and an answer means that no place was out of range, no
stretch out of order and no difference below zero. `inRange` says so of any tokens. -/
namespace AnnotatedHeader.ByPlace

variable {n : Nesting} {ts rest : List Token} {i : Nat}

/-! ### Enums and records -/

theorem lt_of_findTop? {kind : TokenKind} {i : Nat} (h : findTop? kind ts = some i) : i < ts.length := by
  obtain ⟨front, t, behind, rfl, rfl, -⟩ := Nesting.findFrom_eq_some_iff.1 h
  simp

theorem getD_findTop?_le (kind : TokenKind) (ts : List Token) :
    (findTop? kind ts).getD ts.length ≤ ts.length := by
  cases h : findTop? kind ts with
  | none => exact Nat.le_refl _
  | some i => exact Nat.le_of_lt (lt_of_findTop? h)

@[simp] theorem textBehind_eq (ts : List Token) (sign : Nat) :
    textBehind ts sign =
      some (if sign < ts.length then some (Token.join (ts.drop (sign + 1))) else none) := by
  rw [textBehind]
  split
  · rename_i hlt
    simp [slice?_drop hlt]
  · rfl

theorem enumHead_eq (ts : List Token) (hasBody : Bool) :
    enumHead ts hasBody = some (Head.enumHead ts hasBody) := by
  have hcolon := getD_findTop?_le .colon ts
  simp [enumHead, Head.enumHead, slice?_min _ hcolon]

/-- Words are told from their places in the whole, whatever stands behind the ones that are read. -/
theorem Reading.plainIdentsFrom_eq {more : List Token} (h : Reading n ts i (rest ++ more)) :
    plainIdentsFrom ts i n.angle rest = some (Head.plainIdents n rest) := by
  induction rest generalizing n i with
  | nil => rfl
  | cons t rest ih =>
    rw [plainIdentsFrom, h.angleBehind_eq]
    dsimp only [Option.bind_eq_bind, Option.bind_some]
    rw [ih h.step]
    rfl

@[simp] theorem bases_eq (ts : List Token) (colon : Nat) :
    bases ts colon = some ((if colon < ts.length then AnnotatedHeader.commaParts (ts.drop (colon + 1))
      else []).map fun e => Token.join e.2) := by
  rw [bases]
  split
  · rename_i hlt
    simp only [slice?_drop hlt, commaParts_eq, join_eq, Option.bind_eq_bind, Option.bind_some]
    exact List.mapM_pure
  · rfl

/-- The keyword in front is neither the colon nor does it open anything. -/
theorem findTop?_colon_cons {keyword : Token} (is : keyword.kind = .ident) (ts : List Token) :
    (findTop? .colon (keyword :: ts)).getD (keyword :: ts).length =
      ((Nesting.step {} keyword).findFrom .colon ts).getD ts.length + 1 := by
  rw [findTop?, Nesting.findFrom, if_neg (by simp [is])]
  cases (Nesting.step {} keyword).findFrom .colon ts <;> rfl

theorem recordHead_eq {keyword : Token} (is : keyword.kind = .ident) (ts : List Token) (hasBody : Bool) :
    recordHead (keyword :: ts) hasBody = some (Head.recordHead keyword ts hasBody) := by
  have hle := getD_findTop?_le .colon (keyword :: ts)
  have hangle := (Nesting.step_of_flat (t := keyword) (by rw [is]; rfl) {}).2
  unfold recordHead Head.recordHead
  rw [findTop_eq]
  dsimp only [Option.bind_eq_bind, Option.bind_some]
  rw [findTop?_colon_cons is] at hle ⊢
  generalize ((Nesting.step {} keyword).findFrom .colon ts).getD ts.length = colon at hle ⊢
  have hreading : Reading (Nesting.step {} keyword) (keyword :: ts) 1
      (ts.take colon ++ ts.drop colon) := by
    rw [List.take_append_drop]
    exact (Reading.start (keyword :: ts)).step
  have hwords : plainIdentsFrom (keyword :: ts) 1 0 (((keyword :: ts).take (colon + 1)).drop 1) = _ :=
    hangle ▸ hreading.plainIdentsFrom_eq
  rw [slice?_take hle, bases_eq, join_eq]
  dsimp only [Option.bind_some]
  rw [hwords]
  dsimp only [Option.bind_some]
  cases (Head.plainIdents (Nesting.step {} keyword) (ts.take colon)).getLast? with
  | none => rfl
  | some name =>
    simp only [List.length_cons, Nat.add_lt_add_iff_right]
    rfl

/-! ### Declarators -/

/-- Behind a closing bracket the search goes on in front of the last opening one. -/
theorem nameEnd_of_bracket {stop : Nat} {t : Token} {front : List Token} (hpos : 0 < stop)
    (hlast : back? ts stop 1 = some t) (kind : t.kind = .rbracket)
    (hfront : slice? ts 0 stop = some front) :
    nameEnd ts stop = (lastPlace? (·.kind == .lbracket) front).elim (some none) (nameEnd ts) := by
  rw [nameEnd, if_pos hpos, hlast, Option.bind_eq_bind, Option.bind_some, if_pos kind]
  split
  · rename_i front' hfront'
    obtain rfl : front = front' := Option.some.inj (hfront.symm.trans hfront')
    split
    · rename_i place hplace
      rw [hplace, Option.elim_some]
    · rename_i hplace
      rw [hplace, Option.elim_none]
      rfl
  · rename_i hnone
    cases hfront.symm.trans hnone

theorem nameEnd_reverse (rev more : List Token) :
    nameEnd (rev.reverse ++ more) rev.length = some ((Head.dropExtents rev).map List.length) := by
  have hlast (t : Token) (rev more : List Token) :
      back? ((t :: rev).reverse ++ more) (t :: rev).length 1 = some t := by
    have h := back?_one (t :: rev).reverse more
    rwa [List.length_reverse, List.getLast?_reverse] at h
  have hbracket (t : Token) (rev more : List Token) (kind : t.kind = .rbracket) :
      nameEnd ((t :: rev).reverse ++ more) (t :: rev).length =
        ((rev.dropWhile (·.kind != .lbracket)).tail?.map List.length).elim (some none)
          (nameEnd ((t :: rev).reverse ++ more)) := by
    have hfront : slice? ((t :: rev).reverse ++ more) 0 (t :: rev).length = some (t :: rev).reverse := by
      rw [← List.length_reverse, slice?_front]
    rw [nameEnd_of_bracket (by simp) (hlast t rev more) kind hfront, lastPlace?, List.reverse_reverse,
      List.dropWhile_cons_of_pos (by simp [kind])]
    simp only [bne]
    cases rev.dropWhile (!·.kind == .lbracket) <;> rfl
  fun_induction Head.dropExtents rev generalizing more with
  | case1 =>
    rw [nameEnd]
    rfl
  | case2 t rev kind opening rest hrest ih =>
    obtain ⟨further, hfurther⟩ := List.dropWhile_suffix (l := rev) (·.kind != .lbracket)
    rw [hrest] at hfurther
    rw [hbracket t rev more kind, hrest, ← ih (opening :: (further.reverse ++ t :: more)), ← hfurther]
    simp
  | case3 t rev kind hrest =>
    rw [hbracket t rev more kind, hrest]
    rfl
  | case4 t rev kind =>
    rw [nameEnd, if_pos (by simp), hlast, Option.bind_eq_bind, Option.bind_some, if_neg kind]
    rfl

@[simp] theorem declaratorName_eq (ts : List Token) :
    declaratorName ts = some ((Head.declarator? ts).map (·.type.length)) := by
  have hend := nameEnd_reverse ts.reverse []
  rw [List.reverse_reverse, List.append_nil, List.length_reverse] at hend
  unfold declaratorName Head.declarator?
  rw [hend]
  match hdrop : Head.dropExtents ts.reverse with
  | none => rfl
  | some [] => rfl
  | some (name :: before) =>
    obtain ⟨extents, hreverse, -⟩ := Head.exists_of_dropExtents hdrop
    obtain rfl : ts = before.reverse ++ name :: extents.reverse := by
      rw [← ts.reverse_reverse, hreverse]
      simp
    have hname : (before.reverse ++ name :: extents.reverse)[before.length]? = some name := by simp
    dsimp only [Option.map_some, List.length_cons, Option.bind_eq_bind, Option.bind_some]
    rw [hname]
    dsimp only [Option.bind_some]
    split
    · simp
    · rfl

/-! ### Parameters -/

theorem namesParam_eq {decl : List Token} {d : Head.Declarator} (h : Head.declarator? decl = some d) :
    namesParam decl d.type.length = some (Head.namesParam d) := by
  obtain ⟨hdecl, -, -⟩ := Head.eq_of_declarator? h
  have hname : decl[d.type.length]? = some d.name := by simp [hdecl]
  have hback : back? decl d.type.length 1 = d.type.getLast? := by
    conv => lhs; rw [hdecl]
    exact back?_one d.type (d.name :: d.extents)
  unfold namesParam Head.namesParam
  rw [hname, hback]
  rcases List.eq_nil_or_concat' d.type with hnil | ⟨front, prev, hlast⟩
  · rw [hnil]
    rfl
  · rw [hlast, List.getLast?_concat, if_pos (by simp)]
    dsimp only [Option.bind_eq_bind, Option.bind_some]
    cases Head.builtinTypes.any (d.name.isIdent ·) <;> simp

@[simp] theorem paramName_eq (decl : List Token) :
    paramName decl = some (((Head.declarator? decl).filter Head.namesParam).map (·.type.length)) := by
  rw [paramName, declaratorName_eq]
  cases hd : Head.declarator? decl with
  | none => rfl
  | some d =>
    dsimp only [Option.map_some, Option.bind_eq_bind, Option.bind_some]
    rw [namesParam_eq hd, Option.filter_some]
    cases Head.namesParam d <;> rfl

@[simp] theorem cutDefault_eq (ts : List Token) :
    cutDefault ts = some (ts.take ((findTop? .equals ts).getD ts.length),
      (findTop? .equals ts).map fun i => Token.join (ts.drop (i + 1))) := by
  rw [cutDefault, findTop_eq]
  cases hfind : findTop? .equals ts with
  | none => simp
  | some eq =>
    have hlt := lt_of_findTop? hfind
    simp [slice?_take (Nat.le_of_lt hlt), slice?_drop hlt]

@[simp] theorem param_eq (ts : List Token) (doc : Option DocBlock) :
    param ts doc = some (Head.param ts doc) := by
  unfold param Head.param
  rw [cutDefault_eq]
  dsimp only [Option.bind_eq_bind, Option.bind_some]
  generalize ts.take _ = decl
  rw [paramName_eq]
  cases hd : (Head.declarator? decl).filter Head.namesParam with
  | none => simp
  | some d =>
    obtain ⟨hdecl, -, -⟩ := Head.eq_of_declarator? (Option.filter_eq_some_iff.1 hd).1
    have hname : decl[d.type.length]? = some d.name := by simp [hdecl]
    have hothers : decl.eraseIdx d.type.length = d.type ++ d.extents := by
      conv => lhs; rw [hdecl]
      rw [List.eraseIdx_append_of_length_le (Nat.le_refl _), Nat.sub_self, List.eraseIdx_cons_zero]
    simp [hname, hothers]

theorem paramsFrom_eq (docs : List (Nat × DocBlock)) (opening close : Nat)
    (done parts : List (Nat × List Token)) :
    paramsFrom docs opening close (done ++ parts) done.length parts =
      some (Head.paramsOf docs close (parts.map fun (offset, part) => (opening + 1 + offset, part))) := by
  induction parts generalizing done with
  | nil => rfl
  | cons e parts ih =>
    obtain ⟨offset, part⟩ := e
    have hlater := ih (done ++ [(offset, part)])
    rw [List.append_assoc, List.singleton_append, List.length_append, List.length_singleton] at hlater
    have hnext : (done ++ (offset, part) :: parts)[done.length + 1]? = parts.head? := by
      rw [List.getElem?_append_right (by omega), Nat.add_sub_cancel_left]
      exact List.head?_eq_getElem?.symm
    rw [paramsFrom, hnext, param_eq, hlater, List.map_cons, Head.paramsOf, List.head?_map]
    dsimp only [Option.bind_eq_bind, Option.bind_some]
    rw [Option.map_map]
    rfl

/-- What there is between the parentheses of a function without parameters. -/
def saysNothing (inside : List Token) : Bool := inside.length ≤ 1 && inside.all (·.isIdent "void")

theorem isVoid_eq (inside : List Token) :
    isVoid (AnnotatedHeader.commaParts inside) = some (saysNothing inside) := by
  have hcut := Nesting.isFresh_start.cutAtCommas 0 inside
  rw [← AnnotatedHeader.commaParts] at hcut
  generalize AnnotatedHeader.commaParts inside = parts at hcut ⊢
  cases hcut with
  | whole uncut =>
    rcases inside with _ | ⟨t, _ | ⟨t', ts⟩⟩
    · rfl
    · simp [isVoid, saysNothing]
    · simp [isVoid, saysNothing]
  | @comma k part rest sign parts is uncut first others =>
    have hmore : ((0, part) :: parts).length ≠ 1 := by simpa using others.ne_nil
    rw [isVoid, if_neg hmore, saysNothing, List.all_append, List.all_cons]
    simp [Token.isIdent, is]

theorem params_eq (docs : List (Nat × DocBlock)) {opening close : Nat} (h : opening < close)
    (hclose : close ≤ ts.length) : params ts opening close docs =
      some (Head.params docs (opening + 1) ((ts.take close).drop (opening + 1))) := by
  rw [params, slice?, if_pos ⟨h, hclose⟩]
  have hstop : opening + 1 + ((ts.take close).drop (opening + 1)).length = close := by
    rw [List.length_drop, List.length_take_of_le hclose]
    omega
  generalize (ts.take close).drop (opening + 1) = inside at hstop ⊢
  dsimp only [Option.bind_eq_bind, Option.bind_some]
  have hparams : Head.params docs (opening + 1) inside = if saysNothing inside then [] else
      Head.paramsOf docs close ((AnnotatedHeader.commaParts inside).map fun (offset, part) =>
        (opening + 1 + offset, part)) := by
    unfold Head.params
    rw [hstop]
    rcases inside with _ | ⟨t, _ | ⟨t', ts⟩⟩
    · rfl
    · simp [saysNothing]
    · simp [saysNothing]
  rw [commaParts_eq]
  dsimp only [Option.bind_some]
  rw [isVoid_eq, hparams]
  dsimp only [Option.bind_some]
  split
  · rfl
  · exact paramsFrom_eq docs opening close [] _

theorem params_between (docs : List (Nat × DocBlock)) (before inside behind : List Token)
    (opening closing : Token) : params (before ++ opening :: inside ++ closing :: behind) before.length
      (before ++ opening :: inside).length docs = some (Head.params docs (before.length + 1) inside) := by
  rw [params_eq docs (by simp) (by simp), List.take_left, ← List.drop_drop, List.drop_left,
    List.drop_one, List.tail_cons]

/-! ### Functions -/

theorem functionName_eq (before rest : List Token) :
    functionName (before ++ rest) before.length =
      some ((Head.functionName? before).map fun (name, lead) => (name, lead.length)) := by
  unfold functionName Head.functionName? lastPlace?
  rw [slice?_front]
  dsimp only [Option.bind_eq_bind, Option.bind_some]
  cases hdrop : before.reverse.dropWhile (!·.isIdent "operator") with
  | cons keyword front =>
    have hbefore : before = front.reverse ++
        keyword :: (before.reverse.takeWhile (!·.isIdent "operator")).reverse := by
      rw [← List.reverse_inj, List.reverse_append, List.reverse_cons, List.reverse_reverse,
        List.reverse_reverse, List.append_assoc, List.singleton_append, ← hdrop,
        List.takeWhile_append_dropWhile]
    generalize (before.reverse.takeWhile (!·.isIdent "operator")).reverse = symbol at hbefore ⊢
    dsimp only
    rw [slice?_eq front.reverse rest (hbefore ▸ List.append_assoc ..) (List.length_reverse ..)
      (by rw [hbefore]; simp)]
    simp
  | nil =>
    dsimp only
    rcases List.eq_nil_or_concat' before with rfl | ⟨front, name, rfl⟩
    · rfl
    · have htilde : standsBack (·.kind == .tilde) (front ++ [name] ++ rest) (front.length + 1) 2 =
          some (front.getLast?.any (·.kind == .tilde)) := by
        rw [standsBack_succ, List.append_assoc, standsBack_one]
      rw [back?_one, List.getLast?_concat, List.length_append, List.length_singleton, htilde,
        if_neg (Nat.succ_ne_zero _), List.reverse_append, List.reverse_singleton, List.singleton_append]
      dsimp only [Option.bind_some]
      split
      · rcases List.eq_nil_or_concat' front with rfl | ⟨front, sign, rfl⟩
        · rfl
        · rw [List.getLast?_concat, List.reverse_append, List.reverse_singleton, List.singleton_append]
          by_cases hsign : sign.kind = .tilde
          · simp [hsign, minus?]
          · simp [hsign, minus?]
      · rfl

theorem qualifiersEnd_eq (front : List Token) (closing : Token) (behind : List Token) :
    qualifiersEnd (front ++ closing :: behind) front.length =
      some (front.length + 1 + (behind.takeWhile (·.kind != .colon)).length) := by
  rw [qualifiersEnd, slice?_behind]
  simp only [bne]
  rcases findIdx?_cases (·.kind == .colon) behind with
    ⟨hnone, -, htake, -⟩ | ⟨words, colon, rest, rfl, -, hsome, htake, -⟩
  · rw [htake]
    simp [hnone]
    omega
  · rw [htake]
    simp [hsome]

/-- The qualifiers stand behind the closing parenthesis, and the signature ends with them. -/
theorem exists_qualifiersEnd (front : List Token) (closing : Token) (behind : List Token) :
    ∃ stop, qualifiersEnd (front ++ closing :: behind) front.length = some stop ∧
      stop = front.length + 1 + (behind.takeWhile (·.kind != .colon)).length ∧
      slice? (front ++ closing :: behind) (front.length + 1) stop =
        some (behind.takeWhile (·.kind != .colon)) ∧
      slice? (front ++ closing :: behind) 0 stop = some ((front ++ closing :: behind).take stop) := by
  refine ⟨_, qualifiersEnd_eq front closing behind, rfl, ?_, ?_⟩
  · refine slice?_eq (front ++ [closing]) (behind.dropWhile (·.kind != .colon)) ?_ (by simp) rfl
    rw [List.takeWhile_append_dropWhile, List.append_assoc, List.singleton_append]
  · refine slice?_take ?_
    have hle := (List.takeWhile_prefix (l := behind) (·.kind != .colon)).length_le
    rw [List.length_append, List.length_cons]
    omega

theorem functionHead_eq {s : Statement} {record : Option String} {before behind : List Token}
    (h : splitCall? s.tokens = some (before, behind)) :
    functionHead s record = some (Head.functionHead s record before behind) := by
  obtain ⟨opening, is, htokens⟩ := exists_opening_of_splitCallFrom h
  unfold functionHead Head.functionHead
  dsimp only
  rw [findCall_eq, h, htokens]
  dsimp only [Option.map_some, Option.bind_eq_bind, Option.bind_some]
  cases hclose : splitClose? 0 behind with
  | none =>
    rw [matching_eq before behind is, hclose]
    rfl
  | some cut =>
    obtain ⟨inside, behind'⟩ := cut
    obtain ⟨closing, hclosed, hmatching⟩ := exists_closed before is hclose
    rw [hmatching]
    dsimp only [Option.bind_some]
    rw [functionName_eq]
    cases hname : Head.functionName? before with
    | none => rfl
    | some cut =>
      obtain ⟨name, lead⟩ := cut
      obtain ⟨words, hwords, -⟩ := Head.exists_nameOf_of_functionName? hname
      have hscope : standsBack (·.kind == .scope) (before ++ opening :: behind) lead.length 1 =
          some (lead.getLast?.any (·.kind == .scope)) := by
        rw [hwords, List.append_assoc, standsBack_one]
      have hlead : slice? (before ++ opening :: behind) 0 lead.length = some lead := by
        rw [hwords, List.append_assoc, slice?_front]
      dsimp only [Option.map_some, Option.bind_some]
      rw [hscope, hlead]
      dsimp only [Option.bind_some]
      split
      · rfl
      split
      · rfl
      · obtain ⟨stop, hstop, hlength, hqualifiers, hsignature⟩ :=
          exists_qualifiersEnd (before ++ opening :: inside) closing behind'
        have hlength' : stop = before.length + inside.length +
            (behind'.takeWhile (·.kind != .colon)).length + 2 := by
          rw [hlength, List.length_append, List.length_cons]
          omega
        rw [hclosed, hstop, params_between]
        dsimp only [Option.bind_some]
        rw [hqualifiers, hsignature]
        dsimp only [Option.bind_some]
        rw [join_eq, join_eq, join_eq, hlength']
        rfl

/-! ### Properties -/

/-- Extents are more than a single bracket: one at the end would be read as the name. -/
theorem two_le_length_extents {d : Head.Declarator} (h : Head.declarator? ts = some d)
    (extents : d.extents ≠ []) : 2 ≤ d.extents.length := by
  obtain ⟨hts, -, hfirst⟩ := Head.eq_of_declarator? h
  match hextents : d.extents with
  | [] => exact absurd hextents extents
  | [last] =>
    have hkind : last.kind = .lbracket := hfirst last (by rw [hextents]; rfl)
    rw [hts, hextents, Head.declarator?, List.reverse_append, List.reverse_cons, List.reverse_singleton,
      List.append_assoc, List.singleton_append, Head.dropExtents, if_neg (by simp [hkind])] at h
    simp [hkind] at h
  | _ :: _ :: _ => simp

theorem arrayText_eq {decl : List Token} {d : Head.Declarator} (h : Head.declarator? decl = some d) :
    arrayText decl d.type.length =
      some (if d.extents.isEmpty then none else some (Token.join d.extents.tail.dropLast)) := by
  obtain ⟨hdecl, -, -⟩ := Head.eq_of_declarator? h
  have hextents := two_le_length_extents h
  generalize d.extents = extents at hdecl hextents ⊢
  rw [arrayText, hdecl, slice?_behind]
  cases extents with
  | nil => simp
  | cons first rest =>
    rcases List.eq_nil_or_concat' rest with rfl | ⟨middle, last, rfl⟩
    · exact absurd (hextents (List.cons_ne_nil first [])) (by simp)
    rw [if_pos (by simp), Option.bind_eq_bind, Option.bind_some, minus?_of_le (by simp),
      Option.bind_eq_bind, Option.bind_some, slice?_inner]
    simp

/-- A lone bracket, which no declarator has for its extents, would leave nothing between two. -/
example : arrayText [⟨.ident, "values", 1⟩, ⟨.lbracket, "[", 1⟩] 0 = none := rfl

theorem cutInitializer_eq (ts : List Token) :
    cutInitializer ts = some ((findTop? .equals ts <|> findTop? .lbrace ts).getD ts.length,
      match findTop? .equals ts, findTop? .lbrace ts with
      | some i, _ => some (Token.join (ts.drop (i + 1)))
      | none, some i => some (Token.join (ts.drop i))
      | none, none => none) := by
  rw [cutInitializer, findTop_eq, findTop_eq]
  dsimp only [Option.bind_eq_bind, Option.bind_some]
  cases heq : findTop? .equals ts with
  | some eq => simp [slice?_drop (lt_of_findTop? heq)]
  | none =>
    cases hbrace : findTop? .lbrace ts with
    | some brace => simp [slice?_drop (Nat.le_of_lt (lt_of_findTop? hbrace))]
    | none => rfl

theorem initializer_le (ts : List Token) :
    (findTop? .equals ts <|> findTop? .lbrace ts).getD ts.length ≤ ts.length := by
  cases heq : findTop? .equals ts with
  | some eq => exact Nat.le_of_lt (lt_of_findTop? heq)
  | none => exact getD_findTop?_le .lbrace ts

/-- A colon is sought in front of the initializer only, so its place is one of the whole. -/
theorem slice?_declarator {stop : Nat} (h : stop ≤ ts.length) :
    slice? ts 0 ((findTop? .colon (ts.take stop)).getD stop) =
      some ((ts.take stop).take ((findTop? .colon (ts.take stop)).getD (ts.take stop).length)) := by
  have hle := getD_findTop?_le .colon (ts.take stop)
  rw [List.length_take_of_le h] at hle ⊢
  rw [slice?_take (Nat.le_trans hle h), List.take_take, Nat.min_eq_left hle]

@[simp] theorem property_eq (base part : List Token) :
    property base part = some (Head.property? (base ++ part)) := by
  unfold property Head.property?
  generalize base ++ part = ts
  dsimp only
  rw [cutInitializer_eq]
  have hstop := initializer_le ts
  generalize (findTop? .equals ts <|> findTop? .lbrace ts).getD ts.length = stop at hstop ⊢
  dsimp only [Option.bind_eq_bind, Option.bind_some]
  rw [slice?_take hstop]
  dsimp only [Option.bind_some]
  rw [findTop_eq]
  dsimp only [Option.bind_some]
  rw [slice?_declarator hstop]
  generalize (ts.take stop).take _ = decl
  dsimp only [Option.bind_some]
  rw [declaratorName_eq]
  cases hd : Head.declarator? decl with
  | none => rfl
  | some d =>
    obtain ⟨hdecl, -, -⟩ := Head.eq_of_declarator? hd
    have hname : decl[d.type.length]? = some d.name := by simp [hdecl]
    have hfront : slice? decl 0 d.type.length = some d.type := by
      conv => lhs; rw [hdecl]
      exact slice?_front ..
    have harray := arrayText_eq hd
    dsimp only [Option.map_some, Option.bind_some]
    cases htype : d.type with
    | nil => rfl
    | cons t type =>
      rw [htype] at hname hfront harray
      rw [List.length_cons] at hname hfront harray ⊢
      dsimp only
      rw [harray, hfront, hname, join_eq]
      dsimp only [Option.bind_some]
      rw [join_eq]
      split <;> rfl

@[simp] theorem furtherHeads_eq (base : List Token) (parts : List (Nat × List Token)) :
    furtherHeads base parts = some (parts.filterMap fun (_, part) => Head.property? (base ++ part)) := by
  induction parts with
  | nil => rfl
  | cons e parts ih =>
    obtain ⟨offset, part⟩ := e
    rw [furtherHeads, property_eq, ih, List.filterMap_cons]
    dsimp only [Option.bind_eq_bind, Option.bind_some]
    cases Head.property? (base ++ part) <;> rfl

/-- What precedes the first name, with the pointer marks at its end. -/
theorem exists_front (part : List Token) (name : String) :
    ∃ front, slice? part 0 ((part.findIdx? (·.isIdent name)).getD 0) = some front ∧
      (front.reverse.dropWhile (·.isPointer)).reverse = Head.sharedType part name := by
  unfold Head.sharedType
  rcases findIdx?_cases (·.isIdent name) part with
    ⟨hnone, hall, -, -⟩ | ⟨front, word, behind, rfl, his, hsome, htake, -⟩
  · rw [hnone, if_neg (by simpa using hall)]
    exact ⟨[], slice?_take (Nat.zero_le _), rfl⟩
  · rw [hsome, htake, if_pos (by simp [his])]
    exact ⟨front, slice?_front .., rfl⟩

theorem propertyHeads_eq (ts : List Token) : propertyHeads ts = some (Head.propertyHeads ts) := by
  unfold propertyHeads Head.propertyHeads
  rw [commaParts_eq]
  dsimp only [Option.bind_eq_bind, Option.bind_some]
  match AnnotatedHeader.commaParts ts with
  | [] => rfl
  | (offset, part) :: parts =>
    dsimp only [List.head?_cons]
    rw [property_eq, List.nil_append]
    dsimp only [Option.bind_some]
    cases Head.property? part with
    | none => rfl
    | some first =>
      obtain ⟨front, hfront, hbase⟩ := exists_front part first.name
      have hparts : slice? ((offset, part) :: parts) 1 (parts.length + 1) = some parts :=
        slice?_drop (by simp)
      simp [hfront, hbase, hparts]

/-! ### All heads -/

theorem classify_eq (s : Statement) (record : Option String) :
    classify s record = some (Head.classify s record) := by
  unfold classify Head.classify
  cases htokens : s.tokens with
  | nil => rfl
  | cons first rest =>
    dsimp only
    split
    · rw [enumHead_eq]
      rfl
    split
    · rename_i hkeyword
      have hident : first.kind = .ident := by
        rw [Bool.and_eq_true, List.any_eq_true] at hkeyword
        obtain ⟨⟨keyword, -, his⟩, -⟩ := hkeyword
        rw [Token.isIdent, Bool.and_eq_true, beq_iff_eq] at his
        exact his.1
      exact recordHead_eq hident rest s.hasBody
    · rw [findCall_eq]
      cases hcall : splitCall? (first :: rest) with
      | none =>
        dsimp only [Option.map_none, Option.bind_eq_bind, Option.bind_some]
        rw [if_neg (by simp), propertyHeads_eq]
        split <;> rfl
      | some cut =>
        rw [← htokens] at hcall
        dsimp only [Option.map_some, Option.bind_eq_bind, Option.bind_some]
        rw [if_pos (by simp), functionHead_eq hcall]

/-! ### Variants -/

@[simp] theorem valueText_eq (head : List Token) : valueText head = some (EnumBody.value? head) := by
  unfold valueText EnumBody.value?
  simp only [bne]
  rcases findIdx?_cases (·.kind == .equals) head with
    ⟨hnone, -, -, hdrop⟩ | ⟨front, sign, value, rfl, -, hsome, -, hdrop⟩
  · rw [hnone, hdrop]
  · rw [hsome, hdrop]
    dsimp only
    rw [slice?_behind]
    simp

theorem variantUpTo_eq (path : String) (doc : Option DocBlock) (name : Token)
    (reflection : Option Reflection) (head behind : List Token) :
    variantUpTo path doc name reflection (head ++ behind) head.length = some
      { name := name.text
        path := QualifiedPath.join path name.text
        line := name.line
        visibility := .everyone
        template := none
        reflection
        signature := Token.join head
        doc
        item := .variant (EnumBody.value? head)
        synthetic := false
        members := [] } := by
  simp [variantUpTo, slice?_front]

@[simp] theorem reflection_eq (t : Token) (args : List Token) :
    reflection t args = some (EnumBody.reflection t args) := by
  unfold reflection EnumBody.reflection
  cases args with
  | nil => rfl
  | cons opening rest =>
    rw [List.head?_cons, Option.any_some]
    rcases List.eq_nil_or_concat' rest with rfl | ⟨middle, last, rfl⟩
    · have hone : (opening.kind == .lparen && opening.kind == .rparen) = false := by
        cases opening.kind <;> rfl
      simp [hone]
    · have hlast : (opening :: (middle ++ [last])).getLast? = some last := by
        rw [← List.cons_append, List.getLast?_concat]
      dsimp only
      rw [hlast, List.getLast?_concat, List.dropLast_concat, minus?_of_le (by simp)]
      dsimp only [Option.bind_eq_bind, Option.bind_some]
      rw [slice?_inner, beq_eq_decide]
      dsimp only [Option.bind_some]
      split
      · cases Metadata.read middle <;> rfl
      · rfl

theorem variant_eq (path : String) (doc : Option DocBlock) (ts : List Token) :
    variant path doc ts = some (EnumBody.variant path doc ts) := by
  unfold variant EnumBody.variant
  cases hts : ts with
  | nil => rfl
  | cons name rest =>
    rw [List.head?_cons, Option.filter_some]
    by_cases hident : name.kind = .ident
    · rw [if_pos (by simp [hident])]
      dsimp only
      rw [if_pos hident, ← hts]
      rcases findIdx?_cases (·.isIdent EnumBody.metaMacro) ts with
        ⟨hnone, -, htake, hdrop⟩ | ⟨head, t, args, hcut, -, hsome, htake, hdrop⟩
      · have hvariant := variantUpTo_eq path doc name none ts []
        rw [List.append_nil] at hvariant
        rw [hnone, htake, hdrop, hvariant]
        rfl
      · have hat : ts[head.length]? = some t := by simp [hcut]
        rw [hsome, htake, hdrop]
        dsimp only [Option.bind_eq_bind]
        rw [hat, hcut, slice?_behind]
        dsimp only [Option.bind_some]
        rw [reflection_eq]
        dsimp only [Option.bind_some]
        cases EnumBody.reflection t args with
        | error fault => rfl
        | ok r =>
          dsimp only
          rw [variantUpTo_eq]
          rfl
    · rw [if_neg (by simp [hident])]
      dsimp only
      rw [if_neg hident]
      rfl

/-! ### Every reader -/

/-- Every reader of heads, and that of variants, answers on these tokens, and answers what is read
on lists. -/
structure InRange (ts : List Token) : Prop where
  classify (paramDocs : List (Nat × DocBlock)) (hasBody : Bool) (line : Nat) (record : Option String) :
    ByPlace.classify ⟨ts, paramDocs, hasBody, line⟩ record =
      some (Head.classify ⟨ts, paramDocs, hasBody, line⟩ record)
  braceRole : ByPlace.braceRole ts = some (AnnotatedHeader.braceRole ts)
  commaParts : ByPlace.commaParts ts = some (AnnotatedHeader.commaParts ts)
  findTop (kind : TokenKind) : ByPlace.findTop ts kind = some (findTop? kind ts)
  findCall : ByPlace.findCall ts = some ((splitCall? ts).map (·.1.length))
  /-- What is found to open a parameter list is one of the tokens. -/
  opening : ∀ opening ∈ (splitCall? ts).map (·.1.length), opening < ts.length
  /-- What closes one of the tokens stands behind it. -/
  matching : ∀ opening < ts.length, ∃ place, ByPlace.matching ts opening = some place ∧
    ∀ close ∈ place, opening < close ∧ close < ts.length
  params (docs : List (Nat × DocBlock)) : ∀ opening close, opening < close → close ≤ ts.length →
    ByPlace.params ts opening close docs =
      some (Head.params docs (opening + 1) ((ts.take close).drop (opening + 1)))
  param (doc : Option DocBlock) : ByPlace.param ts doc = some (Head.param ts doc)
  declaratorName : ByPlace.declaratorName ts = some ((Head.declarator? ts).map (·.type.length))
  propertyHeads : ByPlace.propertyHeads ts = some (Head.propertyHeads ts)
  property (base : List Token) : ByPlace.property base ts = some (Head.property? (base ++ ts))
  variant (path : String) (doc : Option DocBlock) :
    ByPlace.variant path doc ts = some (EnumBody.variant path doc ts)

/-- **No reader of a head leaves its tokens**, however their brackets stand. -/
theorem inRange (ts : List Token) : InRange ts where
  classify paramDocs hasBody line := classify_eq ⟨ts, paramDocs, hasBody, line⟩
  braceRole := braceRole_eq ts
  commaParts := commaParts_eq ts
  findTop := findTop_eq ts
  findCall := findCall_eq ts
  opening := by
    rintro _ hplace
    obtain ⟨⟨before, behind⟩, hcall, rfl⟩ := Option.map_eq_some_iff.1 hplace
    obtain ⟨opening, -, rfl⟩ := exists_opening_of_splitCallFrom hcall
    simp
  matching _ := exists_matching
  params docs _ _ := params_eq docs
  param := param_eq ts
  declaratorName := declaratorName_eq ts
  propertyHeads := propertyHeads_eq ts
  property base := property_eq base ts
  variant path doc := variant_eq path doc ts

end AnnotatedHeader.ByPlace
