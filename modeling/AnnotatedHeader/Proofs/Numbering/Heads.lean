import AnnotatedHeader.Proofs.Numbering.Tokens

/-! Heads of renumbered statements.

What a statement declares is told by the kinds and the texts of its tokens: of their lines
nothing is left in a head, which has lines only in the docs of its parameters
(`Head.classify_renumber`). -/
namespace AnnotatedHeader

variable {g : Nat → Nat}

/-! ### Nesting -/

instance : Numbered Nesting := ⟨fun g n => { n with prev := renumber g n.prev }⟩

namespace Nesting

@[simp] theorem isTop_renumber (n : Nesting) : (renumber g n).isTop = n.isTop := rfl
@[simp] theorem angle_renumber (n : Nesting) : (renumber g n).angle = n.angle := rfl

@[simp] theorem angleMayOpen_renumber (n : Nesting) :
    (renumber g n).angleMayOpen = n.angleMayOpen := by
  obtain ⟨depth, angle, prev⟩ := n
  cases prev <;> rfl

@[simp] theorem afterOperator_renumber (n : Nesting) :
    (renumber g n).afterOperator = n.afterOperator := by
  obtain ⟨depth, angle, prev⟩ := n
  cases prev <;> rfl

@[simp] theorem step_renumber (n : Nesting) (t : Token) :
    (renumber g n).step (renumber g t) = renumber g (n.step t) := by
  unfold step
  rw [Token.kind_renumber, angleMayOpen_renumber]
  cases t.kind <;> rfl

theorem findFrom_renumber (kind : TokenKind) (n : Nesting) (ts : List Token) :
    findFrom kind (renumber g n) (ts.map (renumber g)) = findFrom kind n ts := by
  induction ts generalizing n with
  | nil => rfl
  | cons t ts ih =>
    simp only [List.map_cons, findFrom, Token.kind_renumber, isTop_renumber, step_renumber, ih]

/-- A part between commas, its place kept. -/
def renumberPart (g : Nat → Nat) (e : Nat × List Token) : Nat × List Token := (e.1, renumber g e.2)

theorem consToken_renumber (offset : Nat) (t : Token) (parts : List (Nat × List Token)) :
    consToken offset (renumber g t) (parts.map (renumberPart g)) =
      (consToken offset t parts).map (renumberPart g) := by
  cases parts <;> rfl

theorem partsFrom_renumber (n : Nesting) (offset : Nat) (ts : List Token) :
    partsFrom (renumber g n) offset (ts.map (renumber g)) =
      (partsFrom n offset ts).map (renumberPart g) := by
  induction ts generalizing n offset with
  | nil => rfl
  | cons t ts ih =>
    rw [List.map_cons, partsFrom, partsFrom, Token.kind_renumber, isTop_renumber, step_renumber, ih]
    split
    · rfl
    · exact consToken_renumber ..

end Nesting

theorem findTop?_renumber (kind : TokenKind) (ts : List Token) :
    findTop? kind (ts.map (renumber g)) = findTop? kind ts := Nesting.findFrom_renumber kind {} ts

theorem commaParts_renumber (ts : List Token) :
    commaParts (ts.map (renumber g)) = (commaParts ts).map (Nesting.renumberPart g) :=
  Nesting.partsFrom_renumber {} 0 ts

theorem splitCallFrom_renumber (n : Nesting) (ts : List Token) :
    splitCallFrom (renumber g n) (ts.map (renumber g)) = renumber g (splitCallFrom n ts) := by
  induction ts generalizing n with
  | nil => rfl
  | cons t ts ih =>
    rw [List.map_cons]
    unfold splitCallFrom
    simp only [Nesting.angle_renumber, Nesting.afterOperator_renumber, Nesting.step_renumber,
      Token.kind_renumber, ih, map_cons_fst_renumber]
    split
    · cases t.kind with
      | lparen =>
        rcases ts with _ | ⟨close, _ | ⟨opening, rest⟩⟩
        · rfl
        · rfl
        · simp only [List.map_cons, Token.kind_renumber]
          split <;> rfl
      | equals =>
        dsimp only
        split <;> rfl
      | lbrace => rfl
      | _ => rfl
    · rfl

theorem splitCall?_renumber (ts : List Token) :
    splitCall? (ts.map (renumber g)) = renumber g (splitCall? ts) := splitCallFrom_renumber {} ts

theorem splitClose?_renumber (depth : Nat) (ts : List Token) :
    splitClose? depth (ts.map (renumber g)) = renumber g (splitClose? depth ts) := by
  fun_induction splitClose? depth ts with
  | case1 => rfl
  | case2 t ts hkind => simp [splitClose?, hkind]
  | case3 t ts depth hkind ih =>
    simp only [List.map_cons, splitClose?, Token.kind_renumber, hkind, ih,
      map_cons_fst_renumber]
  | case4 t ts depth hkind ih =>
    simp only [List.map_cons, splitClose?, Token.kind_renumber, hkind, ih,
      map_cons_fst_renumber]
  | case5 t ts depth _ _ _ ih =>
    simp only [List.map_cons, splitClose?, Token.kind_renumber, ih,
      map_cons_fst_renumber]

theorem braceRole_renumber (ts : List Token) : braceRole (ts.map (renumber g)) = braceRole ts := by
  have hlast : (ts.map (renumber g)).getLast?.map (·.kind) = ts.getLast?.map (·.kind) := by
    rw [List.getLast?_map, Option.map_map]
    rfl
  unfold braceRole
  rw [splitCall?_renumber]
  cases splitCall? ts with
  | none =>
    rw [renumber_option, Option.map_none]
    dsimp only
    rw [findTop?_renumber]
    cases ts <;> rfl
  | some e =>
    obtain ⟨before, rest⟩ := e
    simp only [renumber_option, Option.map_some, renumber_pair, renumber_list, splitClose?_renumber,
      hlast]
    cases splitClose? 0 rest with
    | none => rfl
    | some e =>
      obtain ⟨inside, behind⟩ := e
      simp [List.any_map, Function.comp_def]

namespace Head

/-! ### Enums and records -/

theorem enumHead_renumber (ts : List Token) (hasBody : Bool) :
    enumHead (ts.map (renumber g)) hasBody = renumber g (enumHead ts hasBody) := by
  have hname (ts : List Token) : ((ts.map (renumber g)).find? (·.kind == .ident)).map (·.text) =
      (ts.find? (·.kind == .ident)).map (·.text) := by
    rw [find?_renumber fun _ => rfl, renumber_option, Option.map_map]
    rfl
  unfold enumHead
  simp only [List.getElem?_map, Option.any_map, Token.isIdent_renumber,
    findTop?_renumber, List.length_map, ← List.map_take, ← List.map_drop, ← List.map_reverse, hname,
    Token.join_renumber]
  rfl

theorem plainIdents_renumber (n : Nesting) (ts : List Token) :
    plainIdents (renumber g n) (ts.map (renumber g)) = (plainIdents n ts).map (renumber g) := by
  induction ts generalizing n with
  | nil => rfl
  | cons t ts ih =>
    simp only [List.map_cons, plainIdents, Token.kind_renumber, Nesting.angle_renumber,
      Token.isIdent_renumber, Nesting.step_renumber, ih]
    split <;> rfl

theorem isRecordHead_renumber (ts : List Token) :
    isRecordHead (ts.map (renumber g)) = isRecordHead ts := by
  unfold isRecordHead
  exact all_renumber (fun _ => rfl) _

theorem recordHead_renumber (keyword : Token) (ts : List Token) (hasBody : Bool) :
    recordHead (renumber g keyword) (ts.map (renumber g)) hasBody =
      renumber g (recordHead keyword ts hasBody) := by
  have hstart : Nesting.step {} (renumber g keyword) = renumber g (Nesting.step {} keyword) :=
    Nesting.step_renumber {} keyword
  have hbases (p : Prop) [Decidable p] (ts : List Token) :
      (if p then commaParts (ts.map (renumber g)) else []).map (fun e => Token.join e.2) =
        (if p then commaParts ts else []).map fun e => Token.join e.2 := by
    split
    · rw [commaParts_renumber, List.map_map]
      exact List.map_congr_left fun e _ => Token.join_renumber e.2
    · rfl
  have hjoin : Token.join (renumber g keyword :: ts.map (renumber g)) = Token.join (keyword :: ts) :=
    Token.join_renumber (keyword :: ts)
  unfold recordHead
  simp only [hstart, Nesting.findFrom_renumber, List.length_map, ← List.map_take, ← List.map_drop,
    plainIdents_renumber, List.getLast?_map]
  cases (plainIdents (Nesting.step {} keyword)
      (ts.take ((Nesting.findFrom .colon (Nesting.step {} keyword) ts).getD ts.length))).getLast? with
  | none => rfl
  | some name =>
    simp only [Option.map_some, ← List.map_dropLast, Token.map_text_renumber, hjoin, hbases, Token.text_renumber]
    rfl

/-! ### Declarators -/

theorem dropExtents_renumber (ts : List Token) :
    dropExtents (ts.map (renumber g)) = renumber g (dropExtents ts) := by
  have hdrop (ts : List Token) : (ts.map (renumber g)).dropWhile (·.kind != .lbracket) =
      (ts.dropWhile (·.kind != .lbracket)).map (renumber g) := dropWhile_renumber (fun _ => rfl) ts
  fun_induction dropExtents ts with
  | case1 => simp [dropExtents]
  | case2 t ts hkind opening rest hrest ih =>
    rw [List.map_cons, dropExtents, Token.kind_renumber, if_pos hkind]
    split <;> rename_i h <;> rw [hdrop, hrest] at h <;> cases h
    exact ih
  | case3 t ts hkind hnone =>
    rw [List.map_cons, dropExtents, Token.kind_renumber, if_pos hkind]
    split <;> rename_i h <;> rw [hdrop, hnone] at h <;> cases h
    rfl
  | case4 t ts hkind =>
    rw [List.map_cons, dropExtents, Token.kind_renumber, if_neg hkind]
    rfl

instance : Numbered Declarator :=
  ⟨fun g d => ⟨renumber g d.type, renumber g d.name, renumber g d.extents⟩⟩

theorem declarator?_renumber (ts : List Token) :
    declarator? (ts.map (renumber g)) = renumber g (declarator? ts) := by
  unfold declarator?
  rw [← List.map_reverse, dropExtents_renumber]
  cases dropExtents ts.reverse with
  | none => rfl
  | some rest =>
    cases rest with
    | nil => rfl
    | cons name before =>
      simp only [renumber_option, Option.map_some, renumber_list, List.map_cons,
        Token.kind_renumber, List.length_map, ← List.map_drop, ← List.map_reverse]
      split <;> rfl

/-! ### Functions -/

theorem namesParam_renumber (d : Declarator) : namesParam (renumber g d) = namesParam d := by
  obtain ⟨type, name, extents⟩ := d
  show (!(type.map (renumber g)).isEmpty && !builtinTypes.any ((renumber g name).isIdent ·) &&
    (type.map (renumber g)).getLast?.all (·.kind != .scope)) = _
  rw [List.isEmpty_map, List.getLast?_map, Option.all_map]
  rfl

theorem param_renumber (ts : List Token) (doc : Option DocBlock) :
    param (ts.map (renumber g)) (renumber g doc) = renumber g (param ts doc) := by
  have hfilter (o : Option Declarator) :
      (renumber g o).filter namesParam = renumber g (o.filter namesParam) := by
    cases o with
    | none => rfl
    | some d =>
      simp only [renumber_option, Option.map_some, Option.filter_some, namesParam_renumber]
      split <;> rfl
  unfold param
  simp only [findTop?_renumber, List.length_map, ← List.map_take, ← List.map_drop,
    declarator?_renumber, hfilter, Token.join_renumber]
  cases (declarator? (ts.take ((findTop? .equals ts).getD ts.length))).filter namesParam with
  | none => rfl
  | some d =>
    obtain ⟨type, name, extents⟩ := d
    have hjoin : Token.join (type.map (renumber g) ++ extents.map (renumber g)) =
        Token.join (type ++ extents) := by
      rw [← List.map_append]
      exact Token.join_renumber _
    exact congrArg (fun joined => Param.mk _ joined _ _) hjoin

/-- A doc block at its place among the tokens of a statement. -/
def renumberDoc (g : Nat → Nat) (e : Nat × DocBlock) : Nat × DocBlock := (e.1, renumber g e.2)

theorem paramsOf_renumber (docs : List (Nat × DocBlock)) (stop : Nat)
    (parts : List (Nat × List Token)) :
    paramsOf (docs.map (renumberDoc g)) stop (parts.map (Nesting.renumberPart g)) =
      (paramsOf docs stop parts).map (renumber g) := by
  have hdoc (start stop : Nat) :
      ((docs.map (renumberDoc g)).filter fun e => start ≤ e.1 && e.1 < stop).getLast?.map Prod.snd =
        renumber g ((docs.filter fun e => start ≤ e.1 && e.1 < stop).getLast?.map Prod.snd) := by
    rw [List.filter_map, List.getLast?_map, Option.map_map, renumber_option, Option.map_map]
    rfl
  induction parts with
  | nil => rfl
  | cons e parts ih =>
    obtain ⟨start, part⟩ := e
    have hstop : ((parts.map (Nesting.renumberPart g)).head?.map Prod.fst).getD stop =
        (parts.head?.map Prod.fst).getD stop := by
      cases parts <;> rfl
    rw [List.map_cons]
    show param (part.map (renumber g)) _ :: _ = _
    rw [ih, hstop, hdoc, param_renumber]
    rfl

theorem params_renumber (docs : List (Nat × DocBlock)) (start : Nat) (inside : List Token) :
    params (docs.map (renumberDoc g)) start (inside.map (renumber g)) =
      (params docs start inside).map (renumber g) := by
  have hparts : (commaParts (inside.map (renumber g))).map (fun e => (start + e.1, e.2)) =
      ((commaParts inside).map fun e => (start + e.1, e.2)).map (Nesting.renumberPart g) := by
    rw [commaParts_renumber, List.map_map, List.map_map]
    rfl
  have hall : paramsOf (docs.map (renumberDoc g)) (start + (inside.map (renumber g)).length)
        ((commaParts (inside.map (renumber g))).map fun e => (start + e.1, e.2)) =
      (paramsOf docs (start + inside.length)
        ((commaParts inside).map fun e => (start + e.1, e.2))).map (renumber g) := by
    rw [hparts, List.length_map]
    exact paramsOf_renumber ..
  cases inside with
  | nil => rfl
  | cons t ts =>
    cases ts with
    | nil =>
      unfold params
      simp only [List.map_cons, List.map_nil, Token.isIdent_renumber]
      split
      · rfl
      · exact hall
    | cons u ts => exact hall

theorem functionName?_renumber (ts : List Token) :
    functionName? (ts.map (renumber g)) = renumber g (functionName? ts) := by
  unfold functionName?
  rw [← List.map_reverse, takeWhile_renumber fun _ => rfl, dropWhile_renumber fun _ => rfl]
  cases ts.reverse.dropWhile (!·.isIdent "operator") with
  | cons word before =>
    simp only [List.map_cons, Token.text_renumber, ← List.map_reverse,
      Token.map_text_renumber]
    rfl
  | nil =>
    rw [List.map_nil]
    cases ts.reverse with
    | nil => rfl
    | cons name before =>
      cases before with
      | nil =>
        simp only [List.map_cons, List.map_nil, Token.kind_renumber]
        split <;> rfl
      | cons tilde rest =>
        simp only [List.map_cons, Token.kind_renumber, Token.text_renumber]
        split
        · split <;> simp
        · rfl

theorem functionHead_renumber (s : Statement) (record : Option String) (before rest : List Token) :
    functionHead (renumber g s) record (before.map (renumber g)) (rest.map (renumber g)) =
      renumber g (functionHead s record before rest) := by
  have htokens : (renumber g s).tokens = s.tokens.map (renumber g) := rfl
  have hdocs : (renumber g s).paramDocs = s.paramDocs.map (renumberDoc g) := rfl
  unfold functionHead
  rw [splitClose?_renumber]
  cases splitClose? 0 rest with
  | none => rfl
  | some e =>
    obtain ⟨inside, behind⟩ := e
    simp only [renumber_option, Option.map_some, renumber_pair, renumber_list,
      functionName?_renumber]
    cases functionName? before with
    | none => rfl
    | some e =>
      obtain ⟨name, lead⟩ := e
      simp only [Option.map_some, renumber_pair, renumber_list, renumber_string]
      rw [any_getLast?_renumber fun _ => rfl, all_renumber fun _ => rfl,
        takeWhile_renumber fun _ => rfl]
      simp only [htokens, hdocs, List.length_map, ← List.map_take, Token.join_renumber,
        params_renumber, List.isEmpty_map]
      split
      · rfl
      · split <;> rfl

/-! ### Properties -/

theorem property?_renumber (ts : List Token) :
    property? (ts.map (renumber g)) = renumber g (property? ts) := by
  unfold property?
  simp only [findTop?_renumber, List.length_map, ← List.map_take, ← List.map_drop,
    declarator?_renumber, Token.join_renumber]
  cases declarator? _ with
  | none => rfl
  | some d =>
    obtain ⟨type, name, extents⟩ := d
    have htype : (renumber g (⟨type, name, extents⟩ : Declarator)).type = type.map (renumber g) := rfl
    have hextents : (renumber g (⟨type, name, extents⟩ : Declarator)).extents =
        extents.map (renumber g) := rfl
    rw [renumber_option, Option.map_some]
    dsimp only
    rw [htype, hextents, filter_renumber fun _ => rfl, any_renumber fun _ => rfl]
    simp only [List.isEmpty_map, Token.join_renumber, ← List.map_tail, ← List.map_dropLast]
    split <;> rfl

theorem sharedType_renumber (first : List Token) (name : String) :
    sharedType (first.map (renumber g)) name = (sharedType first name).map (renumber g) := by
  unfold sharedType
  rw [any_renumber fun _ => rfl, takeWhile_renumber fun _ => rfl, ← List.map_reverse,
    dropWhile_renumber fun _ => rfl, ← List.map_reverse]
  split <;> rfl

theorem propertyHeads_renumber (ts : List Token) :
    propertyHeads (ts.map (renumber g)) = renumber g (propertyHeads ts) := by
  unfold propertyHeads
  rw [commaParts_renumber]
  cases commaParts ts with
  | nil => rfl
  | cons e parts =>
    obtain ⟨offset, part⟩ := e
    have hmore (base : List Token) :
        (parts.map (Nesting.renumberPart g)).filterMap
            (fun e => property? (base.map (renumber g) ++ e.2)) =
          (parts.filterMap fun e => property? (base ++ e.2)).map (renumber g) := by
      rw [List.filterMap_map, List.map_filterMap]
      refine congrArg (fun f => List.filterMap f parts) (funext fun e => ?_)
      show property? (base.map (renumber g) ++ e.2.map (renumber g)) = _
      rw [← List.map_append, property?_renumber]
      rfl
    rw [List.map_cons]
    dsimp only [Nesting.renumberPart, renumber_list]
    rw [property?_renumber]
    cases property? part with
    | none => rfl
    | some first =>
      have hname : (renumber g first).name = first.name := rfl
      simp only [renumber_option, Option.map_some, hname, sharedType_renumber]
      exact congrArg (Head.declares _) (hmore _)

/-- A statement declares the same on other lines. -/
theorem classify_renumber (s : Statement) (record : Option String) :
    classify (renumber g s) record = renumber g (classify s record) := by
  have htokens : (renumber g s).tokens = s.tokens.map (renumber g) := rfl
  have hbody : (renumber g s).hasBody = s.hasBody := rfl
  unfold classify
  rw [htokens, hbody]
  cases hs : s.tokens with
  | nil => rfl
  | cons first rest =>
    rw [List.map_cons]
    dsimp only
    simp only [Token.isIdent_renumber, ← List.map_cons, isRecordHead_renumber]
    split
    · exact congrArg (Head.declares · []) (enumHead_renumber (first :: rest) s.hasBody)
    · split
      · exact recordHead_renumber ..
      · rw [splitCall?_renumber]
        cases splitCall? (first :: rest) with
        | some e => exact functionHead_renumber ..
        | none =>
          rw [renumber_option, Option.map_none]
          dsimp only
          split
          · exact propertyHeads_renumber (first :: rest)
          · rfl

end Head

end AnnotatedHeader
