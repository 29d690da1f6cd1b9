import AnnotatedHeader.Proofs.Numbering.Statements
import AnnotatedHeader.Proofs.Result
import AnnotatedHeader.Proofs.Scope.Reads

/-! Scopes among renumbered pieces.

Where `g` increases, a turn on renumbered pieces is the turn, renumbered
(`Scope.result_turn_renumber`): lines are compared in one place only, where a macro call must end
its line. So the whole reading of a scope is renumbered (`Scope.result_read_renumber`). -/
namespace AnnotatedHeader

variable {g : Nat → Nat}

namespace Scope

/-! ### State -/

theorem State.added_renumber (b : State) (d : Declaration) :
    (renumber g b).added (renumber g d) = renumber g (b.added d) := by
  unfold added
  rw [Declaration.toDeclared_renumber, Declared.name_renumber]
  split
  · rfl
  · exact congrArg (fun ms => { renumber g b with members := ms }) (Declaration.merged_renumber ..)

theorem State.foldl_added_renumber (b : State) (ds : List Declaration) :
    (ds.map (renumber g)).foldl added (renumber g b) = renumber g (ds.foldl added b) := by
  induction ds generalizing b with
  | nil => rfl
  | cons d ds ih => rw [List.map_cons, List.foldl_cons, List.foldl_cons, added_renumber, ih]

theorem Frame.resumed_renumber (f : Frame) (found : Contents) :
    (renumber g f).resumed (renumber g found) = renumber g (f.resumed found) := by
  have hmerge (members ds : List Declaration) :
      (ds.map (renumber g)).foldl Declaration.merged (members.map (renumber g)) =
        (ds.foldl Declaration.merged members).map (renumber g) := by
    induction ds generalizing members with
    | nil => rfl
    | cons d ds ih =>
      rw [List.map_cons, List.foldl_cons, List.foldl_cons, Declaration.merged_renumber, ih]
  cases f with
  | transparent b =>
    show State.mk _ _ ((found.declarations.map (renumber g)).foldl Declaration.merged
      (b.members.map (renumber g))) (b.injects.map (renumber g) ++ found.injects.map (renumber g)) = _
    rw [hmerge, ← List.map_append]
    rfl
  | memberOf b own =>
    have hinjects : (b.injects.map (renumber g) ++ found.injects.map (renumber g)) =
        (b.injects ++ found.injects).map (renumber g) := List.map_append.symm
    rw [resumed, ← State.added_renumber, Declaration.renumber_mk]
    exact congrArg (fun sites => State.added { renumber g b with injects := sites } _) hinjects

theorem result_finish_renumber (s : Scope) (b : State) :
    (s.finish (renumber g b)).result = renumber g (s.finish b).result := by
  obtain ⟨visibility, ⟨doc, reflection, template⟩, members, injects⟩ := b
  cases reflection with
  | some r => rfl
  | none => cases doc <;> rfl

/-! ### Parts of items -/

theorem argumentTokens_renumber (depth : Nat) (ps : List Piece) :
    argumentTokens depth (ps.map (renumber g)) = renumber g (argumentTokens depth ps) := by
  fun_induction argumentTokens depth ps with
  | case1 => rfl
  | case2 t ps hkind => simp [argumentTokens, hkind]
  | case3 t ps depth hkind ih =>
    simp only [List.map_cons, Piece.renumber_token, argumentTokens, Token.kind_renumber, hkind, ih,
      map_cons_fst_renumber]
  | case4 t ps depth hkind ih =>
    simp only [List.map_cons, Piece.renumber_token, argumentTokens, Token.kind_renumber, hkind, ih,
      map_cons_fst_renumber]
  | case5 _ t ps hkind | case6 _ t ps hkind | case7 _ t ps hkind => simp [argumentTokens, hkind]
  | case8 t ps depth _ _ _ _ _ _ ih =>
    simp only [List.map_cons, Piece.renumber_token, argumentTokens, Token.kind_renumber, ih,
      map_cons_fst_renumber]
  | case9 depth b ps ih => exact ih
  | case10 depth proxy line ps ih => exact ih

theorem readReflection_renumber (t : Token) (ps : List Piece) :
    (readReflection (renumber g t) (ps.map (renumber g))).result =
      renumber g (readReflection t ps).result := by
  unfold readReflection
  cases ps with
  | nil => rfl
  | cons p ps =>
    simp only [List.map_cons, Piece.hasKind_renumber, argumentTokens_renumber]
    split
    · cases argumentTokens 0 ps with
      | none => rfl
      | some e =>
        obtain ⟨ts, rest⟩ := e
        simp only [renumber_option, Option.map_some, renumber_pair, renumber_list,
          Metadata.read_renumber]
        cases Metadata.read ts <;> rfl
    · rfl

theorem callEnd?_renumber (depth : Nat) (ps : List Piece) :
    callEnd? depth (ps.map (renumber g)) =
      (callEnd? depth ps).map fun e => (g e.1, e.2.map (renumber g)) := by
  fun_induction callEnd? depth ps with
  | case1 t ps hkind => simp [callEnd?, hkind]
  | case2 t ps depth hkind ih =>
    simp only [List.map_cons, Piece.renumber_token, callEnd?, Token.kind_renumber, hkind, ih]
  | case3 depth t ps hkind ih =>
    simp only [List.map_cons, Piece.renumber_token, callEnd?, Token.kind_renumber, hkind, ih]
  | case4 _ t ps hkind | case5 _ t ps hkind | case6 _ t ps hkind => simp [callEnd?, hkind]
  | case7 depth t ps _ _ _ _ _ _ ih =>
    simp only [List.map_cons, Piece.renumber_token, callEnd?, Token.kind_renumber, ih]
  | case8 ps depth hps =>
    rcases ps with _ | ⟨_ | _ | _, ps⟩
    · rfl
    · exact (hps _ _ rfl).elim
    · rfl
    · rfl

theorem afterMacroCall?_renumber (hg : StrictMono g) (t : Token) (ps : List Piece) :
    afterMacroCall? (renumber g t) (ps.map (renumber g)) = renumber g (afterMacroCall? t ps) := by
  have hended (line : Nat) (rest : List Piece) :
      (if (rest.map (renumber g)).head?.any (·.line ≤ g line) then none
        else some (rest.map (renumber g))) =
      renumber g (if rest.head?.any (·.line ≤ line) then none else some rest) := by
    have hhead : (rest.map (renumber g)).head?.any (·.line ≤ g line) =
        rest.head?.any (·.line ≤ line) := by
      cases rest with
      | nil => rfl
      | cons p rest => simp [hg.le_iff_le]
    rw [hhead]
    split <;> rfl
  unfold afterMacroCall?
  rw [Token.text_renumber]
  split
  · cases ps with
    | nil => rfl
    | cons p rest =>
      rw [List.map_cons]
      dsimp only
      rw [Piece.hasKind_renumber, callEnd?_renumber, Token.line_renumber, ← List.map_cons]
      cases p.hasKind .lparen with
      | true =>
        cases callEnd? 0 rest with
        | none => rfl
        | some e => exact hended e.1 e.2
      | false => exact hended t.line (p :: rest)
  · rfl

theorem templateTokens_renumber (angle : Nat) (ps : List Piece) :
    templateTokens angle (ps.map (renumber g)) = renumber g (templateTokens angle ps) := by
  induction ps generalizing angle with
  | nil => rfl
  | cons p ps ih =>
    rw [List.map_cons]
    cases p with
    | token t =>
      rw [Piece.renumber_token, templateTokens, templateTokens, Token.kind_renumber]
      simp only [ih]
      split <;> rfl
    | doc b => exact ih _
    | inject proxy line => exact ih _

theorem namespaceHead_renumber (name : String) (ps : List Piece) :
    namespaceHead name (ps.map (renumber g)) = renumber g (namespaceHead name ps) := by
  induction ps generalizing name with
  | nil => rfl
  | cons p ps ih =>
    rw [List.map_cons]
    cases p with
    | token t =>
      rw [Piece.renumber_token]
      unfold namespaceHead
      rw [Token.kind_renumber, Token.text_renumber]
      split
      · rfl
      · exact ih _
      · exact ih _
      · rfl
    | doc b => rfl
    | inject proxy line => rfl

/-- A namespace alias is read from a piece on. -/
theorem ne_nil_of_namespaceHead {name : String} {ps rest : List Piece}
    (h : namespaceHead name ps = .alias rest) : rest ≠ [] := by
  fun_induction namespaceHead name ps with
  | case1 => cases h
  | case2 name t ps _ ih => exact ih h
  | case3 name t ps _ ih => exact ih h
  | case4 =>
    cases h
    simp
  | case5 => cases h

/-! ### Statements -/

theorem result_checkReflection_renumber (h : Heading) (r : Option Reflection) :
    (checkReflection (renumber g h) (renumber g r)).result =
      renumber g (checkReflection h r).result := by
  have hkind : (renumber g h).item.kind = h.item.kind := Item.kind_renumber h.item
  cases r with
  | none => rfl
  | some r =>
    unfold checkReflection
    rw [renumber_option, Option.map_some]
    dsimp only
    rw [hkind]
    show (if markedKind? r.macroName = _ then _ else _ : Outcome Unit).result = _
    split <;> rfl

theorem result_passOver_renumber (b : State) (stmt : Statement) (reason : SkipReason)
    (rest : List Piece) :
    (passOver (renumber g b) (renumber g stmt) reason (rest.map (renumber g))).result =
      renumber g (passOver b stmt reason rest).result := by
  have htext : Token.join (renumber g stmt).tokens = Token.join stmt.tokens := Token.join_renumber _
  obtain ⟨visibility, ⟨doc, reflection, template⟩, members, injects⟩ := b
  unfold passOver
  rw [htext]
  cases reflection with
  | some r => rfl
  | none =>
    refine Outcome.result_bind_renumber (α := Unit) rfl fun _ => ?_
    refine Outcome.result_bind_renumber (stmt.result_skipBodyOf_renumber rest) fun rest => ?_
    refine Outcome.result_bind_renumber (α := State) ?_ fun b => rfl
    rw [State.result_dropDoc, State.result_dropDoc]
    rfl

theorem result_openBody_renumber (b : State) (own : Declared) (rest : List Piece) :
    (openBody (renumber g b) (renumber g own) (rest.map (renumber g))).result =
      renumber g (openBody b own rest).result := by
  have hadd (b : State) (members : List Declaration) (rest : List Piece) :
      ((renumber g b).add ⟨renumber g own, members.map (renumber g)⟩ >>= fun b =>
          pure (Turn.continues b (rest.map (renumber g)))).result =
        renumber g (b.add ⟨own, members⟩ >>= fun b => pure (Turn.continues b rest)).result := by
    refine Outcome.result_bind_renumber (α := State) ?_ fun b => rfl
    rw [State.result_add, State.result_add, ← Declaration.renumber_mk, State.added_renumber]
    rfl
  unfold openBody
  cases hitem : own.item with
  | record key shape =>
    have hitem' : (renumber g own).item = .record key shape := congrArg (renumber g) hitem
    rw [hitem']
    rfl
  | enumeration shape =>
    have hitem' : (renumber g own).item = .enumeration shape := congrArg (renumber g) hitem
    rw [hitem']
    refine Outcome.result_bind_renumber
      (EnumBody.result_read_renumber own.path [] none rest) fun e => ?_
    exact hadd b e.1 e.2
  | function shape =>
    have hitem' : (renumber g own).item = renumber g (.function shape) := congrArg (renumber g) hitem
    rw [hitem']
    refine Outcome.result_bind_renumber (result_skipBody_renumber 0 rest) fun rest => ?_
    exact hadd b [] rest
  | property shape =>
    have hitem' : (renumber g own).item = .property shape := congrArg (renumber g) hitem
    rw [hitem']
    refine Outcome.result_bind_renumber (result_skipBody_renumber 0 rest) fun rest => ?_
    exact hadd b [] rest
  | variant value =>
    have hitem' : (renumber g own).item = .variant value := congrArg (renumber g) hitem
    rw [hitem']
    refine Outcome.result_bind_renumber (result_skipBody_renumber 0 rest) fun rest => ?_
    exact hadd b [] rest

theorem result_declare_renumber (s : Scope) (b : State) {ps : List Piece} (h : ps ≠ []) :
    (declare s (renumber g b) (ps.map (renumber g))).result =
      renumber g (declare s b ps).result := by
  unfold declare
  refine Outcome.result_bind_renumber (Statement.result_read_renumber h) fun e => ?_
  obtain ⟨stmt, rest⟩ := e
  simp only [renumber_pair, renumber_list, Head.classify_renumber]
  cases Head.classify stmt s.record with
  | skip reason => exact result_passOver_renumber ..
  | declares first others =>
    refine Outcome.result_bind_renumber (result_checkReflection_renumber _ _) fun _ => ?_
    have hbody : (renumber g stmt).hasBody = stmt.hasBody := rfl
    rw [hbody]
    split
    · exact result_openBody_renumber { b with pending := {} }
        (s.declared b.visibility stmt.line b.pending first) rest
    · refine Outcome.result_bind_renumber (α := State) ?_ fun b => rfl
      rw [State.result_addAll, State.result_addAll]
      have hmore : (others.map (renumber g)).map
            (fun h => (⟨s.declared b.visibility (g stmt.line) {} h, []⟩ : Declaration)) =
          (others.map fun h => (⟨s.declared b.visibility stmt.line {} h, []⟩ : Declaration)).map
            (renumber g) := by
        rw [List.map_map, List.map_map]
        refine List.map_congr_left fun h _ => ?_
        exact (Declaration.renumber_mk (s.declared b.visibility stmt.line {} h) []).symm
      have hall := State.foldl_added_renumber (g := g) { b with pending := {} }
        (⟨s.declared b.visibility stmt.line b.pending first, []⟩ ::
          others.map fun h => (⟨s.declared b.visibility stmt.line {} h, []⟩ : Declaration))
      rw [List.map_cons, Declaration.renumber_mk, ← hmore] at hall
      exact congrArg Except.ok hall

/-! ### Words -/

theorem result_readNamespace_renumber (s : Scope) (b : State) (ps : List Piece) :
    (readNamespace s (renumber g b) (ps.map (renumber g))).result =
      renumber g (readNamespace s b ps).result := by
  unfold readNamespace
  refine Outcome.result_bind_renumber (α := State) ?_ fun b => ?_
  · rw [State.result_dropDoc, State.result_dropDoc]
    rfl
  · rw [namespaceHead_renumber]
    cases hhead : namespaceHead "" ps with
    | body name rest => rfl
    | «alias» rest =>
      refine Outcome.result_bind_renumber
        (Statement.result_read_renumber (ne_nil_of_namespaceHead hhead)) fun e => rfl
    | nothing rest => rfl

theorem result_annotate_renumber (b : State) (t : Token) (ps : List Piece) :
    (annotate (renumber g b) (renumber g t) (ps.map (renumber g))).result =
      renumber g (annotate b t ps).result := by
  obtain ⟨visibility, ⟨doc, reflection, template⟩, members, injects⟩ := b
  cases reflection with
  | some r => rfl
  | none => exact Outcome.result_bind_renumber (readReflection_renumber t ps) fun e => rfl

theorem result_passOverKeyword_renumber (b : State) {ps : List Piece} (h : ps ≠ []) :
    (passOverKeyword (renumber g b) (ps.map (renumber g))).result =
      renumber g (passOverKeyword b ps).result := by
  unfold passOverKeyword
  refine Outcome.result_bind_renumber (Statement.result_read_renumber h) fun e => ?_
  refine Outcome.result_bind_renumber (α := Unit) rfl fun _ => ?_
  exact Outcome.result_bind_renumber (e.1.result_skipBodyOf_renumber e.2) fun rest => rfl

theorem nextIs_renumber (i : Nat) (kind : TokenKind) (ps : List Piece) :
    nextIs i kind (ps.map (renumber g)) = nextIs i kind ps := by
  unfold nextIs
  rw [List.getElem?_map, Option.any_map]
  exact congrArg (fun p => Option.any p ps[i]?) (funext fun p => p.hasKind_renumber kind)

theorem startsNamespace_renumber (ps : List Piece) :
    startsNamespace (ps.map (renumber g)) = startsNamespace ps := by
  rcases ps with _ | ⟨_ | _ | _, ps⟩ <;> rfl

theorem word_renumber (hg : StrictMono g) (t : Token) (ps : List Piece) :
    word (renumber g t) (ps.map (renumber g)) = renumber g (word t ps) := by
  unfold word label?
  simp only [nextIs_renumber, startsNamespace_renumber, Token.text_renumber,
    afterMacroCall?_renumber hg]
  split
  · rfl
  split
  · rfl
  split
  · rfl
  split
  · rfl
  split
  · rfl
  split
  · rfl
  split
  · rfl
  cases afterMacroCall? t ps <;> rfl

theorem result_readWord_renumber (hg : StrictMono g) (s : Scope) (b : State) (t : Token)
    (ps : List Piece) :
    (readWord s (renumber g b) (renumber g t) (ps.map (renumber g))).result =
      renumber g (readWord s b t ps).result := by
  unfold readWord
  rw [word_renumber hg]
  cases word t ps with
  | label v =>
    show Except.ok (Turn.continues _ ((ps.map (renumber g)).drop 1)) = _
    rw [← List.map_drop]
    rfl
  | template =>
    have hjoin (ts : List Token) : Token.join (renumber g t :: ts.map (renumber g)) =
        Token.join (t :: ts) := Token.join_renumber (t :: ts)
    show Except.ok (Turn.continues { renumber g b with
      pending.template := some (Token.join (renumber g t :: (templateTokens 0 _).1)) } _) = _
    rw [templateTokens_renumber]
    show Except.ok (Turn.continues { renumber g b with
      pending.template := some (Token.join (renumber g t :: List.map _ _)) } _) = _
    rw [hjoin]
    rfl
  | inlined => rfl
  | «namespace» => exact result_readNamespace_renumber s b ps
  | linkage =>
    show Except.ok (Turn.opens _ _ ((ps.map (renumber g)).drop 2)) = _
    rw [← List.map_drop]
    rfl
  | reflection => exact result_annotate_renumber b t ps
  | passedOver => exact result_passOverKeyword_renumber b (List.cons_ne_nil (.token t) ps)
  | macroCall rest => exact Outcome.result_bind_renumber (α := Unit) rfl fun _ => rfl
  | other => exact result_declare_renumber s b (List.cons_ne_nil (.token t) ps)

/-! ### Turns -/

theorem result_turn_renumber (hg : StrictMono g) (s : Scope) (b : State) (p : Piece)
    (ps : List Piece) :
    (turn s (renumber g b) (renumber g p) (ps.map (renumber g))).result =
      renumber g (turn s b p ps).result := by
  cases p with
  | doc block =>
    refine Outcome.result_bind_renumber (α := State) ?_ fun b => rfl
    rw [State.result_dropDoc, State.result_dropDoc]
    rfl
  | inject proxy line =>
    unfold turn
    rw [Piece.renumber_inject]
    dsimp only
    split
    · rfl
    · show Except.ok (Turn.continues { renumber g b with
        injects := b.injects.map (renumber g) ++ [renumber g ⟨proxy, s.path, line⟩] } _) = _
      rw [← List.map_singleton, ← List.map_append]
      rfl
  | token t =>
    unfold turn
    rw [Piece.renumber_token]
    dsimp only
    rw [Token.kind_renumber]
    split
    · split
      · rfl
      · exact Outcome.result_bind_renumber (α := Unit) rfl fun _ => rfl
    · rfl
    · exact result_readWord_renumber hg s b t ps
    · exact result_declare_renumber s b (List.cons_ne_nil (.token t) ps)

/-! ### Whole scopes -/

theorem readOn_renumber (hg : StrictMono g) (s : Scope) (b : State) (ps : List Piece) :
    readOn s (renumber g b) (ps.map (renumber g)) = renumber g (readOn s b ps) := by
  have hfinish (s : Scope) (b : State) (rest : List Piece) :
      ((s.finish (renumber g b)).result.map fun found => (found, rest.map (renumber g))) =
        renumber g ((s.finish b).result.map fun found => (found, rest)) := by
    rw [result_finish_renumber]
    cases (s.finish b).result <;> rfl
  -- A scope opened inside is read from further on, so the induction is on length.
  induction hn : ps.length using Nat.strongRecOn generalizing s b ps with
  | ind n ih =>
    subst hn
    cases ps with
    | nil =>
      rw [List.map_nil, readOn_nil, readOn_nil]
      exact hfinish s b []
    | cons p ps =>
      rw [List.map_cons, readOn_cons, readOn_cons, result_turn_renumber hg]
      cases hturn : (turn s b p ps).result with
      | error e => rfl
      | ok t =>
        have hrest : t.rest.length < (p :: ps).length :=
          Nat.lt_succ_of_le (turn_suffix hturn).length_le
        cases t with
        | closes rest => exact hfinish s b rest
        | continues b rest => exact ih _ hrest s b rest rfl
        | opens inner frame rest =>
          have hinner := ih _ hrest inner inner.start rest rfl
          show (readOn inner (renumber g inner.start) (rest.map (renumber g)) >>= _) =
            renumber g (readOn inner inner.start rest >>= _)
          rw [hinner]
          cases hwithin : readOn inner inner.start rest with
          | error e => rfl
          | ok e =>
            have hshorter : e.2.length < (p :: ps).length :=
              Nat.lt_of_le_of_lt (readOn_suffix hwithin).length_le hrest
            show readOn s ((renumber g frame).resumed (renumber g e.1)) (e.2.map (renumber g)) = _
            rw [Frame.resumed_renumber]
            exact ih _ hshorter s (frame.resumed e.1) e.2 rfl

/-- What renumbered pieces declare is what the pieces declare, renumbered. -/
theorem result_read_renumber (hg : StrictMono g) (s : Scope) (ps : List Piece) :
    (s.read (ps.map (renumber g))).result = renumber g (s.read ps).result := by
  rw [result_read, result_read]
  show (readOn s (renumber g s.start) (ps.map (renumber g))).map Prod.fst = _
  rw [readOn_renumber hg]
  cases readOn s s.start ps <;> rfl

end Scope

/-! ### Headers and fragments -/

theorem Scope.Contents.result_ofLines_renumber (hg : StrictMono g) {lines : List SourceLine}
    (hsteps : Steps g (Piece.firstLine lines) ((Piece.code lines).toList.count '\n'))
    (hlines : lines ≠ []) :
    (ofLines (lines.map (renumber g)) (CommentBlock.group (lines.map (renumber g)))).result =
      renumber g (ofLines lines (CommentBlock.group lines)).result := by
  unfold ofLines
  rw [CommentBlock.group_renumber]
  refine Outcome.result_bind_renumber (α := Unit) rfl fun _ => ?_
  rw [Piece.ofLines_renumber hg hsteps hlines CommentBlock.lines_ne_nil]
  exact result_read_renumber hg _ _

theorem Declaration.result_ofFragment_renumber (hg : StrictMono g) {text : String} {firstLine : Nat}
    (hsteps : Steps g firstLine (text.toList.count '\n')) (owner : String) :
    (ofFragment text (g firstLine) owner).result =
      renumber g (ofFragment text firstLine owner).result := by
  unfold ofFragment
  refine Outcome.result_bind_renumber (α := Unit) rfl fun _ => ?_
  refine Outcome.result_bind_renumber (α := Scope.Contents) ?_ fun found => rfl
  rw [Token.tokenize_renumber hsteps, List.map_map]
  have htokens := Scope.result_read_renumber hg (Scope.ofFragment owner)
    ((Token.tokenize text firstLine).map .token)
  rw [List.map_map] at htokens
  exact htokens

end AnnotatedHeader
