import AnnotatedHeader.Proofs.Scope.Templates
import Mathlib

/-! What becomes of the macros that a scope reads.

A macro waits in its scope until a statement declares something. Nothing else takes it
away, and no scope ends while it waits, so a reading that succeeds has given each macro to a
declaration of the kind that the macro marks (`Logs.macros`). A declaration without a name is
made and then given up, and its macro with it: `macros_attached_iff` says that no macro is
lost in any other way. -/
namespace AnnotatedHeader.Scope

/-! ### Logs -/

/-- The macros that a reading reads, and the declarations that it makes. -/
structure Log where
  macros : List Reflection
  made : List Declaration

namespace Log

def empty : Log := ⟨[], []⟩

def append (l more : Log) : Log := ⟨l.macros ++ more.macros, l.made ++ more.made⟩

/-- The declarations that are merged with those of their scope. -/
def merged (l : Log) : List Declaration := l.made.filter (!·.name.isEmpty)

/-- The declarations that are given up. -/
def unnamed (l : Log) : List Declaration := l.made.filter (·.name.isEmpty)

end Log

/-- The macro that the turn at a piece reads. -/
def macroAt (p : Piece) (ps : List Piece) : List Reflection :=
  match p, item p ps with
  | .token t, .reflection =>
    match (readReflection t ps).result with
    | .ok (r, _) => [r]
    | .error _ => []
  | _, _ => []

/-- The declarations of the statement in front of the pieces, unless it opens a record. -/
def declaredAt (s : Scope) (b : State) (ps : List Piece) : List Declaration :=
  match (Statement.read ps).result with
  | .error _ => []
  | .ok (stmt, rest) =>
    match Head.classify stmt s.record with
    | .skip _ => []
    | .declares first others =>
      let own := s.declared b.visibility stmt.line b.pending first
      if stmt.hasBody then
        match first.item with
        | .record .. => []
        | .enumeration _ =>
          match (EnumBody.read own.path [] none rest).result with
          | .ok (members, _) => [⟨own, members⟩]
          | .error _ => []
        | _ => [⟨own, []⟩]
      else ⟨own, []⟩ :: others.map fun h => ⟨s.declared b.visibility stmt.line {} h, []⟩

/-- The declarations that the turn at a piece makes. -/
def madeAt (s : Scope) (b : State) (p : Piece) (ps : List Piece) : List Declaration :=
  if item p ps = .statement then declaredAt s b (p :: ps) else []

/-- A record is made when its body has been read. -/
def Frame.made (f : Frame) (found : Contents) : List Declaration :=
  match f with
  | .transparent _ => []
  | .memberOf _ own => [⟨own, found.declarations⟩]

/-- The log of a reading that succeeds. -/
inductive Logs : Scope → State → List Piece → Log → Prop where
  | ends {s : Scope} {b : State} (free : b.pending.reflection = none) : Logs s b [] .empty
  | closes {s : Scope} {b : State} {p : Piece} {ps rest : List Piece}
      (taken : (turn s b p ps).result = .ok (.closes rest)) (free : b.pending.reflection = none) :
      Logs s b (p :: ps) .empty
  | continues {s : Scope} {b b' : State} {p : Piece} {ps rest : List Piece} {more : Log}
      (taken : (turn s b p ps).result = .ok (.continues b' rest)) (later : Logs s b' rest more) :
      Logs s b (p :: ps) (.append ⟨macroAt p ps, madeAt s b p ps⟩ more)
  | opens {s inner : Scope} {b : State} {p : Piece} {ps rest rest' : List Piece} {frame : Frame}
      {within : Contents} {inside more : Log}
      (taken : (turn s b p ps).result = .ok (.opens inner frame rest))
      (read : Reads inner inner.start rest within rest') (logs : Logs inner inner.start rest inside)
      (later : Logs s (frame.resumed within) rest' more) :
      Logs s b (p :: ps) (inside.append (.append ⟨[], frame.made within⟩ more))

theorem Reads.exists_log {s : Scope} {b : State} {ps rest : List Piece} {found : Contents}
    (h : Reads s b ps found rest) : ∃ log, Logs s b ps log := by
  induction h with
  | ends free => exact ⟨_, .ends free⟩
  | closes taken free => exact ⟨_, .closes taken free⟩
  | continues taken _ ih =>
    obtain ⟨more, hmore⟩ := ih
    exact ⟨_, .continues taken hmore⟩
  | opens taken inside _ ihInside ihMore =>
    obtain ⟨within, hwithin⟩ := ihInside
    obtain ⟨more, hmore⟩ := ihMore
    exact ⟨_, .opens taken inside hwithin hmore⟩

/-- A reading has one log. -/
theorem Logs.unique {s : Scope} {b : State} {ps : List Piece} {log log' : Log}
    (h : Logs s b ps log) (h' : Logs s b ps log') : log = log' := by
  induction h generalizing log' with
  | ends =>
    cases h'
    rfl
  | closes taken =>
    cases h' with
    | closes => rfl
    | continues taken' => cases taken.symm.trans taken'
    | opens taken' => cases taken.symm.trans taken'
  | continues taken _ ih =>
    cases h' with
    | closes taken' => cases taken.symm.trans taken'
    | continues taken' later =>
      cases taken.symm.trans taken'
      rw [ih later]
    | opens taken' => cases taken.symm.trans taken'
  | opens taken read _ _ ihInside ihMore =>
    cases h' with
    | closes taken' => cases taken.symm.trans taken'
    | continues taken' => cases taken.symm.trans taken'
    | opens taken' read' inside later =>
      cases taken.symm.trans taken'
      obtain ⟨rfl, rfl⟩ := read.unique read'
      rw [ihInside inside, ihMore later]

/-! ### Turns -/

/-- The macro that waits for a declaration. -/
def State.waiting (b : State) : List Reflection := b.pending.reflection.toList

/-- Each declaration with a macro is of the kind that the macro marks. -/
def Marked (ds : List Declaration) : Prop :=
  ∀ d ∈ ds, ∀ r ∈ d.reflection, markedKind? r.macroName = some d.kind

/-- From `b` to `b'`, where `macros` are read and `made` is made, a macro goes to a declaration that
it may mark, or it goes on waiting. -/
structure Hands (b b' : State) (macros : List Reflection) (made : List Declaration) : Prop where
  macros : b.waiting ++ macros = made.filterMap (·.reflection) ++ b'.waiting
  marked : Marked made

/-- The same of a turn, which also merges what it makes with the members, if that has a name. -/
structure Step (b b' : State) (macros : List Reflection) (made : List Declaration) : Prop
    extends Hands b b' macros made where
  members : b'.members = (made.filter (!·.name.isEmpty)).foldl Declaration.merged b.members

theorem State.members_added (b : State) (ds : List Declaration) :
    (ds.foldl added b).members =
      (ds.filter (!·.name.isEmpty)).foldl Declaration.merged b.members := by
  induction ds generalizing b with
  | nil => rfl
  | cons d ds ih =>
    rw [List.foldl_cons, ih, added]
    by_cases hname : d.name.isEmpty = true
    · rw [if_pos hname, List.filter_cons_of_neg (by simp [hname])]
    · rw [if_neg hname, List.filter_cons_of_pos (by simp [hname]), List.foldl_cons]

theorem marked_of_checked {h : Heading} {waiting : Option Reflection}
    (checked : (checkReflection h waiting).result = .ok ()) :
    ∀ r ∈ waiting, markedKind? r.macroName = some h.item.kind := by
  rintro r ⟨⟩
  unfold checkReflection at checked
  dsimp only at checked
  split at checked
  · assumption
  · cases checked

section
variable {s : Scope} {b b' : State} {p : Piece} {ps rest : List Piece}

/-- A statement's first declaration takes the macro that waits. -/
theorem hands_of_checked (line : Nat) {first : Heading} (members : List Declaration)
    (checked : (checkReflection first b.pending.reflection).result = .ok ())
    (more : List Heading) :
    Hands b { b with pending := {} } []
      (⟨s.declared b.visibility line b.pending first, members⟩ ::
        more.map fun h => ⟨s.declared b.visibility line {} h, []⟩) := by
  constructor
  · have hothers : (more.map fun h =>
        (⟨s.declared b.visibility line {} h, []⟩ : Declaration)).filterMap (·.reflection) = [] :=
      List.filterMap_eq_nil_iff.2 (List.forall_mem_map.2 fun _ _ => rfl)
    rw [List.filterMap_cons, hothers]
    cases hr : b.pending.reflection <;> simp [State.waiting, declared, hr]
  · refine List.forall_mem_cons.2 ⟨marked_of_checked checked, List.forall_mem_map.2 ?_⟩
    rintro h - r ⟨⟩

theorem Hands.added {macros : List Reflection} {made : List Declaration}
    (h : Hands b b' macros made) (members : b'.members = b.members) :
    Step b (made.foldl State.added b') macros made where
  macros := by rw [h.macros, State.waiting, State.waiting, State.pending_foldl_added]
  marked := h.marked
  members := by rw [State.members_added, members]

theorem Declares.step (h : Declares s b ps (.continues b' rest)) :
    Step b b' [] (declaredAt s b ps) := by
  unfold declaredAt
  cases h with
  | passesOver read head free skipped =>
    rw [read]
    dsimp only
    rw [head]
    exact ⟨⟨by simp [State.waiting, free], by simp [Marked]⟩, rfl⟩
  | readsEnum read head checked body item entries =>
    rw [read]
    dsimp only
    rw [head]
    dsimp only
    rw [if_pos body, item]
    simp only [declared, entries]
    exact (hands_of_checked _ _ checked []).added rfl
  | skipsBody read head checked body record enum skipped =>
    rw [read]
    dsimp only
    rw [head]
    dsimp only
    rw [if_pos body]
    split
    · rename_i hitem
      exact absurd hitem (record _ _)
    · rename_i hitem
      exact absurd hitem (enum _)
    · exact (hands_of_checked _ [] checked []).added rfl
  | announces read head checked bodiless =>
    rw [read]
    dsimp only
    rw [head]
    dsimp only
    rw [if_neg (by simp [bodiless])]
    exact (hands_of_checked _ [] checked _).added rfl

/-- **A turn hands what it makes on to be merged**, and a macro that it does not leave waiting goes
to one of those declarations. -/
theorem Takes.step (h : Takes s b p ps (.continues b' rest)) :
    Step b b' (macroAt p ps) (madeAt s b p ps) := by
  -- A turn that reads neither a macro nor a statement leaves both as they are.
  have hkeeps {i : Item} (hi : item p ps = i) (plain : i ≠ .reflection ∧ i ≠ .statement)
      (members : b'.members = b.members) (waiting : b'.waiting = b.waiting) :
      Step b b' (macroAt p ps) (madeAt s b p ps) := by
    have hmacros : macroAt p ps = [] := by
      unfold macroAt
      split
      · exact absurd (hi.symm.trans (by assumption)) plain.1
      · rfl
    have hmade : madeAt s b p ps = [] := if_neg (hi ▸ plain.2)
    rw [hmacros, hmade]
    exact ⟨⟨by simp [waiting], by simp [Marked]⟩, members⟩
  cases h with
  | doc => exact hkeeps (i := .doc) rfl (by simp) rfl rfl
  | inject => exact hkeeps (i := .inject) rfl (by simp) rfl rfl
  | passes t _ why =>
    rcases why with ⟨kind, -⟩ | kind | ⟨kind, is⟩
    · exact hkeeps (i := .stray) (by simp [item, kind]) (by simp) rfl rfl
    · exact hkeeps (i := .stray) (by simp [item, kind]) (by simp) rfl rfl
    · exact hkeeps (i := .namespace) (by simp [item, kind, is]) (by simp) rfl rfl
  | label kind is => exact hkeeps (i := .label) (by simp [item, kind, is]) (by simp) rfl rfl
  | @template t _ kind is =>
    refine hkeeps (i := .template (Token.join (t :: (templateTokens 0 ps).1))) ?_ (by simp) rfl rfl
    simp only [item, kind, is]
  | aliases kind is | endsNamespaceHead kind is =>
    exact hkeeps (i := .namespace) (by simp [item, kind, is]) (by simp) rfl rfl
  | passesOverKeyword kind is =>
    exact hkeeps (i := .passedOver) (by simp [item, kind, is]) (by simp) rfl rfl
  | calls kind is => exact hkeeps (i := .macroCall) (by simp [item, kind, is]) (by simp) rfl rfl
  | @annotates t _ _ r kind is free read =>
    have hitem : item (.token t) ps = .reflection := by simp [item, kind, is]
    have hmacros : macroAt (.token t) ps = [r] := by
      simp only [macroAt, hitem, read]
    have hmade : madeAt s b (.token t) ps = [] := if_neg (by simp [hitem])
    rw [hmacros, hmade]
    exact ⟨⟨by simp [State.waiting, free], by simp [Marked]⟩, rfl⟩
  | @declares t _ _ kind is h =>
    have hitem : item (.token t) ps = .statement := item_of_statement kind is
    have hmacros : macroAt (.token t) ps = [] := by simp only [macroAt, hitem]
    have hmade : madeAt s b (.token t) ps = declaredAt s b (.token t :: ps) := if_pos hitem
    rw [hmacros, hmade]
    exact h.step

/-- A record takes the macro that waits, and a scope without an owner leaves it where it is. -/
theorem Takes.hands {inner : Scope} {frame : Frame} (h : Takes s b p ps (.opens inner frame rest))
    (found : Contents) : Hands b (frame.resumed found) [] (frame.made found) := by
  have hresumed (f : Frame) : (f.resumed found).waiting = f.state.waiting := by
    rw [State.waiting, Frame.pending_resumed, ← State.waiting]
  cases h with
  | opensNamespace | opensLinkage =>
    constructor
    · rw [hresumed]
      exact List.append_nil _
    · rintro d ⟨⟩
  | declares _ _ h =>
    cases h with
    | @opensRecord stmt first _ _ _ _ read head checked body item =>
      have hands := hands_of_checked (s := s) stmt.line found.declarations checked []
      constructor
      · rw [hresumed]
        exact hands.macros
      · exact hands.marked

end

/-! ### Readings -/

/-- **Every macro goes to one declaration**, of the kind that it marks. -/
theorem Logs.hands {s : Scope} {b : State} {ps : List Piece} {log : Log} (h : Logs s b ps log) :
    (b.waiting ++ log.macros).Perm (log.made.filterMap (·.reflection)) ∧ Marked log.made := by
  induction h with
  | ends free | closes _ free => simp [State.waiting, free, Log.empty, Marked]
  | @continues s b b' p ps rest more taken _ ih =>
    obtain ⟨hmore, hmarked⟩ := ih
    have hstep := (takes_of_turn taken).step
    refine ⟨?_, List.forall_mem_append.2 ⟨hstep.marked, hmarked⟩⟩
    show (b.waiting ++ (macroAt p ps ++ more.macros)).Perm
      ((madeAt s b p ps ++ more.made).filterMap (·.reflection))
    rw [List.filterMap_append, ← List.append_assoc, hstep.macros, List.append_assoc]
    exact hmore.append_left _
  | @opens s inner b p ps rest rest' frame within inside more taken _ _ _ ihInside ihMore =>
    -- A scope starts with nothing that waits, so the macros read inside are given to what is made
    -- there, and those that wait outside, or are read behind, to the rest.
    obtain ⟨hinside, hinsideMarked⟩ := ihInside
    obtain ⟨hmore, hmarked⟩ := ihMore
    have hframe := (takes_of_turn taken).hands within
    refine ⟨?_, List.forall_mem_append.2 ⟨hinsideMarked,
      List.forall_mem_append.2 ⟨hframe.marked, hmarked⟩⟩⟩
    have houtside : (b.waiting ++ more.macros).Perm
        ((frame.made within ++ more.made).filterMap (·.reflection)) := by
      rw [List.filterMap_append, ← List.append_nil b.waiting, hframe.macros, List.append_assoc]
      exact hmore.append_left _
    show (b.waiting ++ (inside.macros ++ more.macros)).Perm
      ((inside.made ++ (frame.made within ++ more.made)).filterMap (·.reflection))
    rw [List.filterMap_append]
    exact (List.perm_append_comm_assoc ..).trans (hinside.append houtside)

theorem Log.perm_reflections (log : Log) :
    (log.merged.filterMap (·.reflection) ++ log.unnamed.filterMap (·.reflection)).Perm
      (log.made.filterMap (·.reflection)) := by
  rw [← List.filterMap_append]
  refine List.Perm.filterMap _ (List.perm_append_comm.trans ?_)
  exact List.filter_append_perm (·.name.isEmpty) log.made

/-- **A reading that succeeds has attached every macro to a declaration that is merged**, of the kind
that the macro marks, unless a declaration without a name has taken one. -/
theorem macros_attached_iff {s : Scope} {ps : List Piece} {found : Contents}
    (h : (s.read ps).result = .ok found) :
    ∃ log, (∀ log', Logs s s.start ps log' ↔ log' = log) ∧ Marked log.merged ∧
      (log.macros.Perm (log.merged.filterMap (·.reflection)) ↔
        ∀ d ∈ log.unnamed, d.reflection = none) := by
  obtain ⟨rest, hreads⟩ := reads_iff.1 h
  obtain ⟨log, hlog⟩ := hreads.exists_log
  refine ⟨log, fun log' => ⟨fun hlog' => hlog'.unique hlog, fun heq => heq ▸ hlog⟩, ?_, ?_⟩
  · exact fun d hd => hlog.hands.2 d (List.mem_filter.1 hd).1
  · have hmacros : log.macros.Perm
        (log.merged.filterMap (·.reflection) ++ log.unnamed.filterMap (·.reflection)) :=
      hlog.hands.1.trans log.perm_reflections.symm
    rw [← List.filterMap_eq_nil_iff]
    constructor
    · intro hperm
      have hlength := (hmacros.symm.trans hperm).length_eq
      rw [List.length_append] at hlength
      exact List.eq_nil_of_length_eq_zero (by omega)
    · intro hnone
      rw [hnone, List.append_nil] at hmacros
      exact hmacros

/-- A class with a macro in front of it. -/
theorem macros_attached_iff_class :
    ∃ ps found log, (Scope.file.read ps).result = .ok found ∧ Logs .file Scope.file.start ps log ∧
      log.macros = [⟨"UCLASS", [], 1⟩] ∧ log.unnamed = [] ∧
      log.macros.Perm (log.merged.filterMap (·.reflection)) := by
  let ps : List Piece := [.token ⟨.ident, "UCLASS", 1⟩, .token ⟨.lparen, "(", 1⟩,
    .token ⟨.rparen, ")", 1⟩, .token ⟨.ident, "class", 2⟩, .token ⟨.ident, "C", 2⟩,
    .token ⟨.semi, ";", 2⟩]
  have waits : (turn .file Scope.file.start (.token ⟨.ident, "UCLASS", 1⟩) ps.tail).result = .ok (.continues
      ⟨.everyone, ⟨none, some ⟨"UCLASS", [], 1⟩, none⟩, [], []⟩ (ps.drop 3)) := by
    cbv
  have takes : (turn .file ⟨.everyone, ⟨none, some ⟨"UCLASS", [], 1⟩, none⟩, [], []⟩
      (.token ⟨.ident, "class", 2⟩) (ps.drop 4)).result = .ok (.continues ⟨.everyone, {},
      [⟨⟨"C", "C", 2, .everyone, none, some ⟨"UCLASS", [], 1⟩, "class C", none,
        .record .classKey ⟨none, [], false⟩, false⟩, []⟩], []⟩ []) := rfl
  have hlog := Logs.continues waits (.continues takes (.ends rfl))
  have hread := reads_iff.2 ⟨_, .continues waits (.continues takes (.ends rfl))⟩
  generalize hmade : Log.append _ _ = made at hlog
  have hvalue : made = ⟨[⟨"UCLASS", [], 1⟩], [⟨⟨"C", "C", 2, .everyone, none, some ⟨"UCLASS", [], 1⟩,
      "class C", none, .record .classKey ⟨none, [], false⟩, false⟩, []⟩]⟩ := by
    rw [← hmade]
    cbv
  obtain ⟨log, hall, -, hiff⟩ := macros_attached_iff hread
  obtain rfl : made = log := (hall made).1 hlog
  have hmacros : made.macros = [⟨"UCLASS", [], 1⟩] := congrArg Log.macros hvalue
  have hunnamed : made.unnamed = [] := by
    rw [hvalue]
    rfl
  refine ⟨ps, _, made, hread, hlog, hmacros, hunnamed, hiff.2 ?_⟩
  rw [hunnamed]
  rintro d ⟨⟩

/-- The macro in front of an enum without a name is lost. -/
theorem exists_macro_lost :
    ∃ lines found log, SourceLine.classify "UENUM()\nenum \x7b A \x7d;" = .ok lines ∧
      (Contents.ofLines lines (CommentBlock.group lines)).result = .ok found ∧
      Logs .file Scope.file.start (Piece.ofLines lines (CommentBlock.group lines)) log ∧
      log.macros = [⟨"UENUM", [], 1⟩] ∧ log.merged = [] ∧
      ¬ log.macros.Perm (log.merged.filterMap (·.reflection)) := by
  have hpieces : (SourceLine.classify "UENUM()\nenum \x7b A \x7d;").map
      (fun lines => Piece.ofLines lines (CommentBlock.group lines)) =
      .ok [.token ⟨.ident, "UENUM", 1⟩, .token ⟨.lparen, "(", 1⟩, .token ⟨.rparen, ")", 1⟩,
        .token ⟨.ident, "enum", 2⟩, .token ⟨.lbrace, "\x7b", 2⟩, .token ⟨.ident, "A", 2⟩,
        .token ⟨.rbrace, "\x7d", 2⟩, .token ⟨.semi, ";", 2⟩] := by
    cbv
  obtain ⟨lines, hlines, hpieces⟩ := Except.map_eq_ok.1 hpieces
  have waits : (turn .file Scope.file.start (.token ⟨.ident, "UENUM", 1⟩)
      [.token ⟨.lparen, "(", 1⟩, .token ⟨.rparen, ")", 1⟩, .token ⟨.ident, "enum", 2⟩,
        .token ⟨.lbrace, "\x7b", 2⟩, .token ⟨.ident, "A", 2⟩, .token ⟨.rbrace, "\x7d", 2⟩,
        .token ⟨.semi, ";", 2⟩]).result =
      .ok (.continues ⟨.everyone, ⟨none, some ⟨"UENUM", [], 1⟩, none⟩, [], []⟩
        [.token ⟨.ident, "enum", 2⟩, .token ⟨.lbrace, "\x7b", 2⟩, .token ⟨.ident, "A", 2⟩,
          .token ⟨.rbrace, "\x7d", 2⟩, .token ⟨.semi, ";", 2⟩]) := by
    cbv
  have givesUp : (turn .file ⟨.everyone, ⟨none, some ⟨"UENUM", [], 1⟩, none⟩, [], []⟩
      (.token ⟨.ident, "enum", 2⟩) [.token ⟨.lbrace, "\x7b", 2⟩, .token ⟨.ident, "A", 2⟩,
        .token ⟨.rbrace, "\x7d", 2⟩, .token ⟨.semi, ";", 2⟩]).result =
      .ok (.continues ⟨.everyone, {}, [], []⟩ [.token ⟨.semi, ";", 2⟩]) := by
    cbv
  have passes : (turn .file ⟨.everyone, {}, [], []⟩ (.token ⟨.semi, ";", 2⟩) []).result =
      .ok (.continues ⟨.everyone, {}, [], []⟩ []) := rfl
  have hlog := Logs.continues waits (.continues givesUp (.continues passes (.ends rfl)))
  have hreads := Reads.continues waits (.continues givesUp (.continues passes (.ends rfl)))
  rw [← hpieces] at hlog hreads
  generalize hmade : Log.append _ _ = log at hlog
  have hvalue : log = ⟨[⟨"UENUM", [], 1⟩], [⟨⟨"", "", 2, .everyone, none, some ⟨"UENUM", [], 1⟩,
      "enum", none, .enumeration ⟨false, none, true⟩, false⟩, [⟨⟨"A", "A", 2, .everyone, none, none,
      "A", none, .variant none, false⟩, []⟩]⟩]⟩ := by
    rw [← hmade]
    cbv
  have hmacros : log.macros = [⟨"UENUM", [], 1⟩] := congrArg Log.macros hvalue
  have hmerged : log.merged = [] := by
    rw [hvalue]
    rfl
  refine ⟨lines, _, log, hlines, Contents.result_ofLines_eq_ok.2 ⟨_, hreads⟩, hlog, hmacros, hmerged, ?_⟩
  rw [hmacros, hmerged]
  intro hperm
  cases hperm.length_eq

end AnnotatedHeader.Scope
