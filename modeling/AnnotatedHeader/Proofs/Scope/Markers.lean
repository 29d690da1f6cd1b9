import AnnotatedHeader.Proofs.Scope.Reads

/-! What becomes of the markers of injects.

Most readers stop at a marker with a fault, so what they take holds none. Three do not:
the readers of a template head, of a macro's arguments and of an enum's entry pass over
it. `Meets` says where a reading comes across a marker, and `Reads.account` that a marker
is recorded, lost in one of these places, or left. -/
namespace AnnotatedHeader

/-- The marker of an inject: its proxy and its line. -/
abbrev InjectMarker := String × Nat

def InjectSite.marker (site : InjectSite) : InjectMarker := (site.proxy, site.line)

namespace Piece

def marker? : Piece → Option InjectMarker
  | .inject proxy line => some (proxy, line)
  | _ => none

def markers (ps : List Piece) : List InjectMarker := ps.filterMap marker?

@[simp] theorem markers_nil : markers [] = [] := rfl

@[simp] theorem markers_token (t : Token) (ps : List Piece) :
    markers (.token t :: ps) = markers ps := rfl

@[simp] theorem markers_doc (b : DocBlock) (ps : List Piece) :
    markers (.doc b :: ps) = markers ps := rfl

@[simp] theorem markers_inject (proxy : String) (line : Nat) (ps : List Piece) :
    markers (.inject proxy line :: ps) = (proxy, line) :: markers ps := rfl

theorem markers_append (ps qs : List Piece) : markers (ps ++ qs) = markers ps ++ markers qs :=
  List.filterMap_append ..

end Piece

open Piece

/-! ### Readers that stop at a marker -/

theorem Statement.markers_of_collect {depth braces : Nat} {s s' : Statement} {ps rest : List Piece}
    (h : (collect depth braces s ps).result = .ok (s', rest)) : markers ps = markers rest := by
  induction ps generalizing depth braces s with
  | nil =>
    rw [collect] at h
    split at h <;> cases h <;> rfl
  | cons p ps ih =>
    cases p with
    | inject proxy line => cases h
    | doc b =>
      rw [collect] at h
      split at h
      · exact ih h
      · split at h <;> exact ih h
    | token t =>
      rw [collect] at h
      split at h
      · cases h
        rfl
      · cases h
        rfl
      · cases h
        rfl
      · exact ih h

theorem Statement.markers_of_read {stmt : Statement} {ps rest : List Piece}
    (h : (read ps).result = .ok (stmt, rest)) : markers ps = markers rest := markers_of_collect h

theorem markers_of_skipBody {depth : Nat} {ps rest : List Piece}
    (h : (skipBody depth ps).result = .ok rest) : markers ps = markers rest := by
  fun_induction skipBody depth ps with
  | case1 =>
    cases h
    rfl
  | case2 => cases h
  | case3 depth b ps ih => exact ih h
  | case4 t ps =>
    cases h
    rfl
  | case5 t ps depth _ ih => exact ih h
  | case6 depth t ps _ ih => exact ih h
  | case7 depth t ps _ _ _ ih => exact ih h

theorem Statement.markers_of_skipBodyOf {stmt : Statement} {ps rest : List Piece}
    (h : (stmt.skipBodyOf ps).result = .ok rest) : markers ps = markers rest := by
  unfold skipBodyOf at h
  split at h
  · exact markers_of_skipBody h
  · cases h
    rfl

namespace Scope

theorem markers_of_namespaceHead {name : String} {ps : List Piece} {head : NamespaceHead}
    (h : namespaceHead name ps = head) : markers ps = markers head.rest := by
  subst h
  fun_induction namespaceHead name ps with
  | case1 => rfl
  | case2 name t ps _ ih => exact ih
  | case3 name t ps _ ih => exact ih
  | case4 => rfl
  | case5 => rfl

theorem markers_of_callEnd? {depth line : Nat} {ps rest : List Piece}
    (h : callEnd? depth ps = some (line, rest)) : markers ps = markers rest := by
  fun_induction callEnd? depth ps with
  | case1 t ps =>
    cases h
    rfl
  | case2 t ps depth _ ih | case3 depth t ps _ ih | case7 depth t ps _ _ _ _ _ _ ih => exact ih h
  | case4 => cases h
  | case5 => cases h
  | case6 => cases h
  | case8 => cases h

theorem markers_of_afterMacroCall? {t : Token} {ps rest : List Piece}
    (h : afterMacroCall? t ps = some rest) : markers ps = markers rest := by
  unfold afterMacroCall? at h
  split at h
  · dsimp only at h
    split at h
    · rename_i line tail hended
      split at h
      · cases h
      · cases h
        split at hended
        · rename_i p qs
          split at hended
          · rename_i hparen
            have htoken : markers (p :: qs) = markers qs := by
              cases p with
              | token t => rfl
              | doc b => rfl
              | inject proxy line => cases hparen
            rw [htoken]
            exact markers_of_callEnd? hended
          · cases hended
            rfl
        · cases hended
          rfl
    · cases h
  · cases h

/-! ### Words -/

theorem startsWithToken_of_nextIs {kind : TokenKind} {ps : List Piece} (h : nextIs 0 kind ps = true) :
    ∃ t tail, ps = .token t :: tail := by
  cases ps with
  | nil => cases h
  | cons p ps =>
    cases p with
    | token t => exact ⟨t, ps, rfl⟩
    | doc b => cases h
    | inject proxy line => cases h

theorem nextIs_of_label {t : Token} {ps : List Piece} {v : Visibility} (h : word t ps = .label v) :
    nextIs 0 .colon ps = true := by
  have hlabel := word_eq_label_iff.1 h
  unfold label? at hlabel
  split at hlabel
  · assumption
  · cases hlabel

theorem nextIs_of_linkage {t : Token} {ps : List Piece} (h : word t ps = .linkage) :
    nextIs 0 .string ps = true ∧ nextIs 1 .lbrace ps = true := by
  unfold word at h
  split at h
  · cases h
  split at h
  · cases h
  split at h
  · cases h
  split at h
  · cases h
  split at h
  · rename_i hlinkage
    simp only [Bool.and_eq_true] at hlinkage
    exact ⟨hlinkage.1.2, hlinkage.2⟩
  · repeat' split at h
    all_goals cases h

/-! ### What a turn passes -/

/-- Where a reading comes across a marker. -/
inductive Place where
  /-- Directly in the body of a record. -/
  | body
  | templateHead
  | macroArguments
  /-- In an enum's body, behind the first token of an entry. -/
  | enumEntry
  deriving DecidableEq, Repr

/-- The markers that a turn which starts with a piece comes across. -/
inductive Passes (s : Scope) : Piece → List Piece → Place → InjectMarker → Prop where
  | body {proxy : String} {line : Nat} {ps : List Piece} (record : s.record.isSome = true) :
      Passes s (.inject proxy line) ps .body (proxy, line)
  | templateHead {t : Token} {ps front : List Piece} {m : InjectMarker} (kind : t.kind = .ident)
      (is : word t ps = .template) (read : ps = front ++ (templateTokens 0 ps).2)
      (among : m ∈ markers front) : Passes s (.token t) ps .templateHead m
  | macroArguments {t : Token} {ps front rest : List Piece} {r : Reflection} {m : InjectMarker}
      (kind : t.kind = .ident) (is : word t ps = .reflection)
      (read : (readReflection t ps).result = .ok (r, rest)) (behind : ps = front ++ rest)
      (among : m ∈ markers front) : Passes s (.token t) ps .macroArguments m
  | enumEntry {t : Token} {ps front rest rest' : List Piece} {stmt : Statement} {first : Heading}
      {others : List Heading} {shape : EnumShape} {members : List Declaration} {m : InjectMarker}
      (kind : t.kind ≠ .rbrace ∧ t.kind ≠ .semi) (is : t.kind = .ident → word t ps = .other)
      (read : (Statement.read (.token t :: ps)).result = .ok (stmt, rest))
      (head : Head.classify stmt s.record = .declares first others) (body : stmt.hasBody = true)
      (item : first.item = .enumeration shape)
      (entries : (EnumBody.read (QualifiedPath.join s.path first.name) [] none rest).result =
        .ok (members, rest'))
      (behind : rest = front ++ rest') (among : m ∈ markers front) :
      Passes s (.token t) ps .enumEntry m

namespace Passes
variable {s : Scope} {t : Token} {ps : List Piece} {place : Place} {m : InjectMarker}

theorem not_of_kind (kind : t.kind = .rbrace ∨ t.kind = .semi) : ¬ Passes s (.token t) ps place m := by
  rintro (_ | ⟨hident, -, -, -⟩ | ⟨hident, -, -, -, -⟩ | ⟨hkind, -, -, -, -, -, -, -, -⟩)
  · rcases kind with hk | hk <;> rw [hk] at hident <;> cases hident
  · rcases kind with hk | hk <;> rw [hk] at hident <;> cases hident
  · rcases kind with hk | hk
    · exact hkind.1 hk
    · exact hkind.2 hk

/-- A word that announces neither a template, nor a macro, nor a declaration. -/
theorem not_of_word {w : Word} (kind : t.kind = .ident) (is : word t ps = w)
    (plain : w ≠ .template ∧ w ≠ .reflection ∧ w ≠ .other) : ¬ Passes s (.token t) ps place m := by
  obtain ⟨template, reflection, other⟩ := plain
  intro h
  cases h with
  | templateHead _ is' => exact template (is.symm.trans is')
  | macroArguments _ is' => exact reflection (is.symm.trans is')
  | enumEntry _ is' => exact other (is.symm.trans (is' kind))

theorem iff_of_template {front : List Piece} (kind : t.kind = .ident) (is : word t ps = .template)
    (read : ps = front ++ (templateTokens 0 ps).2) :
    Passes s (.token t) ps place m ↔ place = .templateHead ∧ m ∈ markers front := by
  constructor
  · intro h
    cases h with
    | templateHead _ _ read' among =>
      rw [List.append_cancel_right (read.symm.trans read')]
      exact ⟨rfl, among⟩
    | macroArguments _ is' => cases is.symm.trans is'
    | enumEntry _ is' => cases is.symm.trans (is' kind)
  · rintro ⟨rfl, among⟩
    exact .templateHead kind is read among

theorem iff_of_reflection {front rest : List Piece} {r : Reflection} (kind : t.kind = .ident)
    (is : word t ps = .reflection) (read : (readReflection t ps).result = .ok (r, rest))
    (behind : ps = front ++ rest) :
    Passes s (.token t) ps place m ↔ place = .macroArguments ∧ m ∈ markers front := by
  constructor
  · intro h
    cases h with
    | templateHead _ is' => cases is.symm.trans is'
    | macroArguments _ _ read' behind' among =>
      cases read.symm.trans read'
      rw [List.append_cancel_right (behind.symm.trans behind')]
      exact ⟨rfl, among⟩
    | enumEntry _ is' => cases is.symm.trans (is' kind)
  · rintro ⟨rfl, among⟩
    exact .macroArguments kind is read behind among

/-- In a statement a marker is passed where it declares an enum. -/
theorem entry_of_read {stmt : Statement} {rest : List Piece}
    (is : t.kind = .ident → word t ps = .other)
    (read : (Statement.read (.token t :: ps)).result = .ok (stmt, rest))
    (h : Passes s (.token t) ps place m) :
    place = .enumEntry ∧ ∃ first others shape members rest' front,
      Head.classify stmt s.record = .declares first others ∧ stmt.hasBody = true ∧
      first.item = .enumeration shape ∧
      (EnumBody.read (QualifiedPath.join s.path first.name) [] none rest).result =
        .ok (members, rest') ∧
      rest = front ++ rest' ∧ m ∈ markers front := by
  cases h with
  | templateHead kind is' => cases (is kind).symm.trans is'
  | macroArguments kind is' => cases (is kind).symm.trans is'
  | enumEntry _ _ read' head body item entries behind among =>
    cases read.symm.trans read'
    exact ⟨rfl, _, _, _, _, _, _, head, body, item, entries, behind, among⟩

theorem iff_of_enumeration {stmt : Statement} {first : Heading} {others : List Heading}
    {front rest rest' : List Piece} {shape : EnumShape} {members : List Declaration}
    (kind : t.kind ≠ .rbrace ∧ t.kind ≠ .semi) (is : t.kind = .ident → word t ps = .other)
    (read : (Statement.read (.token t :: ps)).result = .ok (stmt, rest))
    (head : Head.classify stmt s.record = .declares first others) (body : stmt.hasBody = true)
    (item : first.item = .enumeration shape)
    (entries : (EnumBody.read (QualifiedPath.join s.path first.name) [] none rest).result =
      .ok (members, rest')) (behind : rest = front ++ rest') :
    Passes s (.token t) ps place m ↔ place = .enumEntry ∧ m ∈ markers front := by
  constructor
  · intro h
    obtain ⟨hplace, _, _, _, _, _, _, head', -, -, entries', behind', among⟩ :=
      h.entry_of_read is read
    cases head.symm.trans head'
    cases entries.symm.trans entries'
    rw [List.append_cancel_right (behind.symm.trans behind')]
    exact ⟨hplace, among⟩
  · rintro ⟨rfl, among⟩
    exact .enumEntry kind is read head body item entries behind among

end Passes

/-- Of the markers `ms`, with `rest` left: `new` are the sites recorded on the way from
`before` to `after`, `lost` are the others. -/
structure Account (before after : List InjectSite) (ms rest : List InjectMarker)
    (meets : Place → InjectMarker → Prop) (new : List InjectSite) (lost : List InjectMarker) :
    Prop where
  sites : after = before ++ new
  markers : ms.Perm (new.map (·.marker) ++ lost ++ rest)
  recorded : ∀ site ∈ new, meets .body site.marker
  passed : ∀ m ∈ lost, ∃ place, place ≠ .body ∧ meets place m
  missed : ∀ {place : Place} {m : InjectMarker}, meets place m → place ≠ .body → m ∈ lost

def Frame.injects : Frame → List InjectSite
  | .transparent b => b.injects
  | .memberOf b _ => b.injects

/-- The sites recorded when a turn from `b` has been taken. -/
def Turn.injects (b : State) : Turn → List InjectSite
  | .closes _ => b.injects
  | .continues b' _ => b'.injects
  | .opens _ frame _ => frame.injects

theorem State.injects_added (b : State) (d : Declaration) : (b.added d).injects = b.injects := by
  unfold added
  split <;> rfl

theorem State.injects_foldl_added (b : State) (ds : List Declaration) :
    (ds.foldl added b).injects = b.injects := by
  induction ds generalizing b with
  | nil => rfl
  | cons d ds ih => rw [List.foldl_cons, ih, injects_added]

theorem Frame.injects_resumed (f : Frame) (found : Contents) :
    (f.resumed found).injects = f.injects ++ found.injects := by
  cases f with
  | transparent b => rfl
  | memberOf b own => exact State.injects_added _ _

/-- A turn that comes across no marker leaves the account as it is. -/
theorem account_of_none {before after : List InjectSite} {ms rest : List InjectMarker}
    {meets : Place → InjectMarker → Prop} (sites : after = before) (markers : ms = rest)
    (none : ∀ place m, ¬ meets place m) : Account before after ms rest meets [] [] where
  sites := by rw [sites, List.append_nil]
  markers := by
    rw [markers]
    exact .refl _
  recorded := by simp
  passed := by simp
  missed hm _ := absurd hm (none _ _)

/-- One that passes the pieces of `front` in one place loses the markers among them. -/
theorem account_of_front {before after : List InjectSite} {ms : List InjectMarker}
    {front rest : List Piece} {meets : Place → InjectMarker → Prop} (lossy : Place)
    (sites : after = before) (ms_eq : ms = Piece.markers (front ++ rest)) (place : lossy ≠ .body)
    (only : ∀ place m, meets place m ↔ place = lossy ∧ m ∈ Piece.markers front) :
    Account before after ms (Piece.markers rest) meets [] (Piece.markers front) where
  sites := by rw [sites, List.append_nil]
  markers := by
    rw [ms_eq, markers_append]
    exact .refl _
  recorded := by simp
  passed m hm := ⟨lossy, place, (only lossy m).2 ⟨rfl, hm⟩⟩
  missed hm _ := ((only _ _).1 hm).2

theorem account_of_word {s : Scope} {b : State} {t : Token} {ps : List Piece} {u : Turn} {w : Word}
    (kind : t.kind = .ident) (is : word t ps = w)
    (plain : w ≠ .template ∧ w ≠ .reflection ∧ w ≠ .other) (sites : u.injects b = b.injects)
    (kept : Piece.markers ps = Piece.markers u.rest) :
    ∃ new lost, Account b.injects (u.injects b) (Piece.markers (.token t :: ps))
      (Piece.markers u.rest) (Passes s (.token t) ps) new lost :=
  ⟨[], [], account_of_none sites kept fun _ _ => Passes.not_of_word kind is plain⟩

theorem Declares.account {s : Scope} {b : State} {t : Token} {ps : List Piece} {u : Turn}
    (kind : t.kind ≠ .rbrace ∧ t.kind ≠ .semi) (is : t.kind = .ident → word t ps = .other)
    (h : Declares s b (.token t :: ps) u) :
    ∃ lost, Account b.injects (u.injects b) (markers (.token t :: ps)) (markers u.rest)
      (Passes s (.token t) ps) [] lost := by
  cases h with
  | passesOver read head free skipped =>
    refine ⟨[], account_of_none rfl ?_ ?_⟩
    · exact (Statement.markers_of_read read).trans (Statement.markers_of_skipBodyOf skipped)
    · intro place m hm
      obtain ⟨-, _, _, _, _, _, _, head', -⟩ := hm.entry_of_read is read
      cases head.symm.trans head'
  | opensRecord read head checked body item =>
    refine ⟨[], account_of_none rfl (Statement.markers_of_read read) ?_⟩
    intro place m hm
    obtain ⟨-, _, _, _, _, _, _, head', -, item', -⟩ := hm.entry_of_read is read
    cases head.symm.trans head'
    cases item.symm.trans item'
  | @readsEnum stmt first others rest rest' shape members read head checked body item entries =>
    obtain ⟨front, hfront⟩ := EnumBody.read_suffix entries
    refine ⟨markers front, account_of_front .enumEntry ?_ ?_ (by simp) ?_⟩
    · exact State.injects_added _ _
    · exact (Statement.markers_of_read read).trans (congrArg markers hfront.symm)
    · exact fun _ _ => Passes.iff_of_enumeration kind is read head body item entries hfront.symm
  | skipsBody read head checked body record enum skipped =>
    refine ⟨[], account_of_none (State.injects_added _ _) ?_ ?_⟩
    · exact (Statement.markers_of_read read).trans (markers_of_skipBody skipped)
    · intro place m hm
      obtain ⟨-, _, _, shape', _, _, _, head', -, item', -⟩ := hm.entry_of_read is read
      cases head.symm.trans head'
      exact enum shape' item'
  | announces read head checked bodiless =>
    refine ⟨[], account_of_none (State.injects_foldl_added _ _) (Statement.markers_of_read read) ?_⟩
    intro place m hm
    obtain ⟨-, _, _, _, _, _, _, head', body', -⟩ := hm.entry_of_read is read
    rw [bodiless] at body'
    cases body'

/-- A turn records a marker, or loses those it passes over. -/
theorem Takes.account {s : Scope} {b : State} {p : Piece} {ps : List Piece} {u : Turn}
    (h : Takes s b p ps u) :
    ∃ new lost, Account b.injects (u.injects b) (markers (p :: ps)) (markers u.rest)
      (Passes s p ps) new lost := by
  cases h with
  | doc block => exact ⟨[], [], account_of_none rfl rfl (fun _ _ hm => by cases hm)⟩
  | inject proxy line _ record =>
    refine ⟨[⟨proxy, s.path, line⟩], [], rfl, .refl _, ?_, by simp, ?_⟩
    · intro site hsite
      rw [List.mem_singleton] at hsite
      rw [hsite]
      exact .body record
    · intro place m hm hplace
      cases hm
      exact absurd rfl hplace
  | closes t _ kind =>
    exact ⟨[], [], account_of_none rfl rfl fun _ _ => Passes.not_of_kind (.inl kind)⟩
  | passes t _ why =>
    rcases why with ⟨kind, -⟩ | kind | ⟨kind, is⟩
    · exact ⟨[], [], account_of_none rfl rfl fun _ _ => Passes.not_of_kind (.inl kind)⟩
    · exact ⟨[], [], account_of_none rfl rfl fun _ _ => Passes.not_of_kind (.inr kind)⟩
    · exact account_of_word kind is (by simp) rfl rfl
  | label kind is =>
    refine account_of_word kind is (by simp) rfl ?_
    obtain ⟨colon, tail, rfl⟩ := startsWithToken_of_nextIs (nextIs_of_label is)
    rfl
  | template kind is =>
    obtain ⟨front, hfront⟩ := templateTokens_suffix 0 ps
    refine ⟨[], markers front, account_of_front .templateHead rfl ?_ (by simp) ?_⟩
    · rw [markers_token]
      exact congrArg markers hfront.symm
    · exact fun _ _ => Passes.iff_of_template kind is hfront.symm
  | opensNamespace kind is head =>
    exact account_of_word kind is (by simp) rfl (markers_of_namespaceHead head)
  | aliases kind is head read =>
    refine account_of_word kind is (by simp) rfl ?_
    exact (markers_of_namespaceHead head).trans (Statement.markers_of_read read)
  | endsNamespaceHead kind is head =>
    exact account_of_word kind is (by simp) rfl (markers_of_namespaceHead head)
  | opensLinkage kind is =>
    refine account_of_word kind is (by simp) rfl ?_
    obtain ⟨hstring, hbrace⟩ := nextIs_of_linkage is
    obtain ⟨string, tail, rfl⟩ := startsWithToken_of_nextIs hstring
    have hbrace' : nextIs 0 .lbrace tail = true := hbrace
    obtain ⟨brace, tail', rfl⟩ := startsWithToken_of_nextIs hbrace'
    rfl
  | annotates kind is free read =>
    obtain ⟨front, hfront⟩ := readReflection_suffix read
    refine ⟨[], markers front, account_of_front .macroArguments rfl ?_ (by simp) ?_⟩
    · rw [markers_token]
      exact congrArg markers hfront.symm
    · exact fun _ _ => Passes.iff_of_reflection kind is read hfront.symm
  | passesOverKeyword kind is read skipped =>
    refine account_of_word kind is (by simp) rfl ?_
    exact (Statement.markers_of_read read).trans (Statement.markers_of_skipBodyOf skipped)
  | calls kind is =>
    exact account_of_word kind is (by simp) rfl (markers_of_afterMacroCall? (word_macroCall is))
  | declares kind is h =>
    obtain ⟨lost, hlost⟩ := h.account kind is
    exact ⟨[], lost, hlost⟩

/-! ### What a reading meets -/

/-- The markers that the reading of a scope comes across, and where. -/
inductive Meets : Scope → State → List Piece → Place → InjectMarker → Prop where
  | now {s : Scope} {b : State} {p : Piece} {ps : List Piece} {place : Place} {m : InjectMarker}
      (passes : Passes s p ps place m) : Meets s b (p :: ps) place m
  | later {s : Scope} {b b' : State} {p : Piece} {ps rest : List Piece} {place : Place}
      {m : InjectMarker} (taken : (turn s b p ps).result = .ok (.continues b' rest))
      (meets : Meets s b' rest place m) : Meets s b (p :: ps) place m
  | inside {s inner : Scope} {b : State} {p : Piece} {ps rest : List Piece} {frame : Frame}
      {place : Place} {m : InjectMarker}
      (taken : (turn s b p ps).result = .ok (.opens inner frame rest))
      (meets : Meets inner inner.start rest place m) : Meets s b (p :: ps) place m
  | behind {s inner : Scope} {b : State} {p : Piece} {ps rest rest' : List Piece} {frame : Frame}
      {within : Contents} {place : Place} {m : InjectMarker}
      (taken : (turn s b p ps).result = .ok (.opens inner frame rest))
      (inside : Reads inner inner.start rest within rest')
      (meets : Meets s (frame.resumed within) rest' place m) : Meets s b (p :: ps) place m

section
variable {s inner : Scope} {b b' : State} {p : Piece} {ps rest rest' : List Piece} {frame : Frame}
  {within : Contents} {place : Place} {m : InjectMarker}

theorem meets_of_closes (taken : (turn s b p ps).result = .ok (.closes rest)) :
    Meets s b (p :: ps) place m ↔ Passes s p ps place m := by
  constructor
  · intro hm
    cases hm with
    | now passes => exact passes
    | later taken' => cases taken.symm.trans taken'
    | inside taken' => cases taken.symm.trans taken'
    | behind taken' => cases taken.symm.trans taken'
  · exact .now

theorem meets_of_continues (taken : (turn s b p ps).result = .ok (.continues b' rest)) :
    Meets s b (p :: ps) place m ↔ Passes s p ps place m ∨ Meets s b' rest place m := by
  constructor
  · intro hm
    cases hm with
    | now passes => exact .inl passes
    | later taken' meets =>
      cases taken.symm.trans taken'
      exact .inr meets
    | inside taken' => cases taken.symm.trans taken'
    | behind taken' => cases taken.symm.trans taken'
  · rintro (hm | hm)
    · exact .now hm
    · exact .later taken hm

theorem meets_of_opens (taken : (turn s b p ps).result = .ok (.opens inner frame rest))
    (inside : Reads inner inner.start rest within rest') :
    Meets s b (p :: ps) place m ↔ Passes s p ps place m ∨
      Meets inner inner.start rest place m ∨ Meets s (frame.resumed within) rest' place m := by
  constructor
  · intro hm
    cases hm with
    | now passes => exact .inl passes
    | later taken' => cases taken.symm.trans taken'
    | inside taken' meets =>
      cases taken.symm.trans taken'
      exact .inr (.inl meets)
    | behind taken' inside' meets =>
      cases taken.symm.trans taken'
      obtain ⟨rfl, rfl⟩ := inside.unique inside'
      exact .inr (.inr meets)
  · rintro (hm | hm | hm)
    · exact .now hm
    · exact .inside taken hm
    · exact .behind taken inside hm

end

theorem Account.congr {before after : List InjectSite} {ms rest : List InjectMarker}
    {meets meets' : Place → InjectMarker → Prop} {new : List InjectSite} {lost : List InjectMarker}
    (h : Account before after ms rest meets new lost)
    (iff : ∀ place m, meets' place m ↔ meets place m) :
    Account before after ms rest meets' new lost := by
  have hmeets : meets' = meets := funext fun place => funext fun m => propext (iff place m)
  rwa [hmeets]

/-- Two accounts, the second of what the first has left. -/
theorem Account.append {a₀ a₁ a₂ : List InjectSite} {ms₀ ms₁ ms₂ : List InjectMarker}
    {meets₁ meets₂ : Place → InjectMarker → Prop} {new₁ new₂ : List InjectSite}
    {lost₁ lost₂ : List InjectMarker} (h₁ : Account a₀ a₁ ms₀ ms₁ meets₁ new₁ lost₁)
    (h₂ : Account a₁ a₂ ms₁ ms₂ meets₂ new₂ lost₂) :
    Account a₀ a₂ ms₀ ms₂ (fun place m => meets₁ place m ∨ meets₂ place m)
      (new₁ ++ new₂) (lost₁ ++ lost₂) where
  sites := by rw [h₂.sites, h₁.sites, List.append_assoc]
  markers := by
    refine (h₁.markers.trans (h₂.markers.append_left _)).trans ?_
    rw [List.map_append]
    simp only [List.append_assoc]
    refine List.Perm.append_left _ ?_
    rw [← List.append_assoc, ← List.append_assoc (List.map _ new₂)]
    exact List.perm_append_comm.append_right _
  recorded site hsite := by
    rcases List.mem_append.1 hsite with hsite | hsite
    · exact .inl (h₁.recorded site hsite)
    · exact .inr (h₂.recorded site hsite)
  passed m hm := by
    rcases List.mem_append.1 hm with hm | hm
    · obtain ⟨place, hplace, hmeets⟩ := h₁.passed m hm
      exact ⟨place, hplace, .inl hmeets⟩
    · obtain ⟨place, hplace, hmeets⟩ := h₂.passed m hm
      exact ⟨place, hplace, .inr hmeets⟩
  missed hmeets hplace := by
    rcases hmeets with hmeets | hmeets
    · exact List.mem_append_left _ (h₁.missed hmeets hplace)
    · exact List.mem_append_right _ (h₂.missed hmeets hplace)

/-- **Every marker that a reading takes is recorded, or met where markers are lost.** -/
theorem Reads.account {s : Scope} {b : State} {ps rest : List Piece} {found : Contents}
    (h : Reads s b ps found rest) :
    ∃ new lost, Account b.injects found.injects (markers ps) (markers rest) (Meets s b ps) new lost := by
  induction h with
  | ends free => exact ⟨[], [], account_of_none rfl rfl (fun _ _ hm => by cases hm)⟩
  | closes taken free =>
    obtain ⟨new, lost, h⟩ := (takes_of_turn taken).account
    exact ⟨new, lost, h.congr fun _ _ => meets_of_closes taken⟩
  | continues taken _ ih =>
    obtain ⟨new, lost, h⟩ := (takes_of_turn taken).account
    obtain ⟨new', lost', h'⟩ := ih
    exact ⟨_, _, (h.append h').congr fun _ _ => meets_of_continues taken⟩
  | @opens s inner b p ps rest _ _ frame within _ taken inside _ ihInside ihMore =>
    obtain ⟨new, lost, h⟩ := (takes_of_turn taken).account
    obtain ⟨newInside, lostInside, hinside⟩ := ihInside
    obtain ⟨new', lost', h'⟩ := ihMore
    -- The inner scope starts its own list of sites, which goes behind the outer one.
    have hwithin : (frame.resumed within).injects = frame.injects ++ newInside := by
      rw [Frame.injects_resumed, hinside.sites]
      rfl
    have hinner := { hinside with sites := hwithin }
    exact ⟨_, _, (h.append (hinner.append h')).congr fun _ _ => meets_of_opens taken inside⟩

end Scope

end AnnotatedHeader
