import AnnotatedHeader.Proofs.Scope.Reads
import AnnotatedHeader.SourceLine.Classify
import Mathlib

/-! Where a declaration's template comes from.

The template that waits in a scope is that of the last head met there, as long as no
statement stands behind it (`Visits.template_eq`). So a declaration gets the
template of the head that introduces it, unless a namespace, a linkage block or a statement
that never declares anything stands between the two: those keep the template waiting, and it
goes to a declaration that it does not introduce. `Heads.introduced_iff` says that nothing
else can go wrong. -/
namespace AnnotatedHeader.Scope

/-! ### Items -/

/-- What a turn reads, as far as templates are concerned. -/
inductive Item where
  | template (text : String)
  | doc
  | inject
  | reflection
  | label
  /-- A semicolon, or a brace that closes nothing. -/
  | stray
  | macroCall
  /-- A statement that never declares anything. -/
  | passedOver
  /-- A namespace or an alias of one, and an `inline` in front of it. -/
  | namespace
  | linkage
  /-- Any other statement, whether it declares something or not. -/
  | statement
  deriving DecidableEq, Repr

/-- The item that starts with a piece. -/
def item (p : Piece) (ps : List Piece) : Item :=
  match p with
  | .doc _ => .doc
  | .inject .. => .inject
  | .token t =>
    match t.kind with
    | .rbrace | .semi => .stray
    | .ident =>
      match word t ps with
      | .label _ => .label
      | .template => .template (Token.join (t :: (templateTokens 0 ps).1))
      | .inlined | .namespace => .namespace
      | .linkage => .linkage
      | .reflection => .reflection
      | .passedOver => .passedOver
      | .macroCall _ => .macroCall
      | .other => .statement
    | _ => .statement

namespace Item

/-- What may stand between a template head and the declaration that it introduces. -/
def separates : Item → Bool
  | .doc | .inject | .reflection | .label | .stray | .macroCall => true
  | _ => false

/-- What a template head should not reach across. -/
def interrupts : Item → Bool
  | .passedOver | .namespace | .linkage => true
  | _ => false

/-- What leaves a template waiting. -/
def waits (i : Item) : Bool := i.separates || i.interrupts

def template? : Item → Option String
  | .template text => some text
  | _ => none

end Item

/-! Of the items of a scope the latest is the first. -/

/-- The template that waits behind the items. -/
def templateOf (items : List Item) : Option String :=
  (items.dropWhile Item.waits).head?.bind Item.template?

/-- The text is that of a template head, and only what may stand behind such a head does. -/
def Introduced (items : List Item) (text : String) : Prop :=
  ∃ since before, items = since ++ .template text :: before ∧ ∀ i ∈ since, i.separates = true

/-- Something that a template head should not reach across stands behind the one that waits. -/
def Interrupted (items : List Item) : Prop :=
  ∃ since text before, items = since ++ .template text :: before ∧
    (∀ i ∈ since, i.waits = true) ∧ ∃ i ∈ since, i.interrupts = true

theorem templateOf_cons_of_waits {i : Item} (h : i.waits = true) (items : List Item) :
    templateOf (i :: items) = templateOf items := by
  rw [templateOf, List.dropWhile_cons_of_pos h, ← templateOf]

theorem takeWhile_waits {since before : List Item} {text : String}
    (h : ∀ i ∈ since, i.waits = true) :
    (since ++ .template text :: before).takeWhile Item.waits = since := by
  rw [List.takeWhile_append_of_pos h, List.takeWhile_cons_of_neg, List.append_nil]
  simp [Item.waits, Item.separates, Item.interrupts]

theorem templateOf_eq_some_iff {items : List Item} {text : String} :
    templateOf items = some text ↔
      ∃ since before, items = since ++ .template text :: before ∧ ∀ i ∈ since, i.waits = true := by
  constructor
  · intro h
    obtain ⟨i, hi, htext⟩ := Option.bind_eq_some_iff.1 h
    cases i with
    | template text' =>
      cases htext
      obtain ⟨before, hbefore⟩ := List.head?_eq_some_iff.1 hi
      refine ⟨items.takeWhile Item.waits, before, ?_, List.all_eq_true.1 List.all_takeWhile⟩
      rw [← hbefore, List.takeWhile_append_dropWhile]
    | _ => cases htext
  · rintro ⟨since, before, rfl, h⟩
    rw [templateOf, List.dropWhile_append_of_pos h]
    rfl

/-- A template that waits has its head right in front unless something interrupts. -/
theorem introduced_iff_not_interrupted (items : List Item) :
    (∀ text, templateOf items = some text → Introduced items text) ↔ ¬ Interrupted items := by
  constructor
  · rintro h ⟨since, text, before, rfl, hwaits, i, hi, hinterrupts⟩
    obtain ⟨since', before', heq, hseparates⟩ := h text (templateOf_eq_some_iff.2 ⟨_, _, rfl, hwaits⟩)
    have hsince := congrArg (List.takeWhile Item.waits) heq
    rw [takeWhile_waits hwaits,
      takeWhile_waits fun i hi => by simp [Item.waits, hseparates i hi]] at hsince
    have hboth := hseparates i (hsince ▸ hi)
    cases i <;> simp [Item.separates, Item.interrupts] at hboth hinterrupts
  · intro h text htext
    obtain ⟨since, before, rfl, hwaits⟩ := templateOf_eq_some_iff.1 htext
    refine ⟨since, before, rfl, fun i hi => ?_⟩
    by_contra hseparates
    have hinterrupts : i.interrupts = true := by
      simpa [Item.waits, hseparates] using hwaits i hi
    exact h ⟨since, text, before, rfl, hwaits, i, hi, hinterrupts⟩

/-! ### Turns -/

def Frame.state : Frame → State
  | .transparent b => b
  | .memberOf b _ => b

/-- The template that waits once the turn is over, and any scope that it has opened. -/
def Turn.Awaits (waiting : Option String) : Turn → Prop
  | .closes _ => True
  | .continues b _ => b.pending.template = waiting
  | .opens _ frame _ => frame.state.pending.template = waiting

theorem State.pending_added (b : State) (d : Declaration) : (b.added d).pending = b.pending := by
  unfold State.added
  split <;> rfl

theorem State.pending_foldl_added (b : State) (ds : List Declaration) :
    (ds.foldl State.added b).pending = b.pending := by
  induction ds generalizing b with
  | nil => rfl
  | cons d ds ih => exact (ih _).trans (State.pending_added b d)

theorem Frame.pending_resumed (f : Frame) (found : Contents) :
    (f.resumed found).pending = f.state.pending := by
  cases f with
  | transparent b => rfl
  | memberOf b own => exact State.pending_added _ _

theorem Declares.awaits {s : Scope} {b : State} {ps : List Piece} {u : Turn}
    (h : Declares s b ps u) : u.Awaits none := by
  cases h with
  | passesOver | opensRecord => rfl
  | readsEnum | skipsBody => exact congrArg Pending.template (State.pending_added _ _)
  | announces => exact congrArg Pending.template (State.pending_foldl_added _ _)

theorem item_of_statement {t : Token} {ps : List Piece} (kind : t.kind ≠ .rbrace ∧ t.kind ≠ .semi)
    (is : t.kind = .ident → word t ps = .other) : item (.token t) ps = .statement := by
  unfold item
  dsimp only
  split
  · exact absurd (by assumption) kind.1
  · exact absurd (by assumption) kind.2
  · rename_i hident
    rw [is hident]
  · rfl

/-- **What waits behind a turn** is told by what waited before and by the item that it reads. -/
theorem Takes.awaits {s : Scope} {b : State} {p : Piece} {ps : List Piece} {u : Turn}
    {items : List Item} (h : Takes s b p ps u) (hb : b.pending.template = templateOf items) :
    u.Awaits (templateOf (item p ps :: items)) := by
  have hwaits {i : Item} (hi : item p ps = i) (h : i.waits = true) :
      b.pending.template = templateOf (item p ps :: items) := by
    rw [hi, templateOf_cons_of_waits h, hb]
  cases h with
  | doc => exact hwaits rfl rfl
  | inject => exact hwaits rfl rfl
  | closes => trivial
  | passes t _ why =>
    rcases why with ⟨kind, -⟩ | kind | ⟨kind, is⟩
    · exact hwaits (i := .stray) (by simp [item, kind]) rfl
    · exact hwaits (i := .stray) (by simp [item, kind]) rfl
    · exact hwaits (i := .namespace) (by simp [item, kind, is]) rfl
  | label kind is => exact hwaits (i := .label) (by simp [item, kind, is]) rfl
  | @template t _ kind is =>
    have hitem : item (.token t) ps = .template (Token.join (t :: (templateTokens 0 ps).1)) := by
      simp only [item, kind, is]
    rw [hitem]
    rfl
  | opensNamespace kind is | aliases kind is | endsNamespaceHead kind is =>
    exact hwaits (i := .namespace) (by simp [item, kind, is]) rfl
  | opensLinkage kind is => exact hwaits (i := .linkage) (by simp [item, kind, is]) rfl
  | annotates kind is => exact hwaits (i := .reflection) (by simp [item, kind, is]) rfl
  | passesOverKeyword kind is => exact hwaits (i := .passedOver) (by simp [item, kind, is]) rfl
  | calls kind is => exact hwaits (i := .macroCall) (by simp [item, kind, is]) rfl
  | @declares t _ _ kind is h =>
    rw [item_of_statement kind is]
    exact h.awaits

/-! ### Readings -/

/-- While the scope `first` is read on `pieces`, a scope `s` is being read, `first` or one inside
it: `items` of it have been read, which make `b` of its state, and `rest` has not. -/
inductive Visits (first : Scope) (pieces : List Piece) :
    Scope → State → List Item → List Piece → Prop where
  | start : Visits first pieces first first.start [] pieces
  | continues {s : Scope} {b b' : State} {items : List Item} {p : Piece} {ps rest : List Piece}
      (visits : Visits first pieces s b items (p :: ps))
      (taken : (turn s b p ps).result = .ok (.continues b' rest)) :
      Visits first pieces s b' (item p ps :: items) rest
  | enters {s inner : Scope} {b : State} {items : List Item} {p : Piece} {ps rest : List Piece}
      {frame : Frame} (visits : Visits first pieces s b items (p :: ps))
      (taken : (turn s b p ps).result = .ok (.opens inner frame rest)) :
      Visits first pieces inner inner.start [] rest
  | resumes {s inner : Scope} {b : State} {items : List Item} {p : Piece}
      {ps rest rest' : List Piece} {frame : Frame} {within : Contents}
      (visits : Visits first pieces s b items (p :: ps))
      (taken : (turn s b p ps).result = .ok (.opens inner frame rest))
      (inside : Reads inner inner.start rest within rest') :
      Visits first pieces s (frame.resumed within) (item p ps :: items) rest'

section
variable {first s : Scope} {b : State} {items : List Item} {pieces rest : List Piece}

/-- **The template that waits is that of the last head**, if no statement stands behind it. -/
theorem Visits.template_eq (h : Visits first pieces s b items rest) :
    b.pending.template = templateOf items := by
  induction h with
  | start => rfl
  | continues _ taken ih => exact (takes_of_turn taken).awaits ih
  | enters => rfl
  | resumes _ taken _ ih =>
    rw [Frame.pending_resumed]
    exact (takes_of_turn taken).awaits ih

end

/-- The turn at a piece declares `own`, alone or first. -/
inductive Heads (s : Scope) (b : State) : Piece → List Piece → Declared → Prop where
  | intro {t : Token} {ps rest : List Piece} {stmt : Statement} {first : Heading}
      {others : List Heading} (kind : t.kind ≠ .rbrace ∧ t.kind ≠ .semi)
      (is : t.kind = .ident → word t ps = .other)
      (read : (Statement.read (.token t :: ps)).result = .ok (stmt, rest))
      (head : Head.classify stmt s.record = .declares first others)
      (checked : (checkReflection first b.pending.reflection).result = .ok ()) :
      Heads s b (.token t) ps (s.declared b.visibility stmt.line b.pending first)

section
variable {first s : Scope} {b : State} {items : List Item} {p : Piece} {pieces ps : List Piece}
  {own : Declared}

/-- A declaration has the template of the last head, whatever waits between the two. -/
theorem Heads.template_eq_some_iff (visits : Visits first pieces s b items (p :: ps))
    (heads : Heads s b p ps own) {text : String} :
    own.template = some text ↔
      ∃ since before, items = since ++ .template text :: before ∧ ∀ i ∈ since, i.waits = true := by
  cases heads
  show b.pending.template = some text ↔ _
  rw [visits.template_eq]
  exact templateOf_eq_some_iff

/-- **A template head belongs to the declaration that it introduces**, unless a statement that
never declares anything, a namespace or a linkage block stands between the two. -/
theorem Heads.introduced_iff (visits : Visits first pieces s b items (p :: ps))
    (heads : Heads s b p ps own) :
    (∀ text, own.template = some text → Introduced items text) ↔ ¬ Interrupted items := by
  cases heads
  show (∀ text, b.pending.template = some text → _) ↔ _
  rw [visits.template_eq]
  exact introduced_iff_not_interrupted items

end

/-- A struct with a doc block between its template head and itself. -/
theorem Heads.introduced_iff_doc :
    ∃ b items p ps own,
      Visits .file [.token ⟨.ident, "template", 1⟩, .token ⟨.less, "<", 1⟩, .token ⟨.ident, "T", 1⟩,
        .token ⟨.greater, ">", 1⟩, .doc ⟨2, [], []⟩, .token ⟨.ident, "struct", 3⟩,
        .token ⟨.ident, "S", 3⟩, .token ⟨.semi, ";", 3⟩] .file b items (p :: ps) ∧
      Heads .file b p ps own ∧ own.template = some "template <T>" ∧
      Introduced items "template <T>" ∧
      ((∀ text, own.template = some text → Introduced items text) ↔ ¬ Interrupted items) := by
  have waiting : Visits .file
      [.token ⟨.ident, "template", 1⟩, .token ⟨.less, "<", 1⟩, .token ⟨.ident, "T", 1⟩,
        .token ⟨.greater, ">", 1⟩, .doc ⟨2, [], []⟩, .token ⟨.ident, "struct", 3⟩,
        .token ⟨.ident, "S", 3⟩, .token ⟨.semi, ";", 3⟩]
      .file ⟨.everyone, ⟨none, none, some "template <T>"⟩, [], []⟩ [.template "template <T>"]
      [.doc ⟨2, [], []⟩, .token ⟨.ident, "struct", 3⟩, .token ⟨.ident, "S", 3⟩,
        .token ⟨.semi, ";", 3⟩] :=
    .continues .start rfl
  have read : (Statement.read [.token ⟨.ident, "struct", 3⟩, .token ⟨.ident, "S", 3⟩,
      .token ⟨.semi, ";", 3⟩]).result =
      .ok (⟨[⟨.ident, "struct", 3⟩, ⟨.ident, "S", 3⟩], [], false, 3⟩, []) := rfl
  have head : Head.classify ⟨[⟨.ident, "struct", 3⟩, ⟨.ident, "S", 3⟩], [], false, 3⟩ none =
      .declares ⟨"S", "struct S", .record .structKey ⟨none, [], false⟩⟩ [] := rfl
  have visits := waiting.continues (by rfl)
  have heads : Heads .file ⟨.everyone, ⟨some ⟨2, [], []⟩, none, some "template <T>"⟩, [], []⟩ _ _ _ :=
    .intro (by simp) (fun _ => rfl) read head rfl
  exact ⟨_, _, _, _, _, visits, heads, rfl, ⟨[.doc], [], rfl, by simp [Item.separates]⟩,
    Heads.introduced_iff visits heads⟩

/-- The template of an alias goes to the struct behind it. -/
theorem exists_not_introduced :
    ∃ lines b items p ps own,
      SourceLine.classify "template <typename T> using V = T;\nstruct S;" = .ok lines ∧
      Visits .file (Piece.ofLines lines (CommentBlock.group lines)) .file b items (p :: ps) ∧
      Heads .file b p ps own ∧ own.name = "S" ∧ own.template = some "template <typename T>" ∧
      ¬ Introduced items "template <typename T>" := by
  have hpieces : (SourceLine.classify "template <typename T> using V = T;\nstruct S;").map
      (fun lines => Piece.ofLines lines (CommentBlock.group lines)) =
      .ok [.token ⟨.ident, "template", 1⟩, .token ⟨.less, "<", 1⟩, .token ⟨.ident, "typename", 1⟩,
        .token ⟨.ident, "T", 1⟩, .token ⟨.greater, ">", 1⟩, .token ⟨.ident, "using", 1⟩,
        .token ⟨.ident, "V", 1⟩, .token ⟨.equals, "=", 1⟩, .token ⟨.ident, "T", 1⟩,
        .token ⟨.semi, ";", 1⟩, .token ⟨.ident, "struct", 2⟩, .token ⟨.ident, "S", 2⟩,
        .token ⟨.semi, ";", 2⟩] := by
    cbv
  obtain ⟨lines, hlines, hpieces⟩ := Except.map_eq_ok.1 hpieces
  refine ⟨lines, ⟨.everyone, ⟨none, none, some "template <typename T>"⟩, [], []⟩,
    [.passedOver, .template "template <typename T>"], .token ⟨.ident, "struct", 2⟩,
    [.token ⟨.ident, "S", 2⟩, .token ⟨.semi, ";", 2⟩],
    ⟨"S", "S", 2, .everyone, some "template <typename T>", none, "struct S", none,
      .record .structKey ⟨none, [], false⟩, false⟩, hlines, ?_, ?_, rfl, rfl, ?_⟩
  · have waiting : Visits .file
        [.token ⟨.ident, "template", 1⟩, .token ⟨.less, "<", 1⟩, .token ⟨.ident, "typename", 1⟩,
          .token ⟨.ident, "T", 1⟩, .token ⟨.greater, ">", 1⟩, .token ⟨.ident, "using", 1⟩,
          .token ⟨.ident, "V", 1⟩, .token ⟨.equals, "=", 1⟩, .token ⟨.ident, "T", 1⟩,
          .token ⟨.semi, ";", 1⟩, .token ⟨.ident, "struct", 2⟩, .token ⟨.ident, "S", 2⟩,
          .token ⟨.semi, ";", 2⟩]
        .file ⟨.everyone, ⟨none, none, some "template <typename T>"⟩, [], []⟩
        [.template "template <typename T>"]
        [.token ⟨.ident, "using", 1⟩, .token ⟨.ident, "V", 1⟩, .token ⟨.equals, "=", 1⟩,
          .token ⟨.ident, "T", 1⟩, .token ⟨.semi, ";", 1⟩, .token ⟨.ident, "struct", 2⟩,
          .token ⟨.ident, "S", 2⟩, .token ⟨.semi, ";", 2⟩] :=
      .continues .start rfl
    rw [hpieces]
    exact .continues waiting rfl
  · have read : (Statement.read [.token ⟨.ident, "struct", 2⟩, .token ⟨.ident, "S", 2⟩,
        .token ⟨.semi, ";", 2⟩]).result =
        .ok (⟨[⟨.ident, "struct", 2⟩, ⟨.ident, "S", 2⟩], [], false, 2⟩, []) := rfl
    have head : Head.classify ⟨[⟨.ident, "struct", 2⟩, ⟨.ident, "S", 2⟩], [], false, 2⟩ none =
        .declares ⟨"S", "struct S", .record .structKey ⟨none, [], false⟩⟩ [] := rfl
    exact .intro (by simp) (fun _ => rfl) read head rfl
  · rintro ⟨since, before, heq, hseparates⟩
    cases since with
    | nil => cases heq
    | cons i since =>
      obtain ⟨rfl, -⟩ := List.cons.inj heq
      cases hseparates .passedOver (List.mem_cons_self ..)

end AnnotatedHeader.Scope
