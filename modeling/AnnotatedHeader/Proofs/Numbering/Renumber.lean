import AnnotatedHeader.Document.Build

/-! Other numbers for the lines of a header.

`renumber g` puts `g n` for every line number `n` in a value and changes nothing else. What
a reader of a header answers on renumbered data is what it answers on the data, renumbered;
for a computation of several steps this follows step by step (`Outcome.result_bind_renumber`). -/
namespace AnnotatedHeader

/-- Data with line numbers, for which others can be put. -/
class Numbered (α : Type) where
  renumber : (Nat → Nat) → α → α

export Numbered (renumber)

variable {g : Nat → Nat} {α β : Type}

/-! ### Data without line numbers, and data made of other data -/

instance : Numbered Unit := ⟨fun _ u => u⟩
instance : Numbered String := ⟨fun _ s => s⟩
instance [Numbered α] : Numbered (List α) := ⟨fun g as => as.map (renumber g)⟩
instance [Numbered α] : Numbered (Option α) := ⟨fun g o => o.map (renumber g)⟩
instance [Numbered α] [Numbered β] : Numbered (α × β) :=
  ⟨fun g e => (renumber g e.1, renumber g e.2)⟩

@[simp] theorem renumber_string (s : String) : renumber g s = s := rfl

@[simp] theorem renumber_list [Numbered α] (as : List α) :
    renumber g as = as.map (renumber g) := rfl

@[simp] theorem renumber_option [Numbered α] (o : Option α) :
    renumber g o = o.map (renumber g) := rfl

@[simp] theorem renumber_pair [Numbered α] [Numbered β] (a : α) (b : β) :
    renumber g (a, b) = (renumber g a, renumber g b) := rfl

/-! ### Lists, asked what no line decides -/

section
variable [Numbered α] {p : α → Bool} (hp : ∀ a, p (renumber g a) = p a) (as : List α)

include hp

theorem comp_renumber : p ∘ renumber g = p := funext hp

theorem takeWhile_renumber :
    (as.map (renumber g)).takeWhile p = (as.takeWhile p).map (renumber g) := by
  rw [List.takeWhile_map, comp_renumber hp]

theorem dropWhile_renumber :
    (as.map (renumber g)).dropWhile p = (as.dropWhile p).map (renumber g) := by
  rw [List.dropWhile_map, comp_renumber hp]

theorem filter_renumber : (as.map (renumber g)).filter p = (as.filter p).map (renumber g) := by
  rw [List.filter_map, comp_renumber hp]

theorem find?_renumber : (as.map (renumber g)).find? p = renumber g (as.find? p) := by
  rw [List.find?_map, comp_renumber hp]
  rfl

theorem any_renumber : (as.map (renumber g)).any p = as.any p := by
  rw [List.any_map, comp_renumber hp]

theorem all_renumber : (as.map (renumber g)).all p = as.all p := by
  rw [List.all_map, comp_renumber hp]

theorem any_getLast?_renumber : (as.map (renumber g)).getLast?.any p = as.getLast?.any p := by
  rw [List.getLast?_map, Option.any_map]
  exact congrArg (Option.any · _) (funext hp)

end

/-- One more in front of the first of two lists. -/
theorem map_cons_fst_renumber [Numbered α] [Numbered β] (a : α) (o : Option (List α × β)) :
    (renumber g o).map (fun e => (renumber g a :: e.1, e.2)) =
      renumber g (o.map fun e => (a :: e.1, e.2)) := by
  cases o <;> rfl

/-! ### Faults and outcomes -/

def Cause.renumbered (g : Nat → Nat) : Cause → Cause
  | .duplicateName kind name firstLine => .duplicateName kind name (g firstLine)
  | .nested inner outer outerLine => .nested inner outer (g outerLine)
  | .insideIgnored marker ignoreLine => .insideIgnored marker (g ignoreLine)
  | cause => cause

instance : Numbered Cause := ⟨Cause.renumbered⟩
instance : Numbered Fault := ⟨fun g e => ⟨g e.line, renumber g e.cause⟩⟩

instance [Numbered α] : Numbered (Except Fault α) where
  renumber g
    | .ok a => .ok (renumber g a)
    | .error e => .error (renumber g e)

@[simp] theorem renumber_ok [Numbered α] (a : α) :
    renumber g (.ok a : Except Fault α) = .ok (renumber g a) := rfl

@[simp] theorem renumber_error [Numbered α] (e : Fault) :
    renumber g (.error e : Except Fault α) = .error (renumber g e) := rfl

theorem Except.bind_renumber [Numbered α] [Numbered β] {x x' : Except Fault α}
    {f f' : α → Except Fault β} (hx : x' = renumber g x)
    (hf : ∀ a, f' (renumber g a) = renumber g (f a)) : x' >>= f' = renumber g (x >>= f) := by
  rw [hx]
  cases x with
  | error e => rfl
  | ok a => exact hf a

/-- A computation on renumbered data has the outcome renumbered when each of its steps does. -/
theorem Outcome.result_bind_renumber [Numbered α] [Numbered β] {x x' : Outcome α}
    {f f' : α → Outcome β} (hx : x'.result = renumber g x.result)
    (hf : ∀ a, (f' (renumber g a)).result = renumber g (f a).result) :
    (x' >>= f').result = renumber g (x >>= f).result := by
  rw [Outcome.result_bind, Outcome.result_bind]
  exact Except.bind_renumber hx hf

/-! ### Lines, comments and regions -/

instance : Numbered SourceLine := ⟨fun g l => { l with line := g l.line }⟩

namespace SourceLine
variable (l : SourceLine)

@[simp] theorem line_renumber : (renumber g l).line = g l.line := rfl
@[simp] theorem text_renumber : (renumber g l).text = l.text := rfl
@[simp] theorem kind_renumber : (renumber g l).kind = l.kind := rfl

end SourceLine

instance : Numbered NumberedLine := ⟨fun g l => (g l.1, l.2)⟩

@[simp] theorem renumber_numberedLine (line : Nat) (text : String) :
    renumber g ((line, text) : NumberedLine) = (g line, text) := rfl

instance : Numbered CommentBlock := ⟨fun g b => { b with lines := renumber g b.lines }⟩

@[simp] theorem CommentBlock.lines_renumber (b : CommentBlock) :
    (renumber g b).lines = b.lines.map (renumber g) := rfl

instance : Numbered Region := ⟨fun g r => { r with line := g r.line }⟩

namespace Region
variable (r : Region)

@[simp] theorem line_renumber : (renumber g r).line = g r.line := rfl
@[simp] theorem name_renumber : (renumber g r).name = r.name := rfl
@[simp] theorem kind_renumber : (renumber g r).kind = r.kind := rfl
@[simp] theorem text_renumber : (renumber g r).text = r.text := rfl
@[simp] theorem firstLine?_renumber : (renumber g r).firstLine? = r.firstLine? := rfl

end Region

instance : Numbered Regions := ⟨fun g rs => ⟨renumber g rs.closed⟩⟩
instance : Numbered Regions.Open := ⟨fun g o => { o with line := g o.line }⟩
instance : Numbered Regions.Capture :=
  ⟨fun g c => ⟨renumber g c.snippet, renumber g c.proxy, renumber g c.regions⟩⟩

/-! ### Doc blocks -/

instance : Numbered Example := ⟨fun g x => { x with line := g x.line }⟩
instance : Numbered CrossReference := ⟨fun g r => { r with line := g r.line }⟩

instance : Numbered Segment where
  renumber g
    | .markdown text => .markdown text
    | .shown x => .shown (renumber g x)

instance : Numbered DocBlock where
  renumber g b :=
    { line := g b.line
      segments := renumber g b.segments
      references := renumber g b.references }

@[simp] theorem DocBlock.line_renumber (b : DocBlock) : (renumber g b).line = g b.line := rfl

instance : Numbered DocBlock.Part where
  renumber g
    | .prose line text => .prose (g line) text
    | .verbatim text => .verbatim text
    | .unnamed line text => .unnamed (g line) text
    | .shown snippet line => .shown snippet (g line)

/-! ### Declarations -/

instance : Numbered Reflection := ⟨fun g r => { r with line := g r.line }⟩
instance : Numbered Param := ⟨fun g p => { p with doc := renumber g p.doc }⟩

instance : Numbered Item where
  renumber g
    | .function shape => .function { shape with params := renumber g shape.params }
    | item => item

namespace Item
variable (item : Item)

@[simp] theorem kind_renumber : (renumber g item).kind = item.kind := by
  cases item <;> rfl

@[simp] theorem hasBody_renumber : (renumber g item).hasBody = item.hasBody := by
  cases item <;> rfl

@[simp] theorem paramTypes_renumber : (renumber g item).paramTypes = item.paramTypes := by
  cases item with
  | function shape => exact List.map_map
  | enumeration | record | property | variant => rfl

end Item

instance : Numbered Declared where
  renumber g d :=
    { d with
      line := g d.line
      reflection := renumber g d.reflection
      doc := renumber g d.doc
      item := renumber g d.item }

namespace Declared
variable (d : Declared)

@[simp] theorem name_renumber : (renumber g d).name = d.name := rfl
@[simp] theorem path_renumber : (renumber g d).path = d.path := rfl
@[simp] theorem reflection_renumber : (renumber g d).reflection = renumber g d.reflection := rfl
@[simp] theorem doc_renumber : (renumber g d).doc = renumber g d.doc := rfl
@[simp] theorem item_renumber : (renumber g d).item = renumber g d.item := rfl

end Declared

namespace Declaration

mutual

def renumbered (g : Nat → Nat) : Declaration → Declaration
  | ⟨own, members⟩ => ⟨renumber g own, renumberedAll g members⟩

def renumberedAll (g : Nat → Nat) : List Declaration → List Declaration
  | [] => []
  | d :: ds => d.renumbered g :: renumberedAll g ds

end

instance : Numbered Declaration := ⟨Declaration.renumbered⟩

theorem renumberedAll_eq_map (ds : List Declaration) :
    renumberedAll g ds = ds.map (renumber g) := by
  induction ds with
  | nil => rfl
  | cons d ds ih =>
    rw [renumberedAll, ih]
    rfl

@[simp] theorem renumber_mk (own : Declared) (members : List Declaration) :
    renumber g (Declaration.mk own members) =
      ⟨renumber g own, members.map (renumber g)⟩ := by
  rw [← renumberedAll_eq_map]
  exact renumbered.eq_1 ..

@[simp] theorem toDeclared_renumber (d : Declaration) :
    (renumber g d).toDeclared = renumber g d.toDeclared := by
  cases d
  rw [renumber_mk]

@[simp] theorem kind_renumber (d : Declaration) : (renumber g d).kind = d.kind := by
  unfold kind
  rw [toDeclared_renumber, Declared.item_renumber, Item.kind_renumber]

end Declaration

instance : Numbered InjectSite := ⟨fun g site => { site with line := g site.line }⟩
instance : Numbered Document := ⟨fun g d => { d with declarations := renumber g d.declarations }⟩

/-! ### Tokens, pieces and statements -/

instance : Numbered Token := ⟨fun g t => { t with line := g t.line }⟩

namespace Token
variable (t : Token)

@[simp] theorem kind_renumber : (renumber g t).kind = t.kind := rfl
@[simp] theorem text_renumber : (renumber g t).text = t.text := rfl
@[simp] theorem line_renumber : (renumber g t).line = g t.line := rfl
@[simp] theorem isIdent_renumber (text : String) : (renumber g t).isIdent text = t.isIdent text := rfl

end Token

instance : Numbered Piece where
  renumber g
    | .token t => .token (renumber g t)
    | .doc b => .doc (renumber g b)
    | .inject proxy line => .inject proxy (g line)

namespace Piece

@[simp] theorem renumber_token (t : Token) : renumber g (token t) = token (renumber g t) := rfl
@[simp] theorem renumber_doc (b : DocBlock) : renumber g (doc b) = doc (renumber g b) := rfl
@[simp] theorem renumber_inject (proxy : String) (line : Nat) :
    renumber g (inject proxy line) = inject proxy (g line) := rfl

@[simp] theorem line_renumber (p : Piece) : (renumber g p).line = g p.line := by
  cases p <;> rfl

@[simp] theorem hasKind_renumber (p : Piece) (kind : TokenKind) :
    (renumber g p).hasKind kind = p.hasKind kind := by
  cases p <;> rfl

end Piece

instance : Numbered Statement where
  renumber g s :=
    { s with
      tokens := renumber g s.tokens
      paramDocs := s.paramDocs.map fun e => (e.1, renumber g e.2)
      line := g s.line }

instance : Numbered Heading := ⟨fun g h => { h with item := renumber g h.item }⟩

instance : Numbered Head where
  renumber g
    | .declares first others => .declares (renumber g first) (renumber g others)
    | .skip reason => .skip reason

/-! ### Scopes -/

namespace Scope

instance : Numbered Pending where
  renumber g w := { w with doc := renumber g w.doc, reflection := renumber g w.reflection }

instance : Numbered State where
  renumber g b :=
    { b with
      pending := renumber g b.pending
      members := renumber g b.members
      injects := renumber g b.injects }

instance : Numbered Contents :=
  ⟨fun g found => ⟨renumber g found.declarations, renumber g found.injects⟩⟩

instance : Numbered Frame where
  renumber g
    | .transparent state => .transparent (renumber g state)
    | .memberOf state own => .memberOf (renumber g state) (renumber g own)

instance : Numbered Turn where
  renumber g
    | .closes rest => .closes (renumber g rest)
    | .continues state rest => .continues (renumber g state) (renumber g rest)
    | .opens inner frame rest => .opens inner (renumber g frame) (renumber g rest)

instance : Numbered NamespaceHead where
  renumber g
    | .body name rest => .body name (renumber g rest)
    | .alias rest => .alias (renumber g rest)
    | .nothing rest => .nothing (renumber g rest)

instance : Numbered Word where
  renumber g
    | .macroCall rest => .macroCall (renumber g rest)
    | word => word

end Scope

end AnnotatedHeader
