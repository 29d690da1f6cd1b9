import AnnotatedHeader.DocBlock
import AnnotatedHeader.Metadata
import AnnotatedHeader.QualifiedPath
import AnnotatedHeader.Settings

/-! Declarations: the tree that a header declares.

What a declaration says of itself is a `Declared`; a `Declaration` adds its
members. `Declaration.induction` is induction over such trees. -/
namespace AnnotatedHeader

/-! ### Visibility -/

inductive Visibility where
  | everyone
  | derived
  | self
  deriving DecidableEq, Repr, Inhabited

def Visibility.word : Visibility → String
  | .everyone => "public"
  | .derived => "protected"
  | .self => "private"

def Visibility.all : List Visibility := [.everyone, .derived, .self]

/-- The visibility that a label sets. -/
def Visibility.ofLabel? (label : String) : Option Visibility :=
  Visibility.all.find? (·.word == label)

def Visibility.canExport (s : Settings) : Visibility → Bool
  | .everyone => true
  | .derived => s.documentProtected
  | .self => s.documentPrivate

/-! ### Items -/

/-- A function's parameter. A default value is kept as text. -/
structure Param where
  name : Option String
  type : String
  default : Option String
  doc : Option DocBlock
  deriving DecidableEq, Repr

def Param.signature (p : Param) : String :=
  p.type ++ (p.name.elim "" (" " ++ ·)) ++ (p.default.elim "" (" = " ++ ·))

structure EnumShape where
  /-- Declared with `enum class` or `enum struct`. -/
  isScoped : Bool
  underlying : Option String
  hasBody : Bool
  deriving DecidableEq, Repr

/-- The word that opens a record. A `union` counts as a struct. -/
inductive RecordKey where
  | structKey
  | classKey
  deriving DecidableEq, Repr

def RecordKey.kind : RecordKey → Kind
  | .structKey => .structType
  | .classKey => .classType

/-- The visibility of members above the first label. -/
def RecordKey.visibility : RecordKey → Visibility
  | .structKey => .everyone
  | .classKey => .self

structure RecordShape where
  /-- Macros between the keyword and the name. -/
  api : Option String
  bases : List String
  hasBody : Bool
  deriving DecidableEq, Repr

structure FunctionShape where
  /-- What precedes the name: specifiers and the return type. -/
  lead : Option String
  params : List Param
  /-- What follows the parameters. -/
  qualifiers : Option String
  /-- A constructor or a destructor. -/
  special : Bool
  hasBody : Bool
  deriving DecidableEq, Repr

structure PropertyShape where
  type : String
  /-- The array's extent, which can be empty. -/
  array : Option String
  default : Option String
  isStatic : Bool
  deriving DecidableEq, Repr

/-- What sets one kind of declaration apart from the others. -/
inductive Item where
  | enumeration (shape : EnumShape)
  | record (key : RecordKey) (shape : RecordShape)
  | function (shape : FunctionShape)
  | property (shape : PropertyShape)
  | variant (value : Option String)
  deriving DecidableEq, Repr

namespace Item

def kind : Item → Kind
  | .enumeration _ => .enumType
  | .record key _ => key.kind
  | .function _ => .function
  | .property _ => .property
  | .variant _ => .variant

/-- Whether this defines and does not only announce. -/
def hasBody : Item → Bool
  | .enumeration shape => shape.hasBody
  | .record _ shape => shape.hasBody
  | .function shape => shape.hasBody
  | .property _ | .variant _ => true

/-- What tells overloads apart. -/
def paramTypes : Item → List String
  | .function shape => shape.params.map (·.type)
  | _ => []

end Item

/-! ### Trees -/

/-- What a declaration says of itself. -/
structure Declared where
  name : String
  path : String
  line : Nat
  visibility : Visibility
  template : Option String
  reflection : Option Reflection
  /-- The normalized head, without template, macro and body. -/
  signature : String
  doc : Option DocBlock
  item : Item
  /-- Whether a proxy describes the declaration and no code does. -/
  synthetic : Bool
  deriving Repr

structure Declaration extends Declared where
  members : List Declaration
  deriving Repr

namespace Declaration

def kind (d : Declaration) : Kind := d.item.kind

theorem induction {P : Declaration → Prop}
    (step : ∀ own members, (∀ m ∈ members, P m) → P ⟨own, members⟩) (d : Declaration) : P d := by
  refine Declaration.rec (motive_1 := P) (motive_2 := fun ms => ∀ m ∈ ms, P m) step ?_ ?_ d
  · intro m hm
    cases hm
  · intro d ds hd hds m hm
    rcases List.mem_cons.1 hm with rfl | hm
    · exact hd
    · exact hds m hm

mutual

/-- The declaration and all below it, each before its members. -/
def walk : Declaration → List Declaration
  | ⟨own, members⟩ => ⟨own, members⟩ :: walkAll members

def walkAll : List Declaration → List Declaration
  | [] => []
  | d :: ds => d.walk ++ walkAll ds

end

theorem walkAll_eq_flatMap (ds : List Declaration) : walkAll ds = ds.flatMap walk := by
  induction ds with
  | nil => rfl
  | cons d ds ih => rw [walkAll, ih, List.flatMap_cons]

theorem walk_eq (d : Declaration) : d.walk = d :: d.members.flatMap walk := by
  rw [← walkAll_eq_flatMap]
  cases d
  rw [walk]

end Declaration

/-- Where a proxy is to be injected. -/
structure InjectSite where
  proxy : String
  /-- The path of the record that holds the marker. -/
  owner : String
  line : Nat
  deriving DecidableEq, Repr

end AnnotatedHeader
