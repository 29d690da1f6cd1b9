import AnnotatedHeader.Region
import Mathlib.Data.List.Chain

/-! The borders of regions.

The begin and end markers of a kind tell by themselves which regions there are (`openings`) and
which one is open behind the last line (`opened?`), whatever stands between them. -/
namespace AnnotatedHeader

/-- A marker that begins or ends a region. -/
inductive Border where
  | opens (name : String) (line : Nat)
  | closes
  deriving DecidableEq, Repr

namespace Border

def isBegin : Border → Bool
  | .opens .. => true
  | .closes => false

/-- The name and the line of the region that begins. -/
def begun? : Border → Option (String × Nat)
  | .opens name line => some (name, line)
  | .closes => none

/-- Begin and end take turns, and a begin comes first. -/
def Alternating (bs : List Border) : Prop :=
  (∀ b ∈ bs.head?, b.isBegin) ∧ bs.IsChain fun a b => a.isBegin ≠ b.isBegin

theorem alternating_nil : Alternating [] := ⟨by simp, .nil⟩

theorem Alternating.of_append {bs bs' : List Border} (h : Alternating (bs ++ bs')) :
    Alternating bs := by
  refine ⟨?_, h.2.left_of_append⟩
  intro b hb
  refine h.1 b ?_
  rw [List.head?_append, Option.mem_def.1 hb]
  rfl

/-- One more border takes its turn if it begins exactly where none is open. -/
theorem alternating_concat_iff {bs : List Border} {b : Border} :
    Alternating (bs ++ [b]) ↔
      Alternating bs ∧ b.isBegin = (bs.getLast?.bind Border.begun?).isNone := by
  unfold Alternating
  rw [List.isChain_append]
  cases hlast : bs.getLast? with
  | none =>
    rw [List.getLast?_eq_none_iff] at hlast
    subst hlast
    simp
  | some last =>
    have hne : bs ≠ [] := by
      rintro rfl
      cases hlast
    rw [List.head?_append_of_ne_nil _ hne]
    have hturn : last.isBegin ≠ b.isBegin ↔ b.isBegin = last.begun?.isNone := by
      cases last <;> cases b <;> simp [isBegin, begun?]
    simp [hturn, and_assoc]

end Border

namespace SourceLine

/-- The border of a region of that kind that the line is. -/
def border? (kind : RegionKind) (l : SourceLine) : Option Border :=
  match l.kind with
  | .marker (.opens k name) => if k = kind then some (.opens name l.line) else none
  | .marker (.closes k) => if k = kind then some .closes else none
  | _ => none

/-- What a region of that kind captures of a line inside it. -/
def captured? (kind : RegionKind) (l : SourceLine) : Option String :=
  if l.ignored then none
  else
    match kind, l.kind with
    | _, .code => some l.text
    | .snippet, .doc _ => some l.text
    | .proxy, .tool text => some text
    | _, _ => none

variable {l : SourceLine} {kind : RegionKind} {name : String} {line : Nat}

theorem border?_eq_opens_iff :
    l.border? kind = some (.opens name line) ↔ l.kind = .marker (.opens kind name) ∧ l.line = line := by
  unfold border?
  split <;> simp_all [and_comm, and_assoc]

theorem border?_eq_closes_iff : l.border? kind = some .closes ↔ l.kind = .marker (.closes kind) := by
  unfold border?
  split <;> simp_all

/-- A line is a border of one kind. -/
theorem border?_of_ne {kind' : RegionKind} {b : Border} (h : l.border? kind = some b)
    (hne : kind' ≠ kind) : l.border? kind' = none := by
  unfold border? at h ⊢
  split <;> simp_all [Ne.symm hne]

theorem captured?_marker {directive : Directive} (h : l.kind = .marker directive) :
    l.captured? kind = none := by
  unfold captured?
  rw [h]
  cases l.ignored <;> cases kind <;> rfl

end SourceLine

namespace Regions
variable {kind : RegionKind} {lines : List SourceLine} {l : SourceLine} {name : String} {line : Nat}

/-- The begin and end markers of a kind, in order. -/
def borders (kind : RegionKind) (lines : List SourceLine) : List Border :=
  lines.filterMap (·.border? kind)

/-- The names and the lines of the begin markers of a kind. -/
def openings (kind : RegionKind) (lines : List SourceLine) : List (String × Nat) :=
  (borders kind lines).filterMap Border.begun?

/-- The region of a kind that is open behind the lines: its begin marker is the last border. -/
def opened? (kind : RegionKind) (lines : List SourceLine) : Option (String × Nat) :=
  (borders kind lines).getLast?.bind Border.begun?

/-- The region that is open was begun last. -/
theorem openings_of_opened {x : String × Nat} (h : opened? kind lines = some x) :
    openings kind lines = (openings kind lines).dropLast ++ [x] := by
  obtain ⟨b, hlast, hbegun⟩ := Option.bind_eq_some_iff.1 h
  obtain ⟨bs, hbs⟩ := List.getLast?_eq_some_iff.1 hlast
  rw [openings, hbs, List.filterMap_append, List.filterMap_cons_some hbegun, List.filterMap_nil,
    List.dropLast_concat]

theorem opened?_eq_none_iff :
    opened? kind lines = none ↔ ∀ b ∈ (borders kind lines).getLast?, b = .closes := by
  unfold opened?
  cases (borders kind lines).getLast? with
  | none => simp
  | some b => cases b <;> simp [Border.begun?]

theorem borders_append (kind : RegionKind) (lines lines' : List SourceLine) :
    borders kind (lines ++ lines') = borders kind lines ++ borders kind lines' :=
  List.filterMap_append

theorem openings_append (kind : RegionKind) (lines lines' : List SourceLine) :
    openings kind (lines ++ lines') = openings kind lines ++ openings kind lines' := by
  unfold openings
  rw [borders_append, List.filterMap_append]

/-! ### One more line -/

theorem borders_concat (kind : RegionKind) (lines : List SourceLine) (l : SourceLine) :
    borders kind (lines ++ [l]) = borders kind lines ++ (l.border? kind).toList := by
  rw [borders_append]
  cases h : l.border? kind <;> simp [borders, h]

theorem borders_of_passed (h : l.border? kind = none) (lines : List SourceLine) :
    borders kind (lines ++ [l]) = borders kind lines := by
  rw [borders_concat, h, Option.toList_none, List.append_nil]

theorem openings_of_passed (h : l.border? kind = none) (lines : List SourceLine) :
    openings kind (lines ++ [l]) = openings kind lines := by
  rw [openings, borders_of_passed h, openings]

theorem opened?_of_passed (h : l.border? kind = none) (lines : List SourceLine) :
    opened? kind (lines ++ [l]) = opened? kind lines := by
  rw [opened?, borders_of_passed h, opened?]

theorem openings_of_begin (h : l.border? kind = some (.opens name line)) (lines : List SourceLine) :
    openings kind (lines ++ [l]) = openings kind lines ++ [(name, line)] := by
  rw [openings, borders_concat, h, Option.toList_some, List.filterMap_append, openings]
  rfl

theorem opened?_of_begin (h : l.border? kind = some (.opens name line)) (lines : List SourceLine) :
    opened? kind (lines ++ [l]) = some (name, line) := by
  rw [opened?, borders_concat, h, Option.toList_some, List.getLast?_concat]
  rfl

theorem openings_of_end (h : l.border? kind = some .closes) (lines : List SourceLine) :
    openings kind (lines ++ [l]) = openings kind lines := by
  rw [openings, borders_concat, h, Option.toList_some, List.filterMap_append, openings]
  exact List.append_nil _

theorem opened?_of_end (h : l.border? kind = some .closes) (lines : List SourceLine) :
    opened? kind (lines ++ [l]) = none := by
  rw [opened?, borders_concat, h, Option.toList_some, List.getLast?_concat]
  rfl

end Regions

end AnnotatedHeader
