import AnnotatedHeader.Settings
import AnnotatedHeader.Settings.Expression
import AnnotatedHeader.Text.Lines

/-! Settings files: reading settings from TOML text.

The expressions of a file define keys and tables. A key or a table may be defined
once; the settings are the truth values at the top, and whatever else is defined
does not matter as long as it is well formed. -/
namespace AnnotatedHeader

namespace Settings

open Text

/-! ### Definitions -/

/-- What a path has been defined as. -/
inductive Definition where
  | value (value : Value)
  /-- A table with a header of its own. -/
  | table
  /-- A table that a key with points has made. -/
  | dotted
  /-- A table that only the header of one inside it has made. -/
  | implied
  | elements
  deriving DecidableEq, Repr

/-- The definitions so far, and the table that the next entry belongs to. -/
structure Definitions where
  defined : List (List String × Definition) := []
  table : List String := []
  deriving Repr

namespace Definitions

def get? (d : Definitions) (path : List String) : Option Definition := d.defined.lookup path

def set (d : Definitions) (path : List String) (what : Definition) : Definitions :=
  { d with defined := (path, what) :: d.defined }

/-- The paths that start with `base` and are shorter than `base ++ key`, `base` apart. -/
def between (base key : List String) : List (List String) :=
  ((List.range key.length).drop 1).map fun n => base ++ key.take n

/-- Makes sure that a table is there for a key with points to go through. A table with
a header of its own is out of reach. -/
def throughDotted? (d : Definitions) (path : List String) : Option Definitions :=
  match d.get? path with
  | none => some (d.set path .dotted)
  | some .dotted | some .implied | some .elements => some d
  | _ => none

/-- Whether the table at `path` takes entries with a key like `key`: one without points
belongs to the table of the last header, another only to a table that keys with points
have made. -/
def takes (d : Definitions) (path key : List String) : Bool :=
  key.length == 1 || d.get? path == some .dotted

/-- Makes sure that a table is there for a header to go through. -/
def throughHeader? (d : Definitions) (path : List String) : Option Definitions :=
  match d.get? path with
  | none => some (d.set path .implied)
  | some (.value _) => none
  | some _ => some d

/-- Forgets what is defined inside a table: the element of an array that is over. -/
def forget (d : Definitions) (path : List String) : Definitions :=
  { d with defined := d.defined.filter fun (p, _) => p == path || !path.isPrefixOf p }

def add? (d : Definitions) : Expression → Option Definitions
  | .blank => some d
  | .entry key value => do
    let d ← (between d.table key).foldlM throughDotted? d
    if !d.takes (d.table ++ key.dropLast) key || (d.get? (d.table ++ key)).isSome then none
    else some (d.set (d.table ++ key) (.value value))
  | .table path => do
    let d ← (between [] path).foldlM throughHeader? d
    match d.get? path with
    | none | some .implied => some { d.set path .table with table := path }
    | _ => none
  | .element path => do
    let d ← (between [] path).foldlM throughHeader? d
    match d.get? path with
    | none => some { d.set path .elements with table := path }
    | some .elements => some { d.forget path with table := path }
    | _ => none

/-- A setting: off when it is not defined, refused when it is no truth value. -/
def flag? (d : Definitions) (name : String) : Option Bool :=
  match d.get? [name] with
  | none => some false
  | some (.value (.bool b)) => some b
  | some _ => none

def settings? (d : Definitions) : Option Settings := do
  let showAll ← d.flag? "show_all"
  let documentProtected ← d.flag? "document_protected"
  let documentPrivate ← d.flag? "document_private"
  let sortByName ← d.flag? "sort_by_name"
  return { showAll, documentProtected, documentPrivate, sortByName }

end Definitions

/-- The settings that a file's text holds. -/
def ofText? (text : String) : Option Settings := do
  let expressions ← Expression.all? (withLineFeeds (withoutMark text).toList)
  let d ← expressions.foldlM Definitions.add? {}
  d.settings?

end Settings

/-- Why a settings file is of no use. -/
inductive SettingsFault where
  | unreadable
  | malformed
  deriving DecidableEq, Repr

/-- The settings of a file with this text; there is none when the file cannot be read. -/
def Settings.ofFile (text : Option String) : Except SettingsFault Settings :=
  match text with
  | none => .error .unreadable
  | some text =>
    match Settings.ofText? text with
    | some s => .ok s
    | none => .error .malformed

end AnnotatedHeader
