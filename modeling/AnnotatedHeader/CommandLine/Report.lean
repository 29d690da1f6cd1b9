import AnnotatedHeader.Fault

/-! Reports: what a run prints, or why it stopped, and what it warned of on the way. -/
namespace AnnotatedHeader

/-- Why a run stops. -/
inductive Failure where
  | settings (path : String)
  | pattern (text : String)
  | directory (path : String)
  | noInputs
  /-- Standard input is no text. -/
  | standardInput
  | unreadable (path : String)
  | header (path : String) (fault : Fault)
  | unwritable (path : String)
  deriving DecidableEq, Repr

def Failure.message : Failure → String
  | .settings path => s!"failed to load settings from {path}"
  | .pattern text => s!"invalid glob pattern: {text}"
  | .directory path => s!"failed to read directory: {path}"
  | .noInputs => "no input files found"
  | .standardInput => "failed to read stdin"
  | .unreadable path => s!"failed to read {path}"
  | .header path fault => fault.message path
  | .unwritable path => s!"failed to write {path}"

inductive Warning where
  | unmatched (pattern : String)
  /-- A file that failed and was passed over. -/
  | skipped (path : String) (failure : Failure)
  deriving DecidableEq, Repr

def Warning.message : Warning → String
  | .unmatched pattern => s!"no files matched: {pattern}"
  | .skipped path failure => s!"skipping {path}: {failure.message}"

structure Report where
  warnings : List Warning
  /-- What goes to standard output. -/
  result : Except Failure String

namespace Report

/-- The code that the program ends with. -/
def code (r : Report) : Nat :=
  match r.result with
  | .ok _ => 0
  | .error _ => 1

/-- The code after words that are no proper use. -/
def misuse : Nat := 2

def output (r : Report) : String :=
  match r.result with
  | .ok text => text
  | .error _ => ""

/-- The lines that go to standard error. -/
def messages (r : Report) : List String :=
  r.warnings.map (s!"warning: {·.message}") ++
    match r.result with
    | .ok _ => []
    | .error failure => [s!"Error: {failure.message}"]

end Report

end AnnotatedHeader
