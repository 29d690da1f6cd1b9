import AnnotatedHeader.CommandLine.Glob.Search
import AnnotatedHeader.CommandLine.Options
import AnnotatedHeader.CommandLine.Report
import AnnotatedHeader.Document.Build
import AnnotatedHeader.Document.Header
import AnnotatedHeader.Document.Json
import AnnotatedHeader.Settings.File

/-! Runs: from the words of a command line to a report.

A run loads its settings, finds its inputs, makes a document of each, prunes the
documents and prints them. It stops at the first failure, but may be asked to pass
over the files that fail. -/
namespace AnnotatedHeader

/-- A computation that warns as it goes and may fail. -/
abbrev Run (m : Type → Type) := ExceptT Failure (StateT (List Warning) m)

namespace Run
variable {m : Type → Type} [Monad m]

def warn (w : Warning) : Run m Unit := modify (· ++ [w])

variable [Files m]

def settings (o : Options) : Run m Settings := do
  match o.settingsFile with
  | none => return o.settings
  | some path =>
    match Settings.ofFile (← Files.read? path) with
    | .ok s => return s.union o.settings
    | .error _ => throw (.settings path)

/-! ### Inputs -/

/-- The header files right in a directory. -/
def headersIn (directory : String) : Run m (List String) := do
  match ← Files.entries? directory with
  | none => throw (.directory directory)
  | some names =>
    ((names.filter FilePath.isHeader).map (FilePath.join directory)).filterM fun path =>
      Files.isFile path

def matching (text : String) : Run m (List String) := do
  match Glob.Pattern.ofText? text with
  | none => throw (.pattern text)
  | some pattern =>
    let found ← pattern.files
    if found.isEmpty then warn (.unmatched text)
    return found

/-- The files that an input stands for: itself, what is in it, or what it matches. -/
def filesOf (input : String) : Run m (List String) := do
  match ← Files.kind? input with
  | some .regular => return [input]
  | some .directory => headersIn input
  | _ => matching input

def files (inputs : List String) : Run m (List String) :=
  return FilePath.sorted (← inputs.mapM filesOf).flatten

/-! ### Documents -/

/-- The document of the file at a path with this text. -/
def document (path : String) : Option String → Except Failure Document
  | none => .error (.unreadable path)
  | some source => (Document.ofSource path source).result.mapError (.header path)

/-- The documents of files, without those that fail if they are to be passed over. -/
def documents (keepGoing : Bool) : List String → Run m (List Document)
  | [] => return []
  | path :: paths => do
    match document path (← Files.read? path) with
    | .ok d => return d :: (← documents keepGoing paths)
    | .error failure =>
      if keepGoing then
        warn (.skipped path failure)
        documents keepGoing paths
      else throw failure

/-- What standard input is called. -/
def standardInput : String := "<stdin>"

/-- The document of standard input. -/
def single : Option String → Except Failure Document
  | none => .error .standardInput
  | some source => document standardInput (some source)

/-! ### Printing -/

def print : Format → List Document → String
  | .json, documents => (Json.list (documents.map Document.toJson)).pretty 0 ++ "\n"
  | .header, documents => Text.joinLines (documents.map Document.toHeader)

def printSingle : Format → Document → String
  | .json, d => d.toJson.pretty 0 ++ "\n"
  | .header, d => d.toHeader

/-- The text that a run comes to; `input` reads standard input. -/
def text (o : Options) (input : m (Option String)) : Run m String := do
  let settings ← settings o
  let format := o.format.getD .json
  if o.inputs.isEmpty then
    let d ← single (← input)
    return printSingle format (d.exported settings)
  else
    let paths ← files o.inputs
    if paths.isEmpty then throw .noInputs
    let documents ← documents o.keepGoing paths
    return print format (documents.map (·.exported settings))

/-- Writes the text where it is to go, and gives what is left for standard output. -/
def deliver (o : Options) (text : String) : Run m String := do
  match o.output with
  | none => return text
  | some path => if ← Files.write path text then return "" else throw (.unwritable path)

def report (o : Options) (input : m (Option String)) : m Report := do
  let run : Run m String := do deliver o (← text o input)
  let (result, warnings) ← run.run.run []
  return ⟨warnings, result⟩

end Run

/-- The report of a run on these words; none if they are no proper use. -/
def Report.ofWords? {m : Type → Type} [Monad m] [Files m] (words : List String)
    (input : m (Option String)) : m (Option Report) := do
  match Options.ofWords? words with
  | none => return none
  | some o => return some (← Run.report o input)

end AnnotatedHeader
