import AnnotatedHeader.Settings

/-! Options: what the words behind the program's name ask for.

Each word is an input, a switch or an option with a value, which may stand in the
same word or be the next one; behind `--` every word is an input. No switch and no
option is given twice. -/
namespace AnnotatedHeader

inductive Format where
  | json
  | header
  deriving DecidableEq, Repr

def Format.ofWord? : String → Option Format
  | "json" => some .json
  | "header" => some .header
  | _ => none

structure Options where
  /-- Files, directories and glob patterns; standard input if there are none. -/
  inputs : List String := []
  output : Option String := none
  format : Option Format := none
  settingsFile : Option String := none
  /-- What the switches ask for on top of the settings file. -/
  settings : Settings := {}
  /-- Files that fail are passed over. -/
  keepGoing : Bool := false
  deriving Repr

namespace Options

inductive Switch where
  | showAll
  | documentProtected
  | documentPrivate
  | sortByName
  | keepGoing
  deriving DecidableEq, Repr

def Switch.ofWord? : String → Option Switch
  | "show-all" => some .showAll
  | "protected" => some .documentProtected
  | "private" => some .documentPrivate
  | "sort" => some .sortByName
  | "keep-going" => some .keepGoing
  | _ => none

/-- An option that takes a value. -/
inductive Key where
  | output
  | format
  | settingsFile
  deriving DecidableEq, Repr

def Key.ofWord? : String → Option Key
  | "output" => some .output
  | "format" => some .format
  | "config" => some .settingsFile
  | _ => none

def Key.ofLetter? : Char → Option Key
  | 'o' => some .output
  | 'f' => some .format
  | 'c' => some .settingsFile
  | _ => none

/-- A word by itself. -/
inductive Word where
  | input
  | switch (s : Switch)
  /-- The value is in the word, or expected in the next one. -/
  | option (key : Key) (value : Option (List Char))
  deriving DecidableEq, Repr

/-- A long word is cut at its first equals sign; behind the letter of a short one
stands its value, with or without one. -/
def Word.read? (word : String) : Option Word :=
  match word.toList with
  | '-' :: '-' :: long =>
    let name := long.takeWhile (· ≠ '=')
    match long.drop name.length with
    | [] =>
      match Switch.ofWord? (.ofList name) with
      | some s => some (.switch s)
      | none => (Key.ofWord? (.ofList name)).map (.option · none)
    | _ :: value => (Key.ofWord? (.ofList name)).map (.option · (some value))
  | '-' :: letter :: rest =>
    (Key.ofLetter? letter).map fun key =>
      .option key (match rest with
        | [] => none
        | '=' :: value => some value
        | value => some value)
  | _ => some .input

/-- Whether a word can be the value of the option before it. -/
def isValue (word : String) : Bool := word == "-" || !word.startsWith "-"

inductive Argument where
  | input (text : String)
  | switch (s : Switch)
  | option (key : Key) (value : String)
  deriving DecidableEq, Repr

def arguments? : List String → Option (List Argument)
  | [] => some []
  | "--" :: words => some (words.map .input)
  | word :: words =>
    match Word.read? word with
    | none => none
    | some .input => (arguments? words).map (.input word :: ·)
    | some (.switch s) => (arguments? words).map (.switch s :: ·)
    | some (.option key (some value)) => (arguments? words).map (.option key (.ofList value) :: ·)
    | some (.option key none) =>
      match words with
      | [] => none
      | value :: words =>
        if isValue value then (arguments? words).map (.option key value :: ·) else none

def withSwitch? (o : Options) : Switch → Option Options
  | .showAll =>
    if o.settings.showAll then none else some { o with settings.showAll := true }
  | .documentProtected =>
    if o.settings.documentProtected then none
    else some { o with settings.documentProtected := true }
  | .documentPrivate =>
    if o.settings.documentPrivate then none else some { o with settings.documentPrivate := true }
  | .sortByName =>
    if o.settings.sortByName then none else some { o with settings.sortByName := true }
  | .keepGoing => if o.keepGoing then none else some { o with keepGoing := true }

/-- No value is empty. -/
def withValue? (o : Options) (key : Key) (value : String) : Option Options :=
  if value.isEmpty then none
  else
    match key with
    | .output => if o.output.isSome then none else some { o with output := value }
    | .settingsFile =>
      if o.settingsFile.isSome then none else some { o with settingsFile := value }
    | .format =>
      match o.format, Format.ofWord? value with
      | none, some format => some { o with format }
      | _, _ => none

def add? (o : Options) : Argument → Option Options
  | .input text => some { o with inputs := o.inputs ++ [text] }
  | .switch s => o.withSwitch? s
  | .option key value => o.withValue? key value

/-- The options that words ask for; none if they are no proper use. -/
def ofWords? (words : List String) : Option Options := do
  (← arguments? words).foldlM add? {}

/-- The lines that tell how the program is used. -/
def usage : List String :=
  [ "usage: annotated-header [options] [--] [input ...]",
    "  -o, --output FILE    write to FILE and not to standard output",
    "  -f, --format FORMAT  json (as it is without this option) or header",
    "  -c, --config FILE    read settings from FILE",
    "      --show-all       keep undocumented declarations",
    "      --protected      keep protected members",
    "      --private        keep private members",
    "      --sort           sort declarations and members by name",
    "      --keep-going     pass over files that fail" ]

end Options

end AnnotatedHeader
