import AnnotatedHeader.CommandLine.Run

/-! The program: a run on the files of the system. -/
namespace AnnotatedHeader

/-- What an action gives, unless it fails. -/
def succeeds? {α : Type} (act : IO α) : IO (Option α) := act.toBaseIO.map (·.toOption)

instance : Files IO where
  kind? path := do
    if path.isEmpty then return none
    let data ← succeeds? do ((← IO.currentDir) / path).metadata
    return data.map fun data =>
      match data.type with
      | .file => .regular
      | .dir => .directory
      | _ => .other
  entries? path := do
    let entries ← succeeds? do ((← IO.currentDir) / path).readDir
    return entries.map fun entries => entries.toList.map (·.fileName)
  read? path := succeeds? (IO.FS.readFile path)
  write path text := return (← succeeds? (IO.FS.writeFile path text)).isSome

/-- Everything on standard input, if it is text. -/
def readInput : IO (Option String) := succeeds? do (← IO.getStdin).readToEnd

end AnnotatedHeader

open AnnotatedHeader in
def main (words : List String) : IO UInt32 := do
  match ← Report.ofWords? words readInput with
  | none =>
    for line in Options.usage do IO.eprintln line
    return Report.misuse.toUInt32
  | some r =>
    for line in r.messages do IO.eprintln line
    IO.print r.output
    return r.code.toUInt32
