/-! JSON: values whose objects keep the order of their entries, and their two texts.

Only what the documents hold is written: no fractions and no negative numbers. An
object may repeat a key. -/
namespace AnnotatedHeader

inductive Json where
  | null
  | bool (value : Bool)
  | number (value : Nat)
  | text (value : String)
  | list (values : List Json)
  | object (entries : List (String × Json))
  deriving Repr, Inhabited

namespace Json

def hexDigit (n : Nat) : Char := if n < 10 then Char.ofNat (48 + n) else Char.ofNat (87 + n)

/-- A character inside a text. Quotes, backslashes and control characters are escaped. -/
def escapedChar (c : Char) : List Char :=
  if c = '"' then ['\\', '"']
  else if c = '\\' then ['\\', '\\']
  else if c = '\x08' then ['\\', 'b']
  else if c = '\x0c' then ['\\', 'f']
  else if c = '\n' then ['\\', 'n']
  else if c = '\r' then ['\\', 'r']
  else if c = '\t' then ['\\', 't']
  else if c.toNat < 32 then ['\\', 'u', '0', '0', hexDigit (c.toNat / 16), hexDigit (c.toNat % 16)]
  else [c]

def quote (s : String) : String := .ofList ('"' :: s.toList.flatMap escapedChar ++ ['"'])

mutual

/-- Without any white space. -/
def compact : Json → String
  | .null => "null"
  | .bool value => if value then "true" else "false"
  | .number value => toString value
  | .text value => quote value
  | .list values => "[" ++ ",".intercalate (compactAll values) ++ "]"
  | .object entries => "\x7b" ++ ",".intercalate (compactEntries entries) ++ "\x7d"

def compactAll : List Json → List String
  | [] => []
  | v :: vs => v.compact :: compactAll vs

def compactEntries : List (String × Json) → List String
  | [] => []
  | (key, v) :: vs => (quote key ++ ":" ++ v.compact) :: compactEntries vs

end

/-- Items between brackets, each on a line of its own, two spaces deeper than `depth`. -/
def block (depth : Nat) (opening closing : String) (items : List String) : String :=
  if items.isEmpty then opening ++ closing
  else
    let indent (n : Nat) : String := .ofList (List.replicate (2 * n) ' ')
    opening ++ "\n" ++ ",\n".intercalate (items.map (indent (depth + 1) ++ ·)) ++ "\n" ++
      indent depth ++ closing

mutual

/-- An item a line. -/
def pretty (depth : Nat) : Json → String
  | .null => "null"
  | .bool value => if value then "true" else "false"
  | .number value => toString value
  | .text value => quote value
  | .list values => block depth "[" "]" (prettyAll (depth + 1) values)
  | .object entries => block depth "\x7b" "\x7d" (prettyEntries (depth + 1) entries)

def prettyAll (depth : Nat) : List Json → List String
  | [] => []
  | v :: vs => v.pretty depth :: prettyAll depth vs

def prettyEntries (depth : Nat) : List (String × Json) → List String
  | [] => []
  | (key, v) :: vs => (quote key ++ ": " ++ v.pretty depth) :: prettyEntries depth vs

end

/-- A value that may be missing. -/
def ofOption (f : α → Json) : Option α → Json
  | some a => f a
  | none => .null

end Json

end AnnotatedHeader
