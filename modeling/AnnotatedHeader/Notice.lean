import AnnotatedHeader.Fault
import AnnotatedHeader.Text.Quoted

/-! Notices: what the library has to say about a header without refusing it. -/
namespace AnnotatedHeader

inductive Level where
  | warn
  | debug
  | trace
  deriving DecidableEq, Repr

def Level.word : Level → String
  | .warn => "warn"
  | .debug => "debug"
  | .trace => "trace"

/-- Why a doc block documents nothing. -/
inductive Discard where
  | followedByBlock
  | nothingFollows
  | onNamespace
  | insideStatement
  deriving DecidableEq, Repr

def Discard.message : Discard → String
  | .followedByBlock => "discarding doc block, another block follows"
  | .nothingFollows => "discarding doc block, no declaration follows"
  | .onNamespace => "discarding doc block on namespace"
  | .insideStatement => "discarding doc block inside a statement"

/-- Why a statement declares nothing. -/
inductive SkipReason where
  | statement
  | anonymousRecord
  | unbalancedParameters
  | callExpression
  | outOfLine
  | macroInvocation
  deriving DecidableEq, Repr

def SkipReason.label : SkipReason → String
  | .statement => "statement"
  | .anonymousRecord => "anonymous record"
  | .unbalancedParameters => "unbalanced parameter list"
  | .callExpression => "call expression"
  | .outOfLine => "out-of-line definition"
  | .macroInvocation => "macro invocation"

/-- What is passed over in a scope. -/
inductive Skipped where
  | keyword (text : String)
  | macroCall (name : String)
  | namespaceAlias
  | statement (reason : SkipReason) (text : String)
  deriving DecidableEq, Repr

def Skipped.message : Skipped → String
  | .keyword text => s!"skipping \x60{text}\x60"
  | .macroCall name => s!"skipping macro invocation \x60{name}\x60"
  | .namespaceAlias => "skipping namespace alias"
  | .statement reason text => s!"skipping {reason.label} \x60{text}\x60"

inductive Notice where
  | unnamedFence (line : Nat)
  | unknownKind (line : Nat) (hint : String)
  | strayText (text : String)
  | openComment
  | surveyed (lines regions blocks : Nat)
  | discarded (line : Nat) (why : Discard)
  | skipped (line : Nat) (what : Skipped)
  | strayBrace (line : Nat)
  | openBody (path : String)
  | openSkippedBody
  | openInitializer
  | anonymous (line : Nat) (kind : Kind)
  | skippedVariant (text : String)
  | definitionKept (path : String) (line forwardLine : Nat)
  | replaced (path : String) (line earlierLine : Nat)
  | counted (symbols : Nat)
  | otherKind (line : Nat) (kind : Kind) (path target : String)
  | resolved (line : Nat) (path target : String)
  deriving DecidableEq, Repr

def Notice.level : Notice → Level
  | .unnamedFence .. | .unknownKind .. | .openComment | .strayBrace .. | .openBody ..
  | .openSkippedBody | .openInitializer | .otherKind .. => .warn
  | .surveyed .. | .discarded .. | .anonymous .. | .definitionKept .. | .replaced ..
  | .counted .. => .debug
  | .strayText .. | .skipped .. | .skippedVariant .. | .resolved .. => .trace

def Notice.message (file : String) : Notice → String
  | .unnamedFence line => s!"line {line}: snippet fence without a snippet name"
  | .unknownKind line hint => s!"line {line}: unknown cross-reference kind \x60{hint}\x60"
  | .strayText text => s!"unrecognised character {Text.quoted text}"
  | .openComment => "unterminated block comment"
  | .surveyed lines regions blocks =>
    s!"{file}: {lines} lines, {regions} regions, {blocks} doc blocks"
  | .discarded line why => s!"{file}:{line}: {why.message}"
  | .skipped line what => s!"{file}:{line}: {what.message}"
  | .strayBrace line => s!"{file}:{line}: stray \x60\x7d\x60"
  | .openBody path => s!"{file}: body of \x60{path}\x60 is not closed at end of input"
  | .openSkippedBody => s!"{file}: body is not closed at end of input"
  | .openInitializer => s!"{file}: initializer is not closed at end of input"
  | .anonymous line kind => s!"{file}:{line}: anonymous {kind.word} is not documented"
  | .skippedVariant text => s!"{file}: skipping enum entry \x60{text}\x60"
  | .definitionKept path line forwardLine =>
    s!"keeping definition of \x60{path}\x60 from line {line} over forward declaration on line " ++
      toString forwardLine
  | .replaced path line earlierLine =>
    s!"\x60{path}\x60 on line {line} replaces the declaration on line {earlierLine}"
  | .counted symbols => s!"{file}: {symbols} symbols"
  | .otherKind line kind path target =>
    s!"{file}:{line}: \x60{kind.word}: {path}\x60 resolves to \x60{target}\x60, " ++
      s!"which is not a {kind.word}"
  | .resolved line path target => s!"{file}:{line}: \x60{path}\x60 -> \x60{target}\x60"

end AnnotatedHeader
