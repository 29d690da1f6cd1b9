import AnnotatedHeader.Kind

/-! Faults: why a header cannot be documented.

A fault is a line and a cause; `Cause.message` is the one place that holds the
wording. -/
namespace AnnotatedHeader

/-- What a bracketed directive gets wrong. -/
inductive DirectiveFlaw where
  | missingName
  | invalidName
  | namedEnd
  | injectEnd
  | namedIgnore
  deriving DecidableEq, Repr

def DirectiveFlaw.message : DirectiveFlaw → String
  | .missingName => "missing name"
  | .invalidName => "invalid name"
  | .namedEnd => "end markers take no name"
  | .injectEnd => "inject has no end marker"
  | .namedIgnore => "ignore takes no name"

/-- What the arguments of a reflection macro get wrong. -/
inductive MetadataFlaw where
  | noOpening
  | noArguments
  | unbalanced
  | missingKey
  | missingValue (key : String)
  deriving DecidableEq, Repr

def MetadataFlaw.message : MetadataFlaw → String
  | .noOpening => "expected \x60(\x60"
  | .noArguments => "expected \x60(...)\x60"
  | .unbalanced => "unbalanced parentheses"
  | .missingKey => "missing key before \x60=\x60"
  | .missingValue key => s!"missing value for \x60{key}\x60"

/-- A stretch of lines between two markers. -/
inductive Span where
  | ignored
  | region (kind : RegionKind) (name : String)
  deriving DecidableEq, Repr

def Span.label : Span → String
  | .ignored => "ignore"
  | .region kind name => s!"\x60{kind.word}: {name}\x60"

/-- What stands where an annotation's declaration should. -/
inductive Follower where
  | reflection (macroName : String)
  | declaration (kind : Kind) (name : String)
  | statement (text : String)
  | endOfBody
  | endOfInput
  deriving DecidableEq, Repr

def Follower.label : Follower → String
  | .reflection macroName => s!"annotation \x60{macroName}\x60"
  | .declaration kind name => s!"{kind.word} \x60{name}\x60"
  | .statement text => s!"\x60{text}\x60"
  | .endOfBody => "end of body"
  | .endOfInput => "end of input"

inductive Cause where
  | unmatchedEnd (word : DirectiveWord)
  | unterminated (span : Span)
  | duplicateName (kind : RegionKind) (name : String) (firstLine : Nat)
  | nested (inner outer : Span) (outerLine : Nat)
  | malformedDirective (marker : String) (flaw : DirectiveFlaw)
  | insideIgnored (marker : String) (ignoreLine : Nat)
  | malformedMetadata (macroName : String) (flaw : MetadataFlaw)
  | orphaned (macroName : String) (found : Follower)
  | unresolved (path referrer : String)
  | ambiguous (path referrer : String) (candidates : List String)
  | missingSnippet (snippet referrer : String)
  | missingProxy (proxy owner : String)
  | misplacedInject (proxy : String)
  | emptyProxy (proxy : String)
  deriving DecidableEq, Repr

def Cause.message : Cause → String
  | .unmatchedEnd word => s!"unmatched end marker \x60[/{word.word}]\x60"
  | .unterminated span => s!"unterminated region {span.label} (opened here)"
  | .duplicateName kind name firstLine =>
    s!"duplicate {kind.word} name \x60{name}\x60 (first defined on line {firstLine})"
  | .nested inner outer outerLine =>
    s!"nested region {inner.label} inside {outer.label} opened on line {outerLine}"
  | .malformedDirective marker flaw => s!"malformed marker \x60{marker}\x60: {flaw.message}"
  | .insideIgnored marker ignoreLine =>
    s!"marker \x60{marker}\x60 inside an ignore block opened on line {ignoreLine}"
  | .malformedMetadata macroName flaw =>
    s!"malformed metadata in \x60{macroName}\x60: {flaw.message}"
  | .orphaned macroName found =>
    s!"annotation \x60{macroName}\x60 is not followed by a matching declaration (found {found.label})"
  | .unresolved path referrer =>
    s!"unresolved reference \x60{path}\x60 in documentation of \x60{referrer}\x60"
  | .ambiguous path referrer candidates =>
    s!"ambiguous reference \x60{path}\x60 in documentation of \x60{referrer}\x60: candidates are " ++
      ", ".intercalate candidates
  | .missingSnippet snippet referrer =>
    s!"missing snippet \x60{snippet}\x60 referenced by \x60{referrer}\x60"
  | .missingProxy proxy owner => s!"missing proxy \x60{proxy}\x60 injected into \x60{owner}\x60"
  | .misplacedInject proxy =>
    s!"inject marker \x60{proxy}\x60 must appear directly inside a struct or class body"
  | .emptyProxy proxy => s!"proxy \x60{proxy}\x60 does not contain a declaration"

/-- A cause and the line that shows it. -/
structure Fault where
  line : Nat
  cause : Cause
  deriving DecidableEq, Repr

def Fault.message (file : String) (fault : Fault) : String :=
  s!"{file}:{fault.line}: {fault.cause.message}"

end AnnotatedHeader
