import AnnotatedHeader.Declaration.Docs
import AnnotatedHeader.Document
import AnnotatedHeader.Region
import AnnotatedHeader.Resolution
import AnnotatedHeader.Scope.Read
import AnnotatedHeader.SourceLine.Classify

/-! Building a document from a header.

What the code declares is completed in three steps: each marker of an inject gets
the member its proxy describes, each cross-reference its target, and each example
the text of its snippet. -/
namespace AnnotatedHeader

namespace Declaration

mutual

/-- The tree with one more member at the end of the first declaration at `path`. -/
def withMember? (path : String) (member : Declaration) : Declaration → Option Declaration
  | ⟨own, members⟩ =>
    if own.path == path then some ⟨own, members ++ [member]⟩
    else if own.path.toList.isPrefixOf path.toList then
      (withMemberAmong? path member members).map fun ms => ⟨own, ms⟩
    else none

def withMemberAmong? (path : String) (member : Declaration) :
    List Declaration → Option (List Declaration)
  | [] => none
  | d :: ds =>
    match withMember? path member d with
    | some d' => some (d' :: ds)
    | none => (withMemberAmong? path member ds).map (d :: ·)

end

/-- The member that a proxy describes in the record at `site.owner`. -/
def ofProxy (proxy : Region) (doc : Option DocBlock) (site : InjectSite) : Outcome Declaration := do
  match proxy.firstLine? with
  | none => Outcome.fail proxy.line (.emptyProxy proxy.name)
  | some signature =>
    match ← Declaration.ofFragment proxy.text (proxy.line + 1) site.owner with
    | [] => Outcome.fail proxy.line (.emptyProxy proxy.name)
    | member :: _ =>
      return { member with line := site.line, visibility := .everyone, signature, doc, synthetic := true }

/-- The trees with the member that belongs at `site`. -/
def inject (regions : Regions) (docOf : String → Option DocBlock) (ds : List Declaration)
    (site : InjectSite) : Outcome (List Declaration) := do
  match regions.get? .proxy site.proxy with
  | none => Outcome.fail site.line (.missingProxy site.proxy site.owner)
  | some proxy =>
    let member ← ofProxy proxy (docOf proxy.name) site
    match withMemberAmong? site.owner member ds with
    | some ds => return ds
    | none => Outcome.fail site.line (.misplacedInject site.proxy)

end Declaration

/-! ### Examples -/

/-- An example that has its code keeps it. -/
def Segment.fill (regions : Regions) (referrer : String) : Segment → Outcome Segment
  | .markdown text => return .markdown text
  | .shown x =>
    if x.code.isSome then return .shown x
    else
      match regions.get? .snippet x.snippet with
      | some snippet => return .shown { x with code := some snippet.text }
      | none => Outcome.fail x.line (.missingSnippet x.snippet referrer)

def DocBlock.fill (regions : Regions) (b : DocBlock) (context : String) : Outcome DocBlock := do
  return { b with segments := ← b.segments.mapM (Segment.fill regions context) }

namespace Document

/-- The document of what a header declares; `docOf` gives the doc block of a proxy. -/
def build (file : String) (found : Scope.Contents) (regions : Regions)
    (docOf : String → Option DocBlock) : Outcome Document := do
  let declarations ← found.injects.foldlM (Declaration.inject regions docOf) found.declarations
  let table := SymbolTable.ofTrees declarations
  Outcome.note (.counted table.size)
  let declarations ← Declaration.mapDocsAll table.resolveDoc declarations
  let declarations ← Declaration.mapDocsAll (DocBlock.fill regions) declarations
  return ⟨file, declarations, (regions.ofKind .snippet).map fun r => (r.name, r.text)⟩

/-- The blocks that document proxies. -/
def proxyBlocks (blocks : List CommentBlock) : List CommentBlock := blocks.filter (·.proxy.isSome)

/-- The doc block of a proxy: the last one right before its opening marker. -/
def proxyDoc? (blocks : List CommentBlock) (proxy : String) : Option DocBlock :=
  (blocks.reverse.find? fun b => b.proxy == some proxy).map (·.toDoc)

/-- The document of a header. -/
def ofSource (file source : String) : Outcome Document := do
  let lines ← Outcome.ofExcept (SourceLine.classify (Text.withoutMark source))
  let regions ← Outcome.ofExcept (Regions.extract lines)
  let blocks := CommentBlock.group lines
  Outcome.note (.surveyed lines.length regions.size blocks.length)
  Outcome.noteAll ((proxyBlocks blocks).flatMap (·.notices))
  let found ← Scope.Contents.ofLines lines blocks
  build file found regions (proxyDoc? blocks)

end Document

end AnnotatedHeader
