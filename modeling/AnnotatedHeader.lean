import AnnotatedHeader.CommandLine.FileTree
import AnnotatedHeader.Document.Build
import AnnotatedHeader.Document.Header
import AnnotatedHeader.Document.Json
import AnnotatedHeader.Main
import AnnotatedHeader.Proofs.CommandLine.KeepGoing
import AnnotatedHeader.Proofs.CommentBlock.Partition
import AnnotatedHeader.Proofs.Declaration.Forest
import AnnotatedHeader.Proofs.Declaration.Traversal
import AnnotatedHeader.Proofs.DocBlock.Filling
import AnnotatedHeader.Proofs.DocBlock.References
import AnnotatedHeader.Proofs.Document.Additions
import AnnotatedHeader.Proofs.Document.Comments
import AnnotatedHeader.Proofs.Document.Complete
import AnnotatedHeader.Proofs.Document.Directives
import AnnotatedHeader.Proofs.Document.Export
import AnnotatedHeader.Proofs.Document.FunctionLines
import AnnotatedHeader.Proofs.Document.Hosts
import AnnotatedHeader.Proofs.Document.Json
import AnnotatedHeader.Proofs.Document.Kept
import AnnotatedHeader.Proofs.Document.Labels
import AnnotatedHeader.Proofs.Document.LineEnds
import AnnotatedHeader.Proofs.Document.Markers
import AnnotatedHeader.Proofs.Document.ProxyFaults
import AnnotatedHeader.Proofs.Document.Signatures
import AnnotatedHeader.Proofs.Document.Unplaced
import AnnotatedHeader.Proofs.EnumBody
import AnnotatedHeader.Proofs.IgnoredText
import AnnotatedHeader.Proofs.Metadata.Cuts
import AnnotatedHeader.Proofs.Metadata.RoundTrip
import AnnotatedHeader.Proofs.Numbering.Fragments
import AnnotatedHeader.Proofs.Numbering.Positions
import AnnotatedHeader.Proofs.Numbering.Relative
import AnnotatedHeader.Proofs.Region.Acceptance
import AnnotatedHeader.Proofs.Region.Contents
import AnnotatedHeader.Proofs.Resolution.Docs
import AnnotatedHeader.Proofs.Resolution.Meaning
import AnnotatedHeader.Proofs.Scope.Blame
import AnnotatedHeader.Proofs.Scope.Blocks
import AnnotatedHeader.Proofs.Scope.Bodies
import AnnotatedHeader.Proofs.Scope.Constructors
import AnnotatedHeader.Proofs.Scope.Forest
import AnnotatedHeader.Proofs.Scope.Grouping
import AnnotatedHeader.Proofs.Scope.Macros
import AnnotatedHeader.Proofs.Scope.Names
import AnnotatedHeader.Proofs.Scope.Namespaces
import AnnotatedHeader.Proofs.Scope.Passes
import AnnotatedHeader.Proofs.Scope.Pauses
import AnnotatedHeader.Proofs.Scope.Templates
import AnnotatedHeader.Proofs.Scope.TurnCut
import AnnotatedHeader.Proofs.SourceLine.DirectiveForms
import AnnotatedHeader.Proofs.SourceLine.IgnoredBlocks
import AnnotatedHeader.Proofs.SourceLine.Offsets
import AnnotatedHeader.Proofs.Statement.ByPlace.Heads
import AnnotatedHeader.Proofs.Statement.Parameters
import AnnotatedHeader.Proofs.Statement.Variables
import AnnotatedHeader.Proofs.Token.Account
import AnnotatedHeader.Proofs.Token.Joined
import AnnotatedHeader.Proofs.Token.LineByLine
import AnnotatedHeader.Proofs.Token.Places
import AnnotatedHeader.Settings.File
