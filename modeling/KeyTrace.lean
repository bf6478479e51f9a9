import KeyTrace.Command.Run
import KeyTrace.Editor.Document
import KeyTrace.Editor.KeyPath
import KeyTrace.Files.Session
import KeyTrace.Output.Json
import KeyTrace.Output.Log
import KeyTrace.Scope.Listing
import KeyTrace.Proofs.Analysis.Comments
import KeyTrace.Proofs.Analysis.Escapes
import KeyTrace.Proofs.Analysis.Failures
import KeyTrace.Proofs.Analysis.Mapping
import KeyTrace.Proofs.Analysis.Namespaces
import KeyTrace.Proofs.Analysis.Order
import KeyTrace.Proofs.Analysis.Ranges
import KeyTrace.Proofs.Analysis.Requests
import KeyTrace.Proofs.Analysis.Spans
import KeyTrace.Proofs.Analysis.Templates
import KeyTrace.Proofs.Analysis.Winners
import KeyTrace.Proofs.Analysis.Wrapped
import KeyTrace.Proofs.Command.Documents
import KeyTrace.Proofs.Editor.KeyPaths
import KeyTrace.Proofs.Editor.Snippets
import KeyTrace.Proofs.Files.Projects
import KeyTrace.Proofs.Files.Snapshots
import KeyTrace.Proofs.Files.Walks
import KeyTrace.Proofs.Fold.Arrays
import KeyTrace.Proofs.Fold.Cycles
import KeyTrace.Proofs.Fold.Erasure
import KeyTrace.Proofs.Fold.Longhand
import KeyTrace.Proofs.Fold.Records
import KeyTrace.Proofs.Fold.Refinement
import KeyTrace.Proofs.Fold.Shadowing
import KeyTrace.Proofs.Fold.Templates
import KeyTrace.Proofs.Grammar.Apart
import KeyTrace.Proofs.Literal.LineEnds
import KeyTrace.Proofs.Literal.StringValue
import KeyTrace.Proofs.Scope.Parameters
import KeyTrace.Proofs.Scope.Patterns
import KeyTrace.Proofs.Scope.Resolution
import KeyTrace.Proofs.Scope.Sessions
import KeyTrace.Proofs.Text.Offsets
