import ProcedureIndex.Completion.Catalog
import ProcedureIndex.Completion.Complete
import ProcedureIndex.Completion.Context
import ProcedureIndex.Completion.Generator
import ProcedureIndex.Completion.Habits
import ProcedureIndex.Completion.ListCache
import ProcedureIndex.Completion.Offer
import ProcedureIndex.Completion.Rank
import ProcedureIndex.Completion.Suggestion
import ProcedureIndex.Config
import ProcedureIndex.Diagnostic.Basic
import ProcedureIndex.Diagnostic.Brackets
import ProcedureIndex.Diagnostic.Duplicates
import ProcedureIndex.Document.Annotations
import ProcedureIndex.Document.Header
import ProcedureIndex.Document.Keyword
import ProcedureIndex.Document.Parse
import ProcedureIndex.Fault
import ProcedureIndex.Grouping
import ProcedureIndex.Host
import ProcedureIndex.Navigation.Hover
import ProcedureIndex.Navigation.Outline
import ProcedureIndex.Navigation.Reference
import ProcedureIndex.Navigation.Resolve
import ProcedureIndex.Symbol.Basic
import ProcedureIndex.Symbol.Table
import ProcedureIndex.Text.Basic
import ProcedureIndex.Text.CaseTable
import ProcedureIndex.Text.Classes
import ProcedureIndex.Text.Code
import ProcedureIndex.Text.CodeMask
import ProcedureIndex.Text.Ident
import ProcedureIndex.Text.IdentTable
import ProcedureIndex.Text.Lines
import ProcedureIndex.Text.Lowercase
import ProcedureIndex.Text.Pattern
import ProcedureIndex.Text.Similarity
import ProcedureIndex.Workspace.Access
import ProcedureIndex.Workspace.Basic
import ProcedureIndex.Workspace.Disk
import ProcedureIndex.Workspace.Loader
import ProcedureIndex.Workspace.Memory
import ProcedureIndex.Workspace.Path
import ProcedureIndex.Workspace.Snapshot
import ProcedureIndex.Workspace.Stamp
import ProcedureIndex.Proofs.Workspace.Interleaving
import ProcedureIndex.Proofs.Workspace.Coherence
import ProcedureIndex.Proofs.Workspace.Scanning
import ProcedureIndex.Proofs.Host.Operations
import ProcedureIndex.Proofs.Host.Shadowing
import ProcedureIndex.Proofs.Document.Headers
import ProcedureIndex.Proofs.Document.SymbolPlaces
import ProcedureIndex.Proofs.Document.Canonical
import ProcedureIndex.Proofs.Text.Keywords
import ProcedureIndex.Proofs.Document.Recognition
import ProcedureIndex.Proofs.Text.Braces
import ProcedureIndex.Proofs.Document.CanonicalLines
import ProcedureIndex.Proofs.Document.CanonicalText
import ProcedureIndex.Proofs.Document.RoundTrip
import ProcedureIndex.Proofs.Workspace.Refreshing
import ProcedureIndex.Proofs.Text.Stops
import ProcedureIndex.Proofs.Document.FnSearch
import ProcedureIndex.Proofs.Document.ClassBodies
import ProcedureIndex.Proofs.Document.Scans
import ProcedureIndex.Proofs.Navigation.Targets
import ProcedureIndex.Proofs.Diagnostic.Repetition
import ProcedureIndex.Proofs.Completion.SortKeys
import ProcedureIndex.Proofs.Completion.ValuesInUse
import ProcedureIndex.Proofs.Completion.TimedLists
import ProcedureIndex.Proofs.Completion.AcceptanceLog
import ProcedureIndex.Proofs.Workspace.Visits
import ProcedureIndex.Proofs.Host.RepeatedRequests
import ProcedureIndex.Proofs.Text.Stretches
import ProcedureIndex.Proofs.Document.LinesBelow
import ProcedureIndex.Proofs.Document.CommentLines
import ProcedureIndex.Proofs.Document.ClassReach
import ProcedureIndex.Proofs.Document.Overloads
import ProcedureIndex.Proofs.Navigation.VersionedCalls
import ProcedureIndex.Proofs.Diagnostic.BlankedText
import ProcedureIndex.Proofs.Text.LineEnds
import ProcedureIndex.Proofs.Document.ReturnedScans
import ProcedureIndex.Proofs.Document.LineEndings
import ProcedureIndex.Proofs.Workspace.NewestTexts
import ProcedureIndex.Proofs.Host.Invalidation
import ProcedureIndex.Proofs.Workspace.Settling
import ProcedureIndex.Proofs.Host.ClosedDocuments
import ProcedureIndex.Proofs.Completion.LocalNames
import ProcedureIndex.Proofs.Completion.Merging
import ProcedureIndex.Proofs.Workspace.Cancellation
import ProcedureIndex.Proofs.Workspace.Identity
import ProcedureIndex.Proofs.Host.CancelledScans
import ProcedureIndex.Proofs.Symbol.LabelPlaces
import ProcedureIndex.Proofs.Navigation.SingleTable
import ProcedureIndex.Proofs.Navigation.Precedence
import ProcedureIndex.Proofs.Workspace.WarmUp
import ProcedureIndex.Proofs.Text.Identifiers
import ProcedureIndex.Proofs.Navigation.ReferencePlaces
import ProcedureIndex.Proofs.Navigation.ReferenceSearch
import ProcedureIndex.Proofs.Text.ByteOrder
import ProcedureIndex.Proofs.Navigation.DeclarationPlaces
import ProcedureIndex.Proofs.Completion.RankOrder
import ProcedureIndex.Proofs.Completion.Promotion
import ProcedureIndex.Proofs.Completion.Favourites
import ProcedureIndex.Proofs.Diagnostic.FirstOfKey
import ProcedureIndex.Proofs.Diagnostic.DeclarationOrder
import ProcedureIndex.Proofs.Diagnostic.BracketRepair
import ProcedureIndex.Proofs.Document.AnnotationLines
import ProcedureIndex.Proofs.Completion.CursorContext
import ProcedureIndex.Proofs.Completion.EnclosingCall
import ProcedureIndex.Proofs.Completion.EnclosingFunction
import ProcedureIndex.Proofs.Completion.QuotedValues
import ProcedureIndex.Proofs.Text.Offsets
import ProcedureIndex.Proofs.Document.KeywordPlaces
import ProcedureIndex.Proofs.Navigation.DeclaredNames
import ProcedureIndex.Proofs.Text.LineMasks
import ProcedureIndex.Proofs.Text.BracePairs
import ProcedureIndex.Proofs.Navigation.OutlineOrder
import ProcedureIndex.Proofs.Text.SmallLetters
import ProcedureIndex.Proofs.Navigation.VerbatimQueries
import ProcedureIndex.Proofs.Text.IdentifierRuns
import ProcedureIndex.Proofs.Symbol.Insertions
