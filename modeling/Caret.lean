import Caret.Cancellation
import Caret.CommandLine.LogFormat
import Caret.Context.Description
import Caret.Json.Reader
import Caret.Main
import Caret.Table.Edit
import Caret.Text.Marker
import Caret.Proofs.NodePattern
import Caret.Proofs.Reading
import Caret.Proofs.ExpressionPatterns
import Caret.Proofs.DeclarationPatterns
import Caret.Proofs.PostOrder
import Caret.Proofs.ArenaTable
import Caret.Proofs.Planting
import Caret.Proofs.Building
import Caret.Proofs.Climbing
import Caret.Proofs.BuiltExpressions
import Caret.Proofs.BuiltDeclarations
import Caret.Proofs.ArenaOfText
import Caret.Proofs.TokenOrder
import Caret.Proofs.TypedData
import Caret.Proofs.Frames
import Caret.Proofs.Lockstep
import Caret.Proofs.ExpressionLockstep
import Caret.Proofs.DeclarationLockstep
import Caret.Proofs.Ladder
import Caret.Proofs.Surroundings
import Caret.Proofs.Agreement
import Caret.Proofs.Answers
import Caret.Proofs.Continuation
import Caret.Proofs.Throughout
import Caret.Proofs.Endings
import Caret.Proofs.Stability
import Caret.Proofs.Registration
import Caret.Proofs.Isolation
import Caret.Proofs.Script
import Caret.Proofs.Service
import Caret.Proofs.AllOrNothing
import Caret.Proofs.Relocation
import Caret.Proofs.ParallelGrammar
import Caret.Proofs.SameTokens
import Caret.Proofs.Congruence
import Caret.Proofs.Formatting
import Caret.Proofs.Lineage
import Caret.Proofs.Depth
import Caret.Proofs.Tiling
import Caret.Proofs.Combinations
import Caret.Proofs.Receivers
import Caret.Proofs.WholePattern
import Caret.Proofs.CleanReading
import Caret.Proofs.CleanExpressions
import Caret.Proofs.CleanDeclarations
import Caret.Proofs.CleanText
import Caret.Proofs.Precedence
import Caret.Proofs.Grouping
import Caret.Proofs.ModifierTokens
import Caret.Proofs.SourceOrder
import Caret.Proofs.DeclarationOrder
import Caret.Proofs.Rereading
import Caret.Proofs.Consumption
import Caret.Proofs.LocalTypes
import Caret.Proofs.Scoping
import Caret.Proofs.Preselection
import Caret.Proofs.RoundTrip
import Caret.Proofs.DeclarationsSideBySide
import Caret.Proofs.UnclosedBlock
import Caret.Proofs.Extent
import Caret.Proofs.Enclosing
import Caret.Proofs.NameResolution
import Caret.Proofs.Confinement
import Caret.Proofs.FirstPart
import Caret.Proofs.TokenPerLine
import Caret.Proofs.Constructors
import Caret.Proofs.ContextualWords
import Caret.Proofs.Reports
import Caret.Proofs.BadCaret
import Caret.Proofs.NestingLimit
import Caret.Proofs.TypeTables
import Caret.Proofs.Navigation
