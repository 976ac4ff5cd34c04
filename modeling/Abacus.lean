import Abacus.Binary64.Arithmetic
import Abacus.Binary64.Power
import Abacus.Decimal.Shortest
import Abacus.Decimal.Lenient
import Abacus.Text.Quoted
import Abacus.Text.Lines
import Abacus.Display
import Abacus.Json.Parser
import Abacus.Json.Whole
import Abacus.Schema.Expression
import Abacus.Preferences
import Abacus.Entry
import Abacus.Batch
import Abacus.CommandLine.Run
import Abacus.Main
import Abacus.Proofs.Except
import Abacus.Proofs.Expression.Literal
import Abacus.Proofs.Expression.Lexeme
import Abacus.Proofs.Expression.Evaluation
import Abacus.Proofs.Expression.Order
import Abacus.Proofs.Expression.Arithmetic
import Abacus.Proofs.Expression.Grammar
import Abacus.Proofs.Expression.Reference
import Abacus.Proofs.Expression.Acceptance
import Abacus.Proofs.Expression.Totality
import Abacus.Proofs.Expression.Parentheses
import Abacus.Proofs.Expression.Precedence
import Abacus.Proofs.Desk
import Abacus.Proofs.Preferences
import Abacus.Proofs.Files.Tree
import Abacus.Proofs.Records
import Abacus.Proofs.Session.Opening
import Abacus.Proofs.History
import Abacus.Proofs.Session.Calls
import Abacus.Proofs.Session.Runs
import Abacus.Proofs.Binary64.Order
import Abacus.Proofs.Binary64.Rounding
import Abacus.Proofs.Decimal.Shortest
import Abacus.Proofs.Decimal.Text
import Abacus.Proofs.Display
import Abacus.Proofs.Expression.Numeral
import Abacus.Proofs.Session.Percent
import Abacus.Proofs.History.Recording
import Abacus.Proofs.Preferences.Changes
import Abacus.Proofs.Records.Saving
import Abacus.Proofs.Files.Agreement
import Abacus.Proofs.Session.Reopening
import Abacus.Proofs.Session.Akin
import Abacus.Proofs.CommandLine.Tasks
import Abacus.Proofs.CommandLine.InTurn
import Abacus.Proofs.Records.Keys
import Abacus.Proofs.Clock
import Abacus.Proofs.Session.Restarts
import Abacus.Proofs.Files.Path
import Abacus.Proofs.Files.Depth
import Abacus.Proofs.Batch.Archive
import Abacus.Proofs.Text.Lines
import Abacus.Proofs.Batch.Results
import Abacus.Proofs.Batch.ResultsName
import Abacus.Proofs.Records.Loading
import Abacus.Proofs.Expression.Powers
import Abacus.Proofs.Decimal.Grid
import Abacus.Proofs.Display.Canonical
import Abacus.Proofs.Expression.Faults
import Abacus.Proofs.Expression.Placement
import Abacus.Proofs.Binary64.Nearest
import Abacus.Proofs.Decimal.Rounding
import Abacus.Proofs.Display.Rounded
import Abacus.Proofs.Expression.Balance
import Abacus.Proofs.Expression.Arrangement
import Abacus.Proofs.Expression.Forest
import Abacus.Proofs.Text.Trimmed
import Abacus.Proofs.Batch.Expressions
import Abacus.Proofs.Session.Identifiers
import Abacus.Proofs.Session.Typing
import Abacus.Proofs.Clock.Milliseconds
import Abacus.Proofs.Session.Instants
