import Scriptlet.CommandLine.Arguments
import Scriptlet.CommandLine.Clock
import Scriptlet.CommandLine.Directory
import Scriptlet.CommandLine.Respond
import Scriptlet.Fault
import Scriptlet.Frames
import Scriptlet.Grammar.Complaint
import Scriptlet.Grammar.Cursor
import Scriptlet.Grammar.Expression
import Scriptlet.Grammar.Program
import Scriptlet.Grammar.Statement
import Scriptlet.Machine
import Scriptlet.Machine.Evaluate
import Scriptlet.Machine.Execute
import Scriptlet.Machine.Operation
import Scriptlet.Machine.Output
import Scriptlet.Main
import Scriptlet.Number.Decimal
import Scriptlet.Number.Remainder
import Scriptlet.Number.Shortest
import Scriptlet.Proofs.Canonical
import Scriptlet.Proofs.ExactReading
import Scriptlet.Proofs.ExpressionReading
import Scriptlet.Proofs.StatementReading
import Scriptlet.Proofs.ProgramReading
import Scriptlet.Proofs.LexemeShapes
import Scriptlet.Proofs.Limits
import Scriptlet.Proofs.Recasting
import Scriptlet.Proofs.Placing
import Scriptlet.Proofs.Rounding
import Scriptlet.Proofs.Spelling
import Scriptlet.Proofs.LayoutReading
import Scriptlet.Report
import Scriptlet.Session
import Scriptlet.Settings
import Scriptlet.Settings.Json
import Scriptlet.Text.Blank
import Scriptlet.Text.LineTable
import Scriptlet.Text.Position
import Scriptlet.Text.Quoted
import Scriptlet.Text.Unprintable
import Scriptlet.Token
import Scriptlet.Token.Lexeme
import Scriptlet.Token.Scan
import Scriptlet.Tree
import Scriptlet.Tree.Layout
import Scriptlet.Tree.Nodes
import Scriptlet.Value
import Scriptlet.Proofs.NumberText
import Scriptlet.Proofs.RoundTrip
import Scriptlet.Proofs.Evolution
import Scriptlet.Proofs.Timed
import Scriptlet.Proofs.Termination
import Scriptlet.Proofs.Plans
import Scriptlet.Proofs.Restoration
import Scriptlet.Proofs.FrameForest
import Scriptlet.Proofs.ScopeHygiene
import Scriptlet.Proofs.FrameChains
import Scriptlet.Proofs.Provenance
import Scriptlet.Proofs.Renaming
import Scriptlet.Proofs.Pairing
import Scriptlet.Proofs.Lockstep
import Scriptlet.Proofs.RenamedTrees
import Scriptlet.Proofs.Isolation
import Scriptlet.Proofs.Relocation
import Scriptlet.Proofs.PrintedRuns
import Scriptlet.Proofs.LineBreaks
import Scriptlet.Proofs.Returns
import Scriptlet.Proofs.JoinedTexts
import Scriptlet.Proofs.ParseSteps
import Scriptlet.Proofs.Diagnostics
import Scriptlet.Proofs.Groupings
import Scriptlet.Proofs.LongestMatch
import Scriptlet.Proofs.Descent
import Scriptlet.Proofs.Progress
import Scriptlet.Proofs.DescentRuns
import Scriptlet.Proofs.DescentAgreement
import Scriptlet.Proofs.ParsingEnds
import Scriptlet.Proofs.Contracts
import Scriptlet.Proofs.MatchingBraces
import Scriptlet.Proofs.Braces
import Scriptlet.Proofs.ReturnPlaces
import Scriptlet.Proofs.LoopLimit
import Scriptlet.Proofs.CutOutput
import Scriptlet.Proofs.Padding
import Scriptlet.Proofs.PaddedRuns
import Scriptlet.Proofs.ForLoops
import Scriptlet.Proofs.NearestBinding
import Scriptlet.Proofs.JoinedTokens
import Scriptlet.Proofs.FunctionFlow
import Scriptlet.Proofs.BuiltinNames
import Scriptlet.Proofs.FunctionOrigins
import Scriptlet.Proofs.FunctionIdentity
import Scriptlet.Proofs.BytePositions
import Scriptlet.Proofs.Rescanning
import Scriptlet.Proofs.ErrorOrder
import Scriptlet.Proofs.BehindEnd
import Scriptlet.Proofs.Resynchronization
import Scriptlet.Proofs.ParenthesizedText
import Scriptlet.Proofs.WalkOrder
import Scriptlet.Proofs.AppendedEnd
