import PlZero.CommandLine
import PlZero.CommandLine.Words
import PlZero.Expression
import PlZero.Fault
import PlZero.File
import PlZero.Grammar
import PlZero.Grammar.Reader
import PlZero.Json
import PlZero.Machine
import PlZero.Main
import PlZero.Number.Arithmetic
import PlZero.Number.Decimal
import PlZero.Number.Digits
import PlZero.Number.Floating
import PlZero.Number.Format
import PlZero.Number.Numeral
import PlZero.Number.Scale
import PlZero.Number.Shown
import PlZero.Number.Word
import PlZero.Position
import PlZero.Prompt
import PlZero.Proofs.ActionLaws
import PlZero.Proofs.ActiveCalls
import PlZero.Proofs.BlockBalance
import PlZero.Proofs.BlockBody
import PlZero.Proofs.BracketedTraces
import PlZero.Proofs.ClosingQuotes
import PlZero.Proofs.CoherentSessions
import PlZero.Proofs.CompleteMoments
import PlZero.Proofs.Completion
import PlZero.Proofs.CorrectPrefix
import PlZero.Proofs.DecimalReading
import PlZero.Proofs.DeepTree
import PlZero.Proofs.DocumentedFailures
import PlZero.Proofs.EntryPartition
import PlZero.Proofs.EntryPoints
import PlZero.Proofs.ErasedReading
import PlZero.Proofs.ErasedRuns
import PlZero.Proofs.ErasedShapes
import PlZero.Proofs.ExactOrder
import PlZero.Proofs.ExpressionGrouping
import PlZero.Proofs.FailingStatements
import PlZero.Proofs.FailureOrigins
import PlZero.Proofs.FaultPlaces
import PlZero.Proofs.FaultPositions
import PlZero.Proofs.FittingValues
import PlZero.Proofs.FloatRoundTrip
import PlZero.Proofs.FragmentReading
import PlZero.Proofs.HeldNumbers
import PlZero.Proofs.IntegerTexts
import PlZero.Proofs.KeptScopes
import PlZero.Proofs.LaidOutTrees
import PlZero.Proofs.LexemeReading
import PlZero.Proofs.LiteralValues
import PlZero.Proofs.LongestNumeral
import PlZero.Proofs.LosslessScanning
import PlZero.Proofs.MatchingRuns
import PlZero.Proofs.MixedComparisons
import PlZero.Proofs.NumeralTexts
import PlZero.Proofs.OpenedSequences
import PlZero.Proofs.Outcomes
import PlZero.Proofs.ParserImage
import PlZero.Proofs.Phrase
import PlZero.Proofs.PhraseContext
import PlZero.Proofs.PhraseDerives
import PlZero.Proofs.PhraseSplits
import PlZero.Proofs.PiecewiseRuns
import PlZero.Proofs.Productions
import PlZero.Proofs.ProgramEnding
import PlZero.Proofs.ProgramReading
import PlZero.Proofs.PromptSurvival
import PlZero.Proofs.RaisedFaults
import PlZero.Proofs.RationalRounding
import PlZero.Proofs.ReadShapes
import PlZero.Proofs.Reading
import PlZero.Proofs.Recognition
import PlZero.Proofs.RuleDiscipline
import PlZero.Proofs.RuleFollows
import PlZero.Proofs.RuleRuns
import PlZero.Proofs.RunBudgets
import PlZero.Proofs.RunFailures
import PlZero.Proofs.RunFaults
import PlZero.Proofs.RunPoints
import PlZero.Proofs.ScannerCalls
import PlZero.Proofs.ScannerProgress
import PlZero.Proofs.Scanning
import PlZero.Proofs.ScopeChanges
import PlZero.Proofs.ScopeGrowth
import PlZero.Proofs.ScopeStore
import PlZero.Proofs.SessionDiscipline
import PlZero.Proofs.SessionMoments
import PlZero.Proofs.ShortSupplies
import PlZero.Proofs.ShortestFloats
import PlZero.Proofs.SiblingOrder
import PlZero.Proofs.SignificantDigits
import PlZero.Proofs.Spelling
import PlZero.Proofs.Splits
import PlZero.Proofs.StatementFrame
import PlZero.Proofs.StreamScanning
import PlZero.Proofs.TreeDocuments
import PlZero.Proofs.TreeParts
import PlZero.Proofs.TreePositions
import PlZero.Proofs.TreeWriting
import PlZero.Proofs.TypedOutcomes
import PlZero.Proofs.Unrolling
import PlZero.Proofs.WellFormed
import PlZero.Proofs.WordArithmetic
import PlZero.Proofs.WrittenDecimals
import PlZero.Proofs.WrittenExpression
import PlZero.Proofs.WrittenProgram
import PlZero.Report
import PlZero.Scope
import PlZero.Session
import PlZero.Statement
import PlZero.SyntaxFault
import PlZero.Text.Blank
import PlZero.Text.Digit
import PlZero.Text.Hex
import PlZero.Text.Lines
import PlZero.Text.Order
import PlZero.Text.Printable
import PlZero.Text.Quoted
import PlZero.Text.Stream
import PlZero.Token
import PlZero.Token.Cursor
import PlZero.Token.Lexeme
import PlZero.Tree
import PlZero.Tree.Outline
import PlZero.Value
import PlZero.Value.Operations
