import LoxLexer.Fault.Snippet
import LoxLexer.Main
import LoxLexer.Scan
import LoxLexer.Proofs.MaximalSegment
import LoxLexer.Proofs.ScanOutput
import LoxLexer.Proofs.TextClass
import LoxLexer.Proofs.LongestCut
import LoxLexer.Proofs.FaultAutomaton
import LoxLexer.Proofs.Concatenation
import LoxLexer.Proofs.TokenLayout
import LoxLexer.Proofs.FaultRecovery
import LoxLexer.Proofs.PromptLines
import LoxLexer.Proofs.SourceLines
import LoxLexer.Proofs.LineLookup
import LoxLexer.Proofs.SnippetRows
import LoxLexer.Proofs.CaretPlacement
import LoxLexer.Proofs.FaultLines
import LoxLexer.Proofs.RenderedRows
import LoxLexer.Proofs.SessionOutput
import LoxLexer.Proofs.PrettySession
import LoxLexer.Proofs.PromptAgreement
import LoxLexer.Proofs.ByteCursor
import LoxLexer.Proofs.CursorInvariant
import LoxLexer.Proofs.CursorRun
import LoxLexer.Proofs.Lookahead
import LoxLexer.Proofs.HiddenContents
import LoxLexer.Proofs.PrintedTokens
import LoxLexer.Proofs.JoinedTokens
import LoxLexer.Proofs.TokenLines
import LoxLexer.Proofs.ReporterIndependence
import LoxLexer.Proofs.MagnitudeOrder
import LoxLexer.Proofs.NearestBinary64
import LoxLexer.Proofs.NumberLiterals
import LoxLexer.Proofs.ShortestNumeral
import LoxLexer.Proofs.NumberRoundTrip
