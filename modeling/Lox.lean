import Lox.Main
import Lox.Proofs.Lexical
import Lox.Proofs.Lockstep
import Lox.Proofs.Scoping
import Lox.Proofs.Cells
import Lox.Proofs.Twins
import Lox.Proofs.Objects
import Lox.Proofs.TwinRuns
import Lox.Proofs.ObjectRuns
import Lox.Proofs.StatementRuns
import Lox.Proofs.Agreement
import Lox.Proofs.Formed
import Lox.Proofs.ParsedTrees
import Lox.Proofs.Rules
import Lox.Proofs.Spelling
import Lox.Proofs.Distances
import Lox.Proofs.Sessions
import Lox.Proofs.Violations
import Lox.Proofs.JoinedText
import Lox.Proofs.Rejections
import Lox.Proofs.Recognition
import Lox.Proofs.Joining
import Lox.Proofs.Traced
import Lox.Proofs.Homes
import Lox.Proofs.Flows
import Lox.Proofs.TracedRuns
import Lox.Proofs.TracedTrees
import Lox.Proofs.TracedSessions
import Lox.Proofs.MaximalMunch
import Lox.Proofs.Evolution
import Lox.Proofs.NotedOnce
import Lox.Proofs.Writing
import Lox.Proofs.Cursor
import Lox.Proofs.Layout
import Lox.Proofs.Tiling
import Lox.Proofs.Fuel
import Lox.Proofs.Printing
import Lox.Proofs.Recorded
import Lox.Proofs.RecordedRuns
import Lox.Proofs.Truncation
import Lox.Proofs.SyntaxErrors
import Lox.Proofs.WalkOrder
import Lox.Proofs.Growth
import Lox.Proofs.Coverage
import Lox.Proofs.History
import Lox.Proofs.HistoryRuns
import Lox.Proofs.HistoryTrees
import Lox.Proofs.HistorySessions
import Lox.Proofs.Shapes
import Lox.Proofs.Forms
import Lox.Proofs.PrintedTrees
import Lox.Proofs.StaticDistances
import Lox.Proofs.Points
import Lox.Proofs.CallBoundary
import Lox.Proofs.LexicalFuel
import Lox.Proofs.ForLoops
import Lox.Proofs.FrameChains
import Lox.Proofs.TokenCursor
import Lox.Proofs.CursorRules
import Lox.Proofs.CursorParses
import Lox.Proofs.Operators
import Lox.Proofs.Effects
