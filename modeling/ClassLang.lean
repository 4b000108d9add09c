import ClassLang.Main
import ClassLang.Session
import ClassLang.Proofs.ViablePrefix
import ClassLang.Proofs.Acceptance
import ClassLang.Proofs.Brackets
import ClassLang.Proofs.RoundTrip
import ClassLang.Proofs.NearestIf
import ClassLang.Proofs.Partition
import ClassLang.Proofs.FirstPiece
import ClassLang.Proofs.Spelling
import ClassLang.Proofs.Nesting.Script
import ClassLang.Proofs.Nesting.Tally
import ClassLang.Proofs.Nesting.Limit
import ClassLang.Proofs.Nesting
import ClassLang.Proofs.Calls
import ClassLang.Proofs.Fault
import ClassLang.Proofs.Lookahead
import ClassLang.Proofs.Boundary
import ClassLang.Proofs.Parallel
import ClassLang.Proofs.Concatenation
import ClassLang.Proofs.Layout
import ClassLang.Proofs.Truncation
import ClassLang.Proofs.Lines
import ClassLang.Proofs.Rendering
import ClassLang.Proofs.Trace
import ClassLang.Proofs.CommandLine.Standard
import ClassLang.Proofs.CommandLine
import ClassLang.Proofs.Height
import ClassLang.Proofs.Grouping
import ClassLang.Proofs.Grouping.Chain
import ClassLang.Proofs.Grouping.Reading
import ClassLang.Proofs.Precedence
import ClassLang.Proofs.Commas
import ClassLang.Proofs.Locations
import ClassLang.Proofs.Messages
import ClassLang.Proofs.Words
import ClassLang.Proofs.Recovery
import ClassLang.Proofs.Integers
import ClassLang.Proofs.SharedLog
import ClassLang.Proofs.Dump.Quoted
import ClassLang.Proofs.Dump.Document
import ClassLang.Proofs.Dump.Collapse
import ClassLang.Proofs.Dump.Indentation
import ClassLang.Proofs.Dump.Tree
import ClassLang.Proofs.LongestMatch
import ClassLang.Proofs.Progress.Routine
import ClassLang.Proofs.Progress.Descent
import ClassLang.Proofs.Progress
