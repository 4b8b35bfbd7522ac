import Fixity.Bytes
import Fixity.Command
import Fixity.Config.Read
import Fixity.Document
import Fixity.Expr.Same
import Fixity.Expr.Source
import Fixity.Expr.Walk
import Fixity.Frame.Raw
import Fixity.Main
import Fixity.Parse
import Fixity.Proofs.Decimal.Numeral
import Fixity.Proofs.Decimal.Overflow
import Fixity.Proofs.Document.Rebuild
import Fixity.Proofs.Document.RoundTrip
import Fixity.Proofs.Document.Row
import Fixity.Proofs.Expr.Built
import Fixity.Proofs.Expr.Nodes
import Fixity.Proofs.Expr.Same
import Fixity.Proofs.Expr.Segments
import Fixity.Proofs.Json.Digits
import Fixity.Proofs.Json.Escape
import Fixity.Proofs.Json.Read
import Fixity.Proofs.Language
import Fixity.Proofs.LevelOrder
import Fixity.Proofs.Parse.Complete
import Fixity.Proofs.Parse.Feed
import Fixity.Proofs.Parse.Grouping
import Fixity.Proofs.Parse.Result
import Fixity.Proofs.Parse.Sound
import Fixity.Proofs.Parse.Source
import Fixity.Proofs.RoundTrip
import Fixity.Proofs.Segment
import Fixity.Proofs.Table
import Fixity.Proofs.Table.Ranked
import Fixity.Proofs.Table.SameOrder
import Fixity.Proofs.Text.Utf8
import Fixity.Proofs.Token.Lexeme
import Fixity.Proofs.Token.Scan
import Fixity.Proofs.Unambiguous
import Fixity.Report
import Fixity.RoundTrip
import Fixity.Table
import Fixity.Token.Scan
import Fixity.Proofs.FirstError
import Fixity.Proofs.Document.Unfold
import Fixity.Proofs.Document.Tree
import Fixity.Proofs.Config
import Fixity.Proofs.Parse.Parsed
import Fixity.Proofs.Stored
import Fixity.Proofs.Token.Place
import Fixity.Proofs.Token.Leaf
import Fixity.Proofs.Extension
import Fixity.Proofs.Text.Lines
import Fixity.Proofs.Formatted
import Fixity.Proofs.TokenOrder
import Fixity.Proofs.Expr.Spelling
import Fixity.Proofs.WellFormed
import Fixity.Proofs.Minimal
import Fixity.Proofs.Parse.Descent
import Fixity.Proofs.Parse.Agreement
import Fixity.Proofs.Session
import Fixity.Proofs.Token.Longest
import Fixity.Proofs.Token.Layout
import Fixity.Proofs.Table.Listing
import Fixity.Proofs.Outcomes
import Fixity.Proofs.Overrides
import Fixity.Proofs.Registry
import Fixity.Proofs.Expr.Walk
import Fixity.Proofs.Parse.Moved
import Fixity.Proofs.Transcript
import Fixity.Proofs.Linewise
import Fixity.Proofs.Expr.Comparison
import Fixity.Proofs.Document.Levels
import Fixity.Proofs.Document.BreadthFirst
