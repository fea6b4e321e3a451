import Packrat.Bytes
import Packrat.Bisect
import Packrat.Text.Edit
import Packrat.Text.Lines
import Packrat.Text.Source
import Packrat.Footprint
import Packrat.Log
import Packrat.Regex.Basic
import Packrat.Regex.Token
import Packrat.Regex.Reader
import Packrat.Regex.Match
import Packrat.Comment
import Packrat.Scan
import Packrat.Binary64
import Packrat.Value
import Packrat.Expr.Basic
import Packrat.Expr.Token
import Packrat.Expr.Reader
import Packrat.Expr.Printer
import Packrat.Grammar.Basic
import Packrat.Grammar.Source
import Packrat.Grammar.Assembly
import Packrat.Tree.Subtree
import Packrat.Tree.Basic
import Packrat.Tree.Patch
import Packrat.Tree.Query
import Packrat.Tree.Printer
import Packrat.Tree.Json
import Packrat.Parse.State
import Packrat.Parse.Matcher
import Packrat.Parse.Parser
import Packrat.Document
import Packrat.Json.Basic
import Packrat.Json.Reader
import Packrat.Json.Printer
import Packrat.Path
import Packrat.Language
import Packrat.Workspace
import Packrat.Main
import Packrat.Proofs.Displacement
import Packrat.Proofs.Document.Batches
import Packrat.Proofs.Document.Freshness
import Packrat.Proofs.Document.Positions
import Packrat.Proofs.Document.Rejections
import Packrat.Proofs.Document.Reparse
import Packrat.Proofs.Document.Search
import Packrat.Proofs.Document.Spans
import Packrat.Proofs.Document.Texts
import Packrat.Proofs.Expr.Acceptance
import Packrat.Proofs.Footprint.Histories
import Packrat.Proofs.Grammar.Configs
import Packrat.Proofs.Grammar.Layout
import Packrat.Proofs.Grammar.LeftRecursion
import Packrat.Proofs.Parse.Account
import Packrat.Proofs.Parse.Alike
import Packrat.Proofs.Parse.Anew
import Packrat.Proofs.Parse.Derivation
import Packrat.Proofs.Parse.Entries
import Packrat.Proofs.Parse.Furthest
import Packrat.Proofs.Parse.Layout
import Packrat.Proofs.Parse.LongOpenings
import Packrat.Proofs.Parse.Nesting
import Packrat.Proofs.Parse.Numbers
import Packrat.Proofs.Parse.Parts
import Packrat.Proofs.Parse.Spliced
import Packrat.Proofs.Parse.Watch
import Packrat.Proofs.Scan.Direct
import Packrat.Proofs.Scan.Languages
import Packrat.Proofs.Scan.Settling
import Packrat.Proofs.Text.Lines
import Packrat.Proofs.Text.Sources
import Packrat.Proofs.Text.Trails
import Packrat.Proofs.Tree.Derived
import Packrat.Proofs.Tree.Displaced
import Packrat.Proofs.Tree.Extents
import Packrat.Proofs.Tree.Firm
import Packrat.Proofs.Tree.Graft
import Packrat.Proofs.Tree.Laziness
import Packrat.Proofs.Tree.Positions
