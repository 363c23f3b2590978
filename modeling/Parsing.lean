import Parsing.Chart
import Parsing.Derivation.Dot
import Parsing.Forest.Unpack
import Parsing.Leftmost
import Parsing.Parse
import Parsing.Proofs.Tree
import Parsing.Rule.Line
import Parsing.Source.Load
import Parsing.Proofs.Fits
import Parsing.Proofs.Forest.Valid
import Parsing.Proofs.Parse.Grown
import Parsing.Proofs.Parse.Sound
import Parsing.Proofs.Parse.Closed
import Parsing.Proofs.Parse.Exact
import Parsing.Proofs.Parse.Language
import Parsing.Proofs.Parse.Packing
import Parsing.Proofs.Forest.Unfolding
import Parsing.Proofs.Forest.Covering
import Parsing.Proofs.Parse.Descent
import Parsing.Proofs.Parse.Coverage
import Parsing.Proofs.Forest.Spelling
import Parsing.Proofs.Parse.Binary
import Parsing.Proofs.Derivation
import Parsing.Proofs.Parse.Leaves
import Parsing.Proofs.Parse.Enumeration
import Parsing.Proofs.Forest.Leading
import Parsing.Proofs.Parse.First
import Parsing.Proofs.Forest.Following
import Parsing.Proofs.Parse.Counting
import Parsing.Proofs.Nullable
import Parsing.Proofs.Context
import Parsing.Proofs.Chart.Sound
import Parsing.Proofs.Chart.Closed
import Parsing.Proofs.Chart.Exact
import Parsing.Proofs.Chart.Valid
import Parsing.Proofs.Chart.Agreement
import Parsing.Proofs.Leftmost
import Parsing.Proofs.Acceptance
import Parsing.Proofs.Parse.Stages
import Parsing.Proofs.Parse.Bounds
import Parsing.Proofs.Chart.Reaches
import Parsing.Proofs.Chart.Shadowed
import Parsing.Proofs.Source.Lines
import Parsing.Proofs.Source.Lexeme
import Parsing.Proofs.Source.Reads
import Parsing.Proofs.Source.Reload
import Parsing.Proofs.Lexicon
import Parsing.Proofs.Parse.Order
import Parsing.Proofs.Rebuild
import Parsing.Proofs.Source.Parts
import Parsing.Proofs.Source.Joined
import Parsing.Proofs.Source.Failure
import Parsing.Proofs.Leftmost.Derivation
import Parsing.Proofs.Search.Finite
import Parsing.Proofs.Search.Distance
import Parsing.Proofs.Leftmost.Finite
import Parsing.Proofs.Leftmost.Shortest
import Parsing.Proofs.Search.DepthFirst
import Parsing.Forest.Store
import Parsing.Proofs.Chart.Prefix
import Parsing.Proofs.Forest.Store
import Parsing.Proofs.Forest.History
import Parsing.Proofs.Forest.Ending
import Parsing.Proofs.Nullable.Passes
import Parsing.Proofs.Grammar.Order
import Parsing.Proofs.Grammar.Table
import Parsing.Proofs.Derivation.Dot
import Parsing.Proofs.Rule.Line
import Parsing.Proofs.Parse.Offers
