import Retrieval.Cursor
import Retrieval.Decimal.Shortest
import Retrieval.Decimal.Text
import Retrieval.Fault
import Retrieval.Index
import Retrieval.Json.Form
import Retrieval.Json.Numeral
import Retrieval.Json.Postings
import Retrieval.Json.Queries
import Retrieval.Json.Rankings
import Retrieval.Json.Settings
import Retrieval.Json.Token
import Retrieval.Json.Value
import Retrieval.Operator
import Retrieval.Posting
import Retrieval.Proofs.Bookkeeping
import Retrieval.Proofs.Bounded
import Retrieval.Proofs.Cursor.Common
import Retrieval.Proofs.Cursor.Laws
import Retrieval.Proofs.Cursor.Searches
import Retrieval.Proofs.Double.Naturals
import Retrieval.Proofs.Double.Rounding
import Retrieval.Proofs.Double.Values
import Retrieval.Proofs.Exact
import Retrieval.Proofs.Exact.Order
import Retrieval.Proofs.Index.Accepted
import Retrieval.Proofs.Index.History
import Retrieval.Proofs.Index.Refused
import Retrieval.Proofs.Index.Statistics
import Retrieval.Proofs.Json.Form
import Retrieval.Proofs.Json.Numeral
import Retrieval.Proofs.Json.RoundTrip
import Retrieval.Proofs.Json.Token
import Retrieval.Proofs.Json.Value
import Retrieval.Proofs.Offers
import Retrieval.Proofs.Outcome
import Retrieval.Proofs.Postings
import Retrieval.Proofs.Proximity.Closed
import Retrieval.Proofs.Proximity.Families
import Retrieval.Proofs.Proximity.Guarded
import Retrieval.Proofs.Proximity.Hits
import Retrieval.Proofs.Proximity.Loop
import Retrieval.Proofs.Proximity.Merge
import Retrieval.Proofs.Proximity.Near
import Retrieval.Proofs.Proximity.Permuted
import Retrieval.Proofs.Proximity.Window
import Retrieval.Proofs.Query.Rearranged
import Retrieval.Proofs.Query.Reweighed
import Retrieval.Proofs.Query.Shares
import Retrieval.Proofs.Query.WellFormed
import Retrieval.Proofs.Ranking.Best
import Retrieval.Proofs.Ranking.Canonical
import Retrieval.Proofs.Ranking.Refused
import Retrieval.Proofs.Ranking.Sort
import Retrieval.Proofs.Records
import Retrieval.Proofs.Scoring.Built
import Retrieval.Proofs.Scoring.Drain
import Retrieval.Proofs.Scoring.Formulas
import Retrieval.Proofs.Scoring.Leaves
import Retrieval.Proofs.Scoring.Matching
import Retrieval.Proofs.Scoring.Plan
import Retrieval.Proofs.Scoring.Probability
import Retrieval.Proofs.Scoring.Reweighed
import Retrieval.Proofs.Scoring.Rising
import Retrieval.Proofs.Scoring.Scores
import Retrieval.Proofs.Scoring.Traversal
import Retrieval.Proofs.Search.Boolean
import Retrieval.Proofs.Search.Faults
import Retrieval.Proofs.Search.OnePath
import Retrieval.Proofs.Search.Rearranged
import Retrieval.Proofs.Search.Run
import Retrieval.Proofs.Search.Total
import Retrieval.Proofs.Search.Wrapped
import Retrieval.Proofs.Source.Bounds
import Retrieval.Proofs.Source.Fields
import Retrieval.Proofs.Source.Formed
import Retrieval.Proofs.Source.OfQuery
import Retrieval.Proofs.Tally
import Retrieval.Proofs.Text.Bytes
import Retrieval.Proximity.Locations
import Retrieval.Proximity.Merge
import Retrieval.Query
import Retrieval.Ranking
import Retrieval.Scalar
import Retrieval.Scoring.Bm25
import Retrieval.Scoring.Boolean
import Retrieval.Scoring.Indri
import Retrieval.Scoring.Model
import Retrieval.Scoring.Score
import Retrieval.Scoring.Scorer
import Retrieval.Scoring.Tree
import Retrieval.Scoring.TreeOfQuery
import Retrieval.Search
import Retrieval.Source
import Retrieval.Source.OfQuery
import Retrieval.Text.LowerCase
import Retrieval.Text.LowerCase.Table
import Retrieval.Text.Quoted
import Retrieval.Text.Quoted.Table
import Retrieval.Text.Ranges
import Retrieval.Text.Tokens
import Retrieval.Traversal
import Retrieval.Version
