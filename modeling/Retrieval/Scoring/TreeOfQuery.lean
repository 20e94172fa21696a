import Retrieval.Scoring.Tree
import Retrieval.Source.OfQuery

/-!
# The score tree of a query

Terms and proximity operators become leaves, with or without a score wrapper. A combinator is
checked first by itself, then against the model, then its arguments are built from left to right.
-/

set_option autoImplicit false

namespace Retrieval.ScoreTree

variable {α : Type} [Scalar α] [DecimalText α]

mutual

def ofQuery (scorer : Scorer α) (index : Index) : Query α → Except Fault (ScoreTree α)
  | .term field word => do
    let source ← Source.ofQuery index (.term field word : Query α)
    return ofSource index source
  | .proximity kind span args => do
    let source ← Source.ofQuery index (.proximity kind span args)
    return ofSource index source
  | .score arg => do
    (Query.score arg).validate
    let source ← Source.ofQuery index arg
    return ofSource index source
  | .combine op weights args => do
    (Query.combine op weights args).validate
    let rule ← scorer.rule op
    let children ← ofQueries scorer index args
    return ofChildren op weights rule children

def ofQueries (scorer : Scorer α) (index : Index) :
    List (Query α) → Except Fault (List (ScoreTree α))
  | [] => .ok []
  | query :: rest => do
    let tree ← ofQuery scorer index query
    let trees ← ofQueries scorer index rest
    return tree :: trees

end

end Retrieval.ScoreTree
