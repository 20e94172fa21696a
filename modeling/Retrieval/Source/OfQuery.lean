import Retrieval.Index
import Retrieval.Proximity.Merge
import Retrieval.Query

/-!
# The source of a query

Terms look their postings up in the index; proximity operators merge those of their arguments, from
left to right and innermost first. Other queries have no postings of their own.
-/

set_option autoImplicit false

namespace Retrieval.Source

variable {α : Type} [Scalar α] [DecimalText α]

def ofTerm (index : Index) (field word : String) : Source :=
  ofList (field ++ ":" ++ word) (index.postings field word)

mutual

def ofQuery (index : Index) : Query α → Except Fault Source
  | .term field word => .ok (ofTerm index field word)
  | .proximity kind span args => do
    (Query.proximity kind span args).validate
    let sources ← ofQueries index args
    let list ← Proximity.merge kind span sources
    return ofList (kind.name ++ "/" ++ toString span.toNat) list
  | .score arg => .error (.config (.noPostings (Query.score arg).text))
  | .combine op weights args => .error (.config (.noPostings (Query.combine op weights args).text))

def ofQueries (index : Index) : List (Query α) → Except Fault (List Source)
  | [] => .ok []
  | query :: rest => do
    let source ← ofQuery index query
    let sources ← ofQueries index rest
    return source :: sources

end

end Retrieval.Source
