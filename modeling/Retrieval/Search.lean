import Retrieval.Ranking
import Retrieval.Scoring.Model
import Retrieval.Scoring.Score
import Retrieval.Scoring.TreeOfQuery

/-!
# Searching

A search answers queries on one index under one model. A query is wrapped in the model's default
combinator if the settings ask for it and it is not one already, all matching documents are scored,
and the ranking is cut to the length that the settings allow.
-/

set_option autoImplicit false

namespace Retrieval

/-- Without `limit` a ranking has every matching document. -/
structure SearchSettings (α : Type) where
  model : Model α
  limit : Option Nat
  wraps : Bool

/-- The settings for a model: no limit, and queries are wrapped. -/
def SearchSettings.ofModel {α : Type} (model : Model α) : SearchSettings α :=
  { model, limit := none, wraps := true }

/-- The settings of a search that was not told anything. -/
def SearchSettings.standard {α : Type} : SearchSettings α := ofModel .unrankedBoolean

structure Search (α : Type) where
  basis : ScoreBasis α
  settings : SearchSettings α

namespace Search

variable {α : Type} [Scalar α] [DecimalText α]

/-- Checks the model's parameters. -/
def create (index : Index) (settings : SearchSettings α) : Except Fault (Search α) := do
  let scorer ← settings.model.scorer
  return { basis := { scorer, index }, settings }

/-- Puts a query under the operator `op`, unless that is its own operator. -/
def wrap (op : Operator) (query : Query α) : Query α :=
  match query with
  | .combine own weights args =>
    if own = op then query else .combine op [] [.combine own weights args]
  | query => .combine op [] [query]

/-- The query that is evaluated for a given one. -/
def wrapped (search : Search α) (query : Query α) : Query α :=
  if search.settings.wraps then wrap search.basis.scorer.defaultOp query else query

/-- Collects scored documents up to the first fault. -/
def collect : List (DocId × Except Fault α) → Except Fault (List (Hit α))
  | [] => .ok []
  | (doc, outcome) :: rest => do
    let score ← outcome
    let hits ← collect rest
    return { doc, score } :: hits

/-- Cuts a ranking to the length that the settings allow. -/
def limit (settings : SearchSettings α) (ranking : Ranking α) : Ranking α :=
  match settings.limit with
  | some n => ranking.take n
  | none => ranking

/-- The ranking of the documents that match a query. -/
def run [Ord α] (search : Search α) (query : Query α) : Except Fault (Ranking α) := do
  let tree ← ScoreTree.ofQuery search.basis.scorer search.basis.index (search.wrapped query)
  let hits ← collect (tree.drain search.basis).1
  return limit search.settings (Ranking.sort { hits })

/-- The rankings of several queries in their order; the first query that fails makes all fail. -/
def runAll [Ord α] (search : Search α) :
    List (String × Query α) → Except Fault (List (String × Ranking α))
  | [] => .ok []
  | (name, query) :: rest => do
    let ranking ← search.run query
    let rankings ← search.runAll rest
    return (name, ranking) :: rankings

end Search

end Retrieval
