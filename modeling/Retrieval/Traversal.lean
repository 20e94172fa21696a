import Retrieval.Scoring.Model
import Retrieval.Scoring.Score
import Retrieval.Scoring.TreeOfQuery
import Retrieval.Text.Quoted

/-!
# Traversals

A traversal is a query on its way through an index. It starts unbound, is bound once to a model and
an index, and from then on is a cursor over the matching documents that can score the current one.
Until then it matches nothing and refuses to score.
-/

set_option autoImplicit false

namespace Retrieval

/-- `bound` holds the score tree and what it is scored with. -/
structure Traversal (α : Type) where
  query : Query α
  bound : Option (ScoreTree α × ScoreBasis α)

namespace Traversal

variable {α : Type}

def ofQuery (query : Query α) : Traversal α := { query, bound := none }

def isBound (traversal : Traversal α) : Bool := traversal.bound.isSome

def tree? (traversal : Traversal α) : Option (ScoreTree α) := traversal.bound.map (·.1)

/-- Applies a move to the score tree, if there is one. -/
def modify (traversal : Traversal α) (move : ScoreTree α → ScoreTree α) : Traversal α :=
  { traversal with bound := traversal.bound.map fun (tree, basis) => (move tree, basis) }

def doc? (traversal : Traversal α) : Option DocId := traversal.tree?.bind ScoreTree.doc?

def settle (traversal : Traversal α) : Bool × Traversal α :=
  match traversal.bound with
  | none => (false, traversal)
  | some (tree, basis) =>
    let (found, tree) := tree.settle
    (found, { traversal with bound := some (tree, basis) })

def moveBeyond (doc : DocId) (traversal : Traversal α) : Traversal α :=
  traversal.modify (ScoreTree.moveBeyond doc)

def moveTo (doc : DocId) (traversal : Traversal α) : Traversal α :=
  traversal.modify (ScoreTree.moveTo doc)

def cursor : Cursor (Traversal α) where
  settle := settle
  doc? := doc?
  moveBeyond := moveBeyond
  moveTo := moveTo

variable [Scalar α] [DecimalText α]

/-- Builds the score tree of the query, unless that has been done before. -/
def bindTo (traversal : Traversal α) (basis : ScoreBasis α) : Except Fault (Traversal α) :=
  if traversal.isBound then .error (.config (.alreadyInitialized traversal.query.text))
  else do
    let tree ← ScoreTree.ofQuery basis.scorer basis.index traversal.query
    return { traversal with bound := some (tree, basis) }

/-- Checks the model's parameters and then binds the query. -/
def bindModel (traversal : Traversal α) (model : Model α) (index : Index) :
    Except Fault (Traversal α) := do
  let scorer ← model.scorer
  traversal.bindTo { scorer, index }

def binding (traversal : Traversal α) : Except Fault (ScoreTree α × ScoreBasis α) :=
  match traversal.bound with
  | some bound => .ok bound
  | none => .error (.config (.notInitialized traversal.query.text))

def basis (traversal : Traversal α) : Except Fault (ScoreBasis α) :=
  traversal.binding.map (·.2)

/-- The score of the current document. -/
def score (traversal : Traversal α) : Except Fault α := do
  let (tree, basis) ← traversal.binding
  tree.score basis

/-- The score of the whole query for a document that it does not match. -/
def defaultScore (traversal : Traversal α) (doc : DocId) : Except Fault α := do
  let (tree, basis) ← traversal.binding
  tree.defaultScore basis doc

/-- The remaining documents in order, each with its score, and the traversal at its end. -/
def drain (traversal : Traversal α) : List (DocId × Except Fault α) × Traversal α :=
  match traversal.bound with
  | none => ([], traversal)
  | some (tree, basis) =>
    let (hits, tree) := tree.drain basis
    (hits, { traversal with bound := some (tree, basis) })

/-- The query and whether it is bound, for diagnostics. -/
def summary (traversal : Traversal α) : String :=
  "QueryTree \x7b query: " ++ Text.Quoted.encode traversal.query.text
    ++ ", initialized: " ++ (if traversal.isBound then "true" else "false") ++ " \x7d"

end Traversal

end Retrieval
