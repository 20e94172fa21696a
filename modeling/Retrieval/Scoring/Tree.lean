import Retrieval.Scoring.Scorer
import Retrieval.Source

/-!
# Score trees

A score tree is a query that has been bound to an index: its leaves are posting sources with their
statistics, its inner nodes combinators. A tree is a cursor over the documents that its root
matches.

A combinator remembers the document that it found, and that it found none. It looks again only
after it has been moved; moving it to a place that its document lies beyond does nothing.
-/

set_option autoImplicit false

namespace Retrieval

/-- `current` is the document found last, and `exhausted` says that a search has failed. -/
inductive ScoreTree (α : Type) where
  | leaf (source : Source) (stats : ListStats α)
  | combine (op : Operator) (weights : List α) (rule : MatchRule)
      (children : List (ScoreTree α)) (current : Option DocId) (exhausted : Bool)

namespace ScoreTree

variable {α : Type}

/-- A scored source. -/
def ofSource [Scalar α] (index : Index) (source : Source) : ScoreTree α :=
  leaf source (ListStats.ofList index source.list)

/-- A combinator that has not been moved yet. -/
def ofChildren (op : Operator) (weights : List α) (rule : MatchRule)
    (children : List (ScoreTree α)) : ScoreTree α :=
  combine op weights rule children none false

/-- How the node decides on a match. -/
def rule : ScoreTree α → MatchRule
  | leaf .. => .first
  | combine _ _ rule .. => rule

/-- The document that the node stands on. -/
def doc? : ScoreTree α → Option DocId
  | leaf source _ => source.doc?
  | combine _ _ _ _ current _ => current

/-- Whether the node stands on `doc`. -/
def standsOn (tree : ScoreTree α) (doc : DocId) : Bool := tree.doc? == some doc

mutual

/-- The statistics of the leaves, from left to right. -/
def stats : ScoreTree α → List (ListStats α)
  | leaf _ stats => [stats]
  | combine _ _ _ children _ _ => statsOfAll children

def statsOfAll : List (ScoreTree α) → List (ListStats α)
  | [] => []
  | tree :: rest => stats tree ++ statsOfAll rest

end

mutual

/-- Number of postings that the leaves have before them. -/
def postingsLeft : ScoreTree α → Nat
  | leaf source _ => source.rest.length
  | combine _ _ _ children _ _ => postingsLeftInAll children

def postingsLeftInAll : List (ScoreTree α) → Nat
  | [] => 0
  | tree :: rest => postingsLeft tree + postingsLeftInAll rest

end

mutual

/-- Number of levels. -/
def height : ScoreTree α → Nat
  | leaf .. => 1
  | combine _ _ _ children _ _ => heightOfAll children + 1

def heightOfAll : List (ScoreTree α) → Nat
  | [] => 0
  | tree :: rest => max (height tree) (heightOfAll rest)

end

/-! ## Moving -/

mutual

def moveBeyond (doc : DocId) : ScoreTree α → ScoreTree α
  | leaf source stats => leaf (source.moveBeyond doc) stats
  | combine op weights rule children current exhausted =>
    if current.any (doc < ·) then combine op weights rule children current exhausted
    else combine op weights rule (moveAllBeyond doc children) none exhausted

def moveAllBeyond (doc : DocId) : List (ScoreTree α) → List (ScoreTree α)
  | [] => []
  | tree :: rest => moveBeyond doc tree :: moveAllBeyond doc rest

end

mutual

def moveTo (doc : DocId) : ScoreTree α → ScoreTree α
  | leaf source stats => leaf (source.moveTo doc) stats
  | combine op weights rule children current exhausted =>
    if current.any (doc ≤ ·) then combine op weights rule children current exhausted
    else combine op weights rule (moveAllTo doc children) none exhausted

def moveAllTo (doc : DocId) : List (ScoreTree α) → List (ScoreTree α)
  | [] => []
  | tree :: rest => moveTo doc tree :: moveAllTo doc rest

end

/-- Looks for a match of a tree with at most the given number of levels. -/
def settleWithin : Nat → ScoreTree α → Bool × ScoreTree α
  | _, leaf source stats => (!source.isExhausted, leaf source stats)
  | 0, tree => (false, tree)
  | levels + 1, combine op weights rule children current exhausted =>
    if exhausted then (false, combine op weights rule children current exhausted)
    else if current.isSome then (true, combine op weights rule children current exhausted)
    else
      let cursor : Cursor (ScoreTree α) :=
        { settle := settleWithin levels, doc?, moveBeyond, moveTo }
      let (found, children) := cursor.find rule children
      (found.isSome, combine op weights rule children found found.isNone)

/-- Looks for a match at or after the place that was reached. -/
def settle (tree : ScoreTree α) : Bool × ScoreTree α := settleWithin tree.height tree

def cursor : Cursor (ScoreTree α) where
  settle := settle
  doc? := doc?
  moveBeyond := moveBeyond
  moveTo := moveTo

end ScoreTree

end Retrieval
