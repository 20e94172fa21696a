import Retrieval.Scoring.Tree

/-!
# Scores of a tree

A tree has two scores. `ScoreTree.score` is that of the document on which the root stands, where a
child that stands on the document adds its score and any other child its default score.
`ScoreTree.defaultScore` is what a tree adds to a document that it does not match, and reads the
leaves' statistics only. Neither moves the tree.

`ScoreTree.drain` visits the remaining documents with their scores.
-/

set_option autoImplicit false

namespace Retrieval

/-- What scores are computed with. -/
structure ScoreBasis (α : Type) where
  scorer : Scorer α
  index : Index

namespace ScoreTree

variable {α : Type} [Scalar α] (basis : ScoreBasis α)

mutual

/-- The score for a document without a match. An empty combinator adds nothing. -/
def defaultScore (doc : DocId) : ScoreTree α → Except Fault α
  | leaf _ stats => basis.scorer.defaultLeaf basis.index stats doc
  | combine op weights _ children _ _ =>
    if children.isEmpty then .ok Scalar.zero
    else do
      let scores ← defaultScores doc children
      basis.scorer.combineDefault op weights scores

def defaultScores (doc : DocId) : List (ScoreTree α) → Except Fault (List α)
  | [] => .ok []
  | tree :: rest => do
    let score ← defaultScore doc tree
    let scores ← defaultScores doc rest
    return score :: scores

end

mutual

/-- The score of the document that the tree stands on. -/
def score : ScoreTree α → Except Fault α
  | leaf source stats =>
    match source.current? with
    | none => .error (.config (.scoredWithoutMatch source.label))
    | some posting => basis.scorer.leaf basis.index stats posting.frequency posting.doc
  | combine op weights _ children current _ =>
    match current with
    | none => .error (.config (.scoredWithoutMatch op.name))
    | some doc => do
      let scores ← scoresAt doc children
      basis.scorer.combine op weights scores

/-- The scores that the children of a combinator add to `doc`. -/
def scoresAt (doc : DocId) : List (ScoreTree α) → Except Fault (List α)
  | [] => .ok []
  | tree :: rest => do
    let score ← if tree.standsOn doc then score tree else defaultScore basis doc tree
    let scores ← scoresAt doc rest
    return score :: scores

end

/-- The remaining documents in order, each with its score, and the tree at its end. Moving past a
document leaves fewer postings. -/
def drain (tree : ScoreTree α) : List (DocId × Except Fault α) × ScoreTree α :=
  match tree.settle with
  | (false, settled) => ([], settled)
  | (true, settled) =>
    match settled.doc? with
    | none => ([], settled)
    | some doc =>
      let hit := (doc, score basis settled)
      let moved := settled.moveBeyond doc
      if moved.postingsLeft < tree.postingsLeft then
        let (hits, last) := drain moved
        (hit :: hits, last)
      else ([hit], moved)
termination_by tree.postingsLeft

end ScoreTree

end Retrieval
