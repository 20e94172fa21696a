import Retrieval.Scoring.Scorer

/-!
# Boolean models

A conjunction matches where all arguments do, a disjunction where any does; there are no other
combinators. Unranked, every match scores one. Ranked, a leaf scores its frequency, a conjunction
the least and a disjunction the greatest score of its arguments. What does not match scores zero.
-/

set_option autoImplicit false

namespace Retrieval.Boolean

variable {α : Type} [Scalar α]

def rule (model : String) : Operator → Except Fault MatchRule
  | .and => .ok .all
  | .or => .ok .min
  | op => unsupported model op

/-- A fixed score, for the operators that have a rule. -/
def constant (model : String) (score : α) (op : Operator) : Except Fault α :=
  (rule model op).map fun _ => score

/-- The least score; zero if there is none. -/
def conjunction : List α → α
  | [] => Scalar.zero
  | score :: scores => scores.foldl Scalar.smaller score

/-- The greatest of the scores and zero. -/
def disjunction (scores : List α) : α := scores.foldl Scalar.larger Scalar.zero

def rankedCombine (model : String) : Operator → List α → Except Fault α
  | .and, scores => .ok (conjunction scores)
  | .or, scores => .ok (disjunction scores)
  | op, _ => unsupported model op

def unranked : Scorer α where
  name := "UnrankedBoolean"
  defaultOp := .or
  rule := rule "UnrankedBoolean"
  leaf _ _ _ _ := .ok Scalar.one
  defaultLeaf _ _ _ := .ok Scalar.zero
  combine op _ _ := constant "UnrankedBoolean" Scalar.one op
  combineDefault op _ _ := constant "UnrankedBoolean" Scalar.zero op

def ranked : Scorer α where
  name := "RankedBoolean"
  defaultOp := .or
  rule := rule "RankedBoolean"
  leaf _ _ frequency _ := .ok (Scalar.ofNat frequency.toNat)
  defaultLeaf _ _ _ := .ok Scalar.zero
  combine op _ scores := rankedCombine "RankedBoolean" op scores
  combineDefault op _ _ := constant "RankedBoolean" Scalar.zero op

end Retrieval.Boolean
