import Retrieval.Scoring.Scorer

/-!
# Indri query likelihood

A leaf scores the probability of its term in the field, smoothed twice: with a Dirichlet prior, and
with the share of the term in the whole collection. A document without the term has a probability
too, so combinators match as soon as one argument does.
-/

set_option autoImplicit false

namespace Retrieval

/-- `mu` is the weight of the Dirichlet prior, `lambda` that of the collection. -/
structure Indri (α : Type) where
  mu : α
  lambda : α

namespace Indri

def standard : Indri Float := { mu := 2500.0, lambda := 0.4 }

variable {α : Type} [Scalar α]

def validate [DecimalText α] (params : Indri α) : Except Fault Unit :=
  if !Scalar.isSize params.mu then
    .error (.config (.belowZero "Indri mu" (DecimalText.text params.mu)))
  else if !Scalar.isFraction params.lambda then
    .error (.config (.outsideUnit "Indri lambda" (DecimalText.text params.lambda)))
  else .ok ()

/-- The smoothed probability of a term with a frequency in a field of `length` tokens. -/
def probability (params : Indri α) (frequency : UInt32) (likelihood : α) (length : Nat) : α :=
  let denominator := Scalar.ofNat length + params.mu
  let dirichlet :=
    if Scalar.lt Scalar.zero denominator then
      (Scalar.ofNat frequency.toNat + params.mu * likelihood) / denominator
    else Scalar.zero
  (Scalar.one - params.lambda) * dirichlet + params.lambda * likelihood

def rule : Operator → Except Fault MatchRule
  | .sum => unsupported "Indri" .sum
  | _ => .ok .min

/-- Conjunctions take geometric means, disjunctions the complement of missing every argument. -/
def combine (op : Operator) (weights scores : List α) : Except Fault α :=
  match op with
  | .and => .ok (Scalar.pow (Scalar.product scores) (Scalar.one / Scalar.ofNat scores.length))
  | .or => .ok (Scalar.one - Scalar.product (scores.map (Scalar.one - ·)))
  | .weightedAnd => .ok (Scalar.weightedProduct weights scores)
  | .weightedSum => .ok (Scalar.weightedSum weights scores)
  | .sum => unsupported "Indri" .sum

def leaf (params : Indri α) (index : Index) (stats : ListStats α) (frequency : UInt32)
    (doc : DocId) : Except Fault α := do
  let length ← index.lengthOf stats.field doc
  return params.probability frequency stats.likelihood length

def scorer (params : Indri α) : Scorer α where
  name := "Indri"
  defaultOp := .and
  rule := rule
  leaf := params.leaf
  defaultLeaf index stats doc := params.leaf index stats 0 doc
  combine := combine
  combineDefault := combine

end Indri

end Retrieval
