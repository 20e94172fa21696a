import Retrieval.Scoring.Scorer

/-!
# Okapi BM25

A leaf scores the product of three weights: how rare its term is, how often the term occurs for a
field of that length, and how often the query names it, which is once. Arguments are summed, plainly
or in proportion to their weights.
-/

set_option autoImplicit false

namespace Retrieval

/-- `k1` saturates the term frequency, `b` sets how much the field length counts, and `k3` saturates
the frequency of the term in the query. -/
structure Bm25 (α : Type) where
  k1 : α
  b : α
  k3 : α

namespace Bm25

def standard : Bm25 Float := { k1 := 1.2, b := 0.75, k3 := 0.0 }

variable {α : Type} [Scalar α]

def validate [DecimalText α] (params : Bm25 α) : Except Fault Unit :=
  if !Scalar.isSize params.k1 then
    .error (.config (.belowZero "BM25 k1" (DecimalText.text params.k1)))
  else if !Scalar.isFraction params.b then
    .error (.config (.outsideUnit "BM25 b" (DecimalText.text params.b)))
  else if !Scalar.isSize params.k3 then
    .error (.config (.belowZero "BM25 k3" (DecimalText.text params.k3)))
  else .ok ()

/-- The Robertson and Sparck Jones weight of a term in `df` of `docs` documents, at least zero. -/
def rarity (docs df : Nat) : α :=
  let n : α := Scalar.ofNat docs
  let df : α := Scalar.ofNat df
  Scalar.larger (Scalar.log ((n - df + Scalar.half) / (df + Scalar.half))) Scalar.zero

/-- The weight of a frequency in a field of `length` tokens, where fields have `average` tokens. -/
def frequencyWeight (params : Bm25 α) (frequency : UInt32) (length : Nat) (average : α) : α :=
  let tf : α := Scalar.ofNat frequency.toNat
  let ratio := if Scalar.lt Scalar.zero average then Scalar.ofNat length / average else Scalar.one
  let norm := (Scalar.one - params.b) + params.b * ratio
  tf / (tf + params.k1 * norm)

/-- The weight of a term that occurs once in the query. -/
def queryWeight (params : Bm25 α) : α :=
  (params.k3 + Scalar.one) * Scalar.one / (params.k3 + Scalar.one)

def score (params : Bm25 α) (frequency : UInt32) (df docs length : Nat) (average : α) : α :=
  rarity docs df * params.frequencyWeight frequency length average * params.queryWeight

def rule : Operator → Except Fault MatchRule
  | .sum | .weightedSum => .ok .min
  | op => unsupported "BM25" op

def combine (op : Operator) (weights scores : List α) : Except Fault α :=
  match op with
  | .sum => .ok (Scalar.sum scores)
  | .weightedSum => .ok (Scalar.weightedSum weights scores)
  | op => unsupported "BM25" op

def scorer (params : Bm25 α) : Scorer α where
  name := "BM25"
  defaultOp := .sum
  rule := rule
  leaf index stats frequency doc := do
    let length ← index.lengthOf stats.field doc
    return params.score frequency stats.df stats.docs length stats.averageLength
  defaultLeaf _ _ _ := .ok Scalar.zero
  combine := combine
  combineDefault := combine

end Bm25

end Retrieval
