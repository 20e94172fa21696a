/-!
# Operators

The names that the parts of a query go by: the two proximity operators, the five combinators and
the three ways in which a node can match a document.
-/

set_option autoImplicit false

namespace Retrieval

/-- Internal number of a document; documents are numbered from zero as they are added. -/
abbrev DocId := UInt32

/-- Place of a token in a field, counted from zero. -/
abbrev Position := UInt32

/-- `near`: the arguments occur in order, first to last within the span. `window`: they occur in
any order inside a window narrower than the span. -/
inductive ProximityOp where
  | near
  | window
  deriving DecidableEq, Repr

def ProximityOp.name : ProximityOp → String
  | .near => "#NEAR"
  | .window => "#WINDOW"

/-- The combinators, which merge the scores of their arguments. -/
inductive Operator where
  | and
  | or
  | sum
  | weightedAnd
  | weightedSum
  deriving DecidableEq, Repr

namespace Operator

def name : Operator → String
  | and => "#AND"
  | or => "#OR"
  | sum => "#SUM"
  | weightedAnd => "#WAND"
  | weightedSum => "#WSUM"

/-- Whether the operator takes one weight per argument. -/
def isWeighted : Operator → Bool
  | weightedAnd | weightedSum => true
  | and | or | sum => false

end Operator

/-- How a node decides which document it matches. `all`: every child stands on it. `min`: it is the
least document that some child stands on. `first`: the first child's document. -/
inductive MatchRule where
  | all
  | min
  | first
  deriving DecidableEq, Repr

end Retrieval
