import Retrieval.Scoring.Bm25
import Retrieval.Scoring.Boolean
import Retrieval.Scoring.Indri

/-!
# Retrieval models

A model is plain configuration: its kind and its parameters. Only valid parameters have a scorer.
-/

set_option autoImplicit false

namespace Retrieval

inductive Model (α : Type) where
  | unrankedBoolean
  | rankedBoolean
  | bm25 (params : Bm25 α)
  | indri (params : Indri α)

variable {α : Type} [Scalar α] [DecimalText α]

/-- The scorer of a model, if its parameters are in range. -/
def Model.scorer : Model α → Except Fault (Scorer α)
  | unrankedBoolean => .ok Boolean.unranked
  | rankedBoolean => .ok Boolean.ranked
  | bm25 params => params.validate.map fun _ => params.scorer
  | indri params => params.validate.map fun _ => params.scorer

end Retrieval
