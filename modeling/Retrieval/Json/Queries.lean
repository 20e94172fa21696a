import Retrieval.Json.Form
import Retrieval.Query

/-!
# Queries and operators as JSON

Reading a query does not validate it.
-/

set_option autoImplicit false

namespace Retrieval

open Json

def ProximityOp.label : ProximityOp → String
  | .near => "Near"
  | .window => "Window"

def ProximityOp.ofLabel? : String → Option ProximityOp
  | "Near" => some .near
  | "Window" => some .window
  | _ => none

instance : JsonForm ProximityOp where
  toJson kind := ofText kind.label
  ofJson? levels json := (name? levels json).bind ProximityOp.ofLabel?

def Operator.label : Operator → String
  | .and => "And"
  | .or => "Or"
  | .sum => "Sum"
  | .weightedAnd => "WeightedAnd"
  | .weightedSum => "WeightedSum"

def Operator.ofLabel? : String → Option Operator
  | "And" => some .and
  | "Or" => some .or
  | "Sum" => some .sum
  | "WeightedAnd" => some .weightedAnd
  | "WeightedSum" => some .weightedSum
  | _ => none

instance : JsonForm Operator where
  toJson op := ofText op.label
  ofJson? levels json := (name? levels json).bind Operator.ofLabel?

def MatchRule.label : MatchRule → String
  | .all => "All"
  | .min => "Min"
  | .first => "First"

def MatchRule.ofLabel? : String → Option MatchRule
  | "All" => some .all
  | "Min" => some .min
  | "First" => some .first
  | _ => none

instance : JsonForm MatchRule where
  toJson rule := ofText rule.label
  ofJson? levels json := (name? levels json).bind MatchRule.ofLabel?

namespace Query

mutual

def toJson : Query Float → Json
  | term field word => ofChoice "Term" (ofFields [("field", ofText field), ("term", ofText word)])
  | proximity kind span args =>
    ofChoice "Proximity" (ofFields
      [("kind", JsonForm.toJson kind), ("span", Json.ofNat span.toNat),
        ("args", .array (toJsons args))])
  | score arg => ofChoice "Score" (toJson arg)
  | combine op weights args =>
    ofChoice "Combine" (ofFields
      [("op", JsonForm.toJson op), ("weights", .array (weights.map ofFloat)),
        ("args", .array (toJsons args))])

def toJsons : List (Query Float) → List Json
  | [] => []
  | query :: rest => toJson query :: toJsons rest

end

/-- A choice, its record and the array of its arguments take three levels; a score takes one. -/
def ofJson? (levels : Nat) (json : Json) : Option (Query Float) :=
  if levels = 0 then none
  else do
    let (name, content) ← choice? levels json
    if name = "Term" then do
      let fields ← content.record? ["field", "term"] (levels - 1)
      let field ← required fields "field" string?
      let word ← required fields "term" string?
      return term field word
    else if name = "Proximity" then do
      let fields ← content.record? ["kind", "span", "args"] (levels - 1)
      let kind ← required fields "kind" (JsonForm.ofJson? (levels - 2))
      let span ← required fields "span" uint32?
      let args ← required fields "args" (list? (levels - 2) (ofJson? (levels - 3)))
      return proximity kind span args
    else if name = "Score" then do
      let arg ← ofJson? (levels - 1) content
      return score arg
    else if name = "Combine" then do
      let fields ← content.record? ["op", "weights", "args"] (levels - 1)
      let op ← required fields "op" (JsonForm.ofJson? (levels - 2))
      let weights ← required fields "weights" (list? (levels - 2) float?)
      let args ← required fields "args" (list? (levels - 2) (ofJson? (levels - 3)))
      return combine op weights args
    else none
termination_by levels

instance : JsonForm (Query Float) where
  toJson := toJson
  ofJson? := ofJson?

end Query

end Retrieval
