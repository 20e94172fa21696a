import Retrieval.Json.Form
import Retrieval.Search

/-!
# Models and search settings as JSON

A model is a record of its parameters with its algorithm as one more member, which is written first
and may be read from any place; an array starts with it. Absent parameters and settings have their
standard values.
-/

set_option autoImplicit false

namespace Retrieval

open Json

namespace Model

def ofAlgorithm (name : String) (params : List (String × Json)) : Json :=
  ofFields (("algorithm", ofText name) :: params)

protected def toJson : Model Float → Json
  | unrankedBoolean => ofAlgorithm "unranked_boolean" []
  | rankedBoolean => ofAlgorithm "ranked_boolean" []
  | bm25 params =>
    ofAlgorithm "bm25"
      [("k1", ofFloat params.k1), ("b", ofFloat params.b), ("k3", ofFloat params.k3)]
  | indri params =>
    ofAlgorithm "indri" [("mu", ofFloat params.mu), ("lambda", ofFloat params.lambda)]

/-- The algorithm and what is left of the record. All of it must be readable, ignored members
included. -/
def algorithm? (levels : Nat) (json : Json) : Option (String × Json) :=
  if !json.isReadable levels then none
  else
    match json with
    | .array (tag :: params) => (string? tag).map (·, .array params)
    | .object members =>
      match members.partition (·.1.decode? == some "algorithm") with
      | ([(_, tag)], params) => (string? tag).map (·, .object params)
      | _ => none
    | _ => none

/-- Parameters for a model that has none: an empty array, or an object, whatever it holds. -/
def noParams? : Json → Option Unit
  | .array [] | .object _ => some ()
  | _ => none

protected def ofJson? (levels : Nat) (json : Json) : Option (Model Float) := do
  let (name, params) ← algorithm? levels json
  if name = "unranked_boolean" then (noParams? params).map fun _ => unrankedBoolean
  else if name = "ranked_boolean" then (noParams? params).map fun _ => rankedBoolean
  else if name = "bm25" then do
    let fields ← params.record? ["k1", "b", "k3"] levels
    let k1 ← Json.optional fields "k1" Bm25.standard.k1 float?
    let b ← Json.optional fields "b" Bm25.standard.b float?
    let k3 ← Json.optional fields "k3" Bm25.standard.k3 float?
    return bm25 { k1, b, k3 }
  else if name = "indri" then do
    let fields ← params.record? ["mu", "lambda"] levels
    let mu ← Json.optional fields "mu" Indri.standard.mu float?
    let lambda ← Json.optional fields "lambda" Indri.standard.lambda float?
    return indri { mu, lambda }
  else none

instance : JsonForm (Model Float) where
  toJson := Model.toJson
  ofJson? := Model.ofJson?

end Model

/-- A limit, or null for none. -/
def limit? : Json → Option (Option Nat)
  | .null => some none
  | json => json.nat?.map some

instance : JsonForm (SearchSettings Float) where
  toJson settings := ofFields
    [("model", JsonForm.toJson settings.model),
      ("max_results", match settings.limit with | some n => Json.ofNat n | none => .null),
      ("wrap_default_operator", .bool settings.wraps)]
  ofJson? levels json := do
    let fields ← json.record? ["model", "max_results", "wrap_default_operator"] levels
    let standard := SearchSettings.standard
    let model ← Json.optional fields "model" standard.model (JsonForm.ofJson? (levels - 1))
    let limit ← Json.optional fields "max_results" standard.limit limit?
    let wraps ← Json.optional fields "wrap_default_operator" standard.wraps bool?
    return { model, limit, wraps }

end Retrieval
