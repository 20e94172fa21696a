import Retrieval.Json.Form
import Retrieval.Ranking

/-!
# Rankings as JSON

A ranking is written in its current order and read in any.
-/

set_option autoImplicit false

namespace Retrieval

open Json

instance : JsonForm (Hit Float) where
  toJson hit := ofFields [("doc_id", Json.ofNat hit.doc.toNat), ("score", ofFloat hit.score)]
  ofJson? levels json := do
    let fields ← json.record? ["doc_id", "score"] levels
    let doc ← required fields "doc_id" uint32?
    let score ← required fields "score" float?
    return { doc, score }

instance : JsonForm (Ranking Float) where
  toJson ranking := ofFields [("entries", .array (ranking.hits.map JsonForm.toJson))]
  ofJson? levels json := do
    let fields ← json.record? ["entries"] levels
    let hits ← required fields "entries" (list? (levels - 1) (JsonForm.ofJson? (levels - 2)))
    return { hits }

end Retrieval
