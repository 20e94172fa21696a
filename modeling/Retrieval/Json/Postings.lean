import Retrieval.Json.Form
import Retrieval.Posting

/-!
# Postings as JSON

The invariants of a posting list are not checked when one is read.
-/

set_option autoImplicit false

namespace Retrieval

open Json

instance : JsonForm Posting where
  toJson p := ofFields
    [("doc_id", Json.ofNat p.doc.toNat), ("frequency", Json.ofNat p.frequency.toNat),
      ("positions", .array (p.positions.map fun n => Json.ofNat n.toNat))]
  ofJson? levels json := do
    let fields ← json.record? ["doc_id", "frequency", "positions"] levels
    let doc ← required fields "doc_id" uint32?
    let frequency ← required fields "frequency" uint32?
    let positions ← required fields "positions" (list? (levels - 1) uint32?)
    return { doc, frequency, positions }

instance : JsonForm PostingList where
  toJson list := ofFields
    [("field", ofText list.field), ("postings", .array (list.toList.map JsonForm.toJson)),
      ("ctf", Json.ofNat list.ctf.toNat)]
  ofJson? levels json := do
    let fields ← json.record? ["field", "postings", "ctf"] levels
    let field ← required fields "field" string?
    let postings ← required fields "postings" (list? (levels - 1) (JsonForm.ofJson? (levels - 2)))
    let ctf ← required fields "ctf" uint64?
    return { field, postings := postings.toArray, ctf }

end Retrieval
