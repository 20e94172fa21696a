import Retrieval.Operator

/-!
# Forward-only cursors over documents

A cursor stands on a document or has run out, and only moves on to greater documents. `Cursor σ`
is what the values of a type `σ` need for this; posting sources and score trees have it.

* `Cursor.common` brings several cursors onto their least common document.
* `Cursor.least` finds the least document that one of several cursors stands on.
* `Cursor.find` does what a match rule asks for.

Each gives back the cursors as it left them, since a search that fails moves cursors too.
-/

set_option autoImplicit false

namespace Retrieval

/-- `settle` looks for a match at or after the place that was reached, and says whether there is
one; `doc?` is the document that was found. -/
structure Cursor (σ : Type) where
  settle : σ → Bool × σ
  doc? : σ → Option DocId
  moveBeyond : DocId → σ → σ
  moveTo : DocId → σ → σ

namespace Cursor

variable {σ : Type} (cursor : Cursor σ)

/-- The document that the cursor settles on, if any. -/
def settled (item : σ) : Option DocId × σ :=
  let (found, item) := cursor.settle item
  (if found then cursor.doc? item else none, item)

/-- Moves every item in turn to the greatest document met so far, and ends at the first item that
runs out. -/
def sweep (candidate : DocId) : List σ → Option DocId × List σ
  | [] => (some candidate, [])
  | item :: rest =>
    match cursor.settled (cursor.moveTo candidate item) with
    | (none, item) => (none, item :: rest)
    | (some doc, item) =>
      let (reached, rest) := sweep (max candidate doc) rest
      (reached, item :: rest)

/-- Sweeps until all items stand on one document. A sweep after which they do not has moved the
candidate up. -/
def commonFrom (candidate : DocId) (items : List σ) : Option DocId × List σ :=
  match cursor.sweep candidate items with
  | (none, items) => (none, items)
  | (some reached, items) =>
    if items.all (cursor.doc? · == some reached) then (some reached, items)
    else if candidate < reached then commonFrom reached items
    else (none, items)
termination_by UInt32.size - candidate.toNat
decreasing_by
  rename_i h
  have := UInt32.lt_iff_toNat_lt.mp h
  have := reached.toNat_lt
  simp only [UInt32.size]
  omega

/-- The least document common to all items, or none as soon as one of them has run out. -/
def common (items : List σ) : Option DocId × List σ :=
  if items.isEmpty then (none, items) else cursor.commonFrom 0 items

/-- The least document that an item settles on. -/
def least : List σ → Option DocId × List σ
  | [] => (none, [])
  | item :: rest =>
    let (doc, item) := cursor.settled item
    let (other, rest) := least rest
    (doc.merge min other, item :: rest)

/-- The document that the first item settles on. -/
def first : List σ → Option DocId × List σ
  | [] => (none, [])
  | item :: rest =>
    let (doc, item) := cursor.settled item
    (doc, item :: rest)

/-- The document that items match together under a rule. -/
def find : MatchRule → List σ → Option DocId × List σ
  | .all => cursor.common
  | .min => cursor.least
  | .first => cursor.first

end Cursor

end Retrieval
