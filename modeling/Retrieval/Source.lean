import Retrieval.Cursor
import Retrieval.Posting
import Retrieval.Proximity.Locations

/-!
# Posting sources

A source is a posting list together with the postings that a cursor still has before it. The list
never changes; only the cursor moves.
-/

set_option autoImplicit false

namespace Retrieval

/-- `label` says where the postings come from; `rest` is what is left of the list. -/
structure Source where
  label : String
  list : PostingList
  rest : List Posting

namespace Source

/-- A list with the cursor at its start. -/
def ofList (label : String) (list : PostingList) : Source := { label, list, rest := list.toList }

def field (source : Source) : String := source.list.field

def current? (source : Source) : Option Posting := source.rest.head?

def doc? (source : Source) : Option DocId := source.current?.map (·.doc)

def frequency? (source : Source) : Option UInt32 := source.current?.map (·.frequency)

/-- The positions of the current posting, all of them still to be read. -/
def locations (source : Source) : Locations := (source.current?.map (·.positions)).getD []

def isExhausted (source : Source) : Bool := source.rest.isEmpty

/-- Moves to the first posting of a document greater than `doc`. -/
def moveBeyond (doc : DocId) (source : Source) : Source :=
  { source with rest := source.rest.dropWhile (·.doc ≤ doc) }

/-- Moves to the first posting of a document not less than `doc`. -/
def moveTo (doc : DocId) (source : Source) : Source :=
  { source with rest := source.rest.dropWhile (·.doc < doc) }

def cursor : Cursor Source where
  settle source := (!source.isExhausted, source)
  doc? := doc?
  moveBeyond := moveBeyond
  moveTo := moveTo

end Source

end Retrieval
