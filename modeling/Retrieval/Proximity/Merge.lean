import Retrieval.Source

/-!
# Merging sources into one list

A proximity operator is evaluated as soon as its arguments are: the documents common to all sources
are visited in order, and every document with at least one match gets a posting whose positions are
those of the matches. The result is a posting list like any other, so operators nest.
-/

set_option autoImplicit false

namespace Retrieval.Proximity

/-- Number of postings that the sources have before them. -/
def postingsLeft (sources : List Source) : Nat := (sources.flatMap Source.rest).length

def moveAllBeyond (doc : DocId) (sources : List Source) : List Source :=
  sources.map (Source.moveBeyond doc)

/-- Adds a posting for the positions of a document's matches, if there are any. -/
def record (list : PostingList) (doc : DocId) (positions : List Position) :
    PostingList × Except Fault Unit :=
  if positions.isEmpty then (list, .ok ()) else list.appendAt doc positions

/-- Visits the common documents one after the other. Sources that stand on a document move past it,
so each visit leaves fewer postings. -/
def mergeFrom (kind : ProximityOp) (span : UInt32) (list : PostingList) (sources : List Source) :
    Except Fault PostingList :=
  match Source.cursor.common sources with
  | (none, _) => .ok list
  | (some doc, found) =>
    match record list doc (hits kind span (found.map Source.locations)) with
    | (_, .error fault) => .error fault
    | (list, .ok ()) =>
      let moved := moveAllBeyond doc found
      if postingsLeft moved < postingsLeft sources then mergeFrom kind span list moved else .ok list
termination_by postingsLeft sources

/-- The field of the result: the first one that has a name. -/
def commonField (sources : List Source) : String :=
  ((sources.map Source.field).find? (!·.isEmpty)).getD ""

/-- The postings of a proximity operator over its arguments, whose fields must not differ unless
they have no name. Without arguments there are none. -/
def merge (kind : ProximityOp) (span : UInt32) (sources : List Source) : Except Fault PostingList :=
  if span = 0 then .error (.config (.zeroSpan kind))
  else
    let field := commonField sources
    match sources.find? fun source => !source.field.isEmpty && source.field != field with
    | some other => .error (.config (.mixedFields kind span field other.field))
    | none => mergeFrom kind span (PostingList.empty field) sources

end Retrieval.Proximity
