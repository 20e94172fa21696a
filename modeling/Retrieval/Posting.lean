import Retrieval.Fault

/-!
# Posting lists

A posting records where a term, or a match of a proximity operator, occurs in one document; a
posting list holds the postings of one field, in ascending document order when it is built by
`append`. Lists only grow at their end.

`append` and `appendAt` give back the list together with the outcome, since a caller goes on with
the list after a refusal too.
-/

set_option autoImplicit false

namespace Retrieval

structure Posting where
  doc : DocId
  frequency : UInt32
  positions : List Position
  deriving DecidableEq, Repr

/-- Whether every position is less than the next. -/
def strictlyIncreasing : List Position → Bool
  | p :: q :: rest => p < q && strictlyIncreasing (q :: rest)
  | [_] | [] => true

/-- The posting of a document at strictly increasing positions; its frequency is their number. -/
def Posting.ofPositions (doc : DocId) (positions : List Position) : Except Fault Posting :=
  if strictlyIncreasing positions then
    .ok { doc, frequency := positions.length.toUInt32, positions }
  else
    .error (.data (.unorderedPositions doc))

/-- `ctf` is the collection frequency, the sum of the postings' frequencies. -/
structure PostingList where
  field : String
  postings : Array Posting
  ctf : UInt64
  deriving DecidableEq, Repr

namespace PostingList

def empty (field : String) : PostingList := { field, postings := #[], ctf := 0 }

/-- Adds a posting at the end. Its document must come after the last one, and its frequency must be
the number of its positions. -/
def append (list : PostingList) (posting : Posting) : PostingList × Except Fault Unit :=
  match list.postings.back?.filter (posting.doc ≤ ·.doc) with
  | some last => (list, .error (.data (.unorderedDocument posting.doc last.doc list.field)))
  | none =>
    if posting.frequency.toNat ≠ posting.positions.length then
      (list, .error
        (.data (.frequencyMismatch posting.doc posting.frequency posting.positions.length)))
    else
      let list := { list with ctf := list.ctf + posting.frequency.toUInt64 }
      let list := { list with postings := list.postings.push posting }
      (list, .ok ())

/-- Adds a posting that is made of a document and its positions. -/
def appendAt (list : PostingList) (doc : DocId) (positions : List Position) :
    PostingList × Except Fault Unit :=
  match Posting.ofPositions doc positions with
  | .error fault => (list, .error fault)
  | .ok posting => list.append posting

/-- Number of documents in the list. -/
def df (list : PostingList) : Nat := list.postings.size

def isEmpty (list : PostingList) : Bool := list.postings.isEmpty

def get? (list : PostingList) (i : Nat) : Option Posting := list.postings[i]?

def toList (list : PostingList) : List Posting := list.postings.toList

def docs (list : PostingList) : List DocId := list.toList.map (·.doc)

end PostingList

end Retrieval
