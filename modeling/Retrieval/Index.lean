import Std.Data.HashMap
import Retrieval.Posting
import Retrieval.Scalar
import Retrieval.Text.Tokens

/-!
# The index

An index holds the documents in the order in which they were added, a column of lengths for every
field, and one posting list for every term of a field. A document is numbered by the count of
documents before it, so every list is built in ascending document order.

A column has a length for every document. A new document gets a zero in all columns first, and the
column of a new field starts with a zero for every document there is.

`Index.addTokens` gives back the index together with the outcome. Two checks come before anything
is stored, the identifier first and then the field names. What is stored after them stays even if a
later list refuses its positions.
-/

set_option autoImplicit false

namespace Retrieval

/-- Sums over the documents of one field: its tokens, and the documents where it has any. -/
structure FieldTotals where
  tokens : Nat
  docs : Nat

/-- `lengths` has the column of a field, `lists` the postings of a term of a field. -/
structure Index where
  ids : Array String
  numbers : Std.HashMap String DocId
  lengths : Std.HashMap String (Array Nat)
  lists : Std.HashMap (String × String) PostingList

/-- The first name of a list that is among `seen` or stands further left in the list. -/
def firstRepeated? (seen : List String) : List String → Option String
  | [] => none
  | name :: rest => if name ∈ seen then some name else firstRepeated? (name :: seen) rest

/-- The places of a term in a field, in ascending order. -/
def positionsOf (term : String) (tokens : List String) : List Position :=
  (tokens.zipIdx.filter (·.1 = term)).map (·.2.toUInt32)

namespace Index

def empty : Index := { ids := #[], numbers := ∅, lengths := ∅, lists := ∅ }

/-! ## Lookups -/

def size (index : Index) : Nat := index.ids.size

/-- Number of tokens of a field in a document; zero where the document lacks the field. -/
def lengthOf (index : Index) (field : String) (doc : DocId) : Except Fault Nat :=
  if doc.toNat < index.size then
    .ok ((index.lengths[field]?.bind fun column => column[doc.toNat]?).getD 0)
  else .error (.lookup (.unknownDocument doc))

def fieldTotals (index : Index) (field : String) : FieldTotals :=
  match index.lengths[field]? with
  | none => { tokens := 0, docs := 0 }
  | some column => { tokens := column.foldl (· + ·) 0, docs := column.countP (0 < ·) }

/-- The postings of a term; an unknown term has an empty list of its field. -/
def postings (index : Index) (field term : String) : PostingList :=
  index.lists.getD (field, term) (PostingList.empty field)

def occurrences (index : Index) (field term : String) : UInt64 :=
  (index.postings field term).ctf

def idOf (index : Index) (doc : DocId) : Except Fault String :=
  match index.ids[doc.toNat]? with
  | some id => .ok id
  | none => .error (.lookup (.unknownDocument doc))

def docOf (index : Index) (id : String) : Except Fault DocId :=
  match index.numbers[id]? with
  | some doc => .ok doc
  | none => .error (.lookup (.unknownId id))

/-- Average length of a field over the documents where it has tokens; zero if there are none. -/
def averageLength {α : Type} [Scalar α] (index : Index) (field : String) : α :=
  let totals := index.fieldTotals field
  if totals.docs = 0 then Scalar.zero
  else Scalar.ofNat totals.tokens / Scalar.ofNat totals.docs

/-! ## Adding documents -/

/-- Appends a posting of `doc` to the list of every given term. -/
def addTerms (index : Index) (doc : DocId) (field : String) (tokens : List String) :
    List String → Index × Except Fault Unit
  | [] => (index, .ok ())
  | term :: rest =>
    let (list, outcome) := (index.postings field term).appendAt doc (positionsOf term tokens)
    let index := { index with lists := index.lists.insert (field, term) list }
    match outcome with
    | .error fault => (index, .error fault)
    | .ok () => addTerms index doc field tokens rest

/-- The lengths of a field; a new one has no tokens in any document. -/
def column (index : Index) (field : String) : Array Nat :=
  index.lengths.getD field (Array.replicate index.size 0)

/-- Adds to the length of a field of `doc`. -/
def addLength (index : Index) (doc : DocId) (field : String) (length : Nat) : Index :=
  let column := (index.column field).modify doc.toNat (· + length)
  { index with lengths := index.lengths.insert field column }

/-- Enters the fields of `doc` in their order, each with its length and its terms. -/
def addFields (index : Index) (doc : DocId) :
    List (String × List String) → Index × Except Fault Unit
  | [] => (index, .ok ())
  | (field, tokens) :: rest =>
    match (index.addLength doc field tokens.length).addTerms doc field tokens tokens.eraseDups with
    | (index, .error fault) => (index, .error fault)
    | (index, .ok ()) => addFields index doc rest

/-- Enters an identifier under the next document number, with no tokens in any field. -/
def register (index : Index) (id : String) : DocId × Index :=
  let doc := index.size.toUInt32
  (doc, { index with
    ids := index.ids.push id
    numbers := index.numbers.insert id doc
    lengths := index.lengths.map fun _ column => column.push 0 })

/-- Adds a document whose fields are given as tokens; the answer is its number. -/
def addTokens (index : Index) (id : String) (fields : List (String × List String)) :
    Index × Except Fault DocId :=
  if index.numbers.contains id then (index, .error (.lookup (.alreadyIndexed id)))
  else
    match firstRepeated? [] (fields.map (·.1)) with
    | some field => (index, .error (.data (.repeatedField field id)))
    | none =>
      let (doc, index) := index.register id
      let (index, outcome) := index.addFields doc fields
      (index, outcome.map fun _ => doc)

/-- Adds a document whose fields are given as texts. -/
def addTexts (index : Index) (id : String) (fields : List (String × String)) :
    Index × Except Fault DocId :=
  index.addTokens id (fields.map fun (field, text) => (field, Text.tokens text))

end Index

end Retrieval
