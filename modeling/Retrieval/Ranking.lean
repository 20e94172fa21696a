import Retrieval.Index

/-!
# Rankings

A ranking gathers documents with their scores, in any order and with repetitions. Sorting keeps the
best score of every document and orders by descending score; ties go by ascending document, or by
ascending identifier. Scores are compared by a total order.
-/

set_option autoImplicit false

namespace Retrieval

structure Hit (α : Type) where
  doc : DocId
  score : α
  deriving DecidableEq, Repr

structure Ranking (α : Type) where
  hits : List (Hit α)
  deriving DecidableEq, Repr

namespace Hit

variable {α : Type} [Ord α]

/-- Ascending document, the best score first. -/
def byDoc (a b : Hit α) : Ordering := (compare a.doc b.doc).then (compare b.score a.score)

/-- Descending score, ties by ascending document. -/
def byScore (a b : Hit α) : Ordering := (compare b.score a.score).then (compare a.doc b.doc)

/-- Descending score, ties by ascending identifier. -/
def byScoreAndId (a b : String × Hit α) : Ordering :=
  (compare b.2.score a.2.score).then (compare a.1 b.1)

end Hit

namespace Ranking

variable {α : Type}

def empty : Ranking α := { hits := [] }

def add (ranking : Ranking α) (doc : DocId) (score : α) : Ranking α :=
  { hits := ranking.hits ++ [{ doc, score }] }

def size (ranking : Ranking α) : Nat := ranking.hits.length

def isEmpty (ranking : Ranking α) : Bool := ranking.hits.isEmpty

def get? (ranking : Ranking α) (i : Nat) : Option (Hit α) := ranking.hits[i]?

def docs (ranking : Ranking α) : List DocId := ranking.hits.map (·.doc)

/-- Keeps the first `n` hits. -/
def take (ranking : Ranking α) (n : Nat) : Ranking α := { hits := ranking.hits.take n }

/-- The hits without those of the same document as the hit before, which was one of `last`. -/
def distinctAfter (last : DocId) : List (Hit α) → List (Hit α)
  | [] => []
  | hit :: rest =>
    if hit.doc = last then distinctAfter last rest else hit :: distinctAfter hit.doc rest

/-- The first hit of every run of hits of one document. -/
def distinct : List (Hit α) → List (Hit α)
  | [] => []
  | hit :: rest => hit :: distinctAfter hit.doc rest

variable [Ord α]

/-- The best hit of every document, in document order. -/
def best (ranking : Ranking α) : Ranking α :=
  { hits := distinct (ranking.hits.mergeSort fun a b => (Hit.byDoc a b).isLE) }

/-- The best hit of every document by descending score. -/
def sort (ranking : Ranking α) : Ranking α :=
  { hits := ranking.best.hits.mergeSort fun a b => (Hit.byScore a b).isLE }

def withIds (index : Index) : List (Hit α) → Except Fault (List (String × Hit α))
  | [] => .ok []
  | hit :: rest => do
    let id ← index.idOf hit.doc
    let more ← withIds index rest
    return (id, hit) :: more

/-- Sorts with ties in the order of the identifiers that the index has for the documents. If it
lacks one, the ranking is left with the best hits in document order. -/
def sortById (ranking : Ranking α) (index : Index) : Ranking α × Except Fault Unit :=
  let best := ranking.best
  match withIds index best.hits with
  | .error fault => (best, .error fault)
  | .ok keyed =>
    ({ hits := (keyed.mergeSort fun a b => (Hit.byScoreAndId a b).isLE).map (·.2) }, .ok ())

end Ranking

end Retrieval
