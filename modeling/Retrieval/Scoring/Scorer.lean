import Retrieval.Index

/-!
# What a retrieval model does

A `Scorer` says how nodes match, what a leaf scores where it matches and where it does not, and how
combinators merge the scores of their arguments. Score trees ask nothing else of a model.

`ListStats` are the statistics of one scored posting list that do not depend on a document.
-/

set_option autoImplicit false

namespace Retrieval

/-- `df` counts the documents of the list and `ctf` its occurrences; the other numbers are those of
the index and of the field as a whole. -/
structure ListStats (α : Type) where
  field : String
  df : Nat
  ctf : Nat
  docs : Nat
  fieldTokens : Nat
  averageLength : α

namespace ListStats

variable {α : Type} [Scalar α]

def ofList (index : Index) (list : PostingList) : ListStats α where
  field := list.field
  df := list.df
  ctf := list.ctf.toNat
  docs := index.size
  fieldTokens := (index.fieldTotals list.field).tokens
  averageLength := index.averageLength list.field

/-- The share of the field's tokens that belongs to the list: the maximum likelihood estimate of its
probability. -/
def likelihood (stats : ListStats α) : α :=
  if stats.fieldTokens = 0 then Scalar.zero
  else Scalar.ofNat stats.ctf / Scalar.ofNat stats.fieldTokens

end ListStats

/-- `leaf` scores a posting by its frequency, `defaultLeaf` a document without a posting. `combine`
merges the scores of the arguments for a document that the combinator matches, `combineDefault` for
any other. -/
structure Scorer (α : Type) where
  name : String
  defaultOp : Operator
  rule : Operator → Except Fault MatchRule
  leaf : Index → ListStats α → UInt32 → DocId → Except Fault α
  defaultLeaf : Index → ListStats α → DocId → Except Fault α
  combine : Operator → List α → List α → Except Fault α
  combineDefault : Operator → List α → List α → Except Fault α

/-- The fault of a model that cannot score an operator. -/
def unsupported {β : Type} (model : String) (op : Operator) : Except Fault β :=
  .error (.config (.unsupported model op.name))

end Retrieval
