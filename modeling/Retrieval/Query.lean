import Retrieval.Fault
import Retrieval.Scalar

/-!
# Queries

A query is a tree of terms, proximity operators, explicit score wrappers and combinators. Any tree
can be built; `Query.validate` checks the rules of one node that hold whatever the retrieval model,
and the constructors `near`, `window`, `wand` and `wsum` give back only nodes that pass it.

`Query.text` writes a query in the query language.
-/

set_option autoImplicit false

namespace Retrieval

/-- `α` is the arithmetic of the weights. A weighted combinator has one weight per argument, any
other has none. -/
inductive Query (α : Type) where
  | term (field word : String)
  | proximity (kind : ProximityOp) (span : UInt32) (args : List (Query α))
  | score (arg : Query α)
  | combine (op : Operator) (weights : List α) (args : List (Query α))

namespace Query

variable {α : Type}

/-- Whether the query stands for postings, which proximity operators and scores take. -/
def isPostings : Query α → Bool
  | term .. | proximity .. => true
  | score .. | combine .. => false

def args : Query α → List (Query α)
  | term .. => []
  | proximity _ _ args | combine _ _ args => args
  | score arg => [arg]

/-! ## Text -/

/-- Arguments with a blank before each, and the closing bracket. -/
def argumentsText (args : List String) : String :=
  String.join (args.map (" " ++ ·)) ++ " )"

/-- Puts each weight in front of its argument, as far as the weights go. -/
def weighted : List String → List String → List String
  | weight :: weights, arg :: args => (weight ++ " " ++ arg) :: weighted weights args
  | [], args => args
  | _ :: _, [] => []

mutual

variable [DecimalText α]

/-- The query in the query language. -/
def text : Query α → String
  | term field word => word ++ "." ++ field
  | proximity kind span args =>
    kind.name ++ "/" ++ toString span.toNat ++ "(" ++ argumentsText (texts args)
  | score arg => "#SCORE( " ++ text arg ++ " )"
  | combine op weights args =>
    let args := texts args
    let weights := if op.isWeighted then weights.map DecimalText.text else []
    op.name ++ "(" ++ argumentsText (weighted weights args)

def texts : List (Query α) → List String
  | [] => []
  | arg :: args => text arg :: texts args

end

/-! ## Validity -/

/-- The rules for the weights of a combinator with a given number of arguments. -/
def validateWeights [Scalar α] (op : Operator) (weights : List α) (args : Nat) :
    Except Fault Unit :=
  if op.isWeighted then
    if weights.length ≠ args then .error (.config (.weightCount op weights.length args))
    else if !weights.all Scalar.isSize then .error (.config (.invalidWeight op))
    else if args ≠ 0 && Scalar.le (Scalar.sum weights) Scalar.zero then
      .error (.config (.zeroWeights op))
    else .ok ()
  else if weights.isEmpty then .ok ()
  else .error (.config (.unexpectedWeights op))

/-- Checks a node by itself, not its arguments. -/
def validate [Scalar α] [DecimalText α] : Query α → Except Fault Unit
  | term .. => .ok ()
  | proximity kind span args =>
    if span = 0 then .error (.config (.zeroSpan kind))
    else
      match args.find? (!·.isPostings) with
      | some arg => .error (.config (.argumentWithoutPostings kind span arg.text))
      | none => .ok ()
  | score arg => if arg.isPostings then .ok () else .error (.config (.scoreArgument arg.text))
  | combine op weights args => validateWeights op weights args.length

/-! ## Constructors -/

def and (args : List (Query α)) : Query α := combine .and [] args

def or (args : List (Query α)) : Query α := combine .or [] args

def sum (args : List (Query α)) : Query α := combine .sum [] args

variable [Scalar α] [DecimalText α]

/-- The query itself, if it is valid. -/
def validated (query : Query α) : Except Fault (Query α) := query.validate.map fun _ => query

def near (span : UInt32) (args : List (Query α)) : Except Fault (Query α) :=
  validated (proximity .near span args)

def window (span : UInt32) (args : List (Query α)) : Except Fault (Query α) :=
  validated (proximity .window span args)

/-- A weighted conjunction of pairs of a weight and an argument. -/
def wand (pairs : List (α × Query α)) : Except Fault (Query α) :=
  validated (combine .weightedAnd (pairs.map (·.1)) (pairs.map (·.2)))

/-- A weighted sum of pairs of a weight and an argument. -/
def wsum (pairs : List (α × Query α)) : Except Fault (Query α) :=
  validated (combine .weightedSum (pairs.map (·.1)) (pairs.map (·.2)))

end Query

end Retrieval
