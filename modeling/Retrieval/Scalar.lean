/-!
# The arithmetic of scores

Weights, leaf statistics and scores are computed in an arithmetic `α`. Running queries takes the
doubles; a law about scores may take the real numbers, or any other reading, and then speaks of
the same definitions.

* `Scalar α`: the operations that scoring uses.
* `Scalar.sum`, `Scalar.product`: the folds over a list, left to right; `Scalar.weightedSum` and
  `Scalar.weightedProduct` take every score in proportion to its weight.
* `Scalar.larger`, `Scalar.smaller`: the greater and the lesser of two numbers, where a value that
  is not a number gives way to the other one.
* `Double`: a double as its 64 bits, ordered as the bits are; `Float` is ordered alike.
-/

set_option autoImplicit false

namespace Retrieval

/-- Numbers that scores can be computed in. `neutral` is the value of a sum without terms and
changes nothing when added; `lt` and `le` are false on anything that is not a number. -/
class Scalar (α : Type) extends Add α, Sub α, Mul α, Div α where
  ofNat : Nat → α
  half : α
  neutral : α
  log : α → α
  pow : α → α → α
  lt : α → α → Bool
  le : α → α → Bool
  isFinite : α → Bool

/-- The decimal text of a number, as messages and query texts show it. -/
class DecimalText (α : Type) where
  text : α → String

namespace Scalar

variable {α : Type} [Scalar α]

def zero : α := ofNat 0

def one : α := ofNat 1

def isNumber (x : α) : Bool := le x x

/-- Whether `x` is finite and at least zero. -/
def isSize (x : α) : Bool := isFinite x && !lt x zero

/-- Whether `x` lies between zero and one, both included. -/
def isFraction (x : α) : Bool := le zero x && le x one

/-- The greater of two numbers; of two that compare equal, the first. -/
def larger (x y : α) : α :=
  if isNumber x then if lt x y then y else x else y

/-- The lesser of two numbers; of two that compare equal, the first. -/
def smaller (x y : α) : α :=
  if isNumber x then if lt y x then y else x else y

def sum (xs : List α) : α := xs.foldl (· + ·) neutral

def product (xs : List α) : α := xs.foldl (· * ·) one

/-- Every weight divided by the sum of all of them. -/
def shares (weights : List α) : List α :=
  let total := sum weights
  weights.map (· / total)

/-- The sum of the scores in proportion to their weights. -/
def weightedSum (weights scores : List α) : α :=
  sum (List.zipWith (fun share score => share * score) (shares weights) scores)

/-- The product of the scores to the power of their shares of the weight. -/
def weightedProduct (weights scores : List α) : α :=
  product (List.zipWith (fun share score => pow score share) (shares weights) scores)

end Scalar

/-! ## Doubles -/

/-- Minus zero is the neutral element of addition on doubles: it keeps the sign of a zero. -/
instance : Scalar Float where
  ofNat := Float.ofNat
  half := 0.5
  neutral := -0.0
  log := Float.log
  pow := Float.pow
  lt x y := x < y
  le x y := x ≤ y
  isFinite := Float.isFinite

/-- A double given by its 64 bits, so that what is not a number keeps its sign and payload. -/
structure Double where
  bits : UInt64
  deriving DecidableEq, Repr

namespace Double

/-- The place of a bit pattern in the total order of doubles: patterns with the sign bit count down
from minus one, the others up from zero. -/
def place (x : Double) : Int :=
  if x.bits < 0x8000000000000000 then (x.bits.toNat : Int)
  else -((x.bits - 0x8000000000000000).toNat : Int) - 1

def toFloat (x : Double) : Float := Float.ofBits x.bits

def ofFloat (x : Float) : Double := ⟨x.toBits⟩

instance : Ord Double := ⟨fun x y => compare x.place y.place⟩

end Double

instance instOrdFloat : Ord Float := ⟨fun x y => compare (Double.ofFloat x) (Double.ofFloat y)⟩

end Retrieval
