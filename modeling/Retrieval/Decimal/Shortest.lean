/-!
# The shortest decimal of a double

A finite double is `m · 2 ^ q` for whole numbers `m` and `q`, and the real numbers that round to it
form an interval around it. Its shortest decimal is a number `digits · 10 ^ exponent` in that
interval with as few digits as possible, and among these one nearest to the double. The search asks,
for one digit, two digits and so on, whether one of the double's two neighbours on that decimal grid
lies in the interval; all of it is exact arithmetic on natural numbers.
-/

set_option autoImplicit false

namespace Retrieval

/-- `digits · 10 ^ exponent`. -/
structure Decimal where
  digits : Nat
  exponent : Int
  deriving DecidableEq, Repr

namespace Decimal

/-- Which neighbour is taken when the double lies halfway between two decimals. -/
inductive Tie where
  | up
  | even
  deriving DecidableEq, Repr

/-- A positive double as a fraction `value / unit`, and the interval of the numbers that round to
it, from `low / unit` to `high / unit`. The ends belong to it if `closed`. -/
structure Rounding where
  low : Nat
  value : Nat
  high : Nat
  unit : Nat
  closed : Bool
  deriving DecidableEq, Repr

namespace Rounding

/-- The interval of `m · 2 ^ q`. The gap below a power of two is half the gap above it, unless the
power is the least normal one; `narrow` says so. -/
def ofBinary (m : Nat) (q : Int) (narrow : Bool) : Rounding :=
  let scale := Nat.pow 2 (q - 2).toNat
  { low := (4 * m - (if narrow then 1 else 2)) * scale
    value := 4 * m * scale
    high := (4 * m + 2) * scale
    unit := Nat.pow 2 (2 - q).toNat
    closed := m % 2 = 0 }

/-- The interval of the positive finite double with the given bits, the sign set aside. -/
def ofBits (bits : UInt64) : Rounding :=
  let fraction := bits.toNat % Nat.pow 2 52
  let biased : Nat := bits.toNat / Nat.pow 2 52 % Nat.pow 2 11
  if biased = 0 then ofBinary fraction (-1074) false
  else ofBinary (Nat.pow 2 52 + fraction) ((biased : Int) - 1075) (fraction = 0 && 1 < biased)

/-- Whether `n · 10 ^ e` lies in the interval. -/
def contains (r : Rounding) (n : Nat) (e : Int) : Bool :=
  let point := n * Nat.pow 10 e.toNat * r.unit
  let scale := Nat.pow 10 (-e).toNat
  if r.closed then r.low * scale ≤ point && point ≤ r.high * scale
  else r.low * scale < point && point < r.high * scale

/-- The number `p` for which the value lies between `10 ^ (p - 1)`, included, and `10 ^ p`. -/
def magnitude (r : Rounding) : Int :=
  let p := (Nat.toDigits 10 r.value).length - ((Nat.toDigits 10 r.unit).length : Int)
  if r.unit * Nat.pow 10 p.toNat ≤ r.value * Nat.pow 10 (-p).toNat then p + 1 else p

/-- The neighbour on the grid of the multiples of `10 ^ e` that lies in the interval; of two, the
one nearer to the value. -/
def onGrid? (r : Rounding) (tie : Tie) (e : Int) : Option Decimal :=
  let value := r.value * Nat.pow 10 (-e).toNat
  let grid := r.unit * Nat.pow 10 e.toNat
  let below := value / grid
  let beyond := value % grid
  let upper : Bool := grid < 2 * beyond || (grid = 2 * beyond && (tie = .up || below % 2 = 1))
  match r.contains below e, r.contains (below + 1) e with
  | true, true => some ⟨if upper then below + 1 else below, e⟩
  | true, false => some ⟨below, e⟩
  | false, true => some ⟨below + 1, e⟩
  | false, false => none

/-- The decimal on the coarsest grid that has one; seventeen digits are always enough. -/
def shortest (r : Rounding) (tie : Tie) : Decimal :=
  let p := r.magnitude
  ((List.range 18).findSome? fun (n : Nat) => r.onGrid? tie (p - n)).getD ⟨0, 0⟩

end Rounding

/-- The digits without zeros at the end, as many as `fuel` allows. -/
def strip (d : Decimal) : Nat → Decimal
  | 0 => d
  | fuel + 1 =>
    if d.digits % 10 = 0 && d.digits ≠ 0 then
      strip ⟨d.digits / 10, d.exponent + 1⟩ fuel
    else d

/-- The shortest decimal of a positive finite double, without zeros at the end. -/
def ofBits (tie : Tie) (bits : UInt64) : Decimal :=
  let d := (Rounding.ofBits bits).shortest tie
  d.strip (Nat.toDigits 10 d.digits).length

end Decimal

end Retrieval
