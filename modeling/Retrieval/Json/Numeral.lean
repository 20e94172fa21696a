import Retrieval.Decimal.Shortest

/-!
# Numerals of JSON

A numeral is kept as written: sign, digits before and after the point, exponent. It is read as a
whole number or as a double.

A double is written with its shortest digits. Without an exponent it has at least one place after the
point; an exponent is written, with its sign, only if the point would stand more than sixteen digits
to the right or five zeros to the left.

A double is read with at most sixty-four bits of significand. Later digits of the whole part only
raise the exponent, later places are dropped, and the power of ten is applied by one multiplication
or division; so a numeral with many digits may be read one unit off. A numeral beyond the doubles is
refused.
-/

set_option autoImplicit false

namespace Retrieval

abbrev Digit := Fin 10

namespace Digit

def toChar (d : Digit) : Char := Char.ofNat (48 + d.val)

def ofChar? (c : Char) : Option Digit :=
  if h : 48 ≤ c.toNat ∧ c.toNat < 58 then some ⟨c.toNat - 48, by omega⟩ else none

/-- The decimal digits of a number. -/
def ofNat (n : Nat) : List Digit := (Nat.toDigits 10 n).filterMap ofChar?

end Digit

/-- The exponent of a numeral. -/
structure Exponent where
  negative : Bool
  digits : List Digit
  deriving DecidableEq, Repr

/-- A numeral without a point has no places. -/
structure Numeral where
  negative : Bool
  whole : List Digit
  places : List Digit
  exponent : Option Exponent
  deriving DecidableEq, Repr

namespace Numeral

/-! ## Text -/

/-- An exponent is written with its sign, also if it is positive. -/
def exponentChars : Option Exponent → List Char
  | none => []
  | some e => 'e' :: (if e.negative then '-' else '+') :: e.digits.map Digit.toChar

def placesChars : List Digit → List Char
  | [] => []
  | places => '.' :: places.map Digit.toChar

def toChars (n : Numeral) : List Char :=
  (if n.negative then ['-'] else []) ++ n.whole.map Digit.toChar ++ placesChars n.places
    ++ exponentChars n.exponent

/-- Splits off the digits at the front. -/
def takeDigits : List Char → List Digit × List Char
  | [] => ([], [])
  | c :: rest =>
    match Digit.ofChar? c with
    | none => ([], c :: rest)
    | some d =>
      let (digits, rest) := takeDigits rest
      (d :: digits, rest)

/-- One zero, or digits that start with another digit. -/
def isWhole : List Digit → Bool
  | [] => false
  | [_] => true
  | d :: _ :: _ => d != 0

/-- The places after a point, at least one if there is a point. -/
def placesOf? : List Char → Option (List Digit × List Char)
  | '.' :: rest =>
    match takeDigits rest with
    | ([], _) => none
    | (places, rest) => some (places, rest)
  | rest => some ([], rest)

/-- Digits up to the end, at least one. -/
def exponentDigits? (negative : Bool) (cs : List Char) : Option (Option Exponent) :=
  match takeDigits cs with
  | ([], _) => none
  | (digits, []) => some (some { negative, digits })
  | (_, _ :: _) => none

def exponentOf? : List Char → Option (Option Exponent)
  | [] => some none
  | c :: rest =>
    if c = 'e' || c = 'E' then
      match rest with
      | '+' :: rest => exponentDigits? false rest
      | '-' :: rest => exponentDigits? true rest
      | rest => exponentDigits? false rest
    else none

/-- Reads an unsigned numeral. -/
def ofUnsigned? (negative : Bool) (cs : List Char) : Option Numeral :=
  let (whole, rest) := takeDigits cs
  if isWhole whole then do
    let (places, rest) ← placesOf? rest
    let exponent ← exponentOf? rest
    return { negative, whole, places, exponent }
  else none

def ofChars? : List Char → Option Numeral
  | '-' :: rest => ofUnsigned? true rest
  | cs => ofUnsigned? false cs

/-! ## Whole numbers -/

def ofNat (n : Nat) : Numeral :=
  { negative := false, whole := Digit.ofNat n, places := [], exponent := none }

/-- Takes digits into a significand as long as it stays below `2 ^ 64`; the rest is left over. -/
def absorb (significand : Nat) : List Digit → Nat × List Digit
  | [] => (significand, [])
  | d :: rest =>
    if significand * 10 + d.val < UInt64.size then absorb (significand * 10 + d.val) rest
    else (significand, d :: rest)

/-- The value of a numeral that is only digits, below `2 ^ 64`. -/
def toNat? (n : Numeral) : Option Nat :=
  if n.negative || !n.places.isEmpty || n.exponent.isSome then none
  else
    match absorb 0 n.whole with
    | (value, []) => some value
    | (_, _ :: _) => none

/-! ## Doubles -/

def powerOfTen (n : Nat) : Float := Float.ofScientific 1 false n

/-- `f · 10 ^ e`, none if it is too great for a double. -/
def scale? (f : Float) (e : Int) : Option Float :=
  if e.natAbs ≤ 308 then
    if 0 ≤ e then
      let scaled := f * powerOfTen e.natAbs
      if scaled.isFinite then some scaled else none
    else some (f / powerOfTen e.natAbs)
  else if f == 0 then some f
  else if 0 ≤ e then none
  else scale? (f / powerOfTen 308) (e + 308)
termination_by (-e).toNat

/-- The exponent as a number, none if it has more digits than 32 bits hold. -/
def exponentValue? (e : Exponent) : Option Int :=
  let value : Nat := e.digits.foldl (fun n d => n * 10 + d.val) 0
  if value < 0x80000000 then some (if e.negative then -(value : Int) else value) else none

/-- The magnitude of a numeral as a double. An exponent beyond 32 bits leaves only zero. -/
def magnitude? (n : Numeral) : Option Float :=
  let (significand, wholeLeft) := absorb 0 n.whole
  let (significand, placesLeft) := absorb significand n.places
  let shift : Int := wholeLeft.length - ((n.places.length - placesLeft.length : Nat) : Int)
  let f := Float.ofNat significand
  match n.exponent with
  | none => scale? f shift
  | some e =>
    match exponentValue? e with
    | some power => scale? f (shift + power)
    | none => if significand = 0 || e.negative then some 0.0 else none

def toFloat? (n : Numeral) : Option Float :=
  n.magnitude?.map fun f => if n.negative then -f else f

/-- The numeral of `digits · 10 ^ exponent`. -/
def ofDecimal (negative : Bool) (d : Decimal) : Numeral :=
  let digits := Digit.ofNat d.digits
  let point := digits.length + d.exponent
  if 0 ≤ d.exponent && point ≤ 16 then
    { negative, whole := digits ++ List.replicate d.exponent.toNat 0, places := [0]
      exponent := none }
  else if 0 < point && point ≤ 16 then
    { negative, whole := digits.take point.toNat, places := digits.drop point.toNat
      exponent := none }
  else if -5 < point && point ≤ 0 then
    { negative, whole := [0], places := List.replicate (-point).toNat 0 ++ digits
      exponent := none }
  else
    let power := point - 1
    { negative, whole := digits.take 1, places := digits.drop 1
      exponent := some { negative := power < 0, digits := Digit.ofNat power.natAbs } }

/-- The numeral of a double, if it is finite. -/
def ofFloat? (x : Float) : Option Numeral :=
  if x.isFinite then
    let magnitude := x.toBits % 0x8000000000000000
    let negative : Bool := 0x8000000000000000 ≤ x.toBits
    some <|
      if magnitude = 0 then { negative, whole := [0], places := [0], exponent := none }
      else ofDecimal negative (Decimal.ofBits .even magnitude)
  else none

end Numeral

end Retrieval
