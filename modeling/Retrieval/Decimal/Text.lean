import Retrieval.Decimal.Shortest
import Retrieval.Scalar

/-!
# Decimal text

The text of a decimal without an exponent, and the text of a double that messages and queries show:
its shortest decimal written out in full, without a point when it is whole.
-/

set_option autoImplicit false

namespace Retrieval.Decimal

/-- The digits before the point and those after it. -/
def split (d : Decimal) : String × String :=
  let digits := Nat.toDigits 10 d.digits
  if 0 ≤ d.exponent then
    (String.ofList (digits ++ List.replicate d.exponent.toNat '0'), "")
  else
    let places := (-d.exponent).toNat
    let padded := List.replicate (places + 1 - digits.length) '0' ++ digits
    let whole := padded.length - places
    (String.ofList (padded.take whole), String.ofList (padded.drop whole))

/-- The text of a double; a number that is not finite is named. -/
def textOfBits (bits : UInt64) : String :=
  let magnitude := bits % 0x8000000000000000
  let sign := if bits < 0x8000000000000000 then "" else "-"
  if 0x7ff0000000000000 < magnitude then "NaN"
  else if magnitude = 0x7ff0000000000000 then sign ++ "inf"
  else if magnitude = 0 then sign ++ "0"
  else
    let (whole, places) := (ofBits .up magnitude).split
    sign ++ whole ++ (if places.isEmpty then "" else "." ++ places)

instance : DecimalText Float := ⟨fun x => textOfBits x.toBits⟩

end Retrieval.Decimal
