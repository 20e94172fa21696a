import Retrieval.Text.Quoted.Table
import Retrieval.Text.Ranges

/-!
# Quoted text

Text between double quotes, in which quotes, backslashes, controls, marks that would join the
character before them, and whatever has no visible form are escaped.
-/

set_option autoImplicit false

namespace Retrieval.Text.Quoted

def hexDigits (n : Nat) : List Char := Nat.toDigits 16 n

def escape (c : Char) : List Char :=
  if c = '\x00' then ['\\', '0']
  else if c = '\t' then ['\\', 't']
  else if c = '\r' then ['\\', 'r']
  else if c = '\n' then ['\\', 'n']
  else if c = '\\' || c = '"' then ['\\', c]
  else if covers extendingRanges c || covers unprintableRanges c then
    ['\\', 'u', '\x7b'] ++ hexDigits c.toNat ++ ['\x7d']
  else [c]

def encode (text : String) : String :=
  String.ofList (['"'] ++ text.toList.flatMap escape ++ ['"'])

end Retrieval.Text.Quoted
