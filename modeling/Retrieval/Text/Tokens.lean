import Retrieval.Text.LowerCase

/-!
# Tokens of a text

A text is cut at blanks, which are the characters that Unicode calls white space, and every piece
is put into lower case. Blanks at either end and in a row leave no empty tokens.
-/

set_option autoImplicit false

namespace Retrieval.Text

/-- The characters with the property White_Space. -/
def isBlank (c : Char) : Bool :=
  c == ' ' || (0x9 ≤ c.toNat && c.toNat ≤ 0xD) || c.toNat == 0x85 || c.toNat == 0xA0
    || c.toNat == 0x1680 || (0x2000 ≤ c.toNat && c.toNat ≤ 0x200A) || c.toNat == 0x2028
    || c.toNat == 0x2029 || c.toNat == 0x202F || c.toNat == 0x205F || c.toNat == 0x3000

/-- The pieces between blanks, empty ones included. -/
def pieces : List Char → List (List Char)
  | [] => [[]]
  | c :: rest =>
    if isBlank c then [] :: pieces rest
    else
      match pieces rest with
      | [] => [[c]]
      | piece :: more => (c :: piece) :: more

/-- The words of a text: its pieces that are not empty. -/
def words (text : String) : List (List Char) :=
  (pieces text.toList).filter fun piece => !piece.isEmpty

/-- The tokens of a text in order: its words in lower case. -/
def tokens (text : String) : List String :=
  (words text).map fun word => String.ofList (LowerCase.ofWord word)

end Retrieval.Text
