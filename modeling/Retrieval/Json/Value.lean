import Retrieval.Json.Token

/-!
# JSON values

A value as it was written: members keep their order and may repeat a name, strings and numerals are
not judged yet. `Json.ofString?` reads a text that holds one value, `Json.toString` writes a value
without blanks.
-/

set_option autoImplicit false

namespace Retrieval

inductive Json where
  | null
  | bool (b : Bool)
  | numeral (n : Numeral)
  | text (t : Json.RawText)
  | array (items : List Json)
  | object (members : List (Json.RawText × Json))

namespace Json

/-! ## Reading -/

/-- An array or object that is still open. What it holds so far is kept last one first; an object
waits for the value of `key`. -/
inductive Frame where
  | array (items : List Json)
  | object (members : List (RawText × Json)) (key : RawText)

/-- What may come next, with the arrays and objects that are open around it, innermost first. -/
inductive Expect where
  | value (frames : List Frame)
  | firstItem (frames : List Frame)
  | firstKey (frames : List Frame)
  | key (members : List (RawText × Json)) (frames : List Frame)
  | colon (members : List (RawText × Json)) (key : RawText) (frames : List Frame)
  | afterValue (value : Json) (frames : List Frame)

namespace Expect

/-- The start of a value. -/
def open? (frames : List Frame) : Token → Option Expect
  | .null => some (afterValue .null frames)
  | .bool b => some (afterValue (.bool b) frames)
  | .numeral n => some (afterValue (.numeral n) frames)
  | .text t => some (afterValue (.text t) frames)
  | .openArray => some (firstItem frames)
  | .openObject => some (firstKey frames)
  | .closeArray | .closeObject | .comma | .colon => none

def step? : Expect → Token → Option Expect
  | value frames, token => open? frames token
  | firstItem frames, .closeArray => some (afterValue (.array []) frames)
  | firstItem frames, token => open? (.array [] :: frames) token
  | firstKey frames, .closeObject => some (afterValue (.object []) frames)
  | firstKey frames, .text t => some (colon [] t frames)
  | firstKey _, _ => none
  | key members frames, .text t => some (colon members t frames)
  | key _ _, _ => none
  | colon members k frames, .colon => some (value (.object members k :: frames))
  | colon _ _ _, _ => none
  | afterValue v (.array items :: frames), .comma => some (value (.array (v :: items) :: frames))
  | afterValue v (.array items :: frames), .closeArray =>
    some (afterValue (.array (v :: items).reverse) frames)
  | afterValue v (.object members k :: frames), .comma => some (key ((k, v) :: members) frames)
  | afterValue v (.object members k :: frames), .closeObject =>
    some (afterValue (.object ((k, v) :: members).reverse) frames)
  | afterValue _ _, _ => none

/-- The value, if nothing is open any more. -/
def finish? : Expect → Option Json
  | afterValue v [] => some v
  | _ => none

end Expect

def ofTokens? (tokens : List Token) : Option Json :=
  (tokens.foldlM Expect.step? (.value [])).bind Expect.finish?

/-- Reads a text that holds one value. -/
def ofString? (s : String) : Option Json := (Token.ofChars? s.toList).bind ofTokens?

/-! ## Writing -/

def hexChar (n : Nat) : Char := Nat.digitChar (n % 16)

def unitChars (n : Nat) : List Char :=
  ['\\', 'u', hexChar (n / 4096), hexChar (n / 256), hexChar (n / 16), hexChar n]

/-- Quotes, backslashes and controls are escaped, by a letter where there is one. -/
def charChars (c : Char) : List Char :=
  if c = '"' then ['\\', '"']
  else if c = '\\' then ['\\', '\\']
  else if c = '\x08' then ['\\', 'b']
  else if c = '\x0c' then ['\\', 'f']
  else if c = '\n' then ['\\', 'n']
  else if c = '\r' then ['\\', 'r']
  else if c = '\t' then ['\\', 't']
  else if c.toNat < 0x20 then unitChars c.toNat
  else [c]

def pieceChars : Piece → List Char
  | .char c => charChars c
  | .unit u => unitChars u.toNat

def textChars (t : RawText) : List Char := '"' :: t.flatMap pieceChars ++ ['"']

mutual

def toChars : Json → List Char
  | null => "null".toList
  | bool true => "true".toList
  | bool false => "false".toList
  | numeral n => n.toChars
  | text t => textChars t
  | array [] => ['[', ']']
  | array (item :: items) => '[' :: toChars item ++ itemsChars items ++ [']']
  | object [] => ['\x7b', '\x7d']
  | object (member :: members) =>
    '\x7b' :: memberChars member ++ membersChars members ++ ['\x7d']

def itemsChars : List Json → List Char
  | [] => []
  | item :: items => ',' :: toChars item ++ itemsChars items

def memberChars : RawText × Json → List Char
  | (key, value) => textChars key ++ ':' :: toChars value

def membersChars : List (RawText × Json) → List Char
  | [] => []
  | member :: members => ',' :: memberChars member ++ membersChars members

end

protected def toString (json : Json) : String := String.ofList json.toChars

end Json

end Retrieval
