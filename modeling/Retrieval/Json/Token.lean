import Retrieval.Json.Numeral

/-!
# Tokens of JSON

Text is read character by character. Strings are kept with their escapes resolved, except that an
escaped UTF-16 unit stays one until the string is decoded, since it may lack its partner.
-/

set_option autoImplicit false

namespace Retrieval

namespace Json

/-- A character, or a UTF-16 unit given by an escape. -/
inductive Piece where
  | char (c : Char)
  | unit (u : UInt16)
  deriving DecidableEq, Repr

/-- The content of a string as it was written. -/
abbrev RawText := List Piece

namespace RawText

def ofString (s : String) : RawText := s.toList.map .char

/-- The characters, none if a surrogate stands alone. -/
def decodeChars? : RawText → Option (List Char)
  | [] => some []
  | .char c :: rest => (decodeChars? rest).map (c :: ·)
  | .unit u :: rest =>
    if u < 0xD800 || 0xDFFF < u then (decodeChars? rest).map (Char.ofNat u.toNat :: ·)
    else
      match rest with
      | .unit v :: rest =>
        if u < 0xDC00 && 0xDC00 ≤ v && v ≤ 0xDFFF then
          (decodeChars? rest).map
            (Char.ofNat (0x10000 + (u.toNat - 0xD800) * 0x400 + (v.toNat - 0xDC00)) :: ·)
        else none
      | _ => none

def decode? (text : RawText) : Option String := text.decodeChars?.map String.ofList

end RawText

inductive Token where
  | openArray
  | closeArray
  | openObject
  | closeObject
  | comma
  | colon
  | null
  | bool (b : Bool)
  | numeral (n : Numeral)
  | text (t : RawText)
  deriving DecidableEq, Repr

/-- What is being read. Characters and pieces that were read are kept last one first. -/
inductive Scan where
  | between
  | word (read : List Char)
  | numeral (read : List Char)
  | text (read : RawText)
  | escape (read : RawText)
  | unit (read : RawText) (digits : Nat) (value : Nat)
  deriving Repr

namespace Token

def isBlank (c : Char) : Bool := c = ' ' || c = '\n' || c = '\t' || c = '\r'

def isNumeralChar (c : Char) : Bool :=
  c.isDigit || c = '-' || c = '+' || c = '.' || c = 'e' || c = 'E'

def ofWord? (read : List Char) : Option Token :=
  if read.reverse = "null".toList then some null
  else if read.reverse = "true".toList then some (bool true)
  else if read.reverse = "false".toList then some (bool false)
  else none

def ofNumeral? (read : List Char) : Option Token := (Numeral.ofChars? read.reverse).map numeral

/-- The value of a hexadecimal digit. -/
def hexValue? (c : Char) : Option Nat :=
  if '0' ≤ c && c ≤ '9' then some (c.toNat - '0'.toNat)
  else if 'a' ≤ c && c ≤ 'f' then some (c.toNat - 'a'.toNat + 10)
  else if 'A' ≤ c && c ≤ 'F' then some (c.toNat - 'A'.toNat + 10)
  else none

/-- The character that an escape of one letter stands for. -/
def escaped? : Char → Option Char
  | '"' => some '"'
  | '\\' => some '\\'
  | '/' => some '/'
  | 'b' => some '\x08'
  | 'f' => some '\x0c'
  | 'n' => some '\n'
  | 'r' => some '\r'
  | 't' => some '\t'
  | _ => none

/-- A character outside strings, words and numerals. -/
def start? (tokens : List Token) (c : Char) : Option (List Token × Scan) :=
  if isBlank c then some (tokens, .between)
  else if c = '[' then some (openArray :: tokens, .between)
  else if c = ']' then some (closeArray :: tokens, .between)
  else if c = '\x7b' then some (openObject :: tokens, .between)
  else if c = '\x7d' then some (closeObject :: tokens, .between)
  else if c = ',' then some (comma :: tokens, .between)
  else if c = ':' then some (colon :: tokens, .between)
  else if c = '"' then some (tokens, .text [])
  else if c = '-' || c.isDigit then some (tokens, .numeral [c])
  else if c.isAlpha then some (tokens, .word [c])
  else none

/-- Reads one character; the tokens are kept last one first. -/
def step? : List Token × Scan → Char → Option (List Token × Scan)
  | (tokens, .between), c => start? tokens c
  | (tokens, .word read), c =>
    if c.isAlpha then some (tokens, .word (c :: read))
    else (ofWord? read).bind fun token => start? (token :: tokens) c
  | (tokens, .numeral read), c =>
    if isNumeralChar c then some (tokens, .numeral (c :: read))
    else (ofNumeral? read).bind fun token => start? (token :: tokens) c
  | (tokens, .text read), c =>
    if c = '"' then some (text read.reverse :: tokens, .between)
    else if c = '\\' then some (tokens, .escape read)
    else if c.toNat < 0x20 then none
    else some (tokens, .text (.char c :: read))
  | (tokens, .escape read), c =>
    if c = 'u' then some (tokens, .unit read 4 0)
    else (escaped? c).map fun c => (tokens, .text (.char c :: read))
  | (tokens, .unit read digits value), c =>
    (hexValue? c).map fun digit =>
      let value := value * 16 + digit
      if digits ≤ 1 then (tokens, .text (.unit value.toUInt16 :: read))
      else (tokens, .unit read (digits - 1) value)

/-- The tokens at the end of the text, unless it breaks off. -/
def finish? : List Token × Scan → Option (List Token)
  | (tokens, .between) => some tokens.reverse
  | (tokens, .word read) => (ofWord? read).map fun token => (token :: tokens).reverse
  | (tokens, .numeral read) => (ofNumeral? read).map fun token => (token :: tokens).reverse
  | (_, .text _) | (_, .escape _) | (_, .unit ..) => none

/-- The tokens of a text. -/
def ofChars? (cs : List Char) : Option (List Token) :=
  (cs.foldlM step? ([], .between)).bind finish?

end Token

end Json

end Retrieval
