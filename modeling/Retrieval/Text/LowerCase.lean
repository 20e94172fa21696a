import Retrieval.Text.LowerCase.Table

/-!
# Lower case

Full Unicode lower case of a word. Every character has a lower case of its own but two: the capital
I with a dot becomes two characters, and a capital sigma becomes the final sigma at the end of a
word, which is where a cased letter comes before it and none after it, looking past ignorable
characters on both sides.
-/

set_option autoImplicit false

namespace Retrieval.Text.LowerCase

/-- The lower case of one character by itself. -/
def ofChar (c : Char) : Char :=
  if c.toNat < 0x80 then c.toLower
  else
    match lookup? CapitalRun.first CapitalRun.last capitalRuns c.toNat with
    | some run =>
      let distance := c.toNat - run.first
      if distance % run.step = 0 then Char.ofNat (run.image + distance) else c
    | none => c

/-- Whether the first character that is not ignorable is a cased letter. -/
def meetsCased (cs : List Char) : Bool :=
  match cs.dropWhile (covers ignorableRanges) with
  | c :: _ => covers casedRanges c
  | [] => false

/-- The lower case of the characters that follow `before`, which is given last character first. -/
def ofChars (before : List Char) : List Char → List Char
  | [] => []
  | c :: rest =>
    let lowered :=
      if c = 'Σ' then [if meetsCased before && !meetsCased rest then 'ς' else 'σ']
      else if c = 'İ' then ['i', '\u0307']
      else [ofChar c]
    lowered ++ ofChars (c :: before) rest

def ofWord (word : List Char) : List Char := ofChars [] word

end Retrieval.Text.LowerCase
