import Retrieval.Json.Value
import Retrieval.Proofs.Json.Numeral

/-!
# Scanning what was written

Strings, words and numerals that were written are scanned as one token each. A string ends by
itself. A word or a numeral ends where a mark follows or the text does, so what is said of them is
said of the text that goes on behind them (`Token.after`).

A string comes back with the same characters, except that a control character without a letter of
its own comes back as the unit that it was escaped to (`RawText.reread`).
-/

set_option autoImplicit false

namespace Retrieval.Json

open Token

/-! ## Strings -/

/-- The piece that is scanned where one was written. -/
def Piece.reread : Piece → Piece
  | .char c =>
    if c.toNat < 0x20 ∧ c ∉ ['\x08', '\x0c', '\n', '\r', '\t'] then .unit c.toNat.toUInt16
    else .char c
  | .unit u => .unit u

def RawText.reread (text : RawText) : RawText := text.map Piece.reread

theorem hexValue?_hexChar (n : Nat) : hexValue? (hexChar n) = some (n % 16) := by
  have hall : ∀ d : Fin 16, hexValue? (Nat.digitChar d.val) = some d.val := by decide
  exact hall ⟨n % 16, Nat.mod_lt n (by decide)⟩

variable (tokens : List Token)

theorem scan_unit (read : RawText) {n : Nat} (h : n < 0x10000) :
    (unitChars n).foldlM step? (tokens, .text read) =
      some (tokens, .text (.unit n.toUInt16 :: read)) := by
  have hescape : step? (tokens, .text read) '\\' = some (tokens, .escape read) := rfl
  have hunit : step? (tokens, .escape read) 'u' = some (tokens, .unit read 4 0) := rfl
  have hdigit : ∀ left value m, step? (tokens, .unit read left value) (hexChar m) =
      some (if left ≤ 1 then (tokens, .text (.unit (value * 16 + m % 16).toUInt16 :: read))
        else (tokens, .unit read (left - 1) (value * 16 + m % 16))) := by
    simp only [step?, hexValue?_hexChar, Option.map_some, implies_true]
  have hvalue : (((0 * 16 + n / 4096 % 16) * 16 + n / 256 % 16) * 16 + n / 16 % 16) * 16 + n % 16 =
      n := by omega
  simp only [unitChars, List.foldlM_cons, List.foldlM_nil, hescape, hunit, hdigit,
    Option.bind_eq_bind, Option.bind_some, Nat.reduceLeDiff, Nat.reduceSub, if_true, if_false,
    hvalue]
  rfl

theorem scan_char (read : RawText) (c : Char) :
    (charChars c).foldlM step? (tokens, .text read) =
      some (tokens, .text (Piece.reread (.char c) :: read)) := by
  by_cases hnamed : c ∈ ['"', '\\', '\x08', '\x0c', '\n', '\r', '\t']
  · simp only [List.mem_cons, List.not_mem_nil, or_false] at hnamed
    rcases hnamed with rfl | rfl | rfl | rfl | rfl | rfl | rfl <;> rfl
  · simp only [List.mem_cons, List.not_mem_nil, or_false, not_or] at hnamed
    obtain ⟨hquote, hslash, hback, hfeed, hline, hreturn, htab⟩ := hnamed
    rw [charChars, if_neg hquote, if_neg hslash, if_neg hback, if_neg hfeed, if_neg hline,
      if_neg hreturn, if_neg htab, Piece.reread]
    by_cases hcontrol : c.toNat < 0x20
    · rw [if_pos hcontrol, scan_unit tokens read (by omega), if_pos]
      simp [hcontrol, hback, hfeed, hline, hreturn, htab]
    · rw [if_neg hcontrol, if_neg fun h => hcontrol h.1]
      simp [step?, hquote, hslash, hcontrol]

theorem scan_pieces (read text : RawText) :
    (text.flatMap pieceChars).foldlM step? (tokens, .text read) =
      some (tokens, .text (text.reread.reverse ++ read)) := by
  induction text generalizing read with
  | nil => rfl
  | cons piece rest ih =>
    have hpiece : (pieceChars piece).foldlM step? (tokens, .text read) =
        some (tokens, .text (piece.reread :: read)) := by
      cases piece with
      | char c => exact scan_char tokens read c
      | unit u =>
        rw [pieceChars, scan_unit tokens read (UInt16.toNat_lt u)]
        simp [Piece.reread]
    rw [List.flatMap_cons, List.foldlM_append, hpiece]
    simp [ih, RawText.reread]

/-! ## What follows a token -/

namespace Token

/-- The tokens of a text that goes on with some characters. The tokens before them are given last
one first. -/
def after (tokens : List Token) (cs : List Char) : Option (List Token) :=
  (cs.foldlM step? (tokens, .between)).bind finish?

theorem ofChars?_eq (cs : List Char) : ofChars? cs = after [] cs := rfl

/-- The text ends, or a mark comes that stands between values. -/
def Closes : List Char → Prop
  | [] => True
  | c :: _ => c ∈ [',', ':', ']', '\x7d']

/-- A mark is no part of a word or a numeral. -/
theorem Closes.ends {c : Char} {rest : List Char} (h : Closes (c :: rest)) :
    c.isAlpha = false ∧ isNumeralChar c = false := by
  rw [Closes] at h
  simp only [List.mem_cons, List.not_mem_nil, or_false] at h
  rcases h with rfl | rfl | rfl | rfl <;> exact ⟨rfl, rfl⟩

theorem after_text (text : RawText) (rest : List Char) :
    after tokens (textChars text ++ rest) = after (.text text.reread :: tokens) rest := by
  have hopen : start? tokens '"' = some (tokens, .text []) := rfl
  simp [after, textChars, step?, hopen, scan_pieces, List.foldlM_append]

variable {tokens}

theorem after_of_word (read : List Char) {token : Token} (hword : ofWord? read = some token)
    {rest : List Char} (hrest : Closes rest) :
    (rest.foldlM step? (tokens, .word read)).bind finish? = after (token :: tokens) rest := by
  cases rest with
  | nil => simp [after, finish?, hword]
  | cons c rest => simp [after, step?, hword, hrest.ends.1]

theorem after_of_numeral {read : List Char} {token : Token} (hread : ofNumeral? read = some token)
    {rest : List Char} (hrest : Closes rest) :
    (rest.foldlM step? (tokens, .numeral read)).bind finish? = after (token :: tokens) rest := by
  cases rest with
  | nil => simp [after, finish?, hread]
  | cons c rest => simp [after, step?, hread, hrest.ends.2]

theorem after_null {rest : List Char} (hrest : Closes rest) :
    after tokens ("null".toList ++ rest) = after (.null :: tokens) rest :=
  after_of_word ['l', 'l', 'u', 'n'] (by decide) hrest

theorem after_true {rest : List Char} (hrest : Closes rest) :
    after tokens ("true".toList ++ rest) = after (.bool true :: tokens) rest :=
  after_of_word ['e', 'u', 'r', 't'] (by decide) hrest

theorem after_false {rest : List Char} (hrest : Closes rest) :
    after tokens ("false".toList ++ rest) = after (.bool false :: tokens) rest :=
  after_of_word ['e', 's', 'l', 'a', 'f'] (by decide) hrest

/-! ## Numerals -/

theorem isNumeralChar_toChar (d : Digit) : isNumeralChar d.toChar = true := by
  revert d
  decide

theorem isNumeralChar_of_mem {n : Numeral} {c : Char} (hc : c ∈ n.toChars) :
    isNumeralChar c = true := by
  have hdigits : ∀ digits : List Digit, ∀ c ∈ digits.map Digit.toChar, isNumeralChar c = true :=
    fun digits => List.forall_mem_map.mpr fun d _ => isNumeralChar_toChar d
  obtain ⟨negative, whole, places, exponent⟩ := n
  simp only [Numeral.toChars, List.mem_append] at hc
  rcases hc with ((hc | hc) | hc) | hc
  · cases negative with
    | false => cases hc
    | true => rw [List.mem_singleton.mp hc]; rfl
  · exact hdigits whole c hc
  · cases places with
    | nil => cases hc
    | cons d places =>
      rcases List.mem_cons.mp hc with rfl | hc
      · rfl
      · exact hdigits _ c hc
  · cases exponent with
    | none => cases hc
    | some e =>
      obtain ⟨negative, digits⟩ := e
      rcases List.mem_cons.mp hc with rfl | hc
      · rfl
      · rcases List.mem_cons.mp hc with rfl | hc
        · cases negative <;> rfl
        · exact hdigits digits c hc

/-- Nothing but a sign or a digit stands first. -/
theorem exists_toChars_eq_cons {n : Numeral} (hformed : n.isFormed = true) :
    ∃ c rest, n.toChars = c :: rest ∧
      ∀ tokens, start? tokens c = some (tokens, .numeral [c]) := by
  obtain ⟨negative, whole, places, exponent⟩ := n
  cases negative with
  | true => exact ⟨'-', _, rfl, fun _ => rfl⟩
  | false =>
    cases whole with
    | nil => cases hformed
    | cons d whole =>
      have hdigit : ∀ d : Digit, isBlank d.toChar = false ∧
          d.toChar ∉ ['[', ']', '\x7b', '\x7d', ',', ':', '"'] ∧ d.toChar.isDigit = true := by
        decide
      obtain ⟨hblank, hmark, hd⟩ := hdigit d
      simp only [List.mem_cons, List.not_mem_nil, or_false, not_or] at hmark
      exact ⟨d.toChar, _, rfl, fun tokens => by simp [start?, hblank, hmark, hd]⟩

theorem scan_numeralChars (read : List Char) {cs : List Char}
    (h : ∀ c ∈ cs, isNumeralChar c = true) :
    cs.foldlM step? (tokens, .numeral read) = some (tokens, .numeral (cs.reverse ++ read)) := by
  induction cs generalizing read with
  | nil => rfl
  | cons c rest ih =>
    rw [List.forall_mem_cons] at h
    simp [step?, h.1, ih (c :: read) h.2]

theorem after_numeral {n : Numeral} (hformed : n.isFormed = true) {rest : List Char}
    (hrest : Closes rest) :
    after tokens (n.toChars ++ rest) = after (.numeral n :: tokens) rest := by
  -- the first character decides that this is a numeral, the others only add to it
  obtain ⟨c, cs, heq, hstart⟩ := exists_toChars_eq_cons hformed
  have hchars : ∀ c ∈ cs, isNumeralChar c = true := fun c hc =>
    isNumeralChar_of_mem (heq ▸ List.mem_cons_of_mem _ hc)
  have hread : ofNumeral? (cs.reverse ++ [c]) = some (.numeral n) := by
    rw [← List.reverse_cons, ← heq, ofNumeral?, List.reverse_reverse, Numeral.ofChars?_toChars,
      if_pos hformed]
    rfl
  rw [← after_of_numeral hread hrest, heq]
  simp [after, step?, hstart, scan_numeralChars _ hchars, List.foldlM_append]

end Token

end Retrieval.Json
