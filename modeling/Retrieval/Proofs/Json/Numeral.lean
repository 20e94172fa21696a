import Retrieval.Json.Numeral

/-!
# Numerals that are read back

What is written of a numeral is read as that numeral or not at all (`Numeral.ofChars?_toChars`):
digits end where a point or an exponent starts, so nothing is taken for a part of something else.
The numeral of a natural number below two to the power of 64 has that number as its value
(`Numeral.toNat?_ofNat`).
-/

set_option autoImplicit false

namespace Retrieval

/-! ## Digits -/

namespace Digit

theorem ofChar?_toChar (d : Digit) : ofChar? d.toChar = some d := by
  revert d
  decide

theorem ofChar?_digitChar {n : Nat} (h : n < 10) : ofChar? (Nat.digitChar n) = some ⟨n, h⟩ := by
  have hall : ∀ d : Digit, ofChar? (Nat.digitChar d.val) = some d := by decide
  exact hall ⟨n, h⟩

theorem ofNat_of_lt {n : Nat} (h : n < 10) : ofNat n = [⟨n, h⟩] := by
  rw [ofNat, Nat.toDigits_of_lt_base h, List.filterMap_cons, ofChar?_digitChar h]
  rfl

theorem ofNat_of_le {n : Nat} (h : 10 ≤ n) :
    ofNat n = ofNat (n / 10) ++ [⟨n % 10, Nat.mod_lt n (by decide)⟩] := by
  rw [ofNat, Nat.toDigits_of_base_le (by decide) h, List.filterMap_append, List.filterMap_cons,
    ofChar?_digitChar (Nat.mod_lt n (by decide))]
  rfl

/-- The number that digits make of one that stands before them. -/
def value (start : Nat) (digits : List Digit) : Nat :=
  digits.foldl (fun n d => n * 10 + d.val) start

theorem le_value (start : Nat) (digits : List Digit) : start ≤ value start digits := by
  induction digits generalizing start with
  | nil => exact Nat.le_refl start
  | cons d rest ih =>
    have hrest : start * 10 + d.val ≤ value (start * 10 + d.val) rest := ih _
    exact Nat.le_trans (by omega) hrest

theorem value_ofNat (n : Nat) : value 0 (ofNat n) = n := by
  induction n using Nat.strongRecOn with
  | ind n ih =>
    by_cases h : n < 10
    · rw [ofNat_of_lt h]
      exact Nat.zero_add n
    · have hle : 10 ≤ n := Nat.le_of_not_lt h
      have hquotient : value 0 (ofNat (n / 10)) = n / 10 := ih (n / 10) (by omega)
      rw [value] at hquotient
      rw [ofNat_of_le hle, value, List.foldl_append, hquotient]
      exact Nat.div_add_mod' n 10

theorem exists_ofNat_eq_cons {n : Nat} (h : 0 < n) : ∃ d rest, ofNat n = d :: rest ∧ d ≠ 0 := by
  induction n using Nat.strongRecOn with
  | ind n ih =>
    by_cases hlt : n < 10
    · refine ⟨⟨n, hlt⟩, [], ofNat_of_lt hlt, fun hzero => ?_⟩
      exact Nat.ne_of_gt h (congrArg Fin.val hzero)
    · have hle : 10 ≤ n := Nat.le_of_not_lt hlt
      obtain ⟨d, rest, heq, hd⟩ := ih (n / 10) (by omega) (by omega)
      exact ⟨d, _, by rw [ofNat_of_le hle, heq, List.cons_append], hd⟩

end Digit

namespace Numeral

/-! ## Text -/

theorem takeDigits_append (digits : List Digit) {rest : List Char}
    (hrest : takeDigits rest = ([], rest)) :
    takeDigits (digits.map Digit.toChar ++ rest) = (digits, rest) := by
  induction digits with
  | nil => exact hrest
  | cons d digits ih =>
    rw [List.map_cons, List.cons_append, takeDigits, Digit.ofChar?_toChar]
    simp only [ih]

theorem takeDigits_exponentChars (exponent : Option Exponent) :
    takeDigits (exponentChars exponent) = ([], exponentChars exponent) := by
  cases exponent <;> rfl

theorem takeDigits_placesChars (places : List Digit) (exponent : Option Exponent) :
    takeDigits (placesChars places ++ exponentChars exponent) =
      ([], placesChars places ++ exponentChars exponent) := by
  cases places with
  | nil => exact takeDigits_exponentChars exponent
  | cons d places => rfl

theorem placesOf?_placesChars (places : List Digit) (exponent : Option Exponent) :
    placesOf? (placesChars places ++ exponentChars exponent) =
      some (places, exponentChars exponent) := by
  cases places with
  | nil => cases exponent <;> rfl
  | cons d places =>
    have htake := takeDigits_append (d :: places) (takeDigits_exponentChars exponent)
    rw [placesChars, List.cons_append, placesOf?, htake]
    exact List.cons_ne_nil d places

/-- An exponent needs a digit to be read. -/
def hasPower : Option Exponent → Bool
  | none => true
  | some e => !e.digits.isEmpty

theorem exponentDigits?_eq (negative : Bool) (digits : List Digit) :
    exponentDigits? negative (digits.map Digit.toChar) =
      if digits.isEmpty then none else some (some { negative, digits }) := by
  have htake : takeDigits (digits.map Digit.toChar ++ []) = (digits, []) :=
    takeDigits_append digits rfl
  rw [List.append_nil] at htake
  rw [exponentDigits?, htake]
  cases digits <;> rfl

theorem exponentOf?_exponentChars (exponent : Option Exponent) :
    exponentOf? (exponentChars exponent) = if hasPower exponent then some exponent else none := by
  cases exponent with
  | none => rfl
  | some e =>
    obtain ⟨negative, digits⟩ := e
    have hread : exponentOf? (exponentChars (some { negative, digits })) =
        exponentDigits? negative (digits.map Digit.toChar) := by
      cases negative <;> rfl
    rw [hread, exponentDigits?_eq, hasPower]
    cases digits <;> rfl

/-- Whether a numeral is one that could have been read. -/
def isFormed (n : Numeral) : Bool := isWhole n.whole && hasPower n.exponent

theorem ofUnsigned?_eq (n : Numeral) :
    ofUnsigned? n.negative
        (n.whole.map Digit.toChar ++ (placesChars n.places ++ exponentChars n.exponent)) =
      if n.isFormed then some n else none := by
  have htake := takeDigits_append n.whole (takeDigits_placesChars n.places n.exponent)
  rw [ofUnsigned?, htake, isFormed]
  cases hwhole : isWhole n.whole with
  | false => simp [hwhole]
  | true =>
    simp only [hwhole, placesOf?_placesChars, Option.bind_eq_bind, Option.bind_some,
      exponentOf?_exponentChars]
    cases hasPower n.exponent <;> rfl

/-- Only a sign is read as a sign. -/
theorem ofChars?_digits (whole places : List Digit) (exponent : Option Exponent) :
    ofChars? (whole.map Digit.toChar ++ (placesChars places ++ exponentChars exponent)) =
      ofUnsigned? false
        (whole.map Digit.toChar ++ (placesChars places ++ exponentChars exponent)) := by
  cases whole with
  | cons d whole =>
    have hall : ∀ d : Digit, d.toChar ≠ '-' := by decide
    rw [List.map_cons, List.cons_append, ofChars?]
    exact fun rest h => hall d (List.cons.inj h).1
  | nil =>
    cases places with
    | cons d places => rfl
    | nil => cases exponent <;> rfl

theorem ofChars?_toChars (n : Numeral) :
    ofChars? n.toChars = if n.isFormed then some n else none := by
  rw [← ofUnsigned?_eq, toChars, List.append_assoc, List.append_assoc]
  cases h : n.negative with
  | true => rfl
  | false => exact ofChars?_digits n.whole n.places n.exponent

/-! ## Whole numbers -/

theorem isFormed_ofNat (n : Nat) : (ofNat n).isFormed = true := by
  rw [isFormed, ofNat, hasPower, Bool.and_true]
  by_cases h : n < 10
  · rw [Digit.ofNat_of_lt h]
    rfl
  · obtain ⟨d, rest, heq, hd⟩ := Digit.exists_ofNat_eq_cons (n := n / 10) (by omega)
    rw [Digit.ofNat_of_le (Nat.le_of_not_lt h), heq]
    cases rest with
    | nil => exact bne_iff_ne.mpr hd
    | cons _ _ => exact bne_iff_ne.mpr hd

theorem absorb_eq {start : Nat} {digits : List Digit}
    (h : Digit.value start digits < UInt64.size) :
    absorb start digits = (Digit.value start digits, []) := by
  induction digits generalizing start with
  | nil => rfl
  | cons d rest ih =>
    have hvalue : Digit.value (start * 10 + d.val) rest < UInt64.size := h
    rw [absorb, if_pos (Nat.lt_of_le_of_lt (Digit.le_value _ rest) hvalue)]
    exact ih hvalue

theorem toNat?_ofNat {n : Nat} (h : n < UInt64.size) : (ofNat n).toNat? = some n := by
  have habsorb : absorb 0 (Digit.ofNat n) = (n, []) := by
    rw [absorb_eq (by rwa [Digit.value_ofNat]), Digit.value_ofNat]
  simp [toNat?, ofNat, habsorb]

end Numeral

end Retrieval
