/-!
# Tables of code point ranges

A sorted table of ranges is searched by halving. `lookup?` finds the row whose range holds a
number; `covers` is the case of a table of bare ranges.
-/

set_option autoImplicit false

namespace Retrieval.Text

/-- The row between the indexes `low` and `high` whose range holds `n`. -/
def lookupBetween? {ρ : Type} (first last : ρ → Nat) (table : Array ρ) (n low high : Nat) :
    Option ρ :=
  if low < high then
    let middle := low + (high - low) / 2
    match table[middle]? with
    | none => none
    | some row =>
      if n < first row then lookupBetween? first last table n low middle
      else if last row < n then lookupBetween? first last table n (middle + 1) high
      else some row
  else none
termination_by high - low

/-- The row of a table, sorted by range, whose range holds `n`. -/
def lookup? {ρ : Type} (first last : ρ → Nat) (table : Array ρ) (n : Nat) : Option ρ :=
  lookupBetween? first last table n 0 table.size

/-- Whether `c` lies in one of the ranges of a sorted table. -/
def covers (table : Array (Nat × Nat)) (c : Char) : Bool :=
  (lookup? Prod.fst Prod.snd table c.toNat).isSome

end Retrieval.Text
