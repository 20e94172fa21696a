import Mathlib.Analysis.SpecialFunctions.Pow.Real
import Retrieval.Scalar

/-!
# Arithmetic with a greatest number

The real numbers up to the greatest double, with two infinities for what lies beyond them
(`Bounded.ofReal`). Within these bounds operations are exact: nothing is rounded, and zero has no
sign. `Bounded.undefined` stands for an operation without a result. Logarithms and powers have one
only for finite numbers that are not negative.

Sums of numbers that are not negative do not show where they overflowed. However they are added,
they come to the real sum, or to infinity if that is out of bounds (`Bounded.sum_ofReal`). Divided
by infinity, every finite number is zero.
-/

set_option autoImplicit false

namespace Retrieval

/-- The greatest finite double. -/
def greatest : ℝ := (2 ^ 1024 - 2 ^ 971 : ℕ)

theorem greatest_eq : greatest = 2 ^ 1024 - 2 ^ 971 := by
  have hle : 2 ^ 971 ≤ 2 ^ 1024 := pow_le_pow_right₀ one_le_two (by decide)
  rw [greatest, Nat.cast_sub hle, Nat.cast_pow, Nat.cast_pow, Nat.cast_two]

theorem two_pow_le_greatest {n : Nat} (h : n < 1024) : 2 ^ n ≤ greatest := by
  have hn : (2 : ℝ) ^ n ≤ 2 ^ 1023 := pow_le_pow_right₀ one_le_two (Nat.le_of_lt_succ h)
  have hgap : (2 : ℝ) ^ 971 ≤ 2 ^ 1023 := pow_le_pow_right₀ one_le_two (by decide)
  calc (2 : ℝ) ^ n ≤ 2 ^ 1023 + (2 ^ 1023 - 2 ^ 971) :=
        hn.trans (le_add_of_nonneg_right (sub_nonneg.mpr hgap))
    _ = greatest := by rw [greatest_eq, pow_succ (2 : ℝ) 1023, mul_two, add_sub_assoc]

theorem greatest_lt : greatest < 2 ^ 1024 := by
  rw [greatest_eq]
  exact sub_lt_self _ (pow_pos two_pos 971)

theorem one_le_greatest : 1 ≤ greatest := by
  have h := two_pow_le_greatest (n := 0) (by decide)
  rwa [pow_zero] at h

theorem greatest_pos : 0 < greatest := zero_lt_one.trans_le one_le_greatest

inductive Bounded where
  | finite (x : ℝ) (h : |x| ≤ greatest)
  | infinite (negative : Bool)
  | undefined

namespace Bounded

open Classical in
/-- A real number within the bounds, and an infinity outside of them. -/
noncomputable def ofReal (x : ℝ) : Bounded :=
  if h : |x| ≤ greatest then finite x h else infinite (x < 0)

/-- The value of a finite number. -/
def toReal : Bounded → ℝ
  | finite x _ => x
  | infinite _ | undefined => 0

noncomputable def neg : Bounded → Bounded
  | finite x _ => ofReal (-x)
  | infinite negative => infinite !negative
  | undefined => undefined

noncomputable def add : Bounded → Bounded → Bounded
  | finite x _, finite y _ => ofReal (x + y)
  | finite .., infinite negative | infinite negative, finite .. => infinite negative
  | infinite negative, infinite other => if negative = other then infinite negative else undefined
  | undefined, _ | _, undefined => undefined

open Classical in
noncomputable def mul : Bounded → Bounded → Bounded
  | finite x _, finite y _ => ofReal (x * y)
  | finite x _, infinite negative | infinite negative, finite x _ =>
    if x = 0 then undefined else infinite (negative ^^ decide (x < 0))
  | infinite negative, infinite other => infinite (negative ^^ other)
  | undefined, _ | _, undefined => undefined

open Classical in
noncomputable def div : Bounded → Bounded → Bounded
  | finite x _, finite y _ =>
    if y ≠ 0 then ofReal (x / y) else if x = 0 then undefined else infinite (x < 0)
  | finite .., infinite _ => ofReal 0
  | infinite negative, finite y _ => infinite (negative ^^ decide (y < 0))
  | infinite _, infinite _ => undefined
  | undefined, _ | _, undefined => undefined

open Classical in
noncomputable instance : Scalar Bounded where
  add := add
  sub x y := add x y.neg
  mul := mul
  div := div
  ofNat n := ofReal n
  half := ofReal (1 / (2 : ℕ))
  neutral := ofReal 0
  log
    | finite x _ => if 0 < x then ofReal (Real.log x) else undefined
    | infinite _ | undefined => undefined
  pow
    | finite x _, finite y _ => if 0 < x ∨ x = 0 ∧ 0 ≤ y then ofReal (x ^ y) else undefined
    | _, _ => undefined
  lt
    | finite x _, finite y _ => x < y
    | finite .., infinite negative => !negative
    | infinite negative, finite .. => negative
    | infinite negative, infinite other => negative && !other
    | undefined, _ | _, undefined => false
  le
    | finite x _, finite y _ => x ≤ y
    | finite .., infinite negative => !negative
    | infinite negative, finite .. => negative
    | infinite negative, infinite other => negative || !other
    | undefined, _ | _, undefined => false
  isFinite
    | finite .. => true
    | infinite _ | undefined => false

instance : DecimalText Bounded := ⟨fun _ => "a number"⟩

/-! ## Numbers that are not negative -/

variable {x y : ℝ}

theorem ofReal_of_le (hx : 0 ≤ x) (h : x ≤ greatest) :
    ofReal x = finite x (abs_le.mpr ⟨by linarith, h⟩) :=
  dif_pos _

theorem ofReal_of_lt (h : greatest < x) : ofReal x = infinite false := by
  have hpos : 0 < x := greatest_pos.trans h
  have hout : ¬ |x| ≤ greatest := by
    rw [abs_of_pos hpos]
    exact not_le.mpr h
  rw [ofReal, dif_neg hout, decide_eq_false (not_lt.mpr hpos.le)]

theorem zero_eq : (Scalar.zero : Bounded) = ofReal 0 := congrArg ofReal Nat.cast_zero

theorem one_eq : (Scalar.one : Bounded) = ofReal 1 := congrArg ofReal Nat.cast_one

theorem toReal_ofReal (hx : 0 ≤ x) (h : x ≤ greatest) : (ofReal x).toReal = x := by
  rw [ofReal_of_le hx h, toReal]

theorem isFinite_ofReal (hx : 0 ≤ x) :
    Scalar.isFinite (ofReal x) = true ↔ x ≤ greatest := by
  rcases le_or_gt x greatest with h | h
  · rw [ofReal_of_le hx h]
    exact iff_of_true rfl h
  · rw [ofReal_of_lt h]
    exact iff_of_false Bool.false_ne_true (not_le.mpr h)

/-- A size is a finite number that is not negative. -/
theorem isSize_iff {weight : Bounded} :
    Scalar.isSize weight = true ↔ ∃ x, 0 ≤ x ∧ x ≤ greatest ∧ weight = ofReal x := by
  constructor
  · intro hsize
    rw [Scalar.isSize, Bool.and_eq_true, Bool.not_eq_true', ← Bool.not_eq_true, zero_eq,
      ofReal_of_le le_rfl greatest_pos.le] at hsize
    cases weight with
    | finite x h =>
      have hx : 0 ≤ x := not_lt.mp fun hneg => hsize.2 (decide_eq_true hneg)
      exact ⟨x, hx, (le_abs_self x).trans h, (dif_pos h).symm⟩
    | infinite => cases hsize.1
    | undefined => cases hsize.1
  · rintro ⟨x, hx, hle, rfl⟩
    have hnot : Scalar.lt (ofReal x) (ofReal 0) = false := by
      rw [ofReal_of_le hx hle, ofReal_of_le le_rfl greatest_pos.le]
      exact decide_eq_false (not_lt.mpr hx)
    rw [Scalar.isSize, (isFinite_ofReal hx).mpr hle, zero_eq, hnot]
    rfl

/-- Beyond the bounds a sum stays infinite. -/
theorem add_ofReal (hx : 0 ≤ x) (hy : 0 ≤ y) : ofReal x + ofReal y = ofReal (x + y) := by
  rcases le_or_gt x greatest with hle | hlt
  · rw [ofReal_of_le hx hle]
    rcases le_or_gt y greatest with hle' | hlt'
    · rw [ofReal_of_le hy hle']
      rfl
    · rw [ofReal_of_lt hlt', ofReal_of_lt (by linarith : greatest < x + y)]
      rfl
  · rw [ofReal_of_lt hlt, ofReal_of_lt (by linarith : greatest < x + y)]
    rcases le_or_gt y greatest with hle' | hlt'
    · rw [ofReal_of_le hy hle']
      rfl
    · rw [ofReal_of_lt hlt']
      rfl

theorem sum_ofReal {xs : List ℝ} (h : ∀ x ∈ xs, 0 ≤ x) :
    Scalar.sum (xs.map ofReal) = ofReal xs.sum := by
  have hfold : ∀ start : ℝ, 0 ≤ start →
      (xs.map ofReal).foldl (· + ·) (ofReal start) = ofReal (start + xs.sum) := by
    induction xs with
    | nil => simp
    | cons x rest ih =>
      intro start hstart
      rw [List.forall_mem_cons] at h
      rw [List.map_cons, List.foldl_cons, add_ofReal hstart h.1,
        ih h.2 _ (add_nonneg hstart h.1), List.sum_cons, add_assoc]
  exact (hfold 0 le_rfl).trans (by rw [zero_add])

theorem div_ofReal (hx : 0 ≤ x) (hle : x ≤ greatest) (hy : 0 < y) :
    ofReal x / ofReal y = if y ≤ greatest then ofReal (x / y) else ofReal 0 := by
  rw [ofReal_of_le hx hle]
  split
  · rename_i hle'
    rw [ofReal_of_le hy.le hle']
    exact if_pos hy.ne'
  · rename_i hlt
    rw [ofReal_of_lt (not_le.mp hlt)]
    rfl

theorem lt_ofReal (hx : 0 ≤ x) (hle : x ≤ greatest) (hy : 0 ≤ y) (hle' : y ≤ greatest) :
    Scalar.lt (ofReal x) (ofReal y) = true ↔ x < y := by
  rw [ofReal_of_le hx hle, ofReal_of_le hy hle']
  exact decide_eq_true_iff

theorem le_zero_iff (hx : 0 ≤ x) : Scalar.le (ofReal x) Scalar.zero = true ↔ x = 0 := by
  rw [zero_eq, ofReal_of_le le_rfl greatest_pos.le]
  rcases le_or_gt x greatest with hle | hlt
  · rw [ofReal_of_le hx hle]
    exact decide_eq_true_iff.trans ⟨fun h => le_antisymm h hx, le_of_eq⟩
  · rw [ofReal_of_lt hlt]
    exact iff_of_false Bool.false_ne_true (greatest_pos.trans hlt).ne'

/-- What a share of nothing takes from a finite score. -/
theorem zero_mul_of_isFinite {score : Bounded} (h : Scalar.isFinite score = true) :
    ofReal 0 * score = ofReal 0 := by
  rw [ofReal_of_le le_rfl greatest_pos.le]
  cases score with
  | finite x hx =>
    have hzero : ofReal (0 * x) = ofReal 0 := congrArg ofReal (zero_mul x)
    exact hzero.trans (ofReal_of_le le_rfl greatest_pos.le)
  | infinite => cases h
  | undefined => cases h

/-! ## Weights -/

theorem exists_weights {weights : List Bounded}
    (h : ∀ weight ∈ weights, Scalar.isSize weight = true) :
    ∃ ws : List ℝ, weights = ws.map ofReal ∧ ∀ w ∈ ws, 0 ≤ w ∧ w ≤ greatest := by
  induction weights with
  | nil => exact ⟨[], rfl, by simp⟩
  | cons weight rest ih =>
    rw [List.forall_mem_cons] at h
    obtain ⟨w, hw, hle, rfl⟩ := isSize_iff.mp h.1
    obtain ⟨ws, rfl, hws⟩ := ih h.2
    exact ⟨w :: ws, rfl, List.forall_mem_cons.mpr ⟨⟨hw, hle⟩, hws⟩⟩

section Shares

variable {ws : List ℝ} (hws : ∀ w ∈ ws, 0 ≤ w ∧ w ≤ greatest)

include hws

theorem map_toReal_ofReal : (ws.map ofReal).map toReal = ws := by
  rw [List.map_map]
  refine (List.map_congr_left fun w hw => ?_).trans (List.map_id ws)
  exact toReal_ofReal (hws w hw).1 (hws w hw).2

theorem sum_weights : Scalar.sum (ws.map ofReal) = ofReal ws.sum :=
  sum_ofReal fun w hw => (hws w hw).1

theorem shares_of_le (hpos : 0 < ws.sum) (hle : ws.sum ≤ greatest) :
    Scalar.shares (ws.map ofReal) = (ws.map (· / ws.sum)).map ofReal := by
  rw [Scalar.shares, sum_weights hws, List.map_map, List.map_map]
  refine List.map_congr_left fun w hw => ?_
  rw [Function.comp_apply, div_ofReal (hws w hw).1 (hws w hw).2 hpos, if_pos hle]
  rfl

theorem shares_of_lt (hlt : greatest < ws.sum) :
    Scalar.shares (ws.map ofReal) = List.replicate ws.length Scalar.zero := by
  rw [Scalar.shares, sum_weights hws, List.map_map, ← List.map_const']
  refine List.map_congr_left fun w hw => ?_
  rw [Function.comp_apply, div_ofReal (hws w hw).1 (hws w hw).2 (greatest_pos.trans hlt),
    if_neg (not_le.mpr hlt), zero_eq]

/-- With a total beyond the bounds, a weighted sum of finite scores is zero whatever they are. -/
theorem weightedSum_of_lt (hlt : greatest < ws.sum) {scores : List Bounded}
    (hscores : ∀ score ∈ scores, Scalar.isFinite score = true) :
    Scalar.weightedSum (ws.map ofReal) scores = Scalar.zero := by
  rw [Scalar.weightedSum, shares_of_lt hws hlt, zero_eq, ← List.map_uncurry_zip_eq_zipWith]
  have hterms : ∀ term ∈ ((List.replicate ws.length (ofReal 0)).zip scores).map
      (Function.uncurry fun share score => share * score), term = ofReal 0 := by
    refine List.forall_mem_map.mpr fun pair hpair => ?_
    obtain ⟨hshare, hscore⟩ := List.of_mem_zip hpair
    rw [Function.uncurry, List.eq_of_mem_replicate hshare]
    exact zero_mul_of_isFinite (hscores pair.2 hscore)
  rw [List.eq_replicate_of_mem hterms, ← List.map_replicate,
    sum_ofReal fun x hx => (List.eq_of_mem_replicate hx).ge, List.sum_replicate, smul_zero]

end Shares

end Bounded

end Retrieval
