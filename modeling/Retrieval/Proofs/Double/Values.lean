import Retrieval.Proofs.Double.Rounding

/-!
# Values of doubles

The doubles of natural numbers keep the order of the numbers, also where digits are lost
(`Double.nearest_mono`), so that the quotient of two of them is at most one if that of the numbers
is (`Double.ofNat_div_le_one`). With halves of smaller numbers the arithmetic is exact.
-/

set_option autoImplicit false

namespace Retrieval.Double

open Float.Model Float.Model.UnpackedFloat

/-! ## Natural numbers -/

section OfNat

variable {n : Nat} (hpos : 0 < n) (hn : n < 2 ^ 64)

include hpos hn

theorem normal_scaled : Normal (roundWithAccuracy Format.binary64 .positive (n * 2 ^ 53) (-53) .exact)
    ((leading (n * 2 ^ 53) .exact).roundedMantissa * 2 ^ ((n.log2 : Int) - 52)) := by
  have hlog : n.log2 < 64 := (Nat.log2_lt hpos.ne').mpr hn
  have hscaled := log2_mul_two_pow hpos.ne' 53
  refine normal_round ?_ (by omega) (by omega) (by omega) .exact
  omega

omit hn in
theorem ofScientific_natural : UnpackedFloat.ofScientific Format.binary64 n 0 =
    roundWithAccuracy Format.binary64 .positive (n * 2 ^ 53) (-53) .exact := by
  have hmantissa : n <<< 53 * 10 ^ (0 : Int).toNat = n * 2 ^ 53 := by
    rw [Nat.shiftLeft_eq, Int.toNat_zero, Nat.pow_zero, Nat.mul_one]
  have hsize : ¬ (0 : Int) < -(2 ^ Format.binary64.exponentBits + (n.log2 : Int)) := by
    have hbits : (2 : Int) ^ Format.binary64.exponentBits = 2048 := rfl
    omega
  rw [UnpackedFloat.ofScientific, dif_neg hpos.ne', if_neg (by decide), if_neg hsize,
    if_pos (Int.le_refl 0), ← hmantissa]
  rfl

/-- With few digits or with many, the number is rounded from 53 digits more than it has. -/
theorem unpack_ofNat_eq : (Float.ofNat n).toModel.unpack =
    roundWithAccuracy Format.binary64 .positive (n * 2 ^ 53) (-53) .exact := by
  rcases Nat.lt_or_ge n (2 ^ 53) with hlt | hge
  · have hlog := log2_le hpos hlt
    have hexp : -1074 ≤ exponentOf n := by
      rw [exponentOf]
      omega
    have hround := (full_mantissaOf hpos hlt).round (n.log2 + 1) hexp
    have hmantissa : mantissaOf n * 2 ^ (n.log2 + 1) = n * 2 ^ 53 := by
      rw [mantissaOf, Nat.mul_assoc, ← Nat.pow_add]
      congr 2
      omega
    have hexponent : exponentOf n - (n.log2 + 1 : ℕ) = -53 := by
      rw [exponentOf]
      omega
    rw [unpack_ofNat hpos hlt, ← hround, hmantissa, hexponent]
  · have hlarge : Float.ofNat n = .ofModel (Float.Model.ofScientific n 0) :=
      dif_neg fun h => absurd h.1 (Nat.not_lt.mpr hge)
    rw [hlarge]
    change (Float.Model.pack (UnpackedFloat.ofScientific Format.binary64 n 0)).unpack = _
    rw [ofScientific_natural hpos, (normal_scaled hpos hn).unpack_pack]

end OfNat

/-- The value of the double of a number, which has lost digits if there were too many. -/
def nearest (n : Nat) : ℚ :=
  if n = 0 then 0
  else (leading (n * 2 ^ 53) .exact).roundedMantissa * 2 ^ ((n.log2 : Int) - 52)

theorem nearest_bounds {n : Nat} (hpos : 0 < n) :
    (2 : ℚ) ^ (n.log2 : Int) ≤ nearest n ∧ nearest n ≤ 2 ^ ((n.log2 : Int) + 1) := by
  obtain ⟨hle, hge⟩ := rounded_bounds (m := n * 2 ^ 53) (by omega) .exact
  have hlo := le_value hle (n.log2 - 52)
  have hhi := value_le hge (n.log2 - 52)
  rw [show (n.log2 : Int) - 52 + (52 : ℕ) = n.log2 by omega] at hlo
  rw [show (n.log2 : Int) - 52 + (53 : ℕ) = n.log2 + 1 by omega] at hhi
  rw [nearest, if_neg hpos.ne']
  exact ⟨hlo, hhi⟩

theorem nearest_mono {m n : Nat} (h : m ≤ n) : nearest m ≤ nearest n := by
  rcases Nat.eq_zero_or_pos m with rfl | hm
  · rcases Nat.eq_zero_or_pos n with rfl | hn
    · exact le_refl _
    · rw [nearest, if_pos rfl]
      exact (zpow_nonneg zero_le_two _).trans (nearest_bounds hn).1
  · have hn : 0 < n := Nat.lt_of_lt_of_le hm h
    have hlog : m.log2 ≤ n.log2 := (Nat.le_log2 hn.ne').mpr ((Nat.log2_self_le hm.ne').trans h)
    rcases Nat.lt_or_eq_of_le hlog with hlt | heq
    · calc nearest m ≤ 2 ^ ((m.log2 : Int) + 1) := (nearest_bounds hm).2
        _ ≤ 2 ^ (n.log2 : Int) := zpow_le_zpow_right₀ one_le_two (by omega)
        _ ≤ nearest n := (nearest_bounds hn).1
    · rw [nearest, nearest, if_neg hm.ne', if_neg hn.ne', leading, leading,
        log2_mul_two_pow hm.ne', log2_mul_two_pow hn.ne', heq]
      have hrounded := roundedMantissa_mono (Nat.mul_le_mul_right (2 ^ 53) h) (n.log2 + 53 - 52)
      exact mul_le_mul_of_nonneg_right (Nat.cast_le.mpr hrounded) (zpow_nonneg zero_le_two _)

theorem moderate_nearest {n : Nat} (hpos : 0 < n) (hn : n < 2 ^ 64) : Moderate (nearest n) := by
  have hlog : n.log2 < 64 := (Nat.log2_lt hpos.ne').mpr hn
  obtain ⟨hlo, hhi⟩ := nearest_bounds hpos
  exact ⟨(zpow_le_zpow_right₀ one_le_two (by omega)).trans hlo,
    hhi.trans (zpow_le_zpow_right₀ one_le_two (by omega))⟩

theorem value_mantissaOf {n : Nat} (hpos : 0 < n) (hn : n < 2 ^ 53) :
    (mantissaOf n : ℚ) * 2 ^ exponentOf n = n := by
  have hlog := log2_le hpos hn
  have hexp : exponentOf n = 0 - (52 - n.log2 : ℕ) := by
    rw [exponentOf]
    omega
  rw [mantissaOf, hexp, value_shift, zpow_zero, mul_one]

/-- Halves of numbers below two to the power of 53 need no rounding either. -/
theorem exists_normal_half {n : Nat} (hn : n < 2 ^ 53) : ∃ x, Normal x (n / 2) := by
  rcases Nat.eq_zero_or_pos n with rfl | hpos
  · rw [Nat.cast_zero, zero_div]
    exact ⟨_, .zero⟩
  · have hlog := log2_le hpos hn
    have hvalue : (mantissaOf n : ℚ) * 2 ^ (exponentOf n - 1) = n / 2 := by
      rw [zpow_sub_one₀ two_ne_zero, ← mul_assoc, value_mantissaOf hpos hn, div_eq_mul_inv]
    rw [← hvalue]
    have hexp : exponentOf n = n.log2 - 52 := rfl
    exact ⟨_, .finite (full_mantissaOf hpos hn) (by omega) (by omega)⟩

/-! ## Doubles -/

/-- The double stands for a number that is not negative. -/
def Denotes (x : Float) (v : ℚ) : Prop := Normal x.toModel.unpack v

section Denotes

variable {x y : Float} {v w : ℚ}

theorem Denotes.of_pack {u : UnpackedFloat} (h : Normal u v) :
    Denotes (.ofModel (Float.Model.pack u)) v := by
  rw [Denotes, h.unpack_pack]
  exact h

theorem Denotes.lt_eq (hx : Denotes x v) (hy : Denotes y w) :
    Scalar.lt x y = decide (v < w) := by
  rw [lt_eq_unpack, UnpackedFloat.lt, Normal.compare_eq hx hy, Bool.eq_iff_iff, beq_iff_eq,
    decide_eq_true_eq, Option.some.injEq, compare_lt_iff_lt]

theorem Denotes.le_eq (hx : Denotes x v) (hy : Denotes y w) :
    Scalar.le x y = decide (v ≤ w) := by
  rw [le_eq_unpack, UnpackedFloat.le, Normal.compare_eq hx hy, Option.any_some, Bool.eq_iff_iff,
    decide_eq_true_eq, Ordering.isLE_iff_ne_gt]
  exact compare_le_iff_le

/-- A sum that needs no rounding. -/
theorem Denotes.add (hx : Denotes x v) (hy : Denotes y w) (h : ∃ z, Normal z (v + w)) :
    Denotes (x + y) (v + w) := by
  obtain ⟨z, hz⟩ := h
  have hsum := Denotes.of_pack hz
  rwa [← Normal.add hx hy hz] at hsum

theorem Denotes.sub (hx : Denotes x v) (hy : Denotes y w) (h : ∃ z, Normal z (v - w)) :
    Denotes (x - y) (v - w) := by
  obtain ⟨z, hz⟩ := h
  have hdifference := Denotes.of_pack hz
  rwa [← Normal.sub hx hy hz] at hdifference

theorem Denotes.exists_div (hx : Denotes x v) (hy : Denotes y w) (hv : v = 0 ∨ Moderate v)
    (hw : Moderate w) : ∃ q, Denotes (x / y) q ∧ (0 < v → 0 < q) ∧ (v ≤ w → q ≤ 1) := by
  obtain ⟨q, hq, hpos, hone⟩ := Normal.exists_div hx hy hv hw
  exact ⟨q, .of_pack hq, hpos, hone⟩

end Denotes

theorem denotes_ofNat {n : Nat} (hn : n < 2 ^ 53) : Denotes (Float.ofNat n) n := by
  rcases Nat.eq_zero_or_pos n with rfl | hpos
  · rw [Nat.cast_zero]
    exact .zero
  · have hlog := log2_le hpos hn
    have hexp : exponentOf n = n.log2 - 52 := rfl
    rw [Denotes, unpack_ofNat hpos hn, ← value_mantissaOf hpos hn]
    exact .finite (full_mantissaOf hpos hn) (by omega) (by omega)

theorem denotes_zero : Denotes (Scalar.zero : Float) 0 := by
  have hzero := denotes_ofNat (n := 0) (by decide)
  rwa [Nat.cast_zero] at hzero

theorem denotes_one : Denotes (Scalar.one : Float) 1 := by
  have hone := denotes_ofNat (n := 1) (by decide)
  rwa [Nat.cast_one] at hone

theorem Denotes.pos {x : Float} {v : ℚ} (hx : Denotes x v) (h : 0 < v) :
    Scalar.lt Scalar.zero x = true :=
  (denotes_zero.lt_eq hx).trans (decide_eq_true h)

theorem Denotes.le_one {x : Float} {v : ℚ} (hx : Denotes x v) (h : v ≤ 1) :
    Scalar.le x Scalar.one = true :=
  (hx.le_eq denotes_one).trans (decide_eq_true h)

theorem denotes_nearest {n : Nat} (hn : n < 2 ^ 64) : Denotes (Float.ofNat n) (nearest n) := by
  rcases Nat.eq_zero_or_pos n with rfl | hpos
  · exact .zero
  · rw [Denotes, unpack_ofNat_eq hpos hn, nearest, if_neg hpos.ne']
    exact normal_scaled hpos hn

theorem denotes_half : Denotes (Scalar.half : Float) (1 / 2) := by
  have hone : Full (2 ^ 52) := ⟨Nat.le_refl _, by decide⟩
  have hvalue : (1 / 2 : ℚ) = (2 ^ 52 : ℕ) * 2 ^ (-53 : Int) := by norm_num
  have hunpack : (Scalar.half : Float).toModel.unpack = .finite .positive (2 ^ 52) (-53) hone.pos :=
    rfl
  rw [Denotes, hunpack, hvalue]
  exact .finite hone (by decide) (by decide)

/-- A number and a half. -/
theorem Denotes.add_half {x : Float} {n : Nat} (hx : Denotes x n) (hn : n < 2 ^ 52) :
    Denotes (x + Scalar.half) (n + 1 / 2) := by
  have hhalves : (n : ℚ) + 1 / 2 = ((2 * n + 1 : ℕ) : ℚ) / 2 := by
    push_cast
    ring
  refine hx.add denotes_half ?_
  rw [hhalves]
  exact exists_normal_half (by omega)

theorem moderate_add_half {n : Nat} (hn : n < 2 ^ 52) : Moderate ((n : ℚ) + 1 / 2) := by
  have hle : (n : ℚ) ≤ 2 ^ 52 := by exact_mod_cast hn.le
  have hnonneg : (0 : ℚ) ≤ n := Nat.cast_nonneg n
  constructor
  · norm_num
  · norm_num
    linarith

theorem denotes_sub {m n : Nat} (h : m ≤ n) (hn : n < 2 ^ 53) :
    Denotes (Float.ofNat n - Float.ofNat m) (n - m : ℕ) := by
  have hdifference := denotes_ofNat (Nat.lt_of_le_of_lt (Nat.sub_le n m) hn)
  rw [Nat.cast_sub h] at hdifference ⊢
  exact (denotes_ofNat hn).sub (denotes_ofNat (Nat.lt_of_le_of_lt h hn)) ⟨_, hdifference⟩

/-- The smaller of two numbers divided by the greater is at most one, also after rounding. -/
theorem ofNat_div_le_one {m n : Nat} (hpos : 0 < n) (h : m ≤ n) (hn : n < 2 ^ 64) :
    Scalar.le (Float.ofNat m / Float.ofNat n) Scalar.one = true := by
  have hm : nearest m = 0 ∨ Moderate (nearest m) := by
    rcases Nat.eq_zero_or_pos m with rfl | hm
    · exact .inl (if_pos rfl)
    · exact .inr (moderate_nearest hm (Nat.lt_of_le_of_lt h hn))
  obtain ⟨q, hq, -, hone⟩ := (denotes_nearest (Nat.lt_of_le_of_lt h hn)).exists_div
    (denotes_nearest hn) hm (moderate_nearest hpos hn)
  exact hq.le_one (hone (nearest_mono h))

end Retrieval.Double
