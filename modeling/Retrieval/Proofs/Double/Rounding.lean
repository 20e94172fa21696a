import Retrieval.Proofs.Double.Naturals

/-!
# Rounding doubles

Doubles that are not negative are read as fractions here (`Double.Normal`). Comparing them compares
the fractions, a sum or a difference is the double of the fraction if there is one, and a quotient
of moderate numbers is above zero, and at most one if the divisor is no less
(`Double.Normal.exists_div`).

A number with more digits than a mantissa loses the last ones by shifts, and two bits keep what
matters of them: halves go to the even neighbour, and the order of numbers stays
(`Double.roundedMantissa_mono`).
-/

set_option autoImplicit false

namespace Retrieval.Double

open Float.Model Float.Model.UnpackedFloat

/-! ## Shifting out digits -/

theorem mantissa_shift (digits : ExtendedMantissa) (s : Nat) :
    (digits >>> s).mantissa = digits.mantissa / 2 ^ s := by
  induction s with
  | zero => exact (Nat.div_one _).symm
  | succ s ih =>
    change (digits >>> s).mantissa / 2 = _
    rw [ih, Nat.div_div_eq_div_mul, Nat.pow_succ]

theorem le_roundedMantissa (digits : ExtendedMantissa) :
    digits.mantissa ≤ digits.roundedMantissa ∧
      digits.roundedMantissa ≤ digits.mantissa + 1 := by
  obtain ⟨mantissa, _ | _, _ | _⟩ := digits
  · exact ⟨Nat.le_refl _, Nat.le_succ _⟩
  · exact ⟨Nat.le_refl _, Nat.le_succ _⟩
  · change mantissa ≤ mantissa + mantissa % 2 ∧ mantissa + mantissa % 2 ≤ mantissa + 1
    omega
  · exact ⟨Nat.le_succ _, Nat.le_refl _⟩

/-- The bits that a shift leaves behind say how the lost digits compare to one half. -/
theorem shift_eq (mantissa s : Nat) :
    (ExtendedMantissa.mk mantissa false false) >>> s =
      ⟨mantissa / 2 ^ s, decide (2 ^ s ≤ 2 * (mantissa % 2 ^ s)),
        decide (mantissa % 2 ^ s ≠ 0 ∧ 2 * (mantissa % 2 ^ s) ≠ 2 ^ s)⟩ := by
  induction s with
  | zero => simp [HShiftRight.hShiftRight, Nat.repeat, Nat.mod_one]
  | succ s ih =>
    change ExtendedMantissa.shiftRightOne ((ExtendedMantissa.mk mantissa false false) >>> s) = _
    have hlt : mantissa % 2 ^ s < 2 ^ s := Nat.mod_lt _ (Nat.two_pow_pos s)
    have hrest : mantissa % 2 ^ (s + 1) = mantissa % 2 ^ s + 2 ^ s * (mantissa / 2 ^ s % 2) := by
      rw [Nat.pow_succ, Nat.mod_mul]
    rw [ih, ExtendedMantissa.shiftRightOne, hrest, Nat.div_div_eq_div_mul, Nat.pow_succ]
    generalize mantissa % 2 ^ s = rest at hlt
    congr 1
    · rcases Nat.mod_two_eq_zero_or_one (mantissa / 2 ^ s) with hzero | hone
      · simp only [hzero, bne_self_eq_false]
        exact (decide_eq_false (by omega)).symm
      · simp only [hone]
        exact (decide_eq_true (by omega)).symm
    · rw [← Bool.decide_or, decide_eq_decide]
      rcases Nat.mod_two_eq_zero_or_one (mantissa / 2 ^ s) with hzero | hone
      · rw [hzero]
        omega
      · rw [hone]
        omega

/-- Halves go to the even neighbour. -/
theorem roundedMantissa_shift (mantissa s : Nat) :
    ((ExtendedMantissa.mk mantissa false false) >>> s).roundedMantissa =
      if 2 * (mantissa % 2 ^ s) < 2 ^ s then mantissa / 2 ^ s
      else if 2 * (mantissa % 2 ^ s) = 2 ^ s then mantissa / 2 ^ s + mantissa / 2 ^ s % 2
      else mantissa / 2 ^ s + 1 := by
  have hpos : 0 < 2 ^ s := Nat.two_pow_pos s
  rw [shift_eq]
  rcases Nat.lt_trichotomy (2 * (mantissa % 2 ^ s)) (2 ^ s) with hlt | heq | hgt
  · rw [if_pos hlt, decide_eq_false (Nat.not_le.mpr hlt)]
    cases decide (mantissa % 2 ^ s ≠ 0 ∧ 2 * (mantissa % 2 ^ s) ≠ 2 ^ s) <;> rfl
  · rw [if_neg (by omega), if_pos heq, decide_eq_true heq.ge,
      decide_eq_false fun h => h.2 heq]
    rfl
  · rw [if_neg (by omega), if_neg hgt.ne', decide_eq_true hgt.le,
      decide_eq_true ⟨by omega, hgt.ne'⟩]
    rfl

/-- Rounding to a coarser grid keeps the order of numbers. -/
theorem roundedMantissa_mono {m n : Nat} (h : m ≤ n) (s : Nat) :
    ((ExtendedMantissa.mk m false false) >>> s).roundedMantissa ≤
      ((ExtendedMantissa.mk n false false) >>> s).roundedMantissa := by
  have hm := le_roundedMantissa ((ExtendedMantissa.mk m false false) >>> s)
  have hn := le_roundedMantissa ((ExtendedMantissa.mk n false false) >>> s)
  rw [mantissa_shift] at hm hn
  rcases Nat.lt_or_eq_of_le (Nat.div_le_div_right (c := 2 ^ s) h) with hlt | heq
  · exact hm.2.trans (Nat.le_trans hlt hn.1)
  · have hrest : m % 2 ^ s ≤ n % 2 ^ s := by
      have hm' := Nat.div_add_mod m (2 ^ s)
      have hn' := Nat.div_add_mod n (2 ^ s)
      rw [heq] at hm'
      omega
    rw [roundedMantissa_shift, roundedMantissa_shift, heq]
    split_ifs <;> omega

/-! ## Values -/

/-- A double that is zero or has a full mantissa, not negative, and its value. -/
inductive Normal : UnpackedFloat → ℚ → Prop
  | zero : Normal (.zero .positive) 0
  | finite {mantissa : Nat} (hm : Full mantissa) {exponent : Int} (hlo : -1074 ≤ exponent)
      (hhi : exponent ≤ 971) :
      Normal (.finite .positive mantissa exponent hm.pos) (mantissa * 2 ^ exponent)

theorem Full.value_pos {mantissa : Nat} (hm : Full mantissa) (exponent : Int) :
    (0 : ℚ) < mantissa * 2 ^ exponent :=
  mul_pos (Nat.cast_pos.mpr hm.pos) (zpow_pos two_pos exponent)

theorem two_pow_mul (n : Nat) (exponent : Int) : (2 : ℚ) ^ n * 2 ^ exponent = 2 ^ (exponent + n) := by
  rw [zpow_add₀ two_ne_zero, mul_comm, zpow_natCast]

theorem le_value {mantissa n : Nat} (h : 2 ^ n ≤ mantissa) (exponent : Int) :
    (2 : ℚ) ^ (exponent + n) ≤ mantissa * 2 ^ exponent := by
  rw [← two_pow_mul]
  exact mul_le_mul_of_nonneg_right (by exact_mod_cast h) (zpow_nonneg zero_le_two _)

theorem value_le {mantissa n : Nat} (h : mantissa ≤ 2 ^ n) (exponent : Int) :
    (mantissa : ℚ) * 2 ^ exponent ≤ 2 ^ (exponent + n) := by
  rw [← two_pow_mul]
  exact mul_le_mul_of_nonneg_right (by exact_mod_cast h) (zpow_nonneg zero_le_two _)

theorem Full.value_lt_of_lt {m n : Nat} (hm : Full m) (hn : Full n) {d e : Int} (h : d < e) :
    (m : ℚ) * 2 ^ d < n * 2 ^ e :=
  calc (m : ℚ) * 2 ^ d
      < 2 ^ 53 * 2 ^ d := mul_lt_mul_of_pos_right (by exact_mod_cast hm.lt) (zpow_pos two_pos d)
    _ = 2 ^ (d + 53) := two_pow_mul 53 d
    _ ≤ 2 ^ (e + 52) := zpow_le_zpow_right₀ one_le_two (by omega)
    _ ≤ n * 2 ^ e := le_value hn.le e

theorem Full.compare_value {m n : Nat} (hm : Full m) (hn : Full n) (d e : Int) :
    (compare d e).then (compare m n) = compare ((m : ℚ) * 2 ^ d) (n * 2 ^ e) := by
  rcases Int.lt_trichotomy d e with hlt | rfl | hgt
  · rw [Int.compare_eq_lt.mpr hlt, compare_lt_iff_lt.mpr (hm.value_lt_of_lt hn hlt)]
    rfl
  · have hscale : ∀ {k l : Nat}, (k : ℚ) * 2 ^ d < l * 2 ^ d ↔ k < l := by
      intro k l
      rw [mul_lt_mul_iff_left₀ (zpow_pos two_pos d), Nat.cast_lt]
    rw [Int.compare_eq_eq.mpr rfl, Ordering.eq_then]
    rcases Nat.lt_trichotomy m n with hlt | rfl | hgt
    · rw [Nat.compare_eq_lt.mpr hlt, compare_lt_iff_lt.mpr (hscale.mpr hlt)]
    · rw [Nat.compare_eq_eq.mpr rfl, compare_eq_iff_eq.mpr rfl]
    · rw [Nat.compare_eq_gt.mpr hgt, compare_gt_iff_gt.mpr (hscale.mpr hgt)]
  · rw [Int.compare_eq_gt.mpr hgt, compare_gt_iff_gt.mpr (hn.value_lt_of_lt hm hgt)]
    rfl

theorem Full.value_lt_iff {m n : Nat} (hm : Full m) (hn : Full n) {d e : Int} :
    (m : ℚ) * 2 ^ d < n * 2 ^ e ↔ d < e ∨ d = e ∧ m < n := by
  rw [← compare_lt_iff_lt, ← hm.compare_value hn, Ordering.then_eq_lt, Int.compare_eq_lt,
    Int.compare_eq_eq, Nat.compare_eq_lt]

/-- A value has one full mantissa only. -/
theorem Full.value_eq_iff {m n : Nat} (hm : Full m) (hn : Full n) {d e : Int} :
    (m : ℚ) * 2 ^ d = n * 2 ^ e ↔ d = e ∧ m = n := by
  rw [← compare_eq_iff_eq, ← hm.compare_value hn, Ordering.then_eq_eq, Int.compare_eq_eq,
    Nat.compare_eq_eq]

theorem Normal.nonneg {x : UnpackedFloat} {v : ℚ} (hx : Normal x v) : 0 ≤ v := by
  cases hx with
  | zero => exact le_refl 0
  | finite hm => exact (hm.value_pos _).le

theorem Normal.compare_eq {x y : UnpackedFloat} {v w : ℚ} (hx : Normal x v) (hy : Normal y w) :
    x.compare y = some (compare v w) := by
  cases hx with
  | zero =>
    cases hy with
    | zero => exact congrArg some (compare_eq_iff_eq.mpr rfl).symm
    | finite hm => exact congrArg some (compare_lt_iff_lt.mpr (hm.value_pos _)).symm
  | finite hm =>
    cases hy with
    | zero => exact congrArg some (compare_gt_iff_gt.mpr (hm.value_pos _)).symm
    | finite hn => exact congrArg some (hm.compare_value hn _ _)

theorem Normal.unique {x y : UnpackedFloat} {v w : ℚ} (hx : Normal x v) (hy : Normal y w)
    (h : v = w) : x = y := by
  cases hx with
  | zero =>
    cases hy with
    | zero => rfl
    | finite hm => exact absurd h (hm.value_pos _).ne
  | finite hm =>
    cases hy with
    | zero => exact absurd h (hm.value_pos _).ne'
    | finite hn =>
      obtain ⟨rfl, rfl⟩ := (hm.value_eq_iff hn).mp h
      rfl

theorem Normal.unpack_pack {x : UnpackedFloat} {v : ℚ} (h : Normal x v) :
    (Float.Model.pack x).unpack = x := by
  cases h with
  | zero => rfl
  | finite hm hlo hhi => exact hm.unpack_pack hlo hhi

/-! ## Exact results -/

theorem value_shift (mantissa s : Nat) (exponent : Int) :
    ((mantissa * 2 ^ s : ℕ) : ℚ) * 2 ^ (exponent - s) = mantissa * 2 ^ exponent := by
  rw [Nat.cast_mul, Nat.cast_pow, Nat.cast_ofNat, ← zpow_natCast, mul_assoc,
    ← zpow_add₀ two_ne_zero, add_sub_cancel]

theorem eq_of_value_eq {m n : Nat} {e : Int} (h : (m : ℚ) * 2 ^ e = n * 2 ^ e) : m = n :=
  Nat.cast_injective (mul_right_cancel₀ (zpow_ne_zero e two_ne_zero) h)

/-- A number that has a full mantissa is rounded to it, whatever its own mantissa is. -/
theorem Full.round_eq {mantissa : Nat} (hm : Full mantissa) {exponent : Int}
    (hlo : -1074 ≤ exponent) {m : Nat} (hpos : 0 < m) {e : Int}
    (h : (m : ℚ) * 2 ^ e = mantissa * 2 ^ exponent) :
    UnpackedFloat.round Format.binary64 .positive m e =
      .finite .positive mantissa exponent hm.pos := by
  rcases le_total e exponent with hle | hle
  · obtain ⟨s, rfl⟩ : ∃ s : Nat, e = exponent - s := ⟨(exponent - e).toNat, by omega⟩
    rw [← value_shift mantissa s] at h
    obtain rfl := eq_of_value_eq h
    have htarget : Format.binary64.targetExponent
        (totalExponent (mantissa * 2 ^ s) (exponent - s)) = exponent :=
      targetExponent_eq hlo (by rw [hm.log2_shifted]; omega)
    have hnone : (exponent - s - exponent).toNat = 0 := by omega
    simp only [UnpackedFloat.round, htarget, decreaseExponent, hnone, Nat.shiftLeft_zero,
      Nat.cast_zero, Int.sub_zero]
    exact hm.round s hlo
  · obtain ⟨s, rfl⟩ : ∃ s : Nat, exponent = e - s := ⟨(e - exponent).toNat, by omega⟩
    rw [← value_shift m s] at h
    obtain rfl := eq_of_value_eq h
    have hlog : (m.log2 : Int) + s = 52 := by
      have hfull := hm.log2_shifted 0
      rw [Nat.pow_zero, Nat.mul_one, log2_mul_two_pow hpos.ne'] at hfull
      omega
    have htarget : Format.binary64.targetExponent (totalExponent m e) = e - s :=
      targetExponent_eq hlo (by omega)
    have hsome : (e - (e - s)).toNat = s := by omega
    have hround := hm.round 0 hlo
    rw [Nat.pow_zero, Nat.mul_one, Nat.cast_zero, Int.sub_zero] at hround
    simp only [UnpackedFloat.round, htarget, decreaseExponent, hsome, Nat.shiftLeft_eq]
    exact hround

theorem Normal.normalize_eq {x : UnpackedFloat} {v : ℚ} (hx : Normal x v) {mantissa e : Int}
    (h : (mantissa : ℚ) * 2 ^ e = v) :
    UnpackedFloat.normalize Format.binary64 mantissa e .positive = x := by
  cases hx with
  | zero =>
    have hzero : mantissa = 0 := by
      have hfactor := (mul_eq_zero.mp h).resolve_right (zpow_ne_zero e two_ne_zero)
      exact_mod_cast hfactor
    rw [hzero]
    rfl
  | @finite m hm exponent hlo hhi =>
    have hpos : 0 < mantissa := by
      have hvalue := hm.value_pos exponent
      rw [← h] at hvalue
      exact_mod_cast (mul_pos_iff_of_pos_right (zpow_pos two_pos e)).mp hvalue
    obtain ⟨n, rfl⟩ := Int.eq_ofNat_of_zero_le hpos.le
    rw [UnpackedFloat.normalize, Int.compare_eq_gt.mpr hpos]
    exact hm.round_eq hlo (Int.natCast_pos.mp hpos) (by exact_mod_cast h)

theorem align_eq (mantissa : Nat) {exponent least : Int} (h : least ≤ exponent) :
    ((decreaseExponent mantissa exponent least).1 : ℚ) * 2 ^ least = mantissa * 2 ^ exponent := by
  obtain ⟨s, rfl⟩ : ∃ s : Nat, least = exponent - s := ⟨(exponent - least).toNat, by omega⟩
  have hshift : (exponent - (exponent - s)).toNat = s := by omega
  rw [← value_shift mantissa s, decreaseExponent, hshift, Nat.shiftLeft_eq]

theorem Normal.add {x y z : UnpackedFloat} {v w : ℚ} (hx : Normal x v) (hy : Normal y w)
    (hz : Normal z (v + w)) : UnpackedFloat.add Format.binary64 x y = z := by
  cases hx with
  | zero =>
    have hsame : UnpackedFloat.add Format.binary64 (.zero .positive) y = y := by
      cases hy <;> rfl
    rw [hsame]
    exact hy.unique hz (zero_add w).symm
  | @finite m hm d hlo hhi =>
    cases hy with
    | zero => exact (Normal.finite hm hlo hhi).unique hz (add_zero _).symm
    | @finite n hn e =>
      apply hz.normalize_eq
      rw [← align_eq m (min_le_left d e), ← align_eq n (min_le_right d e), ← add_mul]
      congr 1
      exact Int.cast_add _ _

theorem Normal.sub {x y z : UnpackedFloat} {v w : ℚ} (hx : Normal x v) (hy : Normal y w)
    (hz : Normal z (v - w)) : UnpackedFloat.sub Format.binary64 x y = z := by
  cases hx with
  | zero =>
    cases hy with
    | zero => exact Normal.zero.unique hz (sub_zero 0).symm
    | @finite n hn e =>
      -- A difference below zero has no normal double here.
      have hneg : (0 : ℚ) - n * 2 ^ e < 0 := sub_neg.mpr (hn.value_pos e)
      exact absurd hneg (not_lt.mpr hz.nonneg)
  | @finite m hm d hlo hhi =>
    cases hy with
    | zero => exact (Normal.finite hm hlo hhi).unique hz (sub_zero _).symm
    | @finite n hn e =>
      apply hz.normalize_eq
      rw [← align_eq m (min_le_left d e), ← align_eq n (min_le_right d e), ← sub_mul]
      congr 1
      exact Int.cast_sub _ _

/-! ## Rounded results -/

theorem pos_of_le {m : Nat} (hm : 2 ^ 52 ≤ m) : 0 < m :=
  Nat.lt_of_lt_of_le (Nat.two_pow_pos 52) hm

theorem le_log2_of_le {m : Nat} (hm : 2 ^ 52 ≤ m) : 52 ≤ m.log2 :=
  (Nat.le_log2 (pos_of_le hm).ne').mpr hm

/-- The leading digits of a number with at least as many as a full mantissa has. -/
theorem full_leading {m : Nat} (hm : 2 ^ 52 ≤ m) : Full (m / 2 ^ (m.log2 - 52)) := by
  have hne := (pos_of_le hm).ne'
  have hlog := le_log2_of_le hm
  constructor
  · rw [Nat.le_div_iff_mul_le (Nat.two_pow_pos _), ← Nat.pow_add, Nat.add_sub_cancel' hlog]
    exact Nat.log2_self_le hne
  · rw [Nat.div_lt_iff_lt_mul (Nat.two_pow_pos _), ← Nat.pow_add,
      show 53 + (m.log2 - 52) = m.log2 + 1 by omega]
    exact Nat.lt_log2_self

/-- The digits that rounding starts from, with what is known of the others. -/
def leading (m : Nat) (accuracy : Accuracy) : ExtendedMantissa :=
  ExtendedMantissa.ofMantissaAndAccuracy m accuracy >>> (m.log2 - 52)

theorem rounded_bounds {m : Nat} (hm : 2 ^ 52 ≤ m) (accuracy : Accuracy) :
    2 ^ 52 ≤ (leading m accuracy).roundedMantissa ∧
      (leading m accuracy).roundedMantissa ≤ 2 ^ 53 := by
  have hfull := full_leading hm
  have hmantissa : (leading m accuracy).mantissa = m / 2 ^ (m.log2 - 52) := by
    rw [leading, mantissa_shift]
    cases accuracy with
    | exact => rfl
    | inexact order => cases order <;> rfl
  obtain ⟨hlo, hhi⟩ := le_roundedMantissa (leading m accuracy)
  rw [hmantissa] at hlo hhi
  exact ⟨hfull.le.trans hlo, hhi.trans hfull.lt⟩

theorem normal_round {m : Nat} (hm : 2 ^ 52 ≤ m) {e exponent : Int}
    (he : exponent = e + (m.log2 - 52 : ℕ)) (hlo : -1074 ≤ exponent) (hhi : exponent ≤ 970)
    (accuracy : Accuracy) :
    Normal (roundWithAccuracy Format.binary64 .positive m e accuracy)
      ((leading m accuracy).roundedMantissa * 2 ^ exponent) := by
  have hlog := le_log2_of_le hm
  have htarget : Format.binary64.targetExponent (totalExponent m e) = exponent :=
    targetExponent_eq hlo (by omega)
  have hshift : (exponent - e).toNat = m.log2 - 52 := by omega
  have hfirst : shiftToTargetExponent Format.binary64 m e accuracy =
      (leading m accuracy, exponent) := by
    rw [shiftToTargetExponent, htarget, shiftToExponent]
    simp only [hshift, ← he]
    rfl
  -- Rounding up may give one digit more, which is a zero.
  obtain ⟨mantissa, s, hfull, hs, heq⟩ : ∃ mantissa s, Full mantissa ∧ s ≤ 1 ∧
      (leading m accuracy).roundedMantissa = mantissa * 2 ^ s := by
    obtain ⟨hle, hge⟩ := rounded_bounds hm accuracy
    rcases Nat.lt_or_eq_of_le hge with hlt | htop
    · exact ⟨_, 0, ⟨hle, hlt⟩, Nat.zero_le 1, (Nat.mul_one _).symm⟩
    · exact ⟨2 ^ 52, 1, ⟨Nat.le_refl _, by decide⟩, Nat.le_refl 1, htop⟩
  have hexp : -1074 ≤ exponent + s := by omega
  have hsecond := hfull.shift s hexp
  have hvalue := value_shift mantissa s (exponent + s)
  rw [Int.add_sub_cancel] at hsecond hvalue
  rw [roundWithAccuracy, hfirst]
  simp only [heq, hsecond]
  rw [dif_neg hfull.pos.ne', hvalue]
  exact .finite hfull hexp (by omega)

theorem normal_round_bounds {m : Nat} (hm : 2 ^ 52 ≤ m) {e : Int} (hlo : -1074 ≤ e)
    (hhi : e + m.log2 ≤ 1022) (accuracy : Accuracy) :
    ∃ v, Normal (roundWithAccuracy Format.binary64 .positive m e accuracy) v ∧ 0 < v ∧
      ∀ top : Int, e + m.log2 < top → v ≤ 2 ^ top := by
  have hlog := le_log2_of_le hm
  obtain ⟨hle, hge⟩ := rounded_bounds hm accuracy
  refine ⟨_, normal_round hm rfl (by omega) (by omega) accuracy, ?_, fun top htop => ?_⟩
  · exact mul_pos (Nat.cast_pos.mpr (pos_of_le hle)) (zpow_pos two_pos _)
  · exact (value_le hge _).trans (zpow_le_zpow_right₀ one_le_two (by omega))

/-! ## Quotients -/

section Quotient

variable {m n : Nat} (hm : Full m) (hn : Full n) {d e : Int} (h : -1000 ≤ d - e)

include hm hn h

theorem Full.div_eq : UnpackedFloat.div Format.binary64 (.finite .positive m d hm.pos)
      (.finite .positive n e hn.pos) =
    roundWithAccuracy Format.binary64 .positive (m * 2 ^ 53 / n) (d - e - 53)
      (accuracyOfFraction (m * 2 ^ 53 % n) n) := by
  have htarget : min (d - e) (Format.binary64.targetExponent (totalExponent m d -
      totalExponent n e)) = d - e - 53 := by
    rw [totalExponent, totalExponent, hm.log2_eq, hn.log2_eq, Format.targetExponent]
    simp only [Format.mantissaBits, Format.minExponent]
    omega
  have hshift : (d - e - (d - e - 53)).toNat = 53 := by omega
  simp only [UnpackedFloat.div, divCore, htarget, hshift, Nat.shiftLeft_eq]
  rfl

omit h in
theorem quotient_bounds : 2 ^ 52 ≤ m * 2 ^ 53 / n ∧ (m * 2 ^ 53 / n).log2 ≤ 53 ∧
    (m < n → (m * 2 ^ 53 / n).log2 ≤ 52) := by
  have hle : 2 ^ 52 ≤ m * 2 ^ 53 / n := by
    rw [Nat.le_div_iff_mul_le hn.pos]
    exact Nat.mul_le_mul hm.le hn.lt.le
  have hne := (pos_of_le hle).ne'
  have hless : ∀ digits, m * 2 ^ 53 < 2 ^ (digits + 1) * n →
      (m * 2 ^ 53 / n).log2 ≤ digits := fun digits hlt => by
    rw [← Nat.lt_succ_iff, Nat.log2_lt hne, Nat.div_lt_iff_lt_mul hn.pos]
    exact hlt
  refine ⟨hle, hless 53 ?_, fun hlt => hless 52 ?_⟩
  · have hm' := hm.lt
    have hn' := hn.le
    omega
  · omega

omit hn h in
theorem Full.div_self (e : Int) : Normal (UnpackedFloat.div Format.binary64
    (.finite .positive m e hm.pos) (.finite .positive m e hm.pos)) 1 := by
  have hone : Full (2 ^ 52) := ⟨Nat.le_refl _, by decide⟩
  have hquotient : m * 2 ^ 53 / m = 2 ^ 52 * 2 ^ 1 := Nat.mul_div_cancel_left _ hm.pos
  have hexact : accuracyOfFraction (m * 2 ^ 53 % m) m = .exact := by
    rw [Nat.mul_mod_right]
    rfl
  have hvalue : (1 : ℚ) = (2 ^ 52 : ℕ) * 2 ^ (-52 : Int) := by norm_num
  rw [hm.div_eq hm (by omega), hquotient, hexact, Int.sub_self, hvalue]
  rw [show (0 - 53 : Int) = -52 - (1 : ℕ) from rfl, hone.round 1 (by decide)]
  exact .finite hone (by decide) (by decide)

theorem Full.exists_div (hhi : d - e ≤ 900) : ∃ q, Normal (UnpackedFloat.div Format.binary64
      (.finite .positive m d hm.pos) (.finite .positive n e hn.pos)) q ∧ 0 < q ∧
    ((m : ℚ) * 2 ^ d ≤ n * 2 ^ e → q ≤ 1) := by
  obtain ⟨hle, hlog, hless⟩ := quotient_bounds hm hn
  rcases eq_or_ne ((m : ℚ) * 2 ^ d) (n * 2 ^ e) with heq | hne
  · obtain ⟨rfl, rfl⟩ := (hm.value_eq_iff hn).mp heq
    exact ⟨1, hm.div_self d, one_pos, fun _ => le_refl 1⟩
  · obtain ⟨q, hq, hpos, hbound⟩ := normal_round_bounds hle (e := d - e - 53) (by omega) (by omega)
      (accuracyOfFraction (m * 2 ^ 53 % n) n)
    rw [hm.div_eq hn h]
    refine ⟨q, hq, hpos, fun hvalue => (hbound 0 ?_).trans_eq (zpow_zero 2)⟩
    rcases (hm.value_lt_iff hn).mp (lt_of_le_of_ne hvalue hne) with hlt | ⟨rfl, hlt⟩
    · omega
    · have hdigits := hless hlt
      omega

end Quotient

/-- Neither so small nor so great that quotients could leave the range of doubles. -/
def Moderate (v : ℚ) : Prop := 2 ^ (-1 : Int) ≤ v ∧ v ≤ 2 ^ (64 : Int)

theorem Full.exponent_bounds {mantissa : Nat} (hm : Full mantissa) {exponent : Int}
    (h : Moderate (mantissa * 2 ^ exponent)) : -54 ≤ exponent ∧ exponent ≤ 12 := by
  have hlo := h.1.trans (value_le hm.lt.le exponent)
  have hhi := (le_value hm.le exponent).trans h.2
  rw [zpow_le_zpow_iff_right₀ one_lt_two] at hlo hhi
  omega

theorem Normal.exists_div {x y : UnpackedFloat} {v w : ℚ} (hx : Normal x v) (hy : Normal y w)
    (hv : v = 0 ∨ Moderate v) (hw : Moderate w) :
    ∃ q, Normal (UnpackedFloat.div Format.binary64 x y) q ∧ (0 < v → 0 < q) ∧
      (v ≤ w → q ≤ 1) := by
  cases hy with
  | zero => exact absurd hw.1 (by norm_num)
  | @finite n hn e =>
    cases hx with
    | zero => exact ⟨0, .zero, id, fun _ => zero_le_one⟩
    | @finite m hm d =>
      have hd := hm.exponent_bounds (hv.resolve_left (hm.value_pos d).ne')
      have he := hn.exponent_bounds hw
      obtain ⟨q, hq, hpos, hone⟩ := hm.exists_div hn (d := d) (e := e) (by omega) (by omega)
      exact ⟨q, hq, fun _ => hpos, hone⟩

end Retrieval.Double
