import Mathlib
import Retrieval.Scalar

/-!
# Natural numbers as doubles

A natural number below two to the power of 53 is a double without rounding, and doubles that come
from such numbers compare as the numbers do: by their values (`Double.lt_ofNat`) and by their bits
(`Double.compare_ofNat`).

The double of a positive number has the number, shifted up to 53 binary digits, as its mantissa.
-/

set_option autoImplicit false

namespace Retrieval.Double

open Float.Model Float.Model.UnpackedFloat

/-! ## Rounding what needs no rounding -/

/-- A mantissa of 53 binary digits. -/
structure Full (mantissa : Nat) : Prop where
  le : 2 ^ 52 ≤ mantissa
  lt : mantissa < 2 ^ 53

theorem Full.pos {mantissa : Nat} (hm : Full mantissa) : 0 < mantissa :=
  Nat.lt_of_lt_of_le (by decide) hm.le

theorem Full.log2_eq {mantissa : Nat} (hm : Full mantissa) : mantissa.log2 = 52 :=
  (Nat.log2_eq_iff hm.pos.ne').mpr ⟨hm.le, hm.lt⟩

theorem log2_mul_two_pow {m : Nat} (hm : m ≠ 0) (s : Nat) : (m * 2 ^ s).log2 = m.log2 + s := by
  have hne : m * 2 ^ s ≠ 0 := Nat.mul_ne_zero hm (Nat.two_pow_pos s).ne'
  rw [Nat.log2_eq_iff hne, Nat.pow_add, Nat.add_right_comm, Nat.pow_add]
  exact ⟨Nat.mul_le_mul_right _ (Nat.log2_self_le hm),
    Nat.mul_lt_mul_of_pos_right Nat.lt_log2_self (Nat.two_pow_pos s)⟩

theorem Full.log2_shifted {mantissa : Nat} (hm : Full mantissa) (s : Nat) :
    (mantissa * 2 ^ s).log2 = 52 + s := by
  rw [log2_mul_two_pow hm.pos.ne', hm.log2_eq]

theorem shift_exact (mantissa s : Nat) :
    (ExtendedMantissa.mk (mantissa * 2 ^ s) false false) >>> s = ⟨mantissa, false, false⟩ := by
  induction s generalizing mantissa with
  | zero => simp [HShiftRight.hShiftRight, Nat.repeat]
  | succ s ih =>
    have hstep : (ExtendedMantissa.mk (mantissa * 2 * 2 ^ s) false false) >>> s =
        ⟨mantissa * 2, false, false⟩ := ih (mantissa * 2)
    have hsplit : mantissa * 2 ^ (s + 1) = mantissa * 2 * 2 ^ s := by ring
    rw [hsplit]
    change ExtendedMantissa.shiftRightOne
      ((ExtendedMantissa.mk (mantissa * 2 * 2 ^ s) false false) >>> s) = _
    rw [hstep]
    simp [ExtendedMantissa.shiftRightOne]

theorem targetExponent_eq {mantissa : Nat} {exponent target : Int} (hlo : -1074 ≤ target)
    (h : (mantissa.log2 : Int) + exponent = target + 52) :
    Format.binary64.targetExponent (totalExponent mantissa exponent) = target := by
  rw [totalExponent, Format.targetExponent]
  simp only [Format.mantissaBits, Format.minExponent]
  push_cast
  omega

theorem Full.shift {mantissa : Nat} (hm : Full mantissa) (s : Nat) {exponent : Int}
    (he : -1074 ≤ exponent) :
    shiftToTargetExponent Format.binary64 (mantissa * 2 ^ s) (exponent - s) .exact =
      (⟨mantissa, false, false⟩, exponent) := by
  have htarget : Format.binary64.targetExponent (totalExponent (mantissa * 2 ^ s) (exponent - s)) =
      exponent := targetExponent_eq he (by rw [hm.log2_shifted]; omega)
  have hamount : (exponent - (exponent - s)).toNat = s := by omega
  rw [shiftToTargetExponent, htarget, shiftToExponent]
  simp only [hamount, ExtendedMantissa.ofMantissaAndAccuracy, shift_exact]
  congr 1
  omega

/-- A full mantissa that was shifted up is rounded back to itself. -/
theorem Full.round {mantissa : Nat} (hm : Full mantissa) (s : Nat) {exponent : Int}
    (he : -1074 ≤ exponent) :
    roundWithAccuracy Format.binary64 .positive (mantissa * 2 ^ s) (exponent - s) .exact =
      .finite .positive mantissa exponent hm.pos := by
  have hfirst := hm.shift s he
  have hsecond := hm.shift 0 he
  rw [Nat.pow_zero, Nat.mul_one, Nat.cast_zero, Int.sub_zero] at hsecond
  rw [roundWithAccuracy, hfirst]
  simp only [ExtendedMantissa.roundedMantissa, ExtendedMantissa.accuracy,
    Accuracy.roundToNearestEven, hsecond]
  rw [dif_neg hm.pos.ne']

/-! ## Packing -/

section Packing

variable {mantissa : Nat} (hm : Full mantissa) {exponent : Int} (hlo : -1074 ≤ exponent)
  (hhi : exponent ≤ 971)

include hlo hhi

theorem Full.pack : UnpackedFloat.pack Format.binary64 (.finite .positive mantissa exponent hm.pos) =
    packComponents Format.binary64 .positive (BitVec.ofNat 11 (exponent + 1075).toNat)
      (BitVec.ofNat 52 mantissa) := by
  have hbias : (exponent + (Format.binary64.exponentBias : Nat) +
      (Format.binary64.mantissaBitsWithoutImplicit : Nat)).toNat = (exponent + 1075).toNat := by
    have hb : Format.binary64.exponentBias = 1023 := by decide
    rw [hb]
    change (exponent + 1023 + 52).toNat = _
    congr 1
    omega
  rw [UnpackedFloat.pack, hbias, if_neg (by simp only; omega), if_pos (by rw [hm.log2_eq]; decide)]

theorem Full.toNat_pack :
    (UnpackedFloat.pack Format.binary64 (.finite .positive mantissa exponent hm.pos)).toNat =
      (exponent + 1075).toNat * 2 ^ 52 + (mantissa - 2 ^ 52) := by
  have hle := hm.le
  have hlt := hm.lt
  have hmod : mantissa % 2 ^ 52 = mantissa - 2 ^ 52 := by omega
  have hexp : (exponent + 1075).toNat % 2 ^ 11 = (exponent + 1075).toNat :=
    Nat.mod_eq_of_lt (by omega)
  rw [hm.pack hlo hhi, packComponents, BitVec.toNat_append, BitVec.toNat_append,
    BitVec.toNat_ofNat, BitVec.toNat_ofNat, hmod, hexp,
    ← Nat.shiftLeft_add_eq_or_of_lt (by omega)]
  simp [Sign.toBitVec, Nat.shiftLeft_eq]

theorem Full.unpack_pack :
    (Float.Model.pack (.finite .positive mantissa exponent hm.pos)).unpack =
      .finite .positive mantissa exponent hm.pos := by
  have hle := hm.le
  have hlt := hm.lt
  have hexp : (BitVec.ofNat 11 (exponent + 1075).toNat).toNat = (exponent + 1075).toNat := by
    rw [BitVec.toNat_ofNat, Nat.mod_eq_of_lt (by omega)]
  have hsome : BitVec.ofNat 11 (exponent + 1075).toNat ≠ -1#11 := fun h => by
    have htop := congrArg BitVec.toNat h
    rw [hexp, show (-1#11 : BitVec 11).toNat = 2047 from rfl] at htop
    omega
  have hnormal : BitVec.ofNat 11 (exponent + 1075).toNat ≠ 0#11 := fun h => by
    have hbottom := congrArg BitVec.toNat h
    rw [hexp, show (0#11 : BitVec 11).toNat = 0 from rfl] at hbottom
    omega
  have hmant : (1#1 ++ BitVec.ofNat 52 mantissa).toNat = mantissa := by
    rw [BitVec.toNat_append, BitVec.toNat_ofNat, ← Nat.shiftLeft_add_eq_or_of_lt (by omega)]
    simp only [BitVec.toNat_ofNat, Nat.shiftLeft_eq]
    omega
  have hbits : (Float.Model.pack (.finite .positive mantissa exponent hm.pos)).toBits.toBitVec =
      packComponents Format.binary64 .positive (BitVec.ofNat 11 (exponent + 1075).toNat)
        (BitVec.ofNat 52 mantissa) := hm.pack hlo hhi
  have hsign : unpackSign (packComponents Format.binary64 .positive
      (BitVec.ofNat 11 (exponent + 1075).toNat) (BitVec.ofNat 52 mantissa)) = 0#1 := by
    have hnat := hm.toNat_pack hlo hhi
    rw [hm.pack hlo hhi] at hnat
    refine BitVec.eq_of_toNat_eq ?_
    change (BitVec.toNat (packComponents Format.binary64 .positive _ _) >>> 63) % 2 = 0
    rw [hnat, Nat.shiftRight_eq_div_pow]
    omega
  rw [Float.Model.unpack, hbits, UnpackedFloat.unpack]
  simp only [unpackExponent_packComponents, unpackMantissa_packComponents, hsign]
  rw [if_neg hsome, if_neg hnormal]
  have hvalue : ((BitVec.ofNat 11 (exponent + 1075).toNat).toNat : Int) -
      (Format.binary64.exponentBias + Format.binary64.mantissaBitsWithoutImplicit) = exponent := by
    rw [hexp, show (Format.binary64.exponentBias : Int) = 1023 from rfl]
    change _ - (1023 + 52 : Int) = _
    omega
  simp only [hmant, hvalue]
  rfl

end Packing

/-! ## The double of a number -/

/-- A positive number, shifted up to 53 binary digits. -/
def mantissaOf (n : Nat) : Nat := n * 2 ^ (52 - n.log2)

def exponentOf (n : Nat) : Int := n.log2 - 52

section OfNat

variable {n : Nat} (hpos : 0 < n) (hn : n < 2 ^ 53)

include hpos hn

theorem log2_le : n.log2 ≤ 52 := Nat.le_of_lt_succ ((Nat.log2_lt hpos.ne').mpr hn)

theorem full_mantissaOf : Full (mantissaOf n) := by
  have hlog := log2_le hpos hn
  obtain ⟨hle, hlt⟩ := (Nat.log2_eq_iff hpos.ne').mp rfl
  have hup : 2 ^ 52 = 2 ^ n.log2 * 2 ^ (52 - n.log2) := by rw [← Nat.pow_add]; congr 1; omega
  have hnext : 2 ^ 53 = 2 ^ (n.log2 + 1) * 2 ^ (52 - n.log2) := by
    rw [← Nat.pow_add]; congr 1; omega
  refine ⟨?_, ?_⟩
  · rw [hup]
    exact Nat.mul_le_mul_right _ hle
  · rw [hnext]
    exact Nat.mul_lt_mul_of_pos_right hlt (Nat.two_pow_pos _)

theorem round_natural : UnpackedFloat.ofNat Format.binary64 n =
    .finite .positive (mantissaOf n) (exponentOf n) (full_mantissaOf hpos hn).pos := by
  have hlog := log2_le hpos hn
  have hgt : compare (n : Int) 0 = .gt := by
    rw [Int.compare_eq_gt]
    omega
  have hexp : -1074 ≤ exponentOf n := by
    rw [exponentOf]
    omega
  have htarget : Format.binary64.targetExponent (totalExponent n 0) = exponentOf n :=
    targetExponent_eq hexp (by rw [exponentOf]; omega)
  have hshift : (0 - exponentOf n).toNat = 52 - n.log2 := by
    rw [exponentOf]
    omega
  have hround := (full_mantissaOf hpos hn).round 0 hexp
  rw [Nat.pow_zero, Nat.mul_one, Nat.cast_zero, Int.sub_zero] at hround
  rw [UnpackedFloat.ofNat, UnpackedFloat.ofInt, UnpackedFloat.normalize, hgt]
  simp only [Int.toNat_natCast, UnpackedFloat.round, htarget, decreaseExponent, hshift,
    Nat.shiftLeft_eq]
  rw [← hround, mantissaOf]
  congr 1
  rw [exponentOf]
  omega

theorem ofNat_eq : Float.ofNat n = .ofModel (Float.Model.pack
    (.finite .positive (mantissaOf n) (exponentOf n) (full_mantissaOf hpos hn).pos)) := by
  have hlog := log2_le hpos hn
  have hfull := full_mantissaOf hpos hn
  have hexp : -1074 ≤ exponentOf n ∧ exponentOf n ≤ 971 := by
    rw [exponentOf]
    omega
  have hword : n.toUInt64.toNat = n := UInt64.toNat_ofNat_of_lt' (Nat.lt_trans hn (by decide))
  have hfactor : n.toUInt64.toFloat.toModel = Float.Model.pack
      (.finite .positive (mantissaOf n) (exponentOf n) hfull.pos) := by
    have hmodel : n.toUInt64.toFloat.toModel =
        Float.Model.pack (UnpackedFloat.ofNat Format.binary64 n.toUInt64.toNat) := rfl
    rw [hmodel, hword, round_natural hpos hn]
  have hone : Full (2 ^ 52) := ⟨Nat.le_refl _, by decide⟩
  have hbits : (Float.ofBits 0x3FF0000000000000).toModel =
      Float.Model.pack (.finite .positive (2 ^ 52) (-52) hone.pos) := rfl
  have hmul : Float.ofNat n = n.toUInt64.toFloat * Float.ofBits 0x3FF0000000000000 :=
    dif_pos (⟨hn, by decide⟩ : n < 2 ^ 53 ∧ 0 ≤ 22)
  have hround := hfull.round 52 hexp.1
  rw [hmul]
  change Float.ofModel (Float.Model.pack (UnpackedFloat.mul Format.binary64
    (n.toUInt64.toFloat.toModel.unpack) ((Float.ofBits 0x3FF0000000000000).toModel.unpack))) = _
  rw [hfactor, hbits, hfull.unpack_pack hexp.1 hexp.2, hone.unpack_pack (by decide) (by decide)]
  exact congrArg (fun product => Float.ofModel (Float.Model.pack product)) hround

theorem toNat_toBits_ofNat :
    (Float.ofNat n).toBits.toNat = (n.log2 + 1022) * 2 ^ 52 + mantissaOf n := by
  have hlog := log2_le hpos hn
  have hfull := full_mantissaOf hpos hn
  have hle := hfull.le
  have hbits : (Float.ofNat n).toBits.toNat = (UnpackedFloat.pack Format.binary64
      (.finite .positive (mantissaOf n) (exponentOf n) hfull.pos)).toNat := by
    rw [ofNat_eq hpos hn]
    rfl
  have hexp : (exponentOf n + 1075).toNat = n.log2 + 1023 := by
    rw [exponentOf]
    omega
  rw [hbits, hfull.toNat_pack (by rw [exponentOf]; omega) (by rw [exponentOf]; omega), hexp]
  omega

end OfNat

/-! ## Comparing -/

theorem lt_of_log2_lt {m n : Nat} (hn : 0 < n) (h : m.log2 < n.log2) : m < n := by
  rcases Nat.eq_zero_or_pos m with rfl | hm
  · exact hn
  · calc m < 2 ^ (m.log2 + 1) := Nat.lt_log2_self
      _ ≤ 2 ^ n.log2 := Nat.pow_le_pow_right (by decide) h
      _ ≤ n := Nat.log2_self_le hn.ne'

theorem log2_le_of_lt {m n : Nat} (hm : 0 < m) (h : m < n) : m.log2 ≤ n.log2 := by
  by_contra hlt
  exact absurd (lt_of_log2_lt hm (Nat.not_le.mp hlt)) (by omega)

/-- Numbers with equally many digits are shifted alike. -/
theorem mantissaOf_lt {m n : Nat} (hlog : m.log2 = n.log2) (h : m < n) :
    mantissaOf m < mantissaOf n := by
  rw [mantissaOf, mantissaOf, hlog]
  exact Nat.mul_lt_mul_of_pos_right h (Nat.two_pow_pos _)

theorem compare_value_of_lt {m n : Nat} (hm : 0 < m) (h : m < n) :
    (compare (exponentOf m) (exponentOf n)).then (compare (mantissaOf m) (mantissaOf n)) = .lt := by
  rcases Nat.lt_or_eq_of_le (log2_le_of_lt hm h) with hlt | heq
  · have hexp : compare (exponentOf m) (exponentOf n) = .lt := by
      rw [Int.compare_eq_lt, exponentOf, exponentOf]
      omega
    rw [hexp]
    rfl
  · have hexp : compare (exponentOf m) (exponentOf n) = .eq := by
      rw [Int.compare_eq_eq, exponentOf, exponentOf, heq]
    rw [hexp, Nat.compare_eq_lt.mpr (mantissaOf_lt heq h)]
    rfl

theorem compare_value {m n : Nat} (hm : 0 < m) (hn : 0 < n) :
    (compare (exponentOf m) (exponentOf n)).then (compare (mantissaOf m) (mantissaOf n)) =
      compare m n := by
  rcases Nat.lt_trichotomy m n with hlt | rfl | hgt
  · rw [compare_value_of_lt hm hlt, Nat.compare_eq_lt.mpr hlt]
  · simp
  · have hswap := congrArg Ordering.swap (compare_value_of_lt hn hgt)
    rw [Ordering.swap_then, ← Std.OrientedOrd.eq_swap, ← Std.OrientedOrd.eq_swap] at hswap
    rw [hswap, Nat.compare_eq_gt.mpr hgt]
    rfl

theorem unpack_ofNat_zero : (Float.ofNat 0).toModel.unpack = .zero .positive := rfl

theorem unpack_ofNat {n : Nat} (hpos : 0 < n) (hn : n < 2 ^ 53) :
    (Float.ofNat n).toModel.unpack =
      .finite .positive (mantissaOf n) (exponentOf n) (full_mantissaOf hpos hn).pos := by
  have hlog := log2_le hpos hn
  rw [ofNat_eq hpos hn]
  exact (full_mantissaOf hpos hn).unpack_pack (by rw [exponentOf]; omega)
    (by rw [exponentOf]; omega)

theorem compare_unpack {m n : Nat} (hm : m < 2 ^ 53) (hn : n < 2 ^ 53) :
    (Float.ofNat m).toModel.unpack.compare (Float.ofNat n).toModel.unpack = some (compare m n) := by
  rcases Nat.eq_zero_or_pos m with rfl | hmpos <;> rcases Nat.eq_zero_or_pos n with rfl | hnpos
  · rw [unpack_ofNat_zero]
    rfl
  · rw [unpack_ofNat_zero, unpack_ofNat hnpos hn, Nat.compare_eq_lt.mpr hnpos]
    rfl
  · rw [unpack_ofNat_zero, unpack_ofNat hmpos hm, Nat.compare_eq_gt.mpr hmpos]
    rfl
  · rw [unpack_ofNat hmpos hm, unpack_ofNat hnpos hn]
    exact congrArg some (compare_value hmpos hnpos)

theorem lt_eq_unpack (x y : Float) :
    Scalar.lt x y = x.toModel.unpack.lt y.toModel.unpack :=
  (Bool.decide_coe (x.lt y)).trans (Bool.decide_coe (x.toModel.lt y.toModel))

theorem le_eq_unpack (x y : Float) :
    Scalar.le x y = x.toModel.unpack.le y.toModel.unpack :=
  (Bool.decide_coe (x.le y)).trans (Bool.decide_coe (x.toModel.le y.toModel))

theorem lt_ofNat {m n : Nat} (hm : m < 2 ^ 53) (hn : n < 2 ^ 53) :
    Scalar.lt (Float.ofNat m) (Float.ofNat n) = decide (m < n) := by
  rw [lt_eq_unpack, UnpackedFloat.lt, compare_unpack hm hn, Bool.eq_iff_iff, beq_iff_eq,
    decide_eq_true_eq, Option.some.injEq, Nat.compare_eq_lt]

theorem le_ofNat {m n : Nat} (hm : m < 2 ^ 53) (hn : n < 2 ^ 53) :
    Scalar.le (Float.ofNat m) (Float.ofNat n) = decide (m ≤ n) := by
  rw [le_eq_unpack, UnpackedFloat.le, compare_unpack hm hn, Option.any_some, Bool.eq_iff_iff,
    decide_eq_true_eq, Nat.isLE_compare]

/-! ## Comparing bits -/

/-- The place of the double of a number in the total order. -/
def placeOf (n : Nat) : Nat := if n = 0 then 0 else (n.log2 + 1022) * 2 ^ 52 + mantissaOf n

theorem placeOf_lt {m n : Nat} (hn : n < 2 ^ 53) (h : m < n) : placeOf m < placeOf n := by
  have hpos : 0 < n := Nat.zero_lt_of_lt h
  rw [placeOf, placeOf, if_neg hpos.ne']
  rcases Nat.eq_zero_or_pos m with rfl | hm
  · rw [if_pos rfl]
    omega
  · rw [if_neg hm.ne']
    rcases Nat.lt_or_eq_of_le (log2_le_of_lt hm h) with hlt | heq
    · have hm' := (full_mantissaOf hm (Nat.lt_trans h hn)).lt
      have hn' := (full_mantissaOf hpos hn).le
      omega
    · have hmant := mantissaOf_lt heq h
      rw [heq]
      omega

theorem place_ofNat {n : Nat} (hn : n < 2 ^ 53) :
    place (ofFloat (Float.ofNat n)) = placeOf n := by
  have hbits : (Float.ofNat n).toBits.toNat = placeOf n := by
    rcases Nat.eq_zero_or_pos n with rfl | hpos
    · rfl
    · rw [placeOf, if_neg hpos.ne', toNat_toBits_ofNat hpos hn]
  have hlt : placeOf n < 2 ^ 63 := by
    rcases Nat.eq_zero_or_pos n with rfl | hpos
    · decide
    · have hlog := log2_le hpos hn
      have hmant := (full_mantissaOf hpos hn).lt
      rw [placeOf, if_neg hpos.ne']
      omega
  rw [place, ofFloat, if_pos, hbits]
  rw [UInt64.lt_iff_toNat_lt, hbits]
  exact hlt

/-- By their bits, doubles of numbers compare as the numbers do. -/
theorem compare_ofNat {m n : Nat} (hm : m < 2 ^ 53) (hn : n < 2 ^ 53) :
    compare (Float.ofNat m) (Float.ofNat n) = compare m n := by
  have hplaces : compare (Float.ofNat m) (Float.ofNat n) =
      compare (placeOf m : Int) (placeOf n : Int) := by
    rw [← place_ofNat hm, ← place_ofNat hn]
    rfl
  rw [hplaces]
  rcases Nat.lt_trichotomy m n with hlt | rfl | hgt
  · rw [Nat.compare_eq_lt.mpr hlt, Int.compare_eq_lt]
    exact Int.ofNat_lt.mpr (placeOf_lt hn hlt)
  · simp
  · rw [Nat.compare_eq_gt.mpr hgt, Int.compare_eq_gt]
    exact Int.ofNat_lt.mpr (placeOf_lt hm hgt)

end Retrieval.Double
