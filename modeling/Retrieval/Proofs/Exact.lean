import Mathlib.Algebra.BigOperators.Ring.List
import Mathlib.Algebra.Group.Submonoid.BigOperators
import Mathlib.Analysis.SpecialFunctions.Pow.NNReal
import Mathlib.Topology.UnitInterval
import Retrieval.Scalar

/-!
# Exact arithmetic

Scores read over the real numbers. An operation without a result, such as a division by zero, comes
out as `Exact.undefined`, and so does everything that is computed with it: a score that is a real
number was reached without one.

The second half is about numbers between zero and one. They are closed under everything that query
likelihood does to scores: products, complements, roots, and means with weights that add up to more
than zero. Of the weights, means use the shares only: their scale does not count, and with equal
ones a mean of factors is the root of their product.
-/

set_option autoImplicit false

namespace Retrieval

inductive Exact where
  | real (x : ℝ)
  | undefined

namespace Exact

open Classical in
noncomputable instance : Scalar Exact where
  add
    | real x, real y => real (x + y)
    | _, _ => undefined
  sub
    | real x, real y => real (x - y)
    | _, _ => undefined
  mul
    | real x, real y => real (x * y)
    | _, _ => undefined
  div
    | real x, real y => if y = 0 then undefined else real (x / y)
    | _, _ => undefined
  ofNat n := real n
  half := real (1 / 2)
  neutral := real 0
  log
    | real x => if 0 < x then real (Real.log x) else undefined
    | undefined => undefined
  pow
    | real x, real y => if 0 < x ∨ x = 0 ∧ 0 ≤ y then real (x ^ y) else undefined
    | _, _ => undefined
  lt
    | real x, real y => decide (x < y)
    | _, _ => false
  le
    | real x, real y => decide (x ≤ y)
    | _, _ => false
  isFinite
    | real _ => true
    | undefined => false

instance : DecimalText Exact := ⟨fun _ => "a real number"⟩

theorem zero_eq : (Scalar.zero : Exact) = real 0 := congrArg real Nat.cast_zero

theorem one_eq : (Scalar.one : Exact) = real 1 := congrArg real Nat.cast_one

theorem add_real (x y : ℝ) : real x + real y = real (x + y) := rfl

theorem sub_real (x y : ℝ) : real x - real y = real (x - y) := rfl

theorem mul_real (x y : ℝ) : real x * real y = real (x * y) := rfl

theorem div_real (x : ℝ) {y : ℝ} (hy : y ≠ 0) : real x / real y = real (x / y) := if_neg hy

theorem pow_real {x y : ℝ} (hx : 0 ≤ x) (hy : 0 ≤ y) :
    Scalar.pow (real x) (real y) = real (x ^ y) := by
  have hdefined : 0 < x ∨ x = 0 ∧ 0 ≤ y := by
    rcases hx.lt_or_eq with hpos | hzero
    · exact .inl hpos
    · exact .inr ⟨hzero.symm, hy⟩
  exact if_pos hdefined

theorem lt_real (x y : ℝ) : Scalar.lt (real x) (real y) = true ↔ x < y := decide_eq_true_iff

theorem le_real (x y : ℝ) : Scalar.le (real x) (real y) = true ↔ x ≤ y := decide_eq_true_iff

/-- A size is a real number that is not negative. -/
theorem isSize_iff {x : Exact} : Scalar.isSize x = true ↔ ∃ r : ℝ, x = real r ∧ 0 ≤ r := by
  cases x with
  | undefined => simp [Scalar.isSize, Scalar.isFinite]
  | real r => simp [Scalar.isSize, Scalar.isFinite, zero_eq, ← Bool.not_eq_true, lt_real]

theorem sum_real (xs : List ℝ) : Scalar.sum (xs.map real) = real xs.sum := by
  have hfold : ∀ start : ℝ,
      (xs.map real).foldl (· + ·) (real start) = real (start + xs.sum) := by
    induction xs with
    | nil => simp
    | cons x rest ih =>
      intro start
      rw [List.map_cons, List.foldl_cons, add_real, ih, List.sum_cons, add_assoc]
  exact (hfold 0).trans (by rw [zero_add])

theorem product_real (xs : List ℝ) : Scalar.product (xs.map real) = real xs.prod := by
  have hfold : ∀ start : ℝ,
      (xs.map real).foldl (· * ·) (real start) = real (start * xs.prod) := by
    induction xs with
    | nil => simp
    | cons x rest ih =>
      intro start
      rw [List.map_cons, List.foldl_cons, mul_real, ih, List.prod_cons, mul_assoc]
  rw [Scalar.product, one_eq, hfold, one_mul]

theorem shares_real {weights : List ℝ} (hpos : 0 < weights.sum) :
    Scalar.shares (weights.map real) = (weights.map (· / weights.sum)).map real := by
  rw [Scalar.shares, sum_real, List.map_map, List.map_map]
  exact List.map_congr_left fun weight _ => div_real weight hpos.ne'

/-! ## Between zero and one -/

def InUnit (x : Exact) : Prop := ∃ r ∈ unitInterval, x = real r

theorem isFraction_iff {x : Exact} : Scalar.isFraction x = true ↔ x.InUnit := by
  rw [Scalar.isFraction, Bool.and_eq_true, zero_eq, one_eq]
  constructor
  · rintro ⟨hzero, hone⟩
    cases x with
    | undefined => cases hzero
    | real r => exact ⟨r, ⟨(le_real 0 r).mp hzero, (le_real r 1).mp hone⟩, rfl⟩
  · rintro ⟨r, ⟨hzero, hone⟩, rfl⟩
    exact ⟨(le_real 0 r).mpr hzero, (le_real r 1).mpr hone⟩

theorem inUnit_zero : InUnit Scalar.zero := ⟨0, unitInterval.zero_mem, zero_eq⟩

theorem exists_reals {scores : List Exact} (h : ∀ score ∈ scores, score.InUnit) :
    ∃ rs : List ℝ, scores = rs.map real ∧ ∀ r ∈ rs, r ∈ unitInterval := by
  induction scores with
  | nil => exact ⟨[], rfl, by simp⟩
  | cons score rest ih =>
    rw [List.forall_mem_cons] at h
    obtain ⟨r, hr, rfl⟩ := h.1
    obtain ⟨rs, rfl, hrs⟩ := ih h.2
    exact ⟨r :: rs, rfl, List.forall_mem_cons.mpr ⟨hr, hrs⟩⟩

theorem inUnit_product {scores : List Exact} (h : ∀ score ∈ scores, score.InUnit) :
    (Scalar.product scores).InUnit := by
  obtain ⟨rs, rfl, hrs⟩ := exists_reals h
  exact ⟨rs.prod, unitInterval.submonoid.list_prod_mem hrs, product_real rs⟩

theorem InUnit.complement {score : Exact} (h : score.InUnit) : (Scalar.one - score).InUnit := by
  obtain ⟨r, hr, rfl⟩ := h
  exact ⟨1 - r, Set.Icc.mem_iff_one_sub_mem.mp hr, by rw [one_eq, sub_real]⟩

theorem InUnit.pow {score : Exact} (h : score.InUnit) {y : ℝ} (hy : 0 ≤ y) :
    (Scalar.pow score (real y)).InUnit := by
  obtain ⟨r, ⟨hzero, hone⟩, rfl⟩ := h
  exact ⟨r ^ y, ⟨Real.rpow_nonneg hzero y, Real.rpow_le_one hzero hone hy⟩, pow_real hzero hy⟩

theorem root_eq {n : Nat} (hn : n ≠ 0) :
    (Scalar.one / Scalar.ofNat n : Exact) = real (1 / n) := by
  rw [one_eq]
  exact div_real 1 (Nat.cast_ne_zero.mpr hn)

theorem InUnit.root {score : Exact} (h : score.InUnit) {n : Nat} (hn : n ≠ 0) :
    (Scalar.pow score (Scalar.one / Scalar.ofNat n)).InUnit := by
  rw [root_eq hn]
  exact h.pow (by positivity)

theorem InUnit.mix {x y : Exact} (hx : x.InUnit) (hy : y.InUnit) {part : ℝ}
    (hpart : part ∈ unitInterval) :
    ((Scalar.one - real part) * x + real part * y).InUnit := by
  obtain ⟨a, ⟨ha, ha'⟩, rfl⟩ := hx
  obtain ⟨b, ⟨hb, hb'⟩, rfl⟩ := hy
  obtain ⟨hrest, -⟩ := Set.Icc.mem_iff_one_sub_mem.mp hpart
  rw [one_eq, sub_real, mul_real, mul_real, add_real]
  refine ⟨_, ⟨?_, ?_⟩, rfl⟩
  · exact add_nonneg (mul_nonneg hrest ha) (mul_nonneg hpart.1 hb)
  · calc (1 - part) * a + part * b ≤ (1 - part) * 1 + part * 1 :=
          add_le_add (mul_le_mul_of_nonneg_left ha' hrest) (mul_le_mul_of_nonneg_left hb' hpart.1)
      _ = 1 := by ring

/-! ## Weighted means -/

theorem exists_weights {weights : List Exact}
    (h : ∀ weight ∈ weights, Scalar.isSize weight = true) :
    ∃ ws : List ℝ, weights = ws.map real ∧ ∀ w ∈ ws, 0 ≤ w := by
  induction weights with
  | nil => exact ⟨[], rfl, by simp⟩
  | cons weight rest ih =>
    rw [List.forall_mem_cons] at h
    obtain ⟨w, rfl, hw⟩ := isSize_iff.mp h.1
    obtain ⟨ws, rfl, hws⟩ := ih h.2
    exact ⟨w :: ws, rfl, List.forall_mem_cons.mpr ⟨hw, hws⟩⟩

theorem sum_zipWith_bounds {shares rs : List ℝ} (hs : ∀ share ∈ shares, 0 ≤ share)
    (hr : ∀ r ∈ rs, r ∈ unitInterval) :
    0 ≤ (List.zipWith (· * ·) shares rs).sum ∧
      (List.zipWith (· * ·) shares rs).sum ≤ shares.sum := by
  induction shares generalizing rs with
  | nil => simp
  | cons share rest ih =>
    rw [List.forall_mem_cons] at hs
    cases rs with
    | nil =>
      have hsum : 0 ≤ rest.sum := List.sum_nonneg hs.2
      simp only [List.zipWith_nil_right, List.sum_nil, List.sum_cons]
      exact ⟨le_refl 0, add_nonneg hs.1 hsum⟩
    | cons r later =>
      rw [List.forall_mem_cons] at hr
      obtain ⟨hzero, hsum⟩ := ih hs.2 hr.2
      rw [List.zipWith_cons_cons, List.sum_cons, List.sum_cons]
      have hfirst : share * r ≤ share := mul_le_of_le_one_right hs.1 hr.1.2
      exact ⟨add_nonneg (mul_nonneg hs.1 hr.1.1) hzero, add_le_add hfirst hsum⟩

/-- The parts of a total add up to one. -/
theorem sum_parts {ws : List ℝ} (h : ws.sum ≠ 0) : (ws.map (· / ws.sum)).sum = 1 := by
  simp only [div_eq_mul_inv]
  rw [List.sum_map_mul_right, List.map_id', mul_inv_cancel₀ h]

section Means

variable {weights scores : List Exact}
  (hweights : ∀ weight ∈ weights, Scalar.isSize weight = true)
  (hsum : Scalar.le (Scalar.sum weights) Scalar.zero = false)
  (hscores : ∀ score ∈ scores, score.InUnit)

include hweights hsum

/-- Weights that do not add up to zero have shares, which add up to one. -/
theorem exists_shares : ∃ shares : List ℝ, Scalar.shares weights = shares.map real ∧
    (∀ share ∈ shares, 0 ≤ share) ∧ shares.sum = 1 := by
  obtain ⟨ws, rfl, hws⟩ := exists_weights hweights
  rw [sum_real, zero_eq, ← Bool.not_eq_true, le_real, not_le] at hsum
  refine ⟨_, shares_real hsum, List.forall_mem_map.mpr fun w hw => ?_, sum_parts hsum.ne'⟩
  exact div_nonneg (hws w hw) hsum.le

include hscores

theorem inUnit_weightedSum : (Scalar.weightedSum weights scores).InUnit := by
  obtain ⟨shares, hshares, hnonneg, hone⟩ := exists_shares hweights hsum
  obtain ⟨rs, rfl, hrs⟩ := exists_reals hscores
  have hterms : List.zipWith (fun share score => share * score) (shares.map real) (rs.map real) =
      (List.zipWith (· * ·) shares rs).map real := by
    rw [List.zipWith_map, List.map_zipWith]
    rfl
  have hbounds := sum_zipWith_bounds hnonneg hrs
  rw [hone] at hbounds
  exact ⟨_, hbounds, by rw [Scalar.weightedSum, hshares, hterms, sum_real]⟩

theorem inUnit_weightedProduct : (Scalar.weightedProduct weights scores).InUnit := by
  obtain ⟨shares, hshares, hnonneg, -⟩ := exists_shares hweights hsum
  rw [Scalar.weightedProduct, hshares, ← List.map_uncurry_zip_eq_zipWith]
  refine inUnit_product (List.forall_mem_map.mpr fun pair hpair => ?_)
  obtain ⟨hshare, hscore⟩ := List.of_mem_zip hpair
  obtain ⟨share, hs, hreal⟩ := List.mem_map.mp hshare
  rw [Function.uncurry, ← hreal]
  exact (hscores pair.2 hscore).pow (hnonneg share hs)

end Means

/-- Shares say nothing about the scale of weights. -/
theorem shares_scale {weights : List Exact}
    (hweights : ∀ weight ∈ weights, Scalar.isSize weight = true)
    (hsum : Scalar.le (Scalar.sum weights) Scalar.zero = false) {c : ℝ} (hc : 0 < c) :
    Scalar.shares (weights.map (real c * ·)) = Scalar.shares weights := by
  obtain ⟨ws, rfl, -⟩ := exists_weights hweights
  rw [sum_real, zero_eq, ← Bool.not_eq_true, le_real, not_le] at hsum
  have hscaled : (ws.map real).map (real c * ·) = (ws.map (c * ·)).map real := by
    rw [List.map_map, List.map_map]
    rfl
  have htotal : (ws.map (c * ·)).sum = c * ws.sum := by
    rw [List.sum_map_mul_left, List.map_id']
  have hparts : (ws.map (c * ·)).map (· / (c * ws.sum)) = ws.map (· / ws.sum) := by
    rw [List.map_map]
    exact List.map_congr_left fun w _ => mul_div_mul_left w ws.sum hc.ne'
  rw [hscaled, shares_real (htotal ▸ mul_pos hc hsum), shares_real hsum, htotal, hparts]

theorem shares_level {n : Nat} (hn : n ≠ 0) {w : ℝ} (hw : 0 < w) :
    Scalar.shares (List.replicate n (real w)) = List.replicate n (real (1 / n)) := by
  have hcount : (0 : ℝ) < n := Nat.cast_pos.mpr (Nat.pos_of_ne_zero hn)
  have htotal : (List.replicate n w).sum = n * w := by rw [List.sum_replicate, nsmul_eq_mul]
  rw [← List.map_replicate, shares_real (htotal ▸ mul_pos hcount hw), htotal, List.map_replicate,
    List.map_replicate]
  congr 2
  rw [div_mul_cancel_right₀ hw.ne', one_div]

/-- With equal weights the factors are roots, and the product of the roots is that of the product. -/
theorem weightedProduct_level {scores : List Exact} (hscores : ∀ score ∈ scores, score.InUnit)
    (hne : scores ≠ []) {w : ℝ} (hw : 0 < w) :
    Scalar.weightedProduct (List.replicate scores.length (real w)) scores =
      Scalar.pow (Scalar.product scores) (Scalar.one / Scalar.ofNat scores.length) := by
  have hlength : scores.length ≠ 0 := mt List.length_eq_zero_iff.mp hne
  obtain ⟨rs, rfl, hrs⟩ := exists_reals hscores
  rw [Scalar.weightedProduct, shares_level hlength hw, root_eq hlength, List.length_map]
  have hroot : (0 : ℝ) ≤ 1 / rs.length := by positivity
  have hnonneg : ∀ r ∈ rs, 0 ≤ r := fun r hr => (hrs r hr).1
  have hfactors : List.zipWith (fun share score => Scalar.pow score share)
      (List.replicate rs.length (real (1 / rs.length))) (rs.map real) =
      (rs.map (· ^ (1 / rs.length : ℝ))).map real := by
    rw [← List.map_const', List.zipWith_map, List.zipWith_self, List.map_map]
    exact List.map_congr_left fun r hr => pow_real (hnonneg r hr) hroot
  rw [hfactors, product_real, product_real, pow_real (List.prod_nonneg hnonneg) hroot,
    Real.list_prod_map_rpow rs hnonneg]

end Exact

end Retrieval
