import Mathlib.Algebra.Order.BigOperators.GroupWithZero.List
import Mathlib.Algebra.Order.BigOperators.Group.List
import Retrieval.Proofs.Exact
import Retrieval.Proofs.Outcome

/-!
# Greater arguments, greater results

`Exact.Rises range low high` says that both are real numbers of `range`, in this order. Above zero,
whatever a model does to the scores of its arguments keeps the order of two lists of them: sums,
products, powers and weighted means do. A complement turns the order around, so what is made of
complements needs numbers between zero and one.

Hits are ranked by their scores as real numbers. An undefined score would come last.
-/

set_option autoImplicit false

namespace Retrieval.Exact

def Rises (range : Set ℝ) (low high : Exact) : Prop :=
  ∃ a ∈ range, ∃ b ∈ range, a ≤ b ∧ low = real a ∧ high = real b

variable {range : Set ℝ} {low high : Exact}

theorem rises_refl {a : ℝ} (ha : a ∈ range) : Rises range (real a) (real a) :=
  ⟨a, ha, a, ha, le_refl a, rfl, rfl⟩

theorem rises_zero {b : ℝ} (hb : 0 ≤ b) : Rises (Set.Ici 0) Scalar.zero (real b) :=
  ⟨0, Set.mem_Ici.mpr (le_refl 0), b, hb, hb, zero_eq, rfl⟩

theorem Rises.left (h : Rises range low high) : Rises range low low := by
  obtain ⟨a, ha, -, -, -, rfl, -⟩ := h
  exact rises_refl ha

theorem Rises.mono {wider : Set ℝ} (h : Rises range low high) (hsub : range ⊆ wider) :
    Rises wider low high := by
  obtain ⟨a, ha, b, hb, hle, hlow, hhigh⟩ := h
  exact ⟨a, hsub ha, b, hsub hb, hle, hlow, hhigh⟩

theorem rises_unit_iff : Rises unitInterval low high ↔
    low.InUnit ∧ high.InUnit ∧ Rises (Set.Ici 0) low high := by
  constructor
  · intro h
    have hnonneg : Rises (Set.Ici 0) low high := h.mono Set.Icc_subset_Ici_self
    obtain ⟨a, ha, b, hb, -, hlow, hhigh⟩ := h
    exact ⟨⟨a, ha, hlow⟩, ⟨b, hb, hhigh⟩, hnonneg⟩
  · rintro ⟨⟨a, ha, rfl⟩, ⟨b, hb, rfl⟩, c, -, d, -, hle, hlow, hhigh⟩
    cases hlow
    cases hhigh
    exact ⟨a, ha, b, hb, hle, rfl, rfl⟩

/-- A complement falls as the number rises. -/
theorem Rises.complement (h : Rises unitInterval low high) :
    Rises unitInterval (Scalar.one - high) (Scalar.one - low) := by
  obtain ⟨a, ha, b, hb, hle, rfl, rfl⟩ := h
  exact ⟨1 - b, Set.Icc.mem_iff_one_sub_mem.mp hb, 1 - a, Set.Icc.mem_iff_one_sub_mem.mp ha,
    sub_le_sub_left hle 1, by rw [one_eq, sub_real], by rw [one_eq, sub_real]⟩

theorem Rises.add {low' high' : Exact} (h : Rises (Set.Ici 0) low high)
    (h' : Rises (Set.Ici 0) low' high') : Rises (Set.Ici 0) (low + low') (high + high') := by
  obtain ⟨a, ha, b, hb, hle, rfl, rfl⟩ := h
  obtain ⟨c, hc, d, hd, hle', rfl, rfl⟩ := h'
  have hlow : 0 ≤ a + c := add_nonneg ha hc
  have hhigh : 0 ≤ b + d := add_nonneg hb hd
  exact ⟨a + c, hlow, b + d, hhigh, add_le_add hle hle', rfl, rfl⟩

theorem Rises.scale (h : Rises (Set.Ici 0) low high) {share : ℝ} (hshare : 0 ≤ share) :
    Rises (Set.Ici 0) (real share * low) (real share * high) := by
  obtain ⟨a, ha, b, hb, hle, rfl, rfl⟩ := h
  exact ⟨share * a, mul_nonneg hshare ha, share * b, mul_nonneg hshare hb,
    mul_le_mul_of_nonneg_left hle hshare, rfl, rfl⟩

theorem Rises.mul {low' high' : Exact} (h : Rises (Set.Ici 0) low high)
    (h' : Rises (Set.Ici 0) low' high') : Rises (Set.Ici 0) (low * low') (high * high') := by
  obtain ⟨a, ha, b, hb, hle, rfl, rfl⟩ := h
  obtain ⟨c, hc, d, hd, hle', rfl, rfl⟩ := h'
  have hlow : 0 ≤ a * c := mul_nonneg ha hc
  have hhigh : 0 ≤ b * d := mul_nonneg hb hd
  exact ⟨a * c, hlow, b * d, hhigh, mul_le_mul hle hle' hc hb, rfl, rfl⟩

theorem Rises.pow (h : Rises (Set.Ici 0) low high) {exponent : ℝ} (hexponent : 0 ≤ exponent) :
    Rises (Set.Ici 0) (Scalar.pow low (real exponent)) (Scalar.pow high (real exponent)) := by
  obtain ⟨a, ha, b, hb, hle, rfl, rfl⟩ := h
  exact ⟨a ^ exponent, Real.rpow_nonneg ha exponent, b ^ exponent, Real.rpow_nonneg hb exponent,
    Real.rpow_le_rpow ha hle hexponent, pow_real ha hexponent, pow_real hb hexponent⟩

theorem Rises.root (h : Rises (Set.Ici 0) low high) {n : Nat} (hn : n ≠ 0) :
    Rises (Set.Ici 0) (Scalar.pow low (Scalar.one / Scalar.ofNat n))
      (Scalar.pow high (Scalar.one / Scalar.ofNat n)) := by
  rw [root_eq hn]
  exact h.pow (by positivity)

/-! ## Lists in step -/

section Lists

variable {lows highs : List Exact}

theorem inUnit_of_rises (h : List.Forall₂ (Rises unitInterval) lows highs) :
    (∀ low ∈ lows, low.InUnit) ∧ ∀ high ∈ highs, high.InUnit := by
  constructor
  · intro low hl
    obtain ⟨high, -, hrise⟩ := exists_of_forall₂ h.flip hl
    exact (rises_unit_iff.mp hrise).1
  · intro high hh
    obtain ⟨low, -, hrise⟩ := exists_of_forall₂ h hh
    exact (rises_unit_iff.mp hrise).2.1

theorem nonneg_of_rises (h : List.Forall₂ (Rises unitInterval) lows highs) :
    List.Forall₂ (Rises (Set.Ici 0)) lows highs :=
  h.imp fun _ _ hrise => (rises_unit_iff.mp hrise).2.2

/-- Two lists in step are one list of pairs. -/
theorem exists_pairs (h : List.Forall₂ (Rises range) lows highs) :
    ∃ pairs : List (ℝ × ℝ), lows = (pairs.map Prod.fst).map real ∧
      highs = (pairs.map Prod.snd).map real ∧ (∀ a ∈ pairs.map Prod.fst, a ∈ range) ∧
      (∀ b ∈ pairs.map Prod.snd, b ∈ range) ∧ ∀ pair ∈ pairs, pair.1 ≤ pair.2 := by
  induction h with
  | nil => exact ⟨[], rfl, rfl, by simp⟩
  | cons hrise _ ih =>
    obtain ⟨a, ha, b, hb, hle, rfl, rfl⟩ := hrise
    obtain ⟨pairs, rfl, rfl, hlows, hhighs, hpairs⟩ := ih
    refine ⟨(a, b) :: pairs, rfl, rfl, ?_⟩
    rw [List.map_cons, List.map_cons, List.forall_mem_cons, List.forall_mem_cons,
      List.forall_mem_cons]
    exact ⟨⟨ha, hlows⟩, ⟨hb, hhighs⟩, hle, hpairs⟩

theorem rises_sum (h : List.Forall₂ (Rises (Set.Ici 0)) lows highs) :
    Rises (Set.Ici 0) (Scalar.sum lows) (Scalar.sum highs) := by
  obtain ⟨pairs, rfl, rfl, hlows, hhighs, hpairs⟩ := exists_pairs h
  exact ⟨_, List.sum_nonneg hlows, _, List.sum_nonneg hhighs, List.sum_le_sum hpairs,
    sum_real _, sum_real _⟩

theorem rises_product (h : List.Forall₂ (Rises (Set.Ici 0)) lows highs) :
    Rises (Set.Ici 0) (Scalar.product lows) (Scalar.product highs) := by
  obtain ⟨pairs, rfl, rfl, hlows, hhighs, hpairs⟩ := exists_pairs h
  have hle : (pairs.map Prod.fst).prod ≤ (pairs.map Prod.snd).prod :=
    List.prod_map_le_prod_map₀ _ _ (List.forall_mem_map.mp hlows) hpairs
  exact ⟨_, List.prod_nonneg hlows, _, List.prod_nonneg hhighs, hle, product_real _,
    product_real _⟩

theorem rises_product_unit (h : List.Forall₂ (Rises unitInterval) lows highs) :
    Rises unitInterval (Scalar.product lows) (Scalar.product highs) := by
  obtain ⟨hlows, hhighs⟩ := inUnit_of_rises h
  exact rises_unit_iff.mpr ⟨inUnit_product hlows, inUnit_product hhighs,
    rises_product (nonneg_of_rises h)⟩

section Means

variable {weights : List Exact} (hweights : ∀ weight ∈ weights, Scalar.isSize weight = true)
  (hsum : Scalar.le (Scalar.sum weights) Scalar.zero = false)
  (h : List.Forall₂ (Rises (Set.Ici 0)) lows highs)

include hweights hsum h

theorem rises_weightedSum :
    Rises (Set.Ici 0) (Scalar.weightedSum weights lows) (Scalar.weightedSum weights highs) := by
  obtain ⟨shares, hshares, hnonneg, -⟩ := exists_shares hweights hsum
  rw [Scalar.weightedSum, Scalar.weightedSum, hshares]
  exact rises_sum (forall₂_zipWith h (List.forall_mem_map.mpr fun share hs _ _ hrise =>
    hrise.scale (hnonneg share hs)))

theorem rises_weightedProduct : Rises (Set.Ici 0) (Scalar.weightedProduct weights lows)
    (Scalar.weightedProduct weights highs) := by
  obtain ⟨shares, hshares, hnonneg, -⟩ := exists_shares hweights hsum
  rw [Scalar.weightedProduct, Scalar.weightedProduct, hshares]
  exact rises_product (forall₂_zipWith h (List.forall_mem_map.mpr fun share hs _ _ hrise =>
    hrise.pow (hnonneg share hs)))

end Means

end Lists

/-! ## Ranks -/

def value? : Exact → Option ℝ
  | real x => some x
  | undefined => none

noncomputable instance : Ord Exact := ⟨fun x y => compare x.value? y.value?⟩

instance : Std.TransOrd Exact := inferInstanceAs (Std.TransCmp (compareOn value?))

end Retrieval.Exact
