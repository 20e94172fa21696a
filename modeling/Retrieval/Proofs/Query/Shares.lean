import Retrieval.Proofs.Bounded
import Retrieval.Proofs.Exact
import Retrieval.Proofs.Query.WellFormed

/-!
# Shares of accepted weights

A node with weights is accepted if they are finite, not negative and have a sum above zero. That is
enough for shares unless the sum is too great: then it is infinite, which is above zero as well, and
every share is zero (`Query.shares_of_valid`). Two weights of half the range do that
(`Query.shares_overflowing`).
-/

set_option autoImplicit false

namespace Retrieval

/-- The shares of weights add up to one, and greater weights have greater shares. -/
structure Scalar.Proportional {α : Type} [Scalar α] (weights : List α) : Prop where
  finite : Scalar.isFinite (Scalar.sum weights) = true
  positive : Scalar.lt Scalar.zero (Scalar.sum weights) = true
  sum_shares : Scalar.sum (Scalar.shares weights) = Scalar.one
  greater : ∀ pair ∈ weights.zip (Scalar.shares weights),
    ∀ other ∈ weights.zip (Scalar.shares weights),
      Scalar.lt pair.1 other.1 = true → Scalar.lt pair.2 other.2 = true

namespace Bounded

variable {ws : List ℝ} (hws : ∀ w ∈ ws, 0 ≤ w ∧ w ≤ greatest)

include hws

theorem proportional_iff (hpos : 0 < ws.sum) :
    Scalar.Proportional (ws.map ofReal) ↔ ws.sum ≤ greatest := by
  have hnonneg : ∀ w ∈ ws, 0 ≤ w := fun w hw => (hws w hw).1
  have htotal : Scalar.sum (ws.map ofReal) = ofReal ws.sum := sum_weights hws
  constructor
  · intro h
    have hfinite := h.finite
    rw [htotal] at hfinite
    exact (isFinite_ofReal hpos.le).mp hfinite
  · intro hle
    have hshares := shares_of_le hws hpos hle
    have hshare : ∀ w ∈ ws, 0 ≤ w / ws.sum ∧ w / ws.sum ≤ greatest := by
      intro w hw
      have hpart : w / ws.sum ≤ 1 :=
        (div_le_one hpos).mpr (List.single_le_sum hnonneg w hw)
      exact ⟨div_nonneg (hnonneg w hw) hpos.le, hpart.trans one_le_greatest⟩
    refine ⟨?_, ?_, ?_, ?_⟩
    · rw [htotal]
      exact (isFinite_ofReal hpos.le).mpr hle
    · rw [htotal, zero_eq]
      exact (lt_ofReal le_rfl greatest_pos.le hpos.le hle).mpr hpos
    · rw [hshares, sum_ofReal (List.forall_mem_map.mpr fun w hw => (hshare w hw).1),
        Exact.sum_parts hpos.ne', one_eq]
    · rw [hshares, List.map_map, List.zip_map']
      refine List.forall_mem_map.mpr fun w hw => List.forall_mem_map.mpr fun v hv hlt => ?_
      have hless : w < v := (lt_ofReal (hws w hw).1 (hws w hw).2 (hws v hv).1 (hws v hv).2).mp hlt
      exact (lt_ofReal (hshare w hw).1 (hshare w hw).2 (hshare v hv).1 (hshare v hv).2).mpr
        ((div_lt_div_iff_of_pos_right hpos).mpr hless)

end Bounded

namespace Query

theorem validate_ofReal {op : Operator} {ws : List ℝ} {args : List (Query Bounded)}
    (hop : op.isWeighted = true) (hlength : ws.length = args.length)
    (hws : ∀ w ∈ ws, 0 ≤ w ∧ w ≤ greatest) (hpos : 0 < ws.sum) :
    (combine op (ws.map Bounded.ofReal) args).validate = .ok () := by
  refine validateWeights_eq_ok.mpr ?_
  rw [WeightsFormed, if_pos hop]
  refine ⟨by rw [List.length_map, hlength], List.forall_mem_map.mpr fun w hw => ?_, fun _ => ?_⟩
  · have hsize : Scalar.isSize (Bounded.ofReal w) = true :=
      Bounded.isSize_iff.mpr ⟨w, (hws w hw).1, (hws w hw).2, rfl⟩
    simpa [Scalar.isSize] using hsize
  · rw [Bounded.sum_weights hws, ← Bool.not_eq_true, Bounded.le_zero_iff hpos.le]
    exact hpos.ne'

/-- Weights that are accepted have a positive total. Within the bounds of the arithmetic every weight
has its part of it as its share; beyond them no weight has a share, and weighted sums are zero. -/
theorem shares_of_valid {op : Operator} {weights : List Bounded} {args : List (Query Bounded)}
    (hop : op.isWeighted = true) (hargs : args ≠ [])
    (hvalid : (combine op weights args).validate = .ok ()) :
    let total := (weights.map Bounded.toReal).sum
    0 < total ∧ (Scalar.Proportional weights ↔ total ≤ greatest) ∧
      (total ≤ greatest → Scalar.shares weights =
        weights.map fun weight => .ofReal (weight.toReal / total)) ∧
      (greatest < total → Scalar.sum weights = .infinite false ∧
        (∀ share ∈ Scalar.shares weights, share = Scalar.zero) ∧
        ∀ scores : List Bounded, (∀ score ∈ scores, Scalar.isFinite score = true) →
          Scalar.weightedSum weights scores = Scalar.zero) := by
  intro total
  have hcount : args.length ≠ 0 := mt List.length_eq_zero_iff.mp hargs
  obtain ⟨hsizes, hsum⟩ := (validateWeights_eq_ok.mp hvalid).sizes hop hcount
  obtain ⟨ws, rfl, hws⟩ := Bounded.exists_weights hsizes
  have htotal : total = ws.sum := congrArg List.sum (Bounded.map_toReal_ofReal hws)
  have hnonneg : 0 ≤ ws.sum := List.sum_nonneg fun w hw => (hws w hw).1
  have hpos : 0 < ws.sum := by
    refine hnonneg.lt_of_ne' fun hzero => ?_
    rw [Bounded.sum_weights hws, (Bounded.le_zero_iff hnonneg).mpr hzero] at hsum
    cases hsum
  rw [htotal]
  refine ⟨hpos, Bounded.proportional_iff hws hpos, fun hle => ?_, fun hlt => ⟨?_, ?_, ?_⟩⟩
  · rw [Bounded.shares_of_le hws hpos hle, List.map_map, List.map_map]
    refine List.map_congr_left fun w hw => ?_
    rw [Function.comp_apply, Function.comp_apply, Bounded.toReal_ofReal (hws w hw).1 (hws w hw).2]
  · rw [Bounded.sum_weights hws, Bounded.ofReal_of_lt hlt]
  · rw [Bounded.shares_of_lt hws hlt]
    exact fun share => List.eq_of_mem_replicate
  · exact fun scores => Bounded.weightedSum_of_lt hws hlt

theorem shares_of_valid_quarter :
    let weights := [Bounded.ofReal 1, Bounded.ofReal 3]
    (combine .weightedSum weights [term "body" "red", term "body" "blue"]).validate = .ok () ∧
      Scalar.Proportional weights ∧
      Scalar.shares weights = [Bounded.ofReal (1 / 4), Bounded.ofReal (3 / 4)] := by
  intro weights
  have hfour : (4 : ℝ) ≤ greatest := by
    have hpower := two_pow_le_greatest (n := 2) (by decide)
    norm_num at hpower
    exact hpower
  have hws : ∀ w ∈ [(1 : ℝ), 3], 0 ≤ w ∧ w ≤ greatest := by
    have hthree : (3 : ℝ) ≤ greatest := le_trans (by norm_num) hfour
    simp [one_le_greatest, hthree]
  have hsum : [(1 : ℝ), 3].sum = 4 := by norm_num
  have hvalid : (combine .weightedSum weights [term "body" "red", term "body" "blue"]).validate =
      .ok () := validate_ofReal rfl rfl hws (by rw [hsum]; norm_num)
  have hreal : weights.map Bounded.toReal = [1, 3] := Bounded.map_toReal_ofReal hws
  obtain ⟨-, hproportional, hshares, -⟩ := shares_of_valid rfl (List.cons_ne_nil _ _) hvalid
  rw [hreal, hsum] at hproportional hshares
  have hquarters : weights.map (fun weight => Bounded.ofReal (weight.toReal / 4)) =
      (weights.map Bounded.toReal).map fun w => Bounded.ofReal (w / 4) := rfl
  rw [hreal] at hquarters
  exact ⟨hvalid, hproportional.mpr hfour, (hshares hfour).trans hquarters⟩

/-- Two equal weights that are accepted and have no share at all. -/
theorem shares_overflowing :
    let weights := [Bounded.ofReal (2 ^ 1023), Bounded.ofReal (2 ^ 1023)]
    (combine .weightedSum weights [term "body" "a", term "body" "b"]).validate = .ok () ∧
      Scalar.sum weights = .infinite false ∧ Scalar.shares weights = [Scalar.zero, Scalar.zero] ∧
      ¬ Scalar.Proportional weights := by
  intro weights
  have hws : ∀ w ∈ [(2 : ℝ) ^ 1023, 2 ^ 1023], 0 ≤ w ∧ w ≤ greatest := by
    have hhalf : (2 : ℝ) ^ 1023 ≤ greatest := two_pow_le_greatest (by decide)
    simpa using hhalf
  have hsum : [(2 : ℝ) ^ 1023, 2 ^ 1023].sum = 2 ^ 1024 := by
    rw [List.sum_pair, ← mul_two, ← pow_succ]
  have hlt : greatest < [(2 : ℝ) ^ 1023, 2 ^ 1023].sum := greatest_lt.trans_eq hsum.symm
  have hpos := greatest_pos.trans hlt
  refine ⟨validate_ofReal rfl rfl hws hpos, ?_, Bounded.shares_of_lt hws hlt, ?_⟩
  · rw [← Bounded.ofReal_of_lt hlt]
    exact Bounded.sum_weights hws
  · exact fun h => not_le.mpr hlt ((Bounded.proportional_iff hws hpos).mp h)

end Query

end Retrieval
