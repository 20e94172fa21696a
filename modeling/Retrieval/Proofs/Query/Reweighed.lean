import Retrieval.Proofs.Exact
import Retrieval.Proofs.Query.WellFormed

/-!
# Reweighed queries

A query is reweighed by giving the weights of a combinator another scale, or by writing a
conjunction as a weighted one with equal weights, at as many nodes as one likes and at any depth
(`Query.Reweighed`). Weights are real numbers here, and what was a good choice of them for one node
stays one.
-/

set_option autoImplicit false

namespace Retrieval

namespace Query

inductive Reweighed : Query Exact → Query Exact → Prop
  | refl (query : Query Exact) : Reweighed query query
  | trans {first second third : Query Exact} (h : Reweighed first second)
      (h' : Reweighed second third) : Reweighed first third
  | scale {op : Operator} (hop : op.isWeighted = true) {c : ℝ} (hc : 0 < c) (weights : List Exact)
      (args : List (Query Exact)) :
      Reweighed (.combine op weights args) (.combine op (weights.map (.real c * ·)) args)
  | level {args : List (Query Exact)} (hargs : args ≠ []) {w : ℝ} (hw : 0 < w) :
      Reweighed (.combine .and [] args)
        (.combine .weightedAnd (List.replicate args.length (.real w)) args)
  | inCombine (op : Operator) (weights : List Exact) (before after : List (Query Exact))
      {arg arg' : Query Exact} (h : Reweighed arg arg') :
      Reweighed (.combine op weights (before ++ arg :: after))
        (.combine op weights (before ++ arg' :: after))

theorem WeightsFormed.exists_reals {op : Operator} (hop : op.isWeighted = true)
    {weights : List Exact} {args : Nat} (h : WeightsFormed op weights args) :
    ∃ ws : List ℝ, weights = ws.map Exact.real := by
  rcases eq_or_ne args 0 with rfl | hargs
  · rw [WeightsFormed, if_pos hop] at h
    exact ⟨[], List.eq_nil_of_length_eq_zero h.1⟩
  · obtain ⟨ws, hws, -⟩ := Exact.exists_weights (h.sizes hop hargs).1
    exact ⟨ws, hws⟩

theorem weightsFormed_real_iff {op : Operator} (hop : op.isWeighted = true) {ws : List ℝ}
    {args : Nat} : WeightsFormed op (ws.map Exact.real) args ↔
      ws.length = args ∧ (∀ w ∈ ws, 0 ≤ w) ∧ (args ≠ 0 → 0 < ws.sum) := by
  rw [WeightsFormed, if_pos hop, List.length_map, List.forall_mem_map, Exact.sum_real,
    Exact.zero_eq, ← Bool.not_eq_true, Exact.le_real, not_le]
  refine and_congr_right fun _ => and_congr_left' (forall₂_congr fun w _ => ?_)
  rw [← Bool.not_eq_true, Exact.lt_real, not_lt]
  exact and_iff_right rfl

/-- Weights of another scale are as good as they were. -/
theorem WeightsFormed.scale {op : Operator} (hop : op.isWeighted = true) {weights : List Exact}
    {args : Nat} (h : WeightsFormed op weights args) {c : ℝ} (hc : 0 < c) :
    WeightsFormed op (weights.map (.real c * ·)) args := by
  obtain ⟨ws, rfl⟩ := h.exists_reals hop
  obtain ⟨hlength, hsizes, hsum⟩ := (weightsFormed_real_iff hop).mp h
  have hscaled : (ws.map Exact.real).map (.real c * ·) = (ws.map (c * ·)).map Exact.real := by
    rw [List.map_map, List.map_map]
    rfl
  rw [hscaled, weightsFormed_real_iff hop, List.length_map, List.sum_map_mul_left, List.map_id']
  refine ⟨hlength, List.forall_mem_map.mpr fun w hw => ?_, fun hargs => ?_⟩
  · exact mul_nonneg hc.le (hsizes w hw)
  · exact mul_pos hc (hsum hargs)

theorem weightsFormed_level {n : Nat} {w : ℝ} (hw : 0 < w) :
    WeightsFormed .weightedAnd (List.replicate n (Exact.real w)) n := by
  rw [← List.map_replicate, weightsFormed_real_iff rfl, List.length_replicate, List.sum_replicate,
    nsmul_eq_mul]
  refine ⟨rfl, fun other ho => ?_, fun hn => ?_⟩
  · rw [List.eq_of_mem_replicate ho]
    exact hw.le
  · exact mul_pos (Nat.cast_pos.mpr (Nat.pos_of_ne_zero hn)) hw

end Query

end Retrieval
