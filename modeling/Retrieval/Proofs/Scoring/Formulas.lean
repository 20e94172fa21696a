import Retrieval.Proofs.Scoring.Leaves
import Retrieval.Proofs.Scoring.Rising

/-!
# How leaf scores depend on statistics

In exact arithmetic the scores of single postings under BM25 and Indri are numbers of a known range
for all parameters that validation lets pass, and each statistic moves them in one direction only
(`wellBehaved_of_valid`): more occurrences raise a score, a longer field and a more frequent term
under BM25 lower it, a greater likelihood under Indri raises it.

The statistics are moved together in one lemma for each model, `Bm25.score_rises` and
`Indri.probability_rises`; a law for one of them leaves the others as they are.
-/

set_option autoImplicit false

namespace Retrieval

theorem Exact.larger_real (x y : ℝ) : Scalar.larger (real x) (real y) = real (max x y) := by
  have hnumber : Scalar.isNumber (real x) = true := (le_real x x).mpr (le_refl x)
  rw [Scalar.larger, if_pos hnumber, max_def_lt]
  simp only [lt_real]
  split <;> rfl

/-! ## BM25 -/

namespace Bm25

/-- Everything that a score is divided by. An average that is not positive is not used. -/
def divisors {α : Type} [Scalar α] (params : Bm25 α) (frequency : UInt32) (df length : Nat)
    (average : α) : List α :=
  [Scalar.ofNat df + Scalar.half,
    Scalar.ofNat frequency.toNat + params.k1 * params.lengthNorm length average,
    params.k3 + Scalar.one] ++ if Scalar.lt Scalar.zero average then [average] else []

/-- How the score of a posting depends on its statistics. -/
structure WellBehaved (params : Bm25 Exact) : Prop where
  divisors_pos : ∀ (frequency : UInt32) (df length : Nat) (average : ℝ), frequency ≠ 0 →
    ∀ divisor ∈ params.divisors frequency df length (.real average),
      Scalar.lt Scalar.zero divisor = true
  odds_pos : ∀ df docs : Nat, df ≤ docs → Scalar.lt Scalar.zero (odds docs df : Exact) = true
  le_rarity : ∀ (frequency : UInt32) (df docs length : Nat) (average : ℝ), frequency ≠ 0 →
    df ≤ docs →
    Exact.Rises (Set.Ici 0) (params.score frequency df docs length (.real average))
      (rarity docs df)
  rises_frequency : ∀ (few many : UInt32) (df docs length : Nat) (average : ℝ), few ≠ 0 →
    few ≤ many → df ≤ docs →
    Exact.Rises (Set.Ici 0) (params.score few df docs length (.real average))
      (params.score many df docs length (.real average))
  falls_length : ∀ (frequency : UInt32) (df docs shorter longer : Nat) (average : ℝ),
    frequency ≠ 0 → df ≤ docs → shorter ≤ longer →
    Exact.Rises (Set.Ici 0) (params.score frequency df docs longer (.real average))
      (params.score frequency df docs shorter (.real average))
  falls_df : ∀ (frequency : UInt32) (rare common docs length : Nat) (average : ℝ),
    frequency ≠ 0 → rare ≤ common → common ≤ docs →
    Exact.Rises (Set.Ici 0) (params.score frequency common docs length (.real average))
      (params.score frequency rare docs length (.real average))

theorem odds_eq (docs df : Nat) :
    (odds docs df : Exact) = .real (((docs : ℝ) - df + 1 / 2) / (df + 1 / 2)) := by
  have hdivisor : (df : ℝ) + 1 / 2 ≠ 0 := by positivity
  exact Exact.div_real _ hdivisor

/-- Documents with the term, and those without it, are counted as half a document more. -/
theorem odds_real_pos {docs df : Nat} (hle : df ≤ docs) :
    0 < ((docs : ℝ) - df + 1 / 2) / (df + 1 / 2) := by
  have hwithout : (0 : ℝ) ≤ docs - df := sub_nonneg.mpr (Nat.cast_le.mpr hle)
  positivity

theorem rarity_eq_max {docs df : Nat} (hle : df ≤ docs) :
    (rarity docs df : Exact) =
      .real (max (Real.log (((docs : ℝ) - df + 1 / 2) / (df + 1 / 2))) 0) := by
  have hlog : Scalar.log (odds docs df : Exact) =
      .real (Real.log (((docs : ℝ) - df + 1 / 2) / (df + 1 / 2))) := by
    rw [odds_eq]
    exact if_pos (odds_real_pos hle)
  rw [rarity_eq, hlog, Exact.zero_eq, Exact.larger_real]

theorem rarity_rises {rare common docs : Nat} (hdf : rare ≤ common) (hdocs : common ≤ docs) :
    Exact.Rises (Set.Ici 0) (rarity docs common) (rarity docs rare) := by
  have hcount : (rare : ℝ) ≤ common := Nat.cast_le.mpr hdf
  have hodds : ((docs : ℝ) - common + 1 / 2) / (common + 1 / 2) ≤
      ((docs : ℝ) - rare + 1 / 2) / (rare + 1 / 2) := by
    have hwithout : (0 : ℝ) ≤ docs - rare := sub_nonneg.mpr (Nat.cast_le.mpr (hdf.trans hdocs))
    exact div_le_div₀ (by positivity) (by linarith) (by positivity) (by linarith)
  refine ⟨_, Set.mem_Ici.mpr (le_max_right _ _), _, Set.mem_Ici.mpr (le_max_right _ _), ?_,
    rarity_eq_max hdocs, rarity_eq_max (hdf.trans hdocs)⟩
  exact max_le_max_right 0 (Real.log_le_log (odds_real_pos hdocs) hodds)

variable {params : Bm25 Exact}

theorem score_rises (hvalid : params.validate = .ok ()) {few many : UInt32} (hpos : few ≠ 0)
    (hle : few.toNat ≤ many.toNat) {rare common docs : Nat} (hdf : rare ≤ common)
    (hdocs : common ≤ docs) {shorter longer : Nat} (hlength : shorter ≤ longer) (average : ℝ) :
    Exact.Rises (Set.Ici 0) (params.score few common docs longer (.real average))
      (params.score many rare docs shorter (.real average)) := by
  have hfrequency := (frequencyWeight_rises hvalid hpos hle hlength average).mono
    Set.Icc_subset_Ici_self
  have hquery : Exact.Rises (Set.Ici 0) params.queryWeight params.queryWeight := by
    rw [queryWeight_eq_one hvalid]
    exact Exact.rises_refl (Set.mem_Ici.mpr zero_le_one)
  exact ((rarity_rises hdf hdocs).mul hfrequency).mul hquery

theorem score_le_rarity (hvalid : params.validate = .ok ()) {frequency : UInt32}
    (hpos : frequency ≠ 0) {df docs : Nat} (hdf : df ≤ docs) (length : Nat) (average : ℝ) :
    Exact.Rises (Set.Ici 0) (params.score frequency df docs length (.real average))
      (rarity docs df) := by
  obtain ⟨r, hr, -, -, -, hrarity, -⟩ := rarity_rises (le_refl df) hdf
  obtain ⟨w, ⟨hw, hw'⟩, -, -, -, hweight, -⟩ :=
    frequencyWeight_rises hvalid hpos (le_refl _) (le_refl length) average
  refine ⟨r * w, mul_nonneg hr hw, r, hr, mul_le_of_le_one_right hr hw', ?_, hrarity⟩
  rw [score, hrarity, hweight, queryWeight_eq_one hvalid, Exact.mul_real, Exact.mul_real, mul_one]

theorem divisors_pos (hvalid : params.validate = .ok ()) {frequency : UInt32}
    (hpos : frequency ≠ 0) (df length : Nat) (average : ℝ) :
    ∀ divisor ∈ params.divisors frequency df length (.real average),
      Scalar.lt Scalar.zero divisor = true := by
  obtain ⟨⟨k1, hk1, hk1_nonneg⟩, -, k3, hk3, hk3_nonneg⟩ := validate_eq_ok hvalid
  obtain ⟨n, hn, -, -, -, hnorm, -⟩ := lengthNorm_rises hvalid (le_refl length) average
  have hfrequency : (0 : ℝ) < frequency.toNat := by
    rw [Nat.cast_pos, Nat.pos_iff_ne_zero]
    exact fun h => hpos (UInt32.toNat_inj.mp h)
  rw [divisors, hk1, hk3, hnorm, List.forall_mem_append, List.forall_mem_cons,
    List.forall_mem_cons, List.forall_mem_singleton, Exact.zero_eq]
  refine ⟨⟨(Exact.lt_real 0 _).mpr ?_, (Exact.lt_real 0 _).mpr ?_, (Exact.lt_real 0 _).mpr ?_⟩, ?_⟩
  · positivity
  · exact add_pos_of_pos_of_nonneg hfrequency (mul_nonneg hk1_nonneg hn)
  · rw [Nat.cast_one]
    positivity
  · split
    · exact List.forall_mem_singleton.mpr ‹_›
    · exact List.forall_mem_nil _

theorem wellBehaved (hvalid : params.validate = .ok ()) : params.WellBehaved where
  divisors_pos _ df length average hpos := divisors_pos hvalid hpos df length average
  odds_pos df docs hdf := by
    rw [odds_eq, Exact.zero_eq, Exact.lt_real]
    exact odds_real_pos hdf
  le_rarity _ _ _ length average hpos hdf := score_le_rarity hvalid hpos hdf length average
  rises_frequency _ _ _ _ _ average hpos hle hdf :=
    score_rises hvalid hpos hle (le_refl _) hdf (le_refl _) average
  falls_length _ _ _ _ _ average hpos hdf hlength :=
    score_rises hvalid hpos (le_refl _) (le_refl _) hdf hlength average
  falls_df _ _ _ _ _ average hpos hdf hdocs :=
    score_rises hvalid hpos (le_refl _) hdf hdocs (le_refl _) average

end Bm25

/-! ## Indri -/

namespace Indri

/-- How the probability of a term depends on its statistics in a field that has no fewer tokens
than the term has occurrences. -/
structure WellBehaved (params : Indri Exact) : Prop where
  inUnit : ∀ (frequency : UInt32) (likelihood : Exact) (length : Nat), likelihood.InUnit →
    frequency.toNat ≤ length → (params.probability frequency likelihood length).InUnit
  rises_frequency : ∀ (few many : UInt32) (likelihood : Exact) (length : Nat),
    likelihood.InUnit → few ≤ many → many.toNat ≤ length →
    Exact.Rises unitInterval (params.probability few likelihood length)
      (params.probability many likelihood length)
  falls_length : ∀ (frequency : UInt32) (likelihood : Exact) (shorter longer : Nat),
    likelihood.InUnit → frequency.toNat ≤ shorter → shorter ≤ longer →
    Exact.Rises unitInterval (params.probability frequency likelihood longer)
      (params.probability frequency likelihood shorter)
  rises_likelihood : ∀ (frequency : UInt32) (low high : Exact) (length : Nat),
    Exact.Rises unitInterval low high → frequency.toNat ≤ length →
    Exact.Rises unitInterval (params.probability frequency low length)
      (params.probability frequency high length)

theorem wellBehaved {params : Indri Exact} (hvalid : params.validate = .ok ()) :
    params.WellBehaved where
  inUnit _ _ _ hlikelihood hle := probability_inUnit hvalid hle hlikelihood
  rises_frequency few many _ length hlikelihood hle hmany := by
    obtain ⟨l, hl, rfl⟩ := hlikelihood
    exact probability_rises hvalid hle hmany (le_refl length) (Exact.rises_refl hl)
  falls_length frequency _ _ _ hlikelihood hle hlength := by
    obtain ⟨l, hl, rfl⟩ := hlikelihood
    exact probability_rises hvalid (le_refl _) hle hlength (Exact.rises_refl hl)
  rises_likelihood frequency _ _ length hlikelihood hle :=
    probability_rises hvalid (le_refl _) hle (le_refl length) hlikelihood

end Indri

/-- Parameters that pass validation make for scores that can be computed, are bounded, and move in
one direction with every statistic. -/
theorem wellBehaved_of_valid :
    (∀ params : Bm25 Exact, params.validate = .ok () → params.WellBehaved) ∧
      ∀ params : Indri Exact, params.validate = .ok () → params.WellBehaved :=
  ⟨fun _ => Bm25.wellBehaved, fun _ => Indri.wellBehaved⟩

/-- Nothing but the length is left of the norm, which is zero in an empty field. -/
noncomputable def Bm25.lengthOnly : Bm25 Exact := { k1 := .real 1, b := .real 1, k3 := .real 0 }

theorem Bm25.lengthOnly_valid : lengthOnly.validate = .ok () := by
  have hk1 : Scalar.isSize lengthOnly.k1 = true := Exact.isSize_iff.mpr ⟨1, rfl, zero_le_one⟩
  have hb : Scalar.isFraction lengthOnly.b = true :=
    Exact.isFraction_iff.mpr ⟨1, unitInterval.one_mem, rfl⟩
  have hk3 : Scalar.isSize lengthOnly.k3 = true := Exact.isSize_iff.mpr ⟨0, rfl, le_refl 0⟩
  rw [validate, hk1, hb, hk3]
  rfl

theorem wellBehaved_of_valid_empty_fields :
    Bm25.lengthOnly.validate = .ok () ∧ ScoreTree.bareParams.validate = .ok () ∧
      Exact.Rises (Set.Ici 0) (Bm25.lengthOnly.score 1 2 3 8 (.real 4))
        (Bm25.lengthOnly.score 1 2 3 0 (.real 4)) ∧
      Exact.Rises unitInterval (ScoreTree.bareParams.probability 0 (.real 0) 5)
        (ScoreTree.bareParams.probability 0 (.real 0) 0) := by
  have hbm25 := wellBehaved_of_valid.1 Bm25.lengthOnly Bm25.lengthOnly_valid
  have hindri := wellBehaved_of_valid.2 ScoreTree.bareParams ScoreTree.bareParams_valid
  exact ⟨Bm25.lengthOnly_valid, ScoreTree.bareParams_valid,
    hbm25.falls_length 1 2 3 0 8 4 (by decide) (by decide) (by decide),
    hindri.falls_length 0 (.real 0) 0 5 ⟨0, unitInterval.zero_mem, rfl⟩ (by decide) (by decide)⟩

end Retrieval
