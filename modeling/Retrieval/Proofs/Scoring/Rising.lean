import Retrieval.Proofs.Exact.Order
import Retrieval.Proofs.Scoring.Probability

/-!
# What a match adds

Under each of the models a leaf scores a posting no lower than a document without one, and a
combinator no lower on greater scores of its arguments (`Scorer.Rising`, `Model.rising`). Scores are
real numbers and not negative; under Indri, whose disjunction rises with its arguments between zero
and one only, they also stay below one.
-/

set_option autoImplicit false

namespace Retrieval

/-- Two outcomes that are numbers of a range, the first no greater than the second. -/
def RisesTo (range : Set ℝ) (low high : Except Fault Exact) : Prop :=
  ∃ x y, low = .ok x ∧ high = .ok y ∧ Exact.Rises range x y

theorem RisesTo.left {range : Set ℝ} {low high : Except Fault Exact} (h : RisesTo range low high) :
    RisesTo range low low := by
  obtain ⟨x, y, hx, -, hrise⟩ := h
  exact ⟨x, x, hx, hx, hrise.left⟩

/-- `leaf` and `defaultLeaf` are about a list of the index and a document with a length, and
`combine` about a combinator with arguments that the scorer has a rule for. -/
structure Scorer.Rising (scorer : Scorer Exact) (index : Index) (range : Set ℝ) : Prop where
  nonneg : range ⊆ Set.Ici 0
  zero_mem : 0 ∈ range
  defaultLeaf : ∀ (list : PostingList) (doc : DocId) (length : Nat),
    list.ctf.toNat ≤ (index.fieldTotals list.field).tokens →
    index.lengthOf list.field doc = .ok length →
    RisesTo range (scorer.defaultLeaf index (.ofList index list) doc)
      (scorer.defaultLeaf index (.ofList index list) doc)
  leaf : ∀ (list : PostingList) (doc : DocId) (length : Nat) (frequency : UInt32),
    list.ctf.toNat ≤ (index.fieldTotals list.field).tokens →
    index.lengthOf list.field doc = .ok length → frequency ≠ 0 → frequency.toNat ≤ length →
    RisesTo range (scorer.defaultLeaf index (.ofList index list) doc)
      (scorer.leaf index (.ofList index list) frequency doc)
  combine : ∀ op rule weights lows highs, scorer.rule op = .ok rule →
    Query.WeightsFormed op weights highs.length → highs ≠ [] →
    List.Forall₂ (Exact.Rises range) lows highs →
    RisesTo range (scorer.combineDefault op weights lows) (scorer.combine op weights highs)

theorem RisesTo.of_zero {low high : Except Fault Exact} (hlow : low = .ok Scalar.zero)
    (hhigh : ∃ b : ℝ, high = .ok (.real b) ∧ 0 ≤ b) : RisesTo (Set.Ici 0) low high := by
  obtain ⟨b, hhigh, hb⟩ := hhigh
  exact ⟨_, _, hlow, hhigh, Exact.rises_zero hb⟩

/-- Where documents without a posting score zero, it is enough that postings score no less. -/
theorem Scorer.rising_of_zero {scorer : Scorer Exact} {index : Index}
    (hdefault : ∀ stats doc, scorer.defaultLeaf index stats doc = .ok Scalar.zero)
    (hleaf : ∀ (list : PostingList) (doc : DocId) (length : Nat) (frequency : UInt32),
      index.lengthOf list.field doc = .ok length → frequency ≠ 0 →
      ∃ b : ℝ, scorer.leaf index (.ofList index list) frequency doc = .ok (.real b) ∧ 0 ≤ b)
    (hcombine : ∀ op rule weights lows highs, scorer.rule op = .ok rule →
      Query.WeightsFormed op weights highs.length → highs ≠ [] →
      List.Forall₂ (Exact.Rises (Set.Ici 0)) lows highs →
      RisesTo (Set.Ici 0) (scorer.combineDefault op weights lows)
        (scorer.combine op weights highs)) :
    scorer.Rising index (Set.Ici 0) where
  nonneg := subset_rfl
  zero_mem := Set.mem_Ici.mpr (le_refl 0)
  defaultLeaf _ doc _ _ _ :=
    .of_zero (hdefault _ doc) ⟨0, (hdefault _ doc).trans (congrArg _ Exact.zero_eq), le_refl 0⟩
  leaf list doc length frequency _ hlength hpos _ :=
    .of_zero (hdefault _ doc) (hleaf list doc length frequency hlength hpos)
  combine := hcombine

/-! ## Boolean models -/

namespace Boolean

/-- Folds that give back one of two numbers give back one of all. -/
theorem foldl_mem {f : Exact → Exact → Exact} (hf : ∀ x y, f x y = x ∨ f x y = y)
    (start : Exact) (scores : List Exact) : scores.foldl f start ∈ start :: scores := by
  refine List.foldlRecOn scores f (List.mem_cons_self ..) fun reached hr score hs => ?_
  rcases hf reached score with h | h
  · rw [h]
    exact hr
  · rw [h]
    exact List.mem_cons_of_mem _ hs

/-- How `Scalar.larger` and `Scalar.smaller` choose. -/
theorem choice_eq (number later : Bool) (x y : Exact) :
    (if number then if later then y else x else y) = x ∨
      (if number then if later then y else x else y) = y := by
  split
  · exact (ite_eq_or_eq ..).symm
  · exact .inr rfl

theorem rankedCombine_mem {model : String} {op : Operator} {rule : MatchRule}
    (hrule : Boolean.rule model op = .ok rule) (scores : List Exact) :
    ∃ score ∈ Scalar.zero :: scores, rankedCombine model op scores = .ok score := by
  cases op with
  | and =>
    refine ⟨conjunction scores, ?_, rfl⟩
    cases scores with
    | nil => exact List.mem_singleton_self _
    | cons score rest =>
      exact List.mem_cons_of_mem _ (foldl_mem (fun x y => choice_eq _ _ x y) score rest)
  | or => exact ⟨disjunction scores, foldl_mem (fun x y => choice_eq _ _ x y) _ scores, rfl⟩
  | sum => cases hrule
  | weightedSum => cases hrule
  | weightedAnd => cases hrule

theorem unranked_rising (index : Index) : Boolean.unranked.Rising index (Set.Ici 0) := by
  refine Scorer.rising_of_zero (fun _ _ => rfl) (fun _ _ _ _ _ _ => ?_)
    fun op rule weights lows highs hrule _ _ _ => ?_
  · exact ⟨1, congrArg _ Exact.one_eq, zero_le_one⟩
  · refine .of_zero (map_eq_ok.mpr ⟨rule, hrule, rfl⟩) ?_
    exact ⟨1, map_eq_ok.mpr ⟨rule, hrule, Exact.one_eq⟩, zero_le_one⟩

theorem ranked_rising (index : Index) : Boolean.ranked.Rising index (Set.Ici 0) := by
  refine Scorer.rising_of_zero (fun _ _ => rfl) (fun _ _ _ frequency _ _ => ?_)
    fun op rule weights lows highs hrule _ _ hrise => ?_
  · exact ⟨frequency.toNat, rfl, Nat.cast_nonneg _⟩
  · refine .of_zero (map_eq_ok.mpr ⟨rule, hrule, rfl⟩) ?_
    obtain ⟨score, hmem, hscore⟩ := rankedCombine_mem hrule highs
    rcases List.mem_cons.mp hmem with rfl | hmem
    · exact ⟨0, hscore.trans (congrArg _ Exact.zero_eq), le_refl 0⟩
    · obtain ⟨-, -, -, -, b, hb, -, -, rfl⟩ := exists_of_forall₂ hrise hmem
      exact ⟨b, hscore, hb⟩

end Boolean

/-! ## BM25 -/

namespace Bm25

theorem validate_eq_ok {params : Bm25 Exact} (h : params.validate = .ok ()) :
    (∃ k1 : ℝ, params.k1 = .real k1 ∧ 0 ≤ k1) ∧ params.b.InUnit ∧
      ∃ k3 : ℝ, params.k3 = .real k3 ∧ 0 ≤ k3 := by
  rw [validate] at h
  split at h
  · cases h
  · rename_i hk1
    split at h
    · cases h
    · rename_i hb
      split at h
      · cases h
      · rename_i hk3
        rw [Bool.not_eq_true', Bool.not_eq_false] at hk1 hb hk3
        exact ⟨Exact.isSize_iff.mp hk1, Exact.isFraction_iff.mp hb, Exact.isSize_iff.mp hk3⟩

/-- A logarithm that does not exist gives way to zero. -/
theorem rarity_nonneg (docs df : Nat) :
    ∃ r : ℝ, (rarity docs df : Exact) = .real r ∧ 0 ≤ r := by
  rw [rarity]
  generalize Scalar.log (_ : Exact) = weight
  cases weight with
  | undefined => exact ⟨0, Exact.zero_eq, le_refl 0⟩
  | real w =>
    have hnumber : Scalar.isNumber (Exact.real w) = true := (Exact.le_real w w).mpr (le_refl w)
    rw [Scalar.larger, if_pos hnumber, Exact.zero_eq]
    split
    · exact ⟨0, rfl, le_refl 0⟩
    · rename_i hle
      rw [Exact.lt_real, not_lt] at hle
      exact ⟨w, rfl, hle⟩

variable {params : Bm25 Exact}

/-- How a field length counts against a frequency. -/
def lengthNorm {α : Type} [Scalar α] (params : Bm25 α) (length : Nat) (average : α) : α :=
  (Scalar.one - params.b) + params.b *
    (if Scalar.lt Scalar.zero average then Scalar.ofNat length / average else Scalar.one)

theorem frequencyWeight_eq {α : Type} [Scalar α] (params : Bm25 α) (frequency : UInt32)
    (length : Nat) (average : α) :
    params.frequencyWeight frequency length average =
      Scalar.ofNat frequency.toNat /
        (Scalar.ofNat frequency.toNat + params.k1 * params.lengthNorm length average) := rfl

theorem lengthNorm_rises (hvalid : params.validate = .ok ()) {shorter longer : Nat}
    (hle : shorter ≤ longer) (average : ℝ) :
    Exact.Rises (Set.Ici 0) (params.lengthNorm shorter (.real average))
      (params.lengthNorm longer (.real average)) := by
  obtain ⟨-, ⟨b, ⟨hb, hb'⟩, heq⟩, -⟩ := validate_eq_ok hvalid
  have hratio : Exact.Rises (Set.Ici 0)
      (if Scalar.lt Scalar.zero (Exact.real average) then
        Scalar.ofNat shorter / Exact.real average else .real 1)
      (if Scalar.lt Scalar.zero (Exact.real average) then
        Scalar.ofNat longer / Exact.real average else .real 1) := by
    split
    · rename_i hpos
      rw [Exact.zero_eq, Exact.lt_real] at hpos
      have hlow : (0 : ℝ) ≤ shorter / average := by positivity
      have hhigh : (0 : ℝ) ≤ longer / average := by positivity
      exact ⟨_, hlow, _, hhigh, div_le_div_of_nonneg_right (Nat.cast_le.mpr hle) hpos.le,
        Exact.div_real _ hpos.ne', Exact.div_real _ hpos.ne'⟩
    · exact Exact.rises_refl (Set.mem_Ici.mpr zero_le_one)
  have hrest : Exact.Rises (Set.Ici 0) (.real (1 - b)) (.real (1 - b)) :=
    Exact.rises_refl (sub_nonneg.mpr hb')
  rw [lengthNorm, lengthNorm, heq, Exact.one_eq, Exact.sub_real]
  exact hrest.add (hratio.scale hb)

/-- The weight of a frequency rises with the frequency and falls with the length. It is a part of
one, since what is divided by has the frequency as a term. -/
theorem frequencyWeight_rises (hvalid : params.validate = .ok ()) {few many : UInt32}
    (hpos : few ≠ 0) (hle : few.toNat ≤ many.toNat) {shorter longer : Nat}
    (hlength : shorter ≤ longer) (average : ℝ) :
    Exact.Rises unitInterval (params.frequencyWeight few longer (.real average))
      (params.frequencyWeight many shorter (.real average)) := by
  obtain ⟨⟨k1, hk1, hnonneg⟩, -, -⟩ := validate_eq_ok hvalid
  obtain ⟨n, hn, n', hn', hnorm, hshorter, hlonger⟩ := lengthNorm_rises hvalid hlength average
  have hfew : (0 : ℝ) < few.toNat := by
    rw [Nat.cast_pos, Nat.pos_iff_ne_zero]
    exact fun h => hpos (UInt32.toNat_inj.mp h)
  have hcount : (few.toNat : ℝ) ≤ many.toNat := Nat.cast_le.mpr hle
  have hmany : (0 : ℝ) < many.toNat := hfew.trans_le hcount
  have hnear : 0 ≤ k1 * n := mul_nonneg hnonneg hn
  have hfar : 0 ≤ k1 * n' := mul_nonneg hnonneg hn'
  have hcross : few.toNat * (k1 * n) ≤ many.toNat * (k1 * n') :=
    mul_le_mul hcount (mul_le_mul_of_nonneg_left hnorm hnonneg) hnear hmany.le
  refine ⟨few.toNat / (few.toNat + k1 * n'), ⟨by positivity, ?_⟩,
    many.toNat / (many.toNat + k1 * n), ⟨by positivity, ?_⟩, ?_, ?_, ?_⟩
  · exact div_le_one_of_le₀ (le_add_of_nonneg_right hfar) (by positivity)
  · exact div_le_one_of_le₀ (le_add_of_nonneg_right hnear) (by positivity)
  · rw [div_le_div_iff₀ (by positivity) (by positivity)]
    linarith
  · rw [frequencyWeight_eq, hk1, hlonger]
    exact Exact.div_real _ (add_pos_of_pos_of_nonneg hfew hfar).ne'
  · rw [frequencyWeight_eq, hk1, hshorter]
    exact Exact.div_real _ (add_pos_of_pos_of_nonneg hmany hnear).ne'

/-- A term that occurs once in the query is not saturated, whatever `k3` is. -/
theorem queryWeight_eq_one (hvalid : params.validate = .ok ()) : params.queryWeight = .real 1 := by
  obtain ⟨-, -, k3, hk3, hnonneg⟩ := validate_eq_ok hvalid
  have hpos : 0 < k3 + 1 := by positivity
  rw [queryWeight, hk3, Exact.one_eq, Exact.add_real, Exact.mul_real, mul_one,
    Exact.div_real _ hpos.ne', div_self hpos.ne']

theorem score_nonneg (hvalid : params.validate = .ok ()) {frequency : UInt32}
    (hpos : frequency ≠ 0) (df docs length : Nat) {average : Exact}
    (haverage : ∃ a, average = .real a) :
    ∃ r : ℝ, params.score frequency df docs length average = .real r ∧ 0 ≤ r := by
  obtain ⟨r, hr, hr'⟩ := rarity_nonneg docs df
  obtain ⟨a, rfl⟩ := haverage
  obtain ⟨s, hs, -, -, -, hs', -⟩ :=
    frequencyWeight_rises hvalid hpos (le_refl _) (le_refl length) a
  refine ⟨r * s * 1, ?_, mul_nonneg (mul_nonneg hr' hs.1) zero_le_one⟩
  rw [score, hr, hs', queryWeight_eq_one hvalid, Exact.mul_real, Exact.mul_real]

theorem rising (hvalid : params.validate = .ok ()) (index : Index) :
    params.scorer.Rising index (Set.Ici 0) := by
  refine Scorer.rising_of_zero (fun _ _ => rfl) (fun list doc length frequency hlength hpos => ?_)
    fun op rule weights lows highs hrule hweights hne hrise => ?_
  · obtain ⟨r, hr, hnonneg⟩ := score_nonneg hvalid hpos list.df index.size length
      (index.averageLength_real list.field)
    refine ⟨r, ?_, hnonneg⟩
    simp only [scorer, ListStats.ofList, hlength]
    exact congrArg _ hr
  · cases op with
    | sum => exact ⟨_, _, rfl, rfl, Exact.rises_sum hrise⟩
    | weightedSum =>
      obtain ⟨hsizes, hsum⟩ := hweights.sizes rfl (mt List.length_eq_zero_iff.mp hne)
      exact ⟨_, _, rfl, rfl, Exact.rises_weightedSum hsizes hsum hrise⟩
    | and => cases hrule
    | or => cases hrule
    | weightedAnd => cases hrule

end Bm25

/-! ## Indri -/

namespace Indri

variable {params : Indri Exact}

/-- The estimate rises with the frequency and with the likelihood and falls with the length. -/
theorem dirichlet_rises {mu l l' : ℝ} (hmu : 0 ≤ mu) (hl : 0 ≤ l) (hll : l ≤ l')
    {few many shorter longer : Nat} (hle : few ≤ many) (hmany : many ≤ shorter)
    (hlength : shorter ≤ longer) :
    Exact.Rises (Set.Ici 0) (dirichlet (.real mu) (.real l) few longer)
      (dirichlet (.real mu) (.real l') many shorter) := by
  have hl' : 0 ≤ l' := hl.trans hll
  have hlow : 0 ≤ ((few : ℝ) + mu * l) / (longer + mu) := by positivity
  have hhigh : 0 ≤ ((many : ℝ) + mu * l') / (shorter + mu) := by positivity
  refine ⟨_, hlow, _, hhigh, ?_, dirichlet_real hmu l few longer, dirichlet_real hmu l' many shorter⟩
  rcases (show (0 : ℝ) ≤ shorter + mu by positivity).lt_or_eq with hpos | hnone
  · have hterms : (few : ℝ) + mu * l ≤ many + mu * l' :=
      add_le_add (Nat.cast_le.mpr hle) (mul_le_mul_of_nonneg_left hll hmu)
    have htokens : (shorter : ℝ) + mu ≤ longer + mu :=
      add_le_add_left (Nat.cast_le.mpr hlength) mu
    exact div_le_div₀ (by positivity) hterms hpos htokens
  · -- no tokens and no prior, so the other field has no occurrence either
    have hshorter : (0 : ℝ) ≤ shorter := Nat.cast_nonneg shorter
    have hempty : shorter = 0 := Nat.cast_eq_zero.mp (show (shorter : ℝ) = 0 by linarith)
    have hfew : few = 0 := by omega
    have hprior : mu = 0 := by linarith
    rw [hfew, hprior, Nat.cast_zero, zero_mul, add_zero, zero_div]
    exact hprior ▸ hhigh

/-- Smoothing takes the same part of each estimate, so it keeps their order. -/
theorem probability_rises (hvalid : params.validate = .ok ()) {few many : UInt32}
    (hle : few.toNat ≤ many.toNat) {shorter longer : Nat} (hmany : many.toNat ≤ shorter)
    (hlength : shorter ≤ longer) {likelihood likelihood' : Exact}
    (hlikelihood : Exact.Rises unitInterval likelihood likelihood') :
    Exact.Rises unitInterval (params.probability few likelihood longer)
      (params.probability many likelihood' shorter) := by
  obtain ⟨hlow, hhigh, l, hl, l', hl', hll, rfl, rfl⟩ := Exact.rises_unit_iff.mp hlikelihood
  refine Exact.rises_unit_iff.mpr ⟨probability_inUnit hvalid (by omega) hlow,
    probability_inUnit hvalid hmany hhigh, ?_⟩
  obtain ⟨⟨mu, hmu, hnonneg⟩, lambda, ⟨hlambda, hlambda'⟩, heq⟩ := validate_eq_ok hvalid
  have hmixed : Exact.Rises (Set.Ici 0) (.real l) (.real l') := ⟨l, hl, l', hl', hll, rfl, rfl⟩
  rw [probability_eq, probability_eq, hmu, heq, Exact.one_eq, Exact.sub_real]
  exact ((dirichlet_rises hnonneg hl hll hle hmany hlength).scale (sub_nonneg.mpr hlambda')).add
    (hmixed.scale hlambda)

theorem combine_rises {op : Operator} {rule : MatchRule} {weights lows highs : List Exact}
    (hrule : Indri.rule op = .ok rule) (hweights : Query.WeightsFormed op weights highs.length)
    (hne : highs ≠ []) (hrise : List.Forall₂ (Exact.Rises unitInterval) lows highs) :
    RisesTo unitInterval (combine op weights lows) (combine op weights highs) := by
  have hlength : highs.length ≠ 0 := mt List.length_eq_zero_iff.mp hne
  have hne' : lows ≠ [] := by
    rintro rfl
    exact hlength hrise.length_eq.symm
  have habove := Exact.nonneg_of_rises hrise
  obtain ⟨hlows, hhighs⟩ := Exact.inUnit_of_rises hrise
  obtain ⟨x, hx, hx_unit⟩ := combine_inUnit (hrise.length_eq ▸ hweights) hne' hlows hrule
  obtain ⟨y, hy, hy_unit⟩ := combine_inUnit hweights hne hhighs hrule
  refine ⟨x, y, hx, hy, Exact.rises_unit_iff.mpr ⟨hx_unit, hy_unit, ?_⟩⟩
  cases op with
  | and =>
    cases hx
    cases hy
    rw [hrise.length_eq]
    exact (Exact.rises_product habove).root hlength
  | or =>
    cases hx
    cases hy
    have hmissed : List.Forall₂ (Exact.Rises unitInterval) (highs.map (Scalar.one - ·))
        (lows.map (Scalar.one - ·)) := by
      rw [List.forall₂_map_left_iff, List.forall₂_map_right_iff]
      exact hrise.flip.imp fun _ _ => Exact.Rises.complement
    exact (Exact.rises_product_unit hmissed).complement.mono Set.Icc_subset_Ici_self
  | sum => cases hrule
  | weightedAnd =>
    cases hx
    cases hy
    obtain ⟨hsizes, hsum⟩ := hweights.sizes rfl hlength
    exact Exact.rises_weightedProduct hsizes hsum habove
  | weightedSum =>
    cases hx
    cases hy
    obtain ⟨hsizes, hsum⟩ := hweights.sizes rfl hlength
    exact Exact.rises_weightedSum hsizes hsum habove

theorem leaf_rises (hvalid : params.validate = .ok ()) {index : Index} {list : PostingList}
    {doc : DocId} {length : Nat} (hctf : list.ctf.toNat ≤ (index.fieldTotals list.field).tokens)
    (hlength : index.lengthOf list.field doc = .ok length) {few many : UInt32}
    (hle : few.toNat ≤ many.toNat) (hmany : many.toNat ≤ length) :
    RisesTo unitInterval (params.leaf index (.ofList index list) few doc)
      (params.leaf index (.ofList index list) many doc) := by
  obtain ⟨l, hl, heq⟩ := ListStats.likelihood_inUnit hctf
  have hlikelihood := Exact.rises_refl hl
  rw [← heq] at hlikelihood
  simp only [leaf, ListStats.ofList, hlength]
  exact ⟨_, _, rfl, rfl,
    probability_rises hvalid hle hmany (le_refl length) hlikelihood⟩

theorem rising (hvalid : params.validate = .ok ()) (index : Index) :
    params.scorer.Rising index unitInterval where
  nonneg := Set.Icc_subset_Ici_self
  zero_mem := unitInterval.zero_mem
  defaultLeaf _ _ _ hctf hlength :=
    leaf_rises hvalid hctf hlength (Nat.le_refl _) (Nat.zero_le _)
  leaf _ _ _ _ hctf hlength _ hle := leaf_rises hvalid hctf hlength (Nat.zero_le _) hle
  combine _ _ _ _ _ := combine_rises

end Indri

theorem Model.rising {model : Model Exact} {scorer : Scorer Exact}
    (hs : model.scorer = .ok scorer) (index : Index) : ∃ range, scorer.Rising index range := by
  cases model with
  | unrankedBoolean =>
    cases hs
    exact ⟨_, Boolean.unranked_rising index⟩
  | rankedBoolean =>
    cases hs
    exact ⟨_, Boolean.ranked_rising index⟩
  | bm25 params =>
    obtain ⟨_, hvalid, rfl⟩ := map_eq_ok.mp hs
    exact ⟨_, Bm25.rising hvalid index⟩
  | indri params =>
    obtain ⟨_, hvalid, rfl⟩ := map_eq_ok.mp hs
    exact ⟨_, Indri.rising hvalid index⟩

end Retrieval
