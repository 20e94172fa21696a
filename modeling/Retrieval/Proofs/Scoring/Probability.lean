import Retrieval.Proofs.Exact
import Retrieval.Proofs.Query.WellFormed
import Retrieval.Proofs.Scoring.Scores
import Retrieval.Proofs.Search.OnePath
import Retrieval.Proofs.Source.Bounds

/-!
# Query likelihood gives probabilities

In exact arithmetic all scores under Indri lie between zero and one, wherever a traversal stands and
however the query is nested (`ScoreTree.probabilities_after_calls`). No division by zero is met on
the way, since it would leave its mark on the score.

Leaves are mixtures of two estimates, each a part of a whole: a query occurs no more often than its
field has tokens. The four combinators keep to the interval by themselves.
-/

set_option autoImplicit false

namespace Retrieval

/-! ## Leaves -/

theorem ListStats.likelihood_inUnit {index : Index} {list : PostingList}
    (hle : list.ctf.toNat ≤ (index.fieldTotals list.field).tokens) :
    (ofList index list : ListStats Exact).likelihood.InUnit := by
  rw [likelihood]
  split
  · exact Exact.inUnit_zero
  · rename_i hne
    refine ⟨(list.ctf.toNat : ℝ) / (index.fieldTotals list.field).tokens, ⟨by positivity, ?_⟩,
      Exact.div_real _ (Nat.cast_ne_zero.mpr hne)⟩
    exact div_le_one_of_le₀ (Nat.cast_le.mpr hle) (Nat.cast_nonneg _)

theorem Index.averageLength_real (index : Index) (field : String) :
    ∃ average : ℝ, (index.averageLength field : Exact) = .real average := by
  rw [averageLength]
  split
  · exact ⟨0, Exact.zero_eq⟩
  · exact ⟨_, Exact.div_real _ (Nat.cast_ne_zero.mpr ‹_›)⟩

namespace Indri

/-- Valid parameters are real numbers. -/
theorem validate_eq_ok {params : Indri Exact} (h : params.validate = .ok ()) :
    (∃ mu : ℝ, params.mu = .real mu ∧ 0 ≤ mu) ∧
      ∃ lambda ∈ unitInterval, params.lambda = .real lambda := by
  rw [validate] at h
  split at h
  · cases h
  · rename_i hmu
    split at h
    · cases h
    · rename_i hlambda
      rw [Bool.not_eq_true', Bool.not_eq_false, Exact.isSize_iff] at hmu
      rw [Bool.not_eq_true', Bool.not_eq_false, Exact.isFraction_iff] at hlambda
      obtain ⟨lambda, hunit, heq⟩ := hlambda
      exact ⟨hmu, lambda, hunit, heq⟩

/-- The prior counts as `mu` more tokens, of which the term has its share. -/
def dirichlet {α : Type} [Scalar α] (mu likelihood : α) (frequency length : Nat) : α :=
  if Scalar.lt Scalar.zero (Scalar.ofNat length + mu) then
    (Scalar.ofNat frequency + mu * likelihood) / (Scalar.ofNat length + mu)
  else Scalar.zero

theorem probability_eq {α : Type} [Scalar α] (params : Indri α) (frequency : UInt32)
    (likelihood : α) (length : Nat) :
    params.probability frequency likelihood length =
      (Scalar.one - params.lambda) * dirichlet params.mu likelihood frequency.toNat length +
        params.lambda * likelihood := rfl

/-- Where there are neither tokens nor a prior, the estimate is zero, as is a real number that is
divided by zero. -/
theorem dirichlet_real {mu : ℝ} (hmu : 0 ≤ mu) (l : ℝ) (frequency length : Nat) :
    dirichlet (.real mu) (.real l) frequency length =
      Exact.real ((frequency + mu * l) / (length + mu)) := by
  have htokens : Scalar.ofNat length + Exact.real mu = .real (length + mu) := rfl
  rw [dirichlet, htokens, Exact.zero_eq]
  split
  · rename_i hpos
    rw [Exact.lt_real] at hpos
    exact Exact.div_real _ hpos.ne'
  · rename_i hpos
    rw [Exact.lt_real, not_lt] at hpos
    have hnone : (length : ℝ) + mu = 0 := le_antisymm hpos (by positivity)
    rw [hnone, div_zero]

theorem dirichlet_inUnit {mu l : ℝ} (hmu : 0 ≤ mu) (hl : l ∈ unitInterval) {frequency length : Nat}
    (hle : frequency ≤ length) :
    (dirichlet (.real mu) (.real l) frequency length : Exact).InUnit := by
  have hcount : (frequency : ℝ) ≤ length := Nat.cast_le.mpr hle
  have hprior : mu * l ≤ mu := mul_le_of_le_one_right hmu hl.2
  have hprior' : 0 ≤ mu * l := mul_nonneg hmu hl.1
  refine ⟨_, ⟨by positivity, ?_⟩, dirichlet_real hmu l frequency length⟩
  exact div_le_one_of_le₀ (add_le_add hcount hprior) (by positivity)

theorem probability_inUnit {params : Indri Exact} (hvalid : params.validate = .ok ())
    {frequency : UInt32} {length : Nat} (hle : frequency.toNat ≤ length) {likelihood : Exact}
    (hlikelihood : likelihood.InUnit) :
    (params.probability frequency likelihood length).InUnit := by
  obtain ⟨⟨mu, hmu, hnonneg⟩, lambda, hlambda, heq⟩ := validate_eq_ok hvalid
  obtain ⟨l, hl, rfl⟩ := hlikelihood
  rw [probability_eq, hmu, heq]
  exact (dirichlet_inUnit hnonneg hl hle).mix ⟨l, hl, rfl⟩ hlambda

/-! ## Combinators -/

theorem combine_inUnit {op : Operator} {weights scores : List Exact}
    (hweights : Query.WeightsFormed op weights scores.length) (hne : scores ≠ [])
    (hscores : ∀ score ∈ scores, score.InUnit) {rule : MatchRule}
    (hrule : Indri.rule op = .ok rule) :
    ∃ score, combine op weights scores = .ok score ∧ score.InUnit := by
  have hlength : scores.length ≠ 0 := mt List.length_eq_zero_iff.mp hne
  cases op with
  | and => exact ⟨_, rfl, (Exact.inUnit_product hscores).root hlength⟩
  | or =>
    have hmissed : ∀ score ∈ scores.map (Scalar.one - ·), score.InUnit :=
      List.forall_mem_map.mpr fun score hs => (hscores score hs).complement
    exact ⟨_, rfl, (Exact.inUnit_product hmissed).complement⟩
  | sum => cases hrule
  | weightedAnd =>
    obtain ⟨hsizes, hsum⟩ := hweights.sizes rfl hlength
    exact ⟨_, rfl, Exact.inUnit_weightedProduct hsizes hsum hscores⟩
  | weightedSum =>
    obtain ⟨hsizes, hsum⟩ := hweights.sizes rfl hlength
    exact ⟨_, rfl, Exact.inUnit_weightedSum hsizes hsum hscores⟩

end Indri

/-! ## Plans -/

/-- What a plan scores on a document, and what it adds to the document without having it. -/
structure ScorePlan.InUnit (basis : ScoreBasis Exact) (doc : DocId) (plan : ScorePlan Exact) :
    Prop where
  defaultScore : ∃ score, plan.defaultScore basis doc = .ok score ∧ score.InUnit
  score : plan.has doc = true → ∃ score, plan.score basis doc = .ok score ∧ score.InUnit

theorem ScorePlan.InUnit.share {basis : ScoreBasis Exact} {doc : DocId} {plan : ScorePlan Exact}
    (h : plan.InUnit basis doc) : ∃ score, plan.share basis doc = .ok score ∧ score.InUnit := by
  rw [ScorePlan.share]
  split
  · exact h.score ‹_›
  · exact h.defaultScore

variable {index : Index} {documents : List Document} {params : Indri Exact}

/-- All weights are used whether the children add scores or defaults, so one fact on combining
serves both. -/
theorem ScorePlan.inUnit_combine {doc : DocId} {op : Operator} {weights : List Exact}
    {rule : MatchRule} {children : List (ScorePlan Exact)}
    (hweights : Query.WeightsFormed op weights children.length) (hrule : Indri.rule op = .ok rule)
    (hchildren : ∀ child ∈ children, child.InUnit { scorer := params.scorer, index } doc) :
    (combine op weights rule children).InUnit { scorer := params.scorer, index } doc where
  defaultScore := by
    obtain ⟨defaults, hdefaults, hlength, hunit⟩ :=
      exists_mapM_of_forall fun child hc => (hchildren child hc).defaultScore
    rw [ScorePlan.defaultScore, defaultScores_eq_mapM, hdefaults]
    split
    · exact ⟨_, rfl, Exact.inUnit_zero⟩
    · rename_i hsome
      have hne : defaults ≠ [] := by
        rintro rfl
        exact hsome (List.isEmpty_iff_length_eq_zero.mpr hlength.symm)
      exact Indri.combine_inUnit (hlength ▸ hweights) hne hunit hrule
  score hhas := by
    obtain ⟨shares, hshares, hlength, hunit⟩ :=
      exists_mapM_of_forall fun child hc => (hchildren child hc).share
    obtain ⟨child, hc, -⟩ := ((has_combine doc ..).mp hhas).exists_mem
    have hne : shares ≠ [] := by
      rintro rfl
      exact List.ne_nil_of_mem hc (List.length_eq_zero_iff.mp hlength.symm)
    rw [ScorePlan.score, sharesOf_eq_mapM, hshares]
    exact Indri.combine_inUnit (hlength ▸ hweights) hne hunit hrule

/-! ## Trees -/

namespace ScoreTree

theorem weightsFormed_of_built {α : Type} [Scalar α] [DecimalText α] {scorer : Scorer α}
    {index : Index} {op : Operator} {weights : List α} {args : List (Query α)} {tree : ScoreTree α}
    (h : ofQuery scorer index (.combine op weights args) = .ok tree) :
    Query.WeightsFormed op weights args.length := by
  rw [ofQuery, bind_eq_ok] at h
  obtain ⟨_, hvalid, -⟩ := h
  exact Query.validateWeights_eq_ok.mp hvalid

theorem leaf_inUnit (hr : index.Reflects documents) (hm : index.Measured documents)
    (hvalid : params.validate = .ok ()) {doc : DocId} (hdoc : doc.toNat < index.size)
    {query : Query Exact} {source : Source} (hs : Source.ofQuery index query = .ok source)
    {frequency : UInt32} (hle : frequency.toNat ≤ (source.list.places doc).length) :
    ∃ score, params.leaf index (ListStats.ofList index source.list) frequency doc = .ok score ∧
      score.InUnit := by
  obtain ⟨-, hplaces, hctf⟩ := Source.bounds_of_built hr hm hs
  simp only [Indri.leaf, ListStats.ofList, hm.lengthOf_eq hdoc]
  exact ⟨_, rfl, Indri.probability_inUnit hvalid (Nat.le_trans hle (hplaces doc))
    (ListStats.likelihood_inUnit hctf)⟩

theorem inUnit_of_built (hr : index.Reflects documents) (hm : index.Measured documents)
    (hvalid : params.validate = .ok ()) {doc : DocId} (hdoc : doc.toNat < index.size)
    {query : Query Exact} {tree : ScoreTree Exact}
    (hbuilt : ofQuery params.scorer index query = .ok tree) :
    tree.plan.InUnit { scorer := params.scorer, index } doc := by
  induction query using Query.leafInduction generalizing tree with
  | leaf query hq =>
    obtain ⟨source, hs, rfl⟩ := ofQuery_leaf hq hbuilt
    have hcount := (Source.places_of_built hr hs).1.toNat_frequencyOf doc
    exact ⟨leaf_inUnit hr hm hvalid hdoc hs (Nat.zero_le _),
      fun _ => leaf_inUnit hr hm hvalid hdoc hs hcount.le⟩
  | combine op weights args ih =>
    have hweights := weightsFormed_of_built hbuilt
    obtain ⟨rule, children, hrule, hchildren, rfl⟩ := ofQuery_combine hbuilt
    rw [hchildren.length_eq, ← List.length_map plan] at hweights
    rw [plan_ofChildren]
    refine ScorePlan.inUnit_combine hweights hrule (List.forall_mem_map.mpr fun child hc => ?_)
    obtain ⟨arg, harg, hquery⟩ := exists_of_forall₂ hchildren hc
    exact ih arg harg hquery

theorem statsOfAll_eq_flatMap {α : Type} (trees : List (ScoreTree α)) :
    statsOfAll trees = trees.flatMap stats := by
  induction trees with
  | nil => rfl
  | cons tree rest ih => rw [statsOfAll, ih, List.flatMap_cons]

theorem stats_real {query : Query Exact} {tree : ScoreTree Exact}
    (hbuilt : ofQuery params.scorer index query = .ok tree) :
    ∀ stats ∈ tree.stats, ∃ average : ℝ, stats.averageLength = .real average := by
  induction query using Query.leafInduction generalizing tree with
  | leaf query hq =>
    obtain ⟨source, -, rfl⟩ := ofQuery_leaf hq hbuilt
    rw [ofSource, stats, List.forall_mem_singleton]
    exact index.averageLength_real _
  | combine op weights args ih =>
    obtain ⟨rule, children, -, hchildren, rfl⟩ := ofQuery_combine hbuilt
    rw [ofChildren, stats, statsOfAll_eq_flatMap]
    intro stats hstats
    obtain ⟨child, hc, hm⟩ := List.mem_flatMap.mp hstats
    obtain ⟨arg, harg, hquery⟩ := exists_of_forall₂ hchildren hc
    exact ih arg harg hquery stats hm

/-- Under Indri, with valid parameters and in exact arithmetic: wherever calls have led a built
tree, its default score of every document of the index is a number between zero and one, and so is
its score where it has a match. -/
theorem probabilities_after_calls (hb : index.BuiltOf documents)
    (hn : documents.length < UInt32.size) (hvalid : params.validate = .ok ())
    {query : Query Exact} {tree : ScoreTree Exact}
    (hbuilt : ofQuery params.scorer index query = .ok tree) (calls : List CursorCall) :
    let basis : ScoreBasis Exact := { scorer := params.scorer, index }
    let reached := cursor.run calls tree
    (∀ doc : DocId, doc.toNat < documents.length →
      ∃ s : ℝ, reached.defaultScore basis doc = .ok (.real s) ∧ 0 ≤ s ∧ s ≤ 1) ∧
      (reached.settle.1 = true → ∃ (doc : DocId) (s : ℝ),
        reached.settle.2.doc? = some doc ∧ doc.toNat < documents.length ∧
          reached.settle.2.score basis = .ok (.real s) ∧ 0 ≤ s ∧ s ≤ 1) ∧
      ∀ stats ∈ tree.stats, ∃ average : ℝ, stats.averageLength = .real average := by
  intro basis reached
  have hr := hb.reflects hn
  have hm := hb.measured hn
  have hfresh : tree.Fresh := fresh_of_built hr.ordered hbuilt
  have hjoined : tree.plan.Joined := joined_of_built (params.total index).rule_ne_first hbuilt
  refine ⟨fun doc hdoc => ?_, fun hfound => ?_, stats_real hbuilt⟩
  · obtain ⟨score, hscore, s, hs, rfl⟩ :=
      (inUnit_of_built hr hm hvalid (hr.size_eq ▸ hdoc) hbuilt).defaultScore
    exact ⟨s, (defaultScore_run basis calls tree doc).trans hscore, hs⟩
  · have hsound : reached.Sound := cursor_lawful.sound_run calls hfresh.sound
    rw [show reached.settle.1 = _ from cursor_lawful.found_iff reached hsound] at hfound
    obtain ⟨doc, hdoc⟩ := Option.isSome_iff_exists.mp hfound
    obtain ⟨hhas, hrun⟩ := hfresh.score_run basis hjoined calls hdoc
    have hlt : doc.toNat < basis.index.size := lt_size_of_has hr hbuilt hhas
    obtain ⟨score, hscore, s, hs, rfl⟩ := (inUnit_of_built hr hm hvalid hlt hbuilt).score hhas
    exact ⟨doc, s, hdoc, hr.size_eq ▸ hlt, hrun.trans hscore, hs⟩

/-- No prior, so that empty fields have no denominator. -/
noncomputable def bareParams : Indri Exact := { mu := .real 0, lambda := .real 1 }

noncomputable def bareBasis : ScoreBasis Exact :=
  { scorer := bareParams.scorer, index := Index.sample }

/-- The second argument has no documents and weighs nothing. -/
noncomputable def unevenQuery : Query Exact :=
  .combine .weightedSum [.real 1, .real 0] [.term "body" "red", .and [.or []]]

noncomputable def unevenTree : ScoreTree Exact :=
  .ofChildren .weightedSum [.real 1, .real 0] .min
    [.ofSource Index.sample (Source.ofTerm Index.sample "body" "red"),
      .ofChildren .and [] .min [.ofChildren .or [] .min []]]

theorem bareParams_valid : bareParams.validate = .ok () := by
  have hmu : Scalar.isSize bareParams.mu = true := Exact.isSize_iff.mpr ⟨0, rfl, le_refl 0⟩
  have hlambda : Scalar.isFraction bareParams.lambda = true :=
    Exact.isFraction_iff.mpr ⟨1, unitInterval.one_mem, rfl⟩
  rw [Indri.validate, hmu, hlambda]
  rfl

theorem unevenQuery_valid : unevenQuery.validate = .ok () := by
  have hsum : Scalar.sum [Exact.real 1, Exact.real 0] = .real 1 :=
    (Exact.sum_real [1, 0]).trans (by norm_num)
  refine Query.validateWeights_eq_ok.mpr ⟨rfl, fun weight hw => ?_, fun _ => ?_⟩
  · have hsize : Scalar.isSize weight = true := by
      rw [Exact.isSize_iff]
      rcases List.mem_cons.mp hw with rfl | hrest
      · exact ⟨1, rfl, zero_le_one⟩
      · exact ⟨0, List.mem_singleton.mp hrest, le_refl 0⟩
    simpa [Scalar.isSize] using hsize
  · rw [hsum, Exact.zero_eq, ← Bool.not_eq_true, Exact.le_real]
    norm_num

theorem ofQuery_unevenQuery :
    ofQuery bareBasis.scorer bareBasis.index unevenQuery = .ok unevenTree := by
  have hweights := unevenQuery_valid
  rw [unevenQuery] at hweights ⊢
  rw [ofQuery, hweights]
  rfl

theorem unevenTree_found : unevenTree.settle.1 = true := by
  have hr := Index.builtOf_sample.reflects (by decide)
  have hposted : (0 : DocId) ∈ (Index.sample.postings "body" "red").docs := by
    rw [(hr.faithful "body" "red").mem_docs_iff, hr.places_eq]
    decide
  have hfresh : unevenTree.Fresh := fresh_of_built hr.ordered ofQuery_unevenQuery
  have hhas : unevenTree.plan.has 0 = true :=
    (has_iff_scored (bareParams.follows Index.sample).rule_eq ofQuery_unevenQuery 0).mpr
      ⟨.term "body" "red", List.mem_cons_self .., Source.ofTerm Index.sample "body" "red", rfl,
        hposted⟩
  have hfirst := cursor_lawful.first_doc unevenTree hfresh.sound
  rw [show unevenTree.settle.1 = _ from cursor_lawful.found_iff unevenTree hfresh.sound,
    hfirst.isSome_iff]
  exact ⟨0, (hfresh.expects_eq 0).mpr hhas⟩

theorem probabilities_after_calls_uneven :
    ofQuery bareBasis.scorer bareBasis.index unevenQuery = .ok unevenTree ∧
      unevenTree.settle.1 = true ∧
        ∃ s : ℝ, unevenTree.settle.2.score bareBasis = .ok (.real s) ∧ 0 ≤ s ∧ s ≤ 1 := by
  obtain ⟨-, hscore, -⟩ := probabilities_after_calls Index.builtOf_sample (by decide)
    bareParams_valid ofQuery_unevenQuery []
  obtain ⟨doc, s, -, -, hs, hunit⟩ := hscore unevenTree_found
  exact ⟨ofQuery_unevenQuery, unevenTree_found, s, hs, hunit⟩

end ScoreTree

end Retrieval
