import Retrieval.Proofs.Query.Reweighed
import Retrieval.Proofs.Scoring.Drain
import Retrieval.Proofs.Scoring.Probability
import Retrieval.Proofs.Search.Faults

/-!
# Only ratios of weights count

In exact arithmetic, under BM25 and Indri, a reweighed query has the documents, the scores and the
default scores that it had before (`ScoreTree.reweighed_after_calls`). Combinators take shares of
the weights, and equal shares of a product are roots of it, provided that the scores are not
negative; under query likelihood they are probabilities.

What changes at one node is followed to the root by comparing plans (`ScorePlan.Agree`).
-/

set_option autoImplicit false

namespace Retrieval

variable {α : Type} [Scalar α]

namespace ScorePlan

/-- Two plans with the same documents and the same scores. -/
structure Agree (basis : ScoreBasis α) (plan plan' : ScorePlan α) : Prop where
  has_eq : ∀ doc, plan'.has doc = plan.has doc
  score_eq : ∀ doc, plan'.score basis doc = plan.score basis doc
  defaultScore_eq : ∀ doc, plan'.defaultScore basis doc = plan.defaultScore basis doc

variable {basis : ScoreBasis α} {plan plan' plan'' : ScorePlan α}

theorem Agree.refl (plan : ScorePlan α) : plan.Agree basis plan :=
  ⟨fun _ => rfl, fun _ => rfl, fun _ => rfl⟩

theorem Agree.trans (h : plan.Agree basis plan') (h' : plan'.Agree basis plan'') :
    plan.Agree basis plan'' where
  has_eq doc := (h'.has_eq doc).trans (h.has_eq doc)
  score_eq doc := (h'.score_eq doc).trans (h.score_eq doc)
  defaultScore_eq doc := (h'.defaultScore_eq doc).trans (h.defaultScore_eq doc)

theorem Agree.share_eq (h : plan.Agree basis plan') (doc : DocId) :
    plan'.share basis doc = plan.share basis doc := by
  rw [share, share, h.has_eq, h.score_eq, h.defaultScore_eq]

theorem Agree.inCombine (op : Operator) (weights : List α) (rule : MatchRule)
    {children children' : List (ScorePlan α)} (h : List.Forall₂ (Agree basis) children children') :
    (combine op weights rule children).Agree basis (combine op weights rule children') where
  has_eq doc := by
    rw [has, has, eachHas_eq_map, eachHas_eq_map]
    exact congrArg rule.holds (map_eq_map_of_forall₂ (h.imp fun _ _ hc => (hc.has_eq doc).symm)).symm
  score_eq doc := by
    rw [score, score, sharesOf_eq_mapM, sharesOf_eq_mapM,
      mapM_eq_mapM_of_forall₂ (h.imp fun _ _ hc => (hc.share_eq doc).symm)]
  defaultScore_eq doc := by
    have hempty : children'.isEmpty = children.isEmpty := by
      rw [Bool.eq_iff_iff, List.isEmpty_iff_length_eq_zero, List.isEmpty_iff_length_eq_zero,
        h.length_eq]
    rw [defaultScore, defaultScore, defaultScores_eq_mapM, defaultScores_eq_mapM, hempty,
      mapM_eq_mapM_of_forall₂ (h.imp fun _ _ hc => (hc.defaultScore_eq doc).symm)]

/-- A combinator may be exchanged for another one that does the same to all scores that its children
can have. -/
theorem agree_of_combine {op op' : Operator} {weights weights' : List α} {rule : MatchRule}
    {children : List (ScorePlan α)}
    (hscore : ∀ doc scores, children.mapM (share basis doc) = .ok scores →
      basis.scorer.combine op' weights' scores = basis.scorer.combine op weights scores)
    (hdefault : ∀ doc scores, children.mapM (defaultScore basis doc) = .ok scores →
      basis.scorer.combineDefault op' weights' scores =
        basis.scorer.combineDefault op weights scores) :
    (combine op weights rule children).Agree basis (combine op' weights' rule children) where
  has_eq _ := rfl
  score_eq doc := by
    rw [score, score, sharesOf_eq_mapM]
    exact bind_congr_ok (hscore doc)
  defaultScore_eq doc := by
    rw [defaultScore, defaultScore, defaultScores_eq_mapM]
    split
    · rfl
    · exact bind_congr_ok (hdefault doc)

end ScorePlan

/-! ## Combining -/

theorem Bm25.combine_congr {weights weights' : List α}
    (h : Scalar.shares weights' = Scalar.shares weights) (op : Operator) (scores : List α) :
    combine op weights' scores = combine op weights scores := by
  cases op <;> simp only [combine, Scalar.weightedSum, h]

theorem Indri.combine_congr {weights weights' : List α}
    (h : Scalar.shares weights' = Scalar.shares weights) (op : Operator) (scores : List α) :
    combine op weights' scores = combine op weights scores := by
  cases op <;> simp only [combine, Scalar.weightedSum, Scalar.weightedProduct, h]

theorem Model.combine_congr {model : Model α} {formulas : Formulas α}
    (hf : model.formulas? = some formulas) {weights weights' : List α}
    (h : Scalar.shares weights' = Scalar.shares weights) (op : Operator) (scores : List α) :
    formulas.combine op weights' scores = formulas.combine op weights scores := by
  cases model with
  | unrankedBoolean => cases hf
  | rankedBoolean => cases hf
  | bm25 params =>
    cases hf
    exact Bm25.combine_congr h op scores
  | indri params =>
    cases hf
    exact Indri.combine_congr h op scores

/-- Equal weights make a weighted conjunction a plain one. -/
theorem Indri.combine_level {scores : List Exact} (hscores : ∀ score ∈ scores, score.InUnit)
    (hne : scores ≠ []) {w : ℝ} (hw : 0 < w) :
    combine .weightedAnd (List.replicate scores.length (.real w)) scores =
      combine .and [] scores :=
  congrArg Except.ok (Exact.weightedProduct_level hscores hne hw)

/-- Weights of another scale have the shares that they had, also if there are none. -/
theorem Query.WeightsFormed.shares_scale {op : Operator} (hop : op.isWeighted = true)
    {weights : List Exact} {args : Nat} (h : WeightsFormed op weights args) {c : ℝ} (hc : 0 < c) :
    Scalar.shares (weights.map (.real c * ·)) = Scalar.shares weights := by
  rcases eq_or_ne args 0 with rfl | hargs
  · rw [WeightsFormed, if_pos hop] at h
    rw [List.eq_nil_of_length_eq_zero h.1, List.map_nil]
  · obtain ⟨hsizes, hsum⟩ := h.sizes hop hargs
    exact Exact.shares_scale hsizes hsum hc

/-! ## Trees -/

namespace ScoreTree

variable {index : Index} {documents : List Document}

theorem ofQuery_ofChildren {scorer : Scorer Exact} {op : Operator} {weights : List Exact}
    {args : List (Query Exact)} (hweights : Query.WeightsFormed op weights args.length)
    {rule : MatchRule} (hrule : scorer.rule op = .ok rule) {children : List (ScoreTree Exact)}
    (hchildren : List.Forall₂ (fun query tree => ofQuery scorer index query = .ok tree) args
      children) :
    ofQuery scorer index (.combine op weights args) = .ok (ofChildren op weights rule children) := by
  rw [ofQuery, ofQueries_eq_mapM, mapM_eq_ok.mpr hchildren, hrule,
    show (Query.combine op weights args).validate = .ok () from
      Query.validateWeights_eq_ok.mpr hweights]
  rfl

/-- What every argument gives, with a property that all of them have when built. -/
theorem forall_of_children {scorer : Scorer Exact} {args : List (Query Exact)}
    {children : List (ScoreTree Exact)}
    (hchildren : List.Forall₂ (fun query tree => ofQuery scorer index query = .ok tree) args
      children)
    {f : ScorePlan Exact → Except Fault Exact} {p : Exact → Prop}
    (hf : ∀ arg ∈ args, ∀ child score, ofQuery scorer index arg = .ok child →
      f child.plan = .ok score → p score)
    {scores : List Exact} (h : (children.map plan).mapM f = .ok scores) :
    scores.length = args.length ∧ ∀ score ∈ scores, p score := by
  have hstep := mapM_eq_ok.mp h
  refine ⟨by rw [← hstep.length_eq, List.length_map, hchildren.length_eq], fun score hmem => ?_⟩
  obtain ⟨_, hc, hscore⟩ := exists_of_forall₂ hstep hmem
  obtain ⟨child, hchild, rfl⟩ := List.mem_map.mp hc
  obtain ⟨arg, harg, hquery⟩ := exists_of_forall₂ hchildren hchild
  exact hf arg harg child score hquery hscore

section Indri

variable {params : Indri Exact} (hr : index.Reflects documents) (hm : index.Measured documents)
  (hvalid : params.validate = .ok ())

include hr hm hvalid

/-- A default score is a probability also beyond the index, where leaves have none. -/
theorem inUnit_of_defaultScore {query : Query Exact} {tree : ScoreTree Exact}
    (hbuilt : ofQuery params.scorer index query = .ok tree) {doc : DocId} {score : Exact}
    (h : tree.plan.defaultScore { scorer := params.scorer, index } doc = .ok score) :
    score.InUnit := by
  induction query using Query.leafInduction generalizing tree score with
  | leaf query hq =>
    by_cases hdoc : doc.toNat < index.size
    · obtain ⟨_, hscore, hunit⟩ := (inUnit_of_built hr hm hvalid hdoc hbuilt).defaultScore
      rw [h] at hscore
      cases hscore
      exact hunit
    · obtain ⟨source, -, rfl⟩ := ofQuery_leaf hq hbuilt
      simp only [ofSource, plan, ScorePlan.defaultScore, Indri.scorer, Indri.leaf, Index.lengthOf,
        if_neg hdoc] at h
      cases h
  | combine op weights args ih =>
    have hweights := weightsFormed_of_built hbuilt
    obtain ⟨rule, children, hrule, hchildren, rfl⟩ := ofQuery_combine hbuilt
    rw [plan_ofChildren, ScorePlan.defaultScore, ScorePlan.defaultScores_eq_mapM] at h
    split at h
    · cases h
      exact Exact.inUnit_zero
    · rename_i hsome
      obtain ⟨scores, hscores, hcombine⟩ := bind_eq_ok.mp h
      obtain ⟨hlength, hunit⟩ := forall_of_children hchildren
        (fun arg harg child score hquery => ih arg harg hquery) hscores
      have hne : scores ≠ [] := by
        rintro rfl
        rw [List.isEmpty_map, List.isEmpty_iff_length_eq_zero, ← hchildren.length_eq] at hsome
        exact hsome hlength.symm
      obtain ⟨_, hcombined, hscore⟩ := Indri.combine_inUnit (hlength ▸ hweights) hne hunit hrule
      rw [show params.scorer.combineDefault = Indri.combine from rfl, hcombined] at hcombine
      cases hcombine
      exact hscore

theorem inUnit_of_share {query : Query Exact} {tree : ScoreTree Exact}
    (hbuilt : ofQuery params.scorer index query = .ok tree) {doc : DocId} {score : Exact}
    (h : tree.plan.share { scorer := params.scorer, index } doc = .ok score) : score.InUnit := by
  let basis : ScoreBasis Exact := { scorer := params.scorer, index }
  rw [ScorePlan.share] at h
  split at h
  · rename_i hhas
    have hdoc : doc.toNat < basis.index.size := lt_size_of_has hr hbuilt hhas
    obtain ⟨_, hscore, hunit⟩ := (inUnit_of_built hr hm hvalid hdoc hbuilt).score hhas
    rw [h] at hscore
    cases hscore
    exact hunit
  · exact inUnit_of_defaultScore hr hm hvalid hbuilt h

/-- The scores of the arguments are probabilities, both where they match and where they do not, so
that the two conjunctions do the same to them. -/
theorem agree_of_level {args : List (Query Exact)} (hargs : args ≠ []) {w : ℝ} (hw : 0 < w)
    {children : List (ScoreTree Exact)}
    (hchildren : List.Forall₂ (fun query tree => ofQuery params.scorer index query = .ok tree) args
      children) (rule : MatchRule) :
    ScorePlan.Agree { scorer := params.scorer, index } (.combine .and [] rule (children.map plan))
      (.combine .weightedAnd (List.replicate args.length (.real w)) rule (children.map plan)) := by
  have hcombine : ∀ {scores : List Exact},
      (scores.length = args.length ∧ ∀ score ∈ scores, score.InUnit) →
        Indri.combine .weightedAnd (List.replicate args.length (.real w)) scores =
          Indri.combine .and [] scores := by
    rintro scores ⟨hlength, hunit⟩
    have hne : scores ≠ [] := by
      rintro rfl
      exact hargs (List.length_eq_zero_iff.mp hlength.symm)
    rw [← hlength]
    exact Indri.combine_level hunit hne hw
  apply ScorePlan.agree_of_combine
  · intro doc scores hscores
    exact hcombine (forall_of_children hchildren
      (fun arg _ child score hquery => inUnit_of_share hr hm hvalid hquery) hscores)
  · intro doc scores hscores
    exact hcombine (forall_of_children hchildren
      (fun arg _ child score hquery => inUnit_of_defaultScore hr hm hvalid hquery) hscores)

end Indri

variable {model : Model Exact} {scorer : Scorer Exact} {formulas : Formulas Exact}

/-- A reweighed query is built whenever the query is, into a tree whose plan is as good. -/
theorem exists_built_agree (hs : model.scorer = .ok scorer) (hf : model.formulas? = some formulas)
    (hr : index.Reflects documents) (hm : index.Measured documents) {query query' : Query Exact}
    (h : query.Reweighed query') {tree : ScoreTree Exact}
    (hbuilt : ofQuery scorer index query = .ok tree) :
    ∃ tree', ofQuery scorer index query' = .ok tree' ∧
      tree.plan.Agree { scorer, index } tree'.plan := by
  induction h generalizing tree with
  | refl query => exact ⟨tree, hbuilt, .refl _⟩
  | trans _ _ ih ih' =>
    obtain ⟨middle, hmiddle, hagree⟩ := ih hbuilt
    obtain ⟨last, hlast, hagree'⟩ := ih' hmiddle
    exact ⟨last, hlast, hagree.trans hagree'⟩
  | scale hop hc weights args =>
    have hweights := weightsFormed_of_built hbuilt
    obtain ⟨rule, children, hrule, hchildren, rfl⟩ := ofQuery_combine hbuilt
    refine ⟨_, ofQuery_ofChildren (hweights.scale hop hc) hrule hchildren, ?_⟩
    have hfollows := Model.follows hs hf index
    have hshares := hweights.shares_scale hop hc
    rw [plan_ofChildren, plan_ofChildren]
    apply ScorePlan.agree_of_combine
    · intro doc scores _
      rw [hfollows.combine_eq]
      exact Model.combine_congr hf hshares _ scores
    · intro doc scores _
      rw [hfollows.combineDefault_eq]
      exact Model.combine_congr hf hshares _ scores
  | level hargs hw =>
    obtain ⟨rule, children, hrule, hchildren, rfl⟩ := ofQuery_combine hbuilt
    cases model with
    | unrankedBoolean => cases hf
    | rankedBoolean => cases hf
    | bm25 params =>
      obtain ⟨_, _, rfl⟩ := map_eq_ok.mp hs
      cases hrule
    | indri params =>
      obtain ⟨_, hvalid, rfl⟩ := map_eq_ok.mp hs
      refine ⟨_, ofQuery_ofChildren (Query.weightsFormed_level hw) hrule hchildren, ?_⟩
      rw [plan_ofChildren, plan_ofChildren]
      exact agree_of_level hr hm hvalid hargs hw hchildren rule
  | @inCombine op weights before after arg arg' _ ih =>
    have hweights := weightsFormed_of_built hbuilt
    obtain ⟨rule, children, hrule, hchildren, rfl⟩ := ofQuery_combine hbuilt
    obtain ⟨children', hchildren', hagree⟩ :=
      forall₂_replace (s := fun tree tree' => tree.plan.Agree { scorer, index } tree'.plan)
        (fun _ => .refl _) hchildren fun hquery => ih hquery
    have hlength : (before ++ arg :: after).length = (before ++ arg' :: after).length :=
      hchildren.length_eq.trans (hagree.length_eq.trans hchildren'.length_eq.symm)
    refine ⟨_, ofQuery_ofChildren (hlength ▸ hweights) hrule hchildren', ?_⟩
    rw [plan_ofChildren, plan_ofChildren]
    apply ScorePlan.Agree.inCombine
    rwa [List.forall₂_map_left_iff, List.forall₂_map_right_iff]

/-! ## Any calls in any order -/

theorem Fresh.drain_congr {basis : ScoreBasis α} {tree tree' : ScoreTree α} (hf : tree.Fresh)
    (hf' : tree'.Fresh) (hj : tree.plan.Joined) (hj' : tree'.plan.Joined)
    (h : tree.plan.Agree basis tree'.plan) :
    (tree'.drain basis).1 = (tree.drain basis).1 := by
  obtain ⟨docs, hasc, hmem, hhits⟩ := hf.sound.drain_hits basis hj
  obtain ⟨docs', hasc', hmem', hhits'⟩ := hf'.sound.drain_hits basis hj'
  have hdocs : docs' = docs := eq_of_ascending hasc' hasc fun doc => by
    rw [hmem', hmem, hf'.expects_eq, hf.expects_eq, h.has_eq]
  rw [hhits, hhits', hdocs]
  exact List.map_congr_left fun doc _ => congrArg (Prod.mk doc) (h.score_eq doc)

/-- Under BM25 and Indri, with valid parameters and in exact arithmetic: a reweighed query is built
whenever the query is. The same calls then lead both trees to the same documents with the same
scores and the same default scores, and draining them gives the same.

The bound on the documents is for the conjunctions. A weighted one agrees with a plain one on scores
from 0 to 1, and that scores are in there is told from the documents' tokens, of which an index
keeps account until its numbers of 32 bits run out (`Index.BuiltOf.measured`). -/
theorem reweighed_after_calls (hs : model.scorer = .ok scorer)
    (hmodel : (∃ params, model = .bm25 params) ∨ ∃ params, model = .indri params)
    (hb : index.BuiltOf documents) (hn : documents.length < UInt32.size)
    {query query' : Query Exact} (h : query.Reweighed query') {tree : ScoreTree Exact}
    (hbuilt : ofQuery scorer index query = .ok tree) :
    let basis : ScoreBasis Exact := { scorer, index }
    ∃ tree', ofQuery scorer index query' = .ok tree' ∧
      (tree'.drain basis).1 = (tree.drain basis).1 ∧
      ∀ calls, let reached := cursor.run calls tree
        let reached' := cursor.run calls tree'
        reached'.settle.1 = reached.settle.1 ∧
          reached'.settle.2.doc? = reached.settle.2.doc? ∧
          (reached.settle.1 = true →
            reached'.settle.2.score basis = reached.settle.2.score basis) ∧
          ∀ doc, reached'.defaultScore basis doc = reached.defaultScore basis doc := by
  intro basis
  obtain ⟨formulas, hf⟩ : ∃ formulas, model.formulas? = some formulas := by
    rcases hmodel with ⟨params, rfl⟩ | ⟨params, rfl⟩
    · exact ⟨params.formulas, rfl⟩
    · exact ⟨params.formulas, rfl⟩
  have hr := hb.reflects hn
  obtain ⟨tree', hbuilt', hagree⟩ := exists_built_agree hs hf hr (hb.measured hn) h hbuilt
  have hfirst := (Model.total hs index).rule_ne_first
  have hfresh : tree.Fresh := fresh_of_built hr.ordered hbuilt
  have hfresh' : tree'.Fresh := fresh_of_built hr.ordered hbuilt'
  have hjoined : tree.plan.Joined := joined_of_built hfirst hbuilt
  have hjoined' : tree'.plan.Joined := joined_of_built hfirst hbuilt'
  refine ⟨tree', hbuilt', hfresh.drain_congr hfresh' hjoined hjoined' hagree, fun calls => ?_⟩
  intro reached reached'
  obtain ⟨hfound, hdoc⟩ := hfresh.settle_run_congr hfresh' hagree.has_eq calls
  refine ⟨hfound, hdoc, fun hsettled => ?_, fun doc => ?_⟩
  · have hsound : reached.Sound := cursor_lawful.sound_run calls hfresh.sound
    rw [show reached.settle.1 = _ from cursor_lawful.found_iff reached hsound] at hsettled
    obtain ⟨doc, hd⟩ := Option.isSome_iff_exists.mp hsettled
    obtain ⟨-, hscore⟩ := hfresh.score_run basis hjoined calls hd
    obtain ⟨-, hscore'⟩ := hfresh'.score_run basis hjoined' calls (hdoc.trans hd)
    exact hscore'.trans ((hagree.score_eq doc).trans hscore.symm)
  · exact (defaultScore_run basis calls tree' doc).trans
      ((hagree.defaultScore_eq doc).trans (defaultScore_run basis calls tree doc).symm)

/-- The uneven query with its weights on another scale, and with a weight at its conjunction. -/
noncomputable def reweighedQuery (c w : ℝ) : Query Exact :=
  .combine .weightedSum ([.real 1, .real 0].map (.real c * ·))
    [.term "body" "red", .combine .weightedAnd [.real w] [.or []]]

theorem reweighed_after_calls_uneven :
    ofQuery bareBasis.scorer bareBasis.index unevenQuery = .ok unevenTree ∧
      unevenTree.settle.1 = true ∧
        ∃ tree', ofQuery bareBasis.scorer bareBasis.index (reweighedQuery 2 3) = .ok tree' ∧
          tree'.settle.1 = true ∧
          tree'.settle.2.score bareBasis = unevenTree.settle.2.score bareBasis := by
  have hscorer : (Model.indri bareParams).scorer = .ok bareBasis.scorer := by
    rw [Model.scorer, bareParams_valid]
    rfl
  have hquery : unevenQuery.Reweighed (reweighedQuery 2 3) :=
    .trans (.scale rfl two_pos _ _)
      (.inCombine .weightedSum _ [.term "body" "red"] []
        (.level (List.cons_ne_nil _ _) three_pos))
  obtain ⟨tree', hbuilt', -, hcalls⟩ := reweighed_after_calls hscorer (.inr ⟨_, rfl⟩)
    Index.builtOf_sample (by decide) hquery ofQuery_unevenQuery
  obtain ⟨hfound, -, hscore, -⟩ := hcalls []
  exact ⟨ofQuery_unevenQuery, unevenTree_found, tree', hbuilt', hfound.trans unevenTree_found,
    hscore unevenTree_found⟩

end ScoreTree

end Retrieval
