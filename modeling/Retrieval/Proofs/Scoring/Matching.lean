import Retrieval.Proofs.Scoring.Drain
import Retrieval.Proofs.Scoring.Rising
import Retrieval.Proofs.Search.Faults

/-!
# Matching never scores below not matching

In exact arithmetic, under each of the four models: a tree scores a document that it matches no
lower than it would score the document without a match, and never below zero
(`ScoreTree.default_le_score_after_calls`). A combinator that matches may have arguments that do
not; those add the same to both scores.
-/

set_option autoImplicit false

namespace Retrieval

/-! ## Plans -/

/-- On the way up, a plan is compared by what it adds to the combinator above it, with a match or
without. -/
theorem ScorePlan.rises_combine {basis : ScoreBasis Exact} {range : Set ℝ}
    (hrising : basis.scorer.Rising basis.index range) {doc : DocId} {op : Operator}
    {weights : List Exact} {rule : MatchRule} {children : List (ScorePlan Exact)}
    (hrule : basis.scorer.rule op = .ok rule)
    (hweights : Query.WeightsFormed op weights children.length)
    (hchildren : ∀ child ∈ children,
      RisesTo range (child.defaultScore basis doc) (child.share basis doc)) :
    RisesTo range ((combine op weights rule children).defaultScore basis doc)
      ((combine op weights rule children).share basis doc) := by
  obtain ⟨defaults, shares, hdefaults, hshares, hlength, hrise⟩ := exists_mapM_forall₂ hchildren
  have hdefault : (combine op weights rule children).defaultScore basis doc =
      if children.isEmpty then .ok Scalar.zero
      else basis.scorer.combineDefault op weights defaults := by
    rw [defaultScore, defaultScores_eq_mapM, hdefaults]
    rfl
  have hscore : (combine op weights rule children).score basis doc =
      basis.scorer.combine op weights shares := by
    rw [score, sharesOf_eq_mapM, hshares]
    rfl
  rcases eq_or_ne children [] with rfl | hne
  · have hzero := Exact.rises_refl hrising.zero_mem
    have hnone : (combine op weights rule []).has doc = false := by
      rw [← Bool.not_eq_true, has_combine]
      intro hadmits
      obtain ⟨child, hc, -⟩ := hadmits.exists_mem
      exact List.not_mem_nil hc
    rw [share, hnone, hdefault]
    exact ⟨_, _, rfl, rfl, Exact.zero_eq ▸ hzero⟩
  · have hsome : shares ≠ [] := by
      rintro rfl
      exact hne (List.length_eq_zero_iff.mp hlength.symm)
    have hmatch : RisesTo range (basis.scorer.combineDefault op weights defaults)
        (basis.scorer.combine op weights shares) :=
      hrising.combine op rule weights defaults shares hrule (hlength ▸ hweights) hsome hrise
    rw [if_neg (mt List.isEmpty_iff.mp hne)] at hdefault
    rw [share, hscore, hdefault]
    split
    · exact hmatch
    · exact hmatch.left

/-! ## Trees -/

namespace ScoreTree

variable {index : Index} {documents : List Document} {scorer : Scorer Exact} {range : Set ℝ}

theorem leaf_rises (hr : index.Reflects documents) (hm : index.Measured documents)
    (hrising : scorer.Rising index range) {doc : DocId} (hdoc : doc.toNat < index.size)
    {query : Query Exact} {source : Source} (hs : Source.ofQuery index query = .ok source) :
    RisesTo range ((ofSource index source).plan.defaultScore { scorer, index } doc)
      ((ofSource index source).plan.share { scorer, index } doc) := by
  obtain ⟨-, hplaces, hctf⟩ := Source.bounds_of_built hr hm hs
  obtain ⟨hf, -⟩ := Source.places_of_built hr hs
  have hlength := hm.lengthOf_eq hdoc source.field
  have hcount := hf.toNat_frequencyOf doc
  rw [ofSource, plan, ScorePlan.share]
  split
  · rename_i hhas
    rw [ScorePlan.has, List.contains_iff_mem, hf.mem_docs_iff] at hhas
    have hpos : ScorePlan.frequencyOf source.list doc ≠ 0 := by
      intro hzero
      rw [hzero] at hcount
      exact hhas (List.length_eq_zero_iff.mp hcount.symm)
    exact hrising.leaf source.list doc _ _ hctf hlength hpos (hcount.trans_le (hplaces doc))
  · exact hrising.defaultLeaf source.list doc _ hctf hlength

theorem rises_of_built (hr : index.Reflects documents) (hm : index.Measured documents)
    (hrising : scorer.Rising index range) {doc : DocId} (hdoc : doc.toNat < index.size)
    {query : Query Exact} {tree : ScoreTree Exact}
    (hbuilt : ofQuery scorer index query = .ok tree) :
    RisesTo range (tree.plan.defaultScore { scorer, index } doc)
      (tree.plan.share { scorer, index } doc) := by
  induction query using Query.leafInduction generalizing tree with
  | leaf query hq =>
    obtain ⟨source, hs, rfl⟩ := ofQuery_leaf hq hbuilt
    exact leaf_rises hr hm hrising hdoc hs
  | combine op weights args ih =>
    have hweights := weightsFormed_of_built hbuilt
    obtain ⟨rule, children, hrule, hchildren, rfl⟩ := ofQuery_combine hbuilt
    rw [hchildren.length_eq, ← List.length_map plan] at hweights
    rw [plan_ofChildren]
    refine ScorePlan.rises_combine hrising hrule hweights (List.forall_mem_map.mpr ?_)
    intro child hc
    obtain ⟨arg, harg, hquery⟩ := exists_of_forall₂ hchildren hc
    exact ih arg harg hquery

/-- A document of the tree, and the two scores that the plan has for it. -/
theorem exists_scores_le (hb : index.BuiltOf documents) (hn : documents.length < UInt32.size)
    (hrising : scorer.Rising index range) {query : Query Exact} {tree : ScoreTree Exact}
    (hbuilt : ofQuery scorer index query = .ok tree) {doc : DocId}
    (hhas : tree.plan.has doc = true) :
    let basis : ScoreBasis Exact := { scorer, index }
    ∃ low high : ℝ, tree.plan.defaultScore basis doc = .ok (.real low) ∧
      tree.plan.score basis doc = .ok (.real high) ∧ 0 ≤ low ∧ low ≤ high := by
  intro basis
  have hr := hb.reflects hn
  have hdoc : doc.toNat < basis.index.size := lt_size_of_has hr hbuilt hhas
  obtain ⟨_, _, hdefault, hscore, low, hlow, high, -, hle, rfl, rfl⟩ :=
    rises_of_built hr (hb.measured hn) hrising hdoc hbuilt
  rw [ScorePlan.share, if_pos hhas] at hscore
  exact ⟨low, high, hdefault, hscore, hrising.nonneg hlow, hle⟩

/-- Under each of the models, with valid parameters and in exact arithmetic: wherever calls have led
a built tree, it scores the document that it settles on no lower than it would by default, and its
default score is not negative. So it is with all documents that draining the tree visits. -/
theorem default_le_score_after_calls {model : Model Exact} (hs : model.scorer = .ok scorer)
    (hb : index.BuiltOf documents) (hn : documents.length < UInt32.size) {query : Query Exact}
    {tree : ScoreTree Exact} (hbuilt : ofQuery scorer index query = .ok tree)
    (calls : List CursorCall) :
    let basis : ScoreBasis Exact := { scorer, index }
    let reached := cursor.run calls tree
    (reached.settle.1 = true → ∃ (doc : DocId) (low high : ℝ),
      reached.settle.2.doc? = some doc ∧
        reached.settle.2.defaultScore basis doc = .ok (.real low) ∧
        reached.settle.2.score basis = .ok (.real high) ∧ 0 ≤ low ∧ low ≤ high) ∧
      ∀ hit ∈ (tree.drain basis).1, ∃ low high : ℝ,
        tree.defaultScore basis hit.1 = .ok (.real low) ∧ hit.2 = .ok (.real high) ∧
          0 ≤ low ∧ low ≤ high := by
  intro basis reached
  obtain ⟨range, hrising⟩ := Model.rising hs index
  have hr := hb.reflects hn
  have hfresh : tree.Fresh := fresh_of_built hr.ordered hbuilt
  have hjoined : tree.plan.Joined := joined_of_built (Model.total hs index).rule_ne_first hbuilt
  constructor
  · intro hfound
    have hsound : reached.Sound := cursor_lawful.sound_run calls hfresh.sound
    rw [show reached.settle.1 = _ from cursor_lawful.found_iff reached hsound] at hfound
    obtain ⟨doc, hdoc⟩ := Option.isSome_iff_exists.mp hfound
    obtain ⟨hhas, hrun⟩ := hfresh.score_run basis hjoined calls hdoc
    have hplan : reached.settle.2.plan = tree.plan :=
      (plan_settleWithin _ _).trans (cursor_keeps_plan.run calls tree)
    have hdefault : reached.settle.2.defaultScore basis doc = tree.plan.defaultScore basis doc := by
      rw [defaultScore_eq, hplan]
    obtain ⟨low, high, hlow, hhigh, hle⟩ := exists_scores_le hb hn hrising hbuilt hhas
    exact ⟨doc, low, high, hdoc, hdefault.trans hlow, hrun.trans hhigh, hle⟩
  · obtain ⟨docs, -, hmem, hhits⟩ := hfresh.sound.drain_hits basis hjoined
    rw [hhits]
    refine List.forall_mem_map.mpr fun doc hd => ?_
    have hhas : tree.plan.has doc = true := (hfresh.expects_eq doc).mp ((hmem doc).mp hd)
    obtain ⟨low, high, hlow, hhigh, hle⟩ := exists_scores_le hb hn hrising hbuilt hhas
    exact ⟨low, high, (defaultScore_eq basis doc tree).trans hlow, hhigh, hle⟩

theorem default_le_score_after_calls_uneven :
    ofQuery bareBasis.scorer bareBasis.index unevenQuery = .ok unevenTree ∧
      unevenTree.settle.1 = true ∧ ∃ (doc : DocId) (low high : ℝ),
        unevenTree.settle.2.doc? = some doc ∧
          unevenTree.settle.2.defaultScore bareBasis doc = .ok (.real low) ∧
          unevenTree.settle.2.score bareBasis = .ok (.real high) ∧ 0 ≤ low ∧ low ≤ high := by
  have hscorer : (Model.indri bareParams).scorer = .ok bareBasis.scorer := by
    rw [Model.scorer, bareParams_valid]
    rfl
  obtain ⟨hsettled, -⟩ := default_le_score_after_calls hscorer Index.builtOf_sample (by decide)
    ofQuery_unevenQuery []
  exact ⟨ofQuery_unevenQuery, unevenTree_found, hsettled unevenTree_found⟩

end ScoreTree

end Retrieval
