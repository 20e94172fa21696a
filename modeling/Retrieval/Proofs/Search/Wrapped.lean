import Retrieval.Proofs.Scoring.Matching
import Retrieval.Proofs.Search.Rearranged

/-!
# The default operator

A query may be wrapped in the default operator of its model, and it makes no difference: a search
gives the same ranking or refuses the query either way (`Search.run_wrapped`). A combinator with one
argument matches where the argument does, by whichever rule. It scores what the argument scores, if
the default operator of the model makes a single score of itself. Among the numbers that the Boolean
models score this is exact; for the other two models scores are read over the reals, since a sum of
one number and the first root of a product of one are then that number.
-/

set_option autoImplicit false

namespace Retrieval

/-! ## Single arguments -/

namespace ScorePlan

variable {α : Type} {doc : DocId} {op : Operator} {weights : List α} {rule : MatchRule}
  {plan : ScorePlan α}

theorem has_single : has doc (combine op weights rule [plan]) = has doc plan := by
  rw [has, eachHas_eq_map]
  cases rule <;> simp [MatchRule.holds]

theorem score_single [Scalar α] {basis : ScoreBasis α} (hhas : has doc plan = true) {score : α}
    (hscore : plan.score basis doc = .ok score) :
    (combine op weights rule [plan]).score basis doc = basis.scorer.combine op weights [score] := by
  have hshare : plan.share basis doc = .ok score := by rw [share, if_pos hhas, hscore]
  rw [ScorePlan.score, sharesOf_eq_mapM, List.mapM_cons, hshare]
  rfl

end ScorePlan

/-- In exact arithmetic, the default operators of BM25 and Indri leave a single score alone. -/
theorem Model.combine_single {model : Model Exact} {scorer : Scorer Exact}
    (hs : model.scorer = .ok scorer)
    (hmodel : (∃ params, model = .bm25 params) ∨ ∃ params, model = .indri params) {s : ℝ}
    (hnonneg : 0 ≤ s) : scorer.combine scorer.defaultOp [] [.real s] = .ok (.real s) := by
  rcases hmodel with ⟨params, rfl⟩ | ⟨params, rfl⟩
  · obtain ⟨_, -, rfl⟩ := map_eq_ok.mp hs
    have hsum : Scalar.sum [Exact.real s] = .real s := by simpa using Exact.sum_real [s]
    exact congrArg _ hsum
  · obtain ⟨_, -, rfl⟩ := map_eq_ok.mp hs
    have hproduct : Scalar.product [Exact.real s] = .real s := by
      simpa using Exact.product_real [s]
    have hroot : (Scalar.one / Scalar.ofNat 1 : Exact) = .real 1 := by
      rw [Exact.root_eq Nat.one_ne_zero, Nat.cast_one, one_div_one]
    have hpow : Scalar.pow (Scalar.product [Exact.real s]) (Scalar.one / Scalar.ofNat 1) =
        .real s := by
      rw [hproduct, hroot, Exact.pow_real hnonneg zero_le_one, Real.rpow_one]
    exact congrArg _ hpow

namespace ScoreTree

variable {α : Type} [Scalar α] [DecimalText α] {scorer : Scorer α} {index : Index} {op : Operator}

/-- The tree of a wrapped query is that of the query, under the operator unless that is its own. -/
theorem plan_wrap {query : Query α} {tree tree' : ScoreTree α}
    (hbuilt : ofQuery scorer index query = .ok tree)
    (hbuilt' : ofQuery scorer index (Search.wrap op query) = .ok tree') :
    tree'.plan = tree.plan ∨ ∃ rule, tree'.plan = .combine op [] rule [tree.plan] := by
  rw [Search.wrap_eq] at hbuilt'
  split at hbuilt'
  · cases hbuilt.symm.trans hbuilt'
    exact .inl rfl
  · obtain ⟨rule, children, -, hchildren, rfl⟩ := ofQuery_combine hbuilt'
    obtain ⟨child, _, hchild, hrest, rfl⟩ := List.forall₂_cons_left_iff.mp hchildren
    cases hrest
    cases hbuilt.symm.trans hchild
    exact .inr ⟨rule, rfl⟩

/-- Under BM25 and Indri a wrapped query has the documents of the query, with the same scores. -/
theorem plan_wrap_agrees {documents : List Document} {scorer : Scorer Exact}
    (hb : index.BuiltOf documents) (hn : documents.length < UInt32.size) {model : Model Exact}
    (hs : model.scorer = .ok scorer)
    (hmodel : (∃ params, model = .bm25 params) ∨ ∃ params, model = .indri params)
    {query : Query Exact} {tree tree' : ScoreTree Exact}
    (hbuilt : ofQuery scorer index query = .ok tree)
    (hbuilt' : ofQuery scorer index (Search.wrap scorer.defaultOp query) = .ok tree') :
    let basis : ScoreBasis Exact := { scorer, index }
    (∀ doc, tree'.plan.has doc = true ↔ tree.plan.has doc = true) ∧
      ∀ doc, tree'.plan.has doc = true →
        tree'.plan.score basis doc = tree.plan.score basis doc := by
  intro basis
  rcases plan_wrap hbuilt hbuilt' with hplan | ⟨rule, hplan⟩
  · rw [hplan]
    exact ⟨fun doc => Iff.rfl, fun doc _ => rfl⟩
  · rw [hplan]
    simp only [ScorePlan.has_single]
    refine ⟨fun doc => trivial, fun doc hhas => ?_⟩
    obtain ⟨range, hrising⟩ := Model.rising hs index
    obtain ⟨low, s, -, hscore, hlow, hle⟩ := exists_scores_le hb hn hrising hbuilt hhas
    rw [ScorePlan.score_single hhas hscore, hscore]
    exact Model.combine_single hs hmodel (hlow.trans hle)

end ScoreTree

/-! ## Searches -/

namespace Search

section Settings

variable {α : Type} [Scalar α] [DecimalText α] {index : Index} {settings : SearchSettings α}
  {wrapping plain : Search α}

/-- Both answers are the same ranking, or both refuse the query for its configuration. -/
def SameAnswer (answer answer' : Except Fault (Ranking α)) : Prop :=
  (∃ ranking, answer = .ok ranking ∧ answer' = .ok ranking) ∨
    ∃ cause cause', answer = .error (.config cause) ∧ answer' = .error (.config cause')

omit [Scalar α] [DecimalText α] in
/-- Two searches that refuse the same queries, and find the same hits for all others. -/
theorem SameAnswer.of_cases {answer answer' : Except Fault (Ranking α)} {formed : Prop}
    {listed listed' : List (Hit α) → Prop}
    (h : (formed ∧ ∃ hits, listed hits ∧
        answer = .ok { hits := settings.limit.elim hits (hits.take ·) }) ∨
      (¬ formed ∧ ∃ cause, answer = .error (.config cause)))
    (h' : (formed ∧ ∃ hits, listed' hits ∧
        answer' = .ok { hits := settings.limit.elim hits (hits.take ·) }) ∨
      (¬ formed ∧ ∃ cause, answer' = .error (.config cause)))
    (hsame : ∀ hits hits', listed hits → listed' hits' → hits = hits') :
    SameAnswer answer answer' := by
  rcases h with ⟨hok, hits, hlisted, hanswer⟩ | ⟨hnot, cause, hfault⟩
  · obtain ⟨-, hits', hlisted', hanswer'⟩ := h'.resolve_right fun hrefused => hrefused.1 hok
    obtain rfl := hsame hits hits' hlisted hlisted'
    exact .inl ⟨_, hanswer, hanswer'⟩
  · obtain ⟨-, cause', hfault'⟩ := h'.resolve_left fun hgiven => hnot hgiven.1
    exact .inr ⟨cause, cause', hfault, hfault'⟩

/-- Searches that differ in their wrapping only. -/
theorem wrapped_of_create (hwrapping : create index { settings with wraps := true } = .ok wrapping)
    (hplain : create index { settings with wraps := false } = .ok plain) :
    settings.model.scorer = .ok plain.basis.scorer ∧ plain.basis.index = index ∧
      wrapping.basis = plain.basis ∧
      (∀ query, wrapping.wrapped query = wrap plain.basis.scorer.defaultOp query) ∧
      (∀ query, plain.wrapped query = query) ∧
      ∀ query, (wrap plain.basis.scorer.defaultOp query).WellFormed settings.model ↔
        query.WellFormed settings.model := by
  simp only [create, bind_eq_ok, pure_eq_ok] at hwrapping hplain
  obtain ⟨scorer, hscorer, rfl⟩ := hwrapping
  obtain ⟨scorer', hscorer', rfl⟩ := hplain
  obtain rfl : scorer = scorer' := Except.ok.inj (hscorer.symm.trans hscorer')
  obtain ⟨hop, hunweighted⟩ := Model.supports_defaultOp hscorer
  exact ⟨hscorer, rfl, rfl, fun query => rfl, fun query => rfl, wellFormed_wrap_iff hop hunweighted⟩

end Settings

variable {documents : List Document} {index : Index}

theorem run_wrapped_boolean (hb : index.BuiltOf documents) (hn : documents.length < UInt32.size)
    {settings : SearchSettings Float}
    (hmodel : settings.model = .unrankedBoolean ∨ settings.model = .rankedBoolean)
    {wrapping plain : Search Float}
    (hwrapping : create index { settings with wraps := true } = .ok wrapping)
    (hplain : create index { settings with wraps := false } = .ok plain) (query : Query Float) :
    SameAnswer (wrapping.run query) (plain.run query) := by
  obtain ⟨hscorer, -, -, hwrap, hnone, hformed⟩ := wrapped_of_create hwrapping hplain
  obtain ⟨grade, hgrade⟩ : ∃ grade, settings.model.grade? = some grade := by
    rcases hmodel with hmodel | hmodel
    · exact ⟨_, by rw [hmodel]; rfl⟩
    · exact ⟨_, by rw [hmodel]; rfl⟩
  have hor := (Model.grades hscorer hgrade).defaultOp_eq
  have hcases := run_cases hb hn hwrapping hgrade query
  have hcases' := run_cases hb hn hplain hgrade query
  rw [hwrap, hformed, hor] at hcases
  rw [hnone] at hcases'
  simp only [strength_wrap] at hcases
  exact .of_cases hcases hcases' fun hits hits' hcomplete => hcomplete.unique

theorem run_wrapped_exact (hb : index.BuiltOf documents) (hn : documents.length < UInt32.size)
    {settings : SearchSettings Exact}
    (hmodel : (∃ params, settings.model = .bm25 params) ∨ ∃ params, settings.model = .indri params)
    {wrapping plain : Search Exact}
    (hwrapping : create index { settings with wraps := true } = .ok wrapping)
    (hplain : create index { settings with wraps := false } = .ok plain) (query : Query Exact) :
    SameAnswer (wrapping.run query) (plain.run query) := by
  obtain ⟨hscorer, rfl, hbasis, hwrap, hnone, hformed⟩ := wrapped_of_create hwrapping hplain
  have hcases := run_built_cases hb hn hwrapping query
  have hcases' := run_built_cases hb hn hplain query
  rw [hbasis, hwrap, hformed] at hcases
  rw [hnone] at hcases'
  refine .of_cases hcases hcases' ?_
  rintro hits hits' ⟨tree, hbuilt, hcomplete⟩ ⟨tree', hbuilt', hcomplete'⟩
  obtain ⟨hhas, hscore⟩ := ScoreTree.plan_wrap_agrees hb hn hscorer hmodel hbuilt' hbuilt
  exact (hcomplete.congr hhas hscore).unique hcomplete'

/-- Wrapping queries in the default operator of the model changes no answer. -/
theorem run_wrapped (hb : index.BuiltOf documents) (hn : documents.length < UInt32.size) :
    (∀ (settings : SearchSettings Float) (wrapping plain : Search Float),
      settings.model = .unrankedBoolean ∨ settings.model = .rankedBoolean →
      create index { settings with wraps := true } = .ok wrapping →
      create index { settings with wraps := false } = .ok plain →
      ∀ query, SameAnswer (wrapping.run query) (plain.run query)) ∧
    ∀ (settings : SearchSettings Exact) (wrapping plain : Search Exact),
      (∃ params, settings.model = .bm25 params) ∨ (∃ params, settings.model = .indri params) →
      create index { settings with wraps := true } = .ok wrapping →
      create index { settings with wraps := false } = .ok plain →
      ∀ query, SameAnswer (wrapping.run query) (plain.run query) :=
  ⟨fun _ _ _ hmodel hwrapping hplain => run_wrapped_boolean hb hn hmodel hwrapping hplain,
    fun _ _ _ hmodel hwrapping hplain => run_wrapped_exact hb hn hmodel hwrapping hplain⟩

/-- Searches under Indri, whose score of a single argument is a first root. -/
noncomputable def bareSearch (wraps : Bool) : Search Exact :=
  { basis := ScoreTree.bareBasis
    settings := { model := .indri ScoreTree.bareParams, limit := none, wraps } }

theorem create_bareSearch (wraps : Bool) :
    create Index.sample (bareSearch wraps).settings = .ok (bareSearch wraps) := by
  rw [create, bareSearch, Model.scorer, ScoreTree.bareParams_valid]
  rfl

theorem run_wrapped_sample :
    SameAnswer (booleanSearch.run (.term "body" "red"))
        ({ booleanSearch with settings.wraps := false }.run (.term "body" "red")) ∧
      ∃ ranking, (bareSearch true).run (.term "body" "red") = .ok ranking ∧
        (bareSearch false).run (.term "body" "red") = .ok ranking := by
  have hn : [Index.sampleDocument].length < UInt32.size := by decide
  obtain ⟨hboolean, hexact⟩ := run_wrapped Index.builtOf_sample hn
  refine ⟨hboolean booleanSearch.settings _ _ (.inr rfl) rfl rfl _, ?_⟩
  have hterm : (Query.term "body" "red" : Query Exact).WellFormed (.indri ScoreTree.bareParams) :=
    .leaf .term
  have hcases := run_built_cases Index.builtOf_sample hn (create_bareSearch false)
    (.term "body" "red")
  obtain ⟨-, hits, -, hrun⟩ := hcases.resolve_right fun h => h.1 hterm
  have hsame := hexact (bareSearch true).settings _ _ (.inr ⟨_, rfl⟩) (create_bareSearch true)
    (create_bareSearch false) (.term "body" "red")
  refine hsame.resolve_right ?_
  rintro ⟨-, cause, -, hfault⟩
  cases hrun.symm.trans hfault

end Search

end Retrieval
