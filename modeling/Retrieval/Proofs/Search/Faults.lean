import Retrieval.Proofs.Search.Boolean
import Retrieval.Proofs.Search.OnePath
import Retrieval.Proofs.Source.Formed

/-!
# What a search refuses

On an index of accepted documents a query is refused for its own form and for nothing else
(`Search.run_eq_ok_iff`). Building its tree performs all checks. Whatever comes later and could fail
has been made safe by then: lists take what merging gives them, lengths are asked of documents that
the index has, and scorers merge the scores of the operators that they have a rule for.
-/

set_option autoImplicit false

namespace Retrieval

variable {α : Type} [Scalar α] [DecimalText α]

/-! ## Trees -/

theorem Model.supports_iff {model : Model α} {scorer : Scorer α} (hs : model.scorer = .ok scorer)
    (op : Operator) : (∃ rule, scorer.rule op = .ok rule) ↔ model.Supports op := by
  cases model with
  | unrankedBoolean =>
    cases hs
    cases op <;> simp [Boolean.unranked, Boolean.rule, Supports, unsupported]
  | rankedBoolean =>
    cases hs
    cases op <;> simp [Boolean.ranked, Boolean.rule, Supports, unsupported]
  | bm25 params =>
    obtain ⟨_, -, rfl⟩ := map_eq_ok.mp hs
    cases op <;> simp [Bm25.scorer, Bm25.rule, Supports, unsupported]
  | indri params =>
    obtain ⟨_, -, rfl⟩ := map_eq_ok.mp hs
    cases op <;> simp [Indri.scorer, Indri.rule, Supports, unsupported]

theorem Model.rule_onlyConfig {model : Model α} {scorer : Scorer α}
    (hs : model.scorer = .ok scorer) (op : Operator) : OnlyConfig (scorer.rule op) := by
  cases model with
  | unrankedBoolean =>
    cases hs
    cases op <;> first | exact onlyConfig_ok _ | exact onlyConfig_config _
  | rankedBoolean =>
    cases hs
    cases op <;> first | exact onlyConfig_ok _ | exact onlyConfig_config _
  | bm25 params =>
    obtain ⟨_, -, rfl⟩ := map_eq_ok.mp hs
    cases op <;> first | exact onlyConfig_ok _ | exact onlyConfig_config _
  | indri params =>
    obtain ⟨_, -, rfl⟩ := map_eq_ok.mp hs
    cases op <;> first | exact onlyConfig_ok _ | exact onlyConfig_config _

namespace ScoreTree

variable {index : Index} {documents : List Document} {model : Model α} {scorer : Scorer α}

theorem ofQuery_eq_ok_iff (hr : index.Reflects documents) (hs : model.scorer = .ok scorer)
    (query : Query α) :
    (∃ tree, ofQuery scorer index query = .ok tree) ↔ query.WellFormed model := by
  induction query using Query.inductionOn with
  | term field word => exact ⟨fun _ => .leaf .term, fun _ => ⟨_, rfl⟩⟩
  | proximity kind span args _ =>
    rw [Query.wellFormed_iff_of_isPostings rfl, ← Source.ofQuery_eq_ok_iff hr.listed]
    simp only [ofQuery, bind_eq_ok, pure_eq_ok]
    constructor
    · rintro ⟨_, source, h, -⟩
      exact ⟨source, h⟩
    · rintro ⟨source, h⟩
      exact ⟨_, source, h, rfl⟩
  | score arg _ =>
    rw [Query.wellFormed_score_iff, ← Source.ofQuery_eq_ok_iff hr.listed]
    simp only [ofQuery, bind_eq_ok, pure_eq_ok]
    constructor
    · rintro ⟨_, _, -, source, h, -⟩
      exact ⟨source, h⟩
    · rintro ⟨source, h⟩
      have hpostings := ((Source.ofQuery_eq_ok_iff hr.listed arg).mp ⟨source, h⟩).isPostings
      exact ⟨_, (), if_pos hpostings, source, h, rfl⟩
  | combine op weights args ih =>
    rw [Query.wellFormed_combine_iff, ← Model.supports_iff hs, ← Query.validateWeights_eq_ok]
    simp only [ofQuery, bind_eq_ok, pure_eq_ok, ofQueries_eq_mapM]
    constructor
    · rintro ⟨_, _, hvalid, rule, hrule, children, hchildren, -⟩
      refine ⟨⟨rule, hrule⟩, hvalid, fun arg harg => ?_⟩
      obtain ⟨child, -, hchild⟩ := exists_of_forall₂ (mapM_eq_ok.mp hchildren).flip harg
      exact (ih arg harg).mp ⟨child, hchild⟩
    · rintro ⟨⟨rule, hrule⟩, hvalid, hargs⟩
      obtain ⟨children, hchildren⟩ : ∃ children, args.mapM (ofQuery scorer index) = .ok children :=
        exists_mapM fun arg harg => (ih arg harg).mpr (hargs arg harg)
      exact ⟨_, (), hvalid, rule, hrule, children, hchildren, rfl⟩

theorem ofQuery_onlyConfig (hr : index.Reflects documents) (hs : model.scorer = .ok scorer)
    (query : Query α) : OnlyConfig (ofQuery scorer index query) := by
  induction query using Query.inductionOn with
  | term field word => exact onlyConfig_ok _
  | proximity kind span args _ =>
    rw [ofQuery]
    exact (Source.ofQuery_onlyConfig hr.listed _).bind fun source _ => onlyConfig_ok _
  | score arg _ =>
    rw [ofQuery]
    refine (Query.validate_onlyConfig _).bind fun _ _ => ?_
    exact (Source.ofQuery_onlyConfig hr.listed arg).bind fun source _ => onlyConfig_ok _
  | combine op weights args ih =>
    rw [ofQuery, ofQueries_eq_mapM]
    refine (Query.validate_onlyConfig _).bind fun _ _ => ?_
    refine (Model.rule_onlyConfig hs op).bind fun rule _ => ?_
    exact (OnlyConfig.mapM ih).bind fun children _ => onlyConfig_ok _

end ScoreTree

/-! ## Searches -/

theorem Model.total {model : Model α} {scorer : Scorer α} (hs : model.scorer = .ok scorer)
    (index : Index) : scorer.Total index := by
  cases model with
  | unrankedBoolean =>
    cases hs
    exact Boolean.unranked_total index
  | rankedBoolean =>
    cases hs
    exact Boolean.ranked_total index
  | bm25 params =>
    obtain ⟨_, -, rfl⟩ := map_eq_ok.mp hs
    exact params.total index
  | indri params =>
    obtain ⟨_, -, rfl⟩ := map_eq_ok.mp hs
    exact params.total index

/-- The operator that queries are wrapped in has no weights, and its model supports it. -/
theorem Model.supports_defaultOp {model : Model α} {scorer : Scorer α}
    (hs : model.scorer = .ok scorer) :
    model.Supports scorer.defaultOp ∧ scorer.defaultOp.isWeighted = false := by
  cases model with
  | unrankedBoolean =>
    cases hs
    exact ⟨.inr rfl, rfl⟩
  | rankedBoolean =>
    cases hs
    exact ⟨.inr rfl, rfl⟩
  | bm25 params =>
    obtain ⟨_, -, rfl⟩ := map_eq_ok.mp hs
    exact ⟨.inl rfl, rfl⟩
  | indri params =>
    obtain ⟨_, -, rfl⟩ := map_eq_ok.mp hs
    exact ⟨Operator.noConfusion, rfl⟩

namespace Search

variable {documents : List Document} {search : Search α} {settings : SearchSettings α}

omit [DecimalText α] in
theorem wellFormed_wrap_iff {model : Model α} {op : Operator} (hop : model.Supports op)
    (hplain : op.isWeighted = false) (query : Query α) :
    (wrap op query).WellFormed model ↔ query.WellFormed model := by
  have hwrapped : ∀ inner : Query α,
      (Query.combine op [] [inner]).WellFormed model ↔ inner.WellFormed model := by
    intro inner
    have hweights : Query.WeightsFormed op ([] : List α) 1 := by simp [Query.WeightsFormed, hplain]
    rw [Query.wellFormed_combine_iff, List.forall_mem_singleton]
    exact ⟨fun h => h.2.2, fun h => ⟨hop, hweights, h⟩⟩
  cases query with
  | term field word => exact hwrapped _
  | proximity kind span args => exact hwrapped _
  | score arg => exact hwrapped _
  | combine own weights args =>
    rw [wrap]
    split
    · exact Iff.rfl
    · exact hwrapped _

/-- What a search makes of a query: all hits of the tree that it builds, or a fault of its
configuration. -/
theorem run_built_cases [Ord α] [Std.TransOrd α] {index : Index} (hb : index.BuiltOf documents)
    (hn : documents.length < UInt32.size) (hsearch : create index settings = .ok search)
    (query : Query α) :
    ((search.wrapped query).WellFormed settings.model ∧ ∃ hits,
        (∃ tree,
          ScoreTree.ofQuery search.basis.scorer search.basis.index (search.wrapped query) =
            .ok tree ∧
          Complete hits (fun doc => tree.plan.has doc = true) (tree.plan.score search.basis)) ∧
        search.run query = .ok { hits := settings.limit.elim hits (hits.take ·) }) ∨
      (¬ (search.wrapped query).WellFormed settings.model ∧
        ∃ cause, search.run query = .error (.config cause)) := by
  have hr := hb.reflects hn
  obtain ⟨hscorer, hindex, rfl⟩ := create_eq_ok hsearch
  rw [← hindex] at hr
  have htotal := Model.total hscorer search.basis.index
  have hformed := ScoreTree.ofQuery_eq_ok_iff hr hscorer (search.wrapped query)
  by_cases hok : (search.wrapped query).WellFormed search.settings.model
  · left
    obtain ⟨tree, hbuilt⟩ := hformed.mpr hok
    obtain ⟨ranking, hrun⟩ := exists_run_built htotal hr hbuilt
    obtain ⟨tree, hits, hbuilt, hcomplete, rfl⟩ := run_eq_ok hr.ordered htotal.rule_ne_first hrun
    exact ⟨hok, hits, ⟨tree, hbuilt, hcomplete⟩, hrun⟩
  · right
    obtain ⟨cause, hfault⟩ := (ScoreTree.ofQuery_onlyConfig hr hscorer _).of_not_ok
      fun hbuilt => hok (hformed.mp hbuilt)
    refine ⟨hok, cause, ?_⟩
    rw [run, hfault]
    rfl

/-- A search on an index of accepted documents answers the queries that are well-formed for its
model, wrapped or not, and refuses any other for its configuration. -/
theorem run_eq_ok_iff [Ord α] {index : Index} (hb : index.BuiltOf documents)
    (hn : documents.length < UInt32.size) (hsearch : create index settings = .ok search)
    (query : Query α) :
    ((∃ ranking, search.run query = .ok ranking) ↔ query.WellFormed settings.model) ∧
      ((search.wrapped query).WellFormed settings.model ↔ query.WellFormed settings.model) ∧
      (¬ query.WellFormed settings.model →
        ∃ cause, search.run query = .error (.config cause)) := by
  have hr := hb.reflects hn
  obtain ⟨hs, hindex, -⟩ := create_eq_ok hsearch
  obtain ⟨hop, hplain⟩ := Model.supports_defaultOp hs
  rw [← hindex] at hr
  have hwrapped : (search.wrapped query).WellFormed settings.model ↔
      query.WellFormed settings.model := by
    rw [wrapped]
    split
    · exact wellFormed_wrap_iff hop hplain query
    · exact Iff.rfl
  have htotal := Model.total hs search.basis.index
  have hrun : (∃ ranking, search.run query = .ok ranking) ↔ ∃ tree,
      ScoreTree.ofQuery search.basis.scorer search.basis.index (search.wrapped query) =
        .ok tree := by
    constructor
    · rintro ⟨ranking, h⟩
      rw [run, bind_eq_ok] at h
      obtain ⟨tree, hbuilt, -⟩ := h
      exact ⟨tree, hbuilt⟩
    · rintro ⟨tree, hbuilt⟩
      exact exists_run_built htotal hr hbuilt
  have hiff : (∃ ranking, search.run query = .ok ranking) ↔ query.WellFormed settings.model := by
    rw [hrun, ScoreTree.ofQuery_eq_ok_iff hr hs, hwrapped]
  refine ⟨hiff, hwrapped, fun hnot => ?_⟩
  obtain ⟨cause, hfault⟩ := (ScoreTree.ofQuery_onlyConfig hr hs (search.wrapped query)).of_not_ok
    fun hbuilt => hnot (hiff.mp (hrun.mpr hbuilt))
  exact ⟨cause, by rw [run, hfault]; rfl⟩

def booleanSearch : Search Float :=
  { basis := { scorer := Boolean.ranked, index := Index.sample }
    settings := .ofModel .rankedBoolean }

def answeredQuery : Query Float :=
  .or [.score (.proximity .near 2 [.term "body" "red", .term "body" "blue"]), .and []]

/-- The arguments of the inner operator have different fields. -/
def refusedQuery : Query Float :=
  .or [.term "body" "red", .proximity .near 2 [.term "body" "red", .term "title" "blue"]]

theorem run_eq_ok_iff_sample :
    (∃ ranking, booleanSearch.run answeredQuery = .ok ranking) ∧
      ∃ cause, booleanSearch.run refusedQuery = .error (.config cause) := by
  have hcreate : create Index.sample (.ofModel .rankedBoolean) = .ok booleanSearch := rfl
  have hn : [Index.sampleDocument].length < UInt32.size := by decide
  obtain ⟨hanswered, -, -⟩ := run_eq_ok_iff Index.builtOf_sample hn hcreate answeredQuery
  obtain ⟨-, -, hrefused⟩ := run_eq_ok_iff Index.builtOf_sample hn hcreate refusedQuery
  constructor
  · rw [hanswered, answeredQuery, Query.or, Query.and]
    have hterms : ∀ arg ∈ [(.term "body" "red" : Query Float), .term "body" "blue"],
        arg.PostingsFormed ∧ arg.resultField = "body" := by
      rw [List.forall_mem_cons, List.forall_mem_singleton]
      exact ⟨⟨.term, rfl⟩, .term, rfl⟩
    refine .combine (.inr rfl) rfl (List.forall_mem_cons.mpr ⟨.score ?_, ?_⟩)
    · exact .proximity (by decide) (fun arg harg => (hterms arg harg).1)
        fun arg harg other hother _ _ => (hterms arg harg).2.trans (hterms other hother).2.symm
    · exact List.forall_mem_singleton.mpr (.combine (.inl rfl) rfl (List.forall_mem_nil _))
  · refine hrefused fun h => ?_
    obtain ⟨-, -, hargs⟩ := Query.wellFormed_combine_iff.mp h
    have hinner := (Query.wellFormed_iff_of_isPostings rfl).mp
      (hargs _ (List.mem_cons_of_mem _ (List.mem_cons_self ..)))
    cases hinner with
    | proximity _ _ hfields =>
      have hsame := hfields _ (List.mem_cons_self ..) _
        (List.mem_cons_of_mem _ (List.mem_cons_self ..)) (by decide) (by decide)
      exact absurd hsame (by decide)

end Search

end Retrieval
