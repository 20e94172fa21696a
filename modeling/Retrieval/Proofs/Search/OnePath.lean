import Retrieval.Decimal.Text
import Retrieval.Proofs.Index.Accepted
import Retrieval.Proofs.Search.Total

/-!
# Scores by one recursion

Under BM25 and Indri a document without a posting is scored by the same formulas as one with a
posting. A query then has a score in every document by one recursion over its nodes
(`Query.onePath`), in which nothing depends on what matches, and a search gives that score to every
document that has a posting in one of the scored lists (`Search.run_onePath`).
-/

set_option autoImplicit false

namespace Retrieval

variable {α : Type}

/-! ## The recursion -/

/-- How a model scores nodes. A leaf has statistics, a frequency, which is zero without a posting,
and the length of its field in the document. -/
structure Formulas (α : Type) where
  leaf : ListStats α → UInt32 → Nat → α
  combine : Operator → List α → List α → Except Fault α

def Bm25.formulas [Scalar α] (params : Bm25 α) : Formulas α where
  leaf stats frequency length :=
    if frequency = 0 then Scalar.zero
    else params.score frequency stats.df stats.docs length stats.averageLength
  combine := Bm25.combine

def Indri.formulas [Scalar α] (params : Indri α) : Formulas α where
  leaf stats frequency length := params.probability frequency stats.likelihood length
  combine := Indri.combine

/-- The formulas of a model; the Boolean models have none. -/
def Model.formulas? [Scalar α] : Model α → Option (Formulas α)
  | unrankedBoolean | rankedBoolean => none
  | bm25 params => some params.formulas
  | indri params => some params.formulas

namespace Query

mutual

/-- The queries whose postings are scored. -/
def scored : Query α → List (Query α)
  | term field word => [term field word]
  | proximity kind span args => [proximity kind span args]
  | score arg => [arg]
  | combine _ _ args => eachScored args

def eachScored : List (Query α) → List (Query α)
  | [] => []
  | query :: rest => scored query ++ eachScored rest

end

theorem eachScored_eq_flatMap (queries : List (Query α)) :
    eachScored queries = queries.flatMap scored := by
  induction queries with
  | nil => rfl
  | cons query rest ih => rw [eachScored, ih, List.flatMap_cons]

theorem scored_leaf {query : Query α} (hq : query.IsLeaf) : query.scored = [query.posted] := by
  cases query with
  | combine op weights args => exact hq.elim
  | term field word => rfl
  | proximity kind span args => rfl
  | score arg => rfl

variable [Scalar α]

def listScore (formulas : Formulas α) (index : Index) (doc : DocId) (list : PostingList) :
    Except Fault α := do
  let length ← index.lengthOf list.field doc
  return formulas.leaf (ListStats.ofList index list) (ScorePlan.frequencyOf list doc) length

section OnePath

variable [DecimalText α] (formulas : Formulas α) (index : Index) (doc : DocId)

mutual

/-- The score of a query in a document. An empty combinator scores zero. -/
def onePath : Query α → Except Fault α
  | term field word => do
    let source ← Source.ofQuery index (term field word : Query α)
    listScore formulas index doc source.list
  | proximity kind span args => do
    let source ← Source.ofQuery index (proximity kind span args)
    listScore formulas index doc source.list
  | score arg => do
    let source ← Source.ofQuery index arg
    listScore formulas index doc source.list
  | combine op weights args =>
    if args.isEmpty then .ok Scalar.zero
    else do
      let scores ← eachOnePath args
      formulas.combine op weights scores

def eachOnePath : List (Query α) → Except Fault (List α)
  | [] => .ok []
  | query :: rest => do
    let score ← onePath query
    let scores ← eachOnePath rest
    return score :: scores

end

theorem eachOnePath_eq_mapM (queries : List (Query α)) :
    eachOnePath formulas index doc queries = queries.mapM (onePath formulas index doc) := by
  induction queries with
  | nil => rfl
  | cons query rest ih => rw [eachOnePath, ih, List.mapM_cons]

end OnePath

theorem onePath_leaf [DecimalText α] {formulas : Formulas α} {index : Index} {doc : DocId}
    {query : Query α} (hq : query.IsLeaf) {source : Source}
    (hs : Source.ofQuery index query.posted = .ok source) :
    query.onePath formulas index doc = listScore formulas index doc source.list := by
  cases query with
  | combine op weights args => exact hq.elim
  | term field word => rw [onePath, show Source.ofQuery index (term field word) = _ from hs]; rfl
  | proximity kind span args =>
    rw [onePath, show Source.ofQuery index (proximity kind span args) = _ from hs]; rfl
  | score arg => rw [onePath, show Source.ofQuery index arg = _ from hs]; rfl

end Query

/-! ## Scorers that follow formulas -/

/-- A scorer does nothing but to apply formulas, and matches by any child. A leaf that matches has
a posting, so its frequency is not zero. -/
structure Scorer.Follows (scorer : Scorer α) (formulas : Formulas α) (index : Index) : Prop where
  rule_eq : ∀ op rule, scorer.rule op = .ok rule → rule = .min
  leaf_eq : ∀ stats frequency doc length, index.lengthOf stats.field doc = .ok length →
    frequency ≠ 0 →
      scorer.leaf index stats frequency doc = .ok (formulas.leaf stats frequency length)
  defaultLeaf_eq : ∀ stats doc length, index.lengthOf stats.field doc = .ok length →
    scorer.defaultLeaf index stats doc = .ok (formulas.leaf stats 0 length)
  combine_eq : scorer.combine = formulas.combine
  combineDefault_eq : scorer.combineDefault = formulas.combine
  exists_combine : ∀ op rule weights scores, scorer.rule op = .ok rule →
    ∃ score, formulas.combine op weights scores = .ok score

variable [Scalar α]

theorem Bm25.follows (params : Bm25 α) (index : Index) :
    params.scorer.Follows params.formulas index where
  rule_eq op rule h := by
    cases op <;> cases h <;> rfl
  leaf_eq stats frequency doc length hlength hne := by
    simp only [scorer, hlength, formulas, if_neg hne]
    rfl
  defaultLeaf_eq stats doc length _ := rfl
  combine_eq := rfl
  combineDefault_eq := rfl
  exists_combine op rule weights scores h := by
    cases op <;> cases h <;> exact ⟨_, rfl⟩

theorem Indri.follows (params : Indri α) (index : Index) :
    params.scorer.Follows params.formulas index where
  rule_eq op rule h := by
    cases op <;> cases h <;> rfl
  leaf_eq stats frequency doc length hlength _ := by
    simp only [scorer, leaf, hlength]
    rfl
  defaultLeaf_eq stats doc length hlength := by
    simp only [scorer, leaf, hlength]
    rfl
  combine_eq := rfl
  combineDefault_eq := rfl
  exists_combine op rule weights scores h := by
    cases op <;> cases h <;> exact ⟨_, rfl⟩

theorem Bm25.total (params : Bm25 α) (index : Index) : params.scorer.Total index where
  rule_ne_first op rule h := by
    rw [(params.follows index).rule_eq op rule h]
    decide
  leaf stats frequency doc hdoc := by
    simp only [scorer, Index.lengthOf, if_pos hdoc]
    exact ⟨_, rfl⟩
  defaultLeaf stats doc _ := ⟨_, rfl⟩
  combine := (params.follows index).exists_combine
  combineDefault := (params.follows index).exists_combine

theorem Indri.total (params : Indri α) (index : Index) : params.scorer.Total index where
  rule_ne_first op rule h := by
    rw [(params.follows index).rule_eq op rule h]
    decide
  leaf stats frequency doc hdoc := by
    simp only [scorer, Indri.leaf, Index.lengthOf, if_pos hdoc]
    exact ⟨_, rfl⟩
  defaultLeaf stats doc hdoc := by
    simp only [scorer, Indri.leaf, Index.lengthOf, if_pos hdoc]
    exact ⟨_, rfl⟩
  combine := (params.follows index).exists_combine
  combineDefault := (params.follows index).exists_combine

theorem Model.follows [DecimalText α] {model : Model α} {scorer : Scorer α} {formulas : Formulas α}
    (hs : model.scorer = .ok scorer) (hf : model.formulas? = some formulas) (index : Index) :
    scorer.Follows formulas index := by
  cases model with
  | unrankedBoolean => cases hf
  | rankedBoolean => cases hf
  | bm25 params =>
    obtain ⟨_, _, rfl⟩ := map_eq_ok.mp hs
    cases hf
    exact params.follows index
  | indri params =>
    obtain ⟨_, _, rfl⟩ := map_eq_ok.mp hs
    cases hf
    exact params.follows index

/-! ## Two recursions in one -/

namespace ScorePlan

theorem sharesOf_eq_defaultScores (basis : ScoreBasis α) {doc : DocId} {plans : List (ScorePlan α)}
    (hnone : ∀ plan ∈ plans, plan.has doc = false) :
    sharesOf basis doc plans = defaultScores basis doc plans := by
  rw [sharesOf_eq_mapM, defaultScores_eq_mapM]
  refine mapM_congr_of_mem fun plan hp => ?_
  rw [share, hnone plan hp]
  rfl

end ScorePlan

namespace ScoreTree

variable [DecimalText α] {basis : ScoreBasis α} {formulas : Formulas α}

/-- What a child adds to its parent, matched or not, is its score by one path. -/
theorem share_eq_onePath (hfollow : basis.scorer.Follows formulas basis.index)
    {documents : List Document} (hr : basis.index.Reflects documents) {doc : DocId}
    (hdoc : doc.toNat < basis.index.size) {query : Query α} {tree : ScoreTree α}
    (hbuilt : ofQuery basis.scorer basis.index query = .ok tree) :
    tree.plan.share basis doc = query.onePath formulas basis.index doc := by
  induction query using Query.leafInduction generalizing tree with
  | leaf query hq =>
    obtain ⟨source, hs, rfl⟩ := ofQuery_leaf hq hbuilt
    obtain ⟨hf, -⟩ := Source.places_of_built hr hs
    obtain ⟨length, hlength⟩ : ∃ length, basis.index.lengthOf source.list.field doc = .ok length :=
      ⟨_, if_pos hdoc⟩
    have hcount := hf.toNat_frequencyOf doc
    rw [Query.onePath_leaf hq hs, Query.listScore, hlength]
    by_cases hhas : doc ∈ source.list.docs
    · have hne : ScorePlan.frequencyOf source.list doc ≠ 0 := fun hzero => by
        rw [hzero] at hcount
        exact hf.mem_docs_iff.mp hhas (List.length_eq_zero_iff.mp hcount.symm)
      have hmark : (ofSource basis.index source : ScoreTree α).plan.has doc = true := by
        simpa [ofSource, plan, ScorePlan.has] using hhas
      rw [ScorePlan.share, if_pos hmark]
      exact hfollow.leaf_eq _ _ doc length hlength hne
    · have hzero : ScorePlan.frequencyOf source.list doc = 0 := by
        rw [hf.mem_docs_iff, not_not] at hhas
        rw [hhas] at hcount
        exact UInt32.toNat_inj.mp hcount
      have hmark : (ofSource basis.index source : ScoreTree α).plan.has doc = false := by
        simpa [ofSource, plan, ScorePlan.has] using hhas
      rw [ScorePlan.share, hmark, hzero]
      exact hfollow.defaultLeaf_eq _ doc length hlength
  | combine op weights args ih =>
    obtain ⟨rule, children, hrule, hchildren, rfl⟩ := ofQuery_combine hbuilt
    obtain rfl := hfollow.rule_eq op rule hrule
    have hshares : ScorePlan.sharesOf basis doc (children.map plan) =
        Query.eachOnePath formulas basis.index doc args := by
      have hstep : List.Forall₂ (fun arg child =>
          arg.onePath formulas basis.index doc = child.plan.share basis doc) args children :=
        forall₂_imp_of_mem hchildren fun arg harg _ hquery => (ih arg harg hquery).symm
      rw [ScorePlan.sharesOf_eq_mapM, List.mapM_map, Query.eachOnePath_eq_mapM]
      exact (mapM_eq_mapM_of_forall₂ hstep).symm
    rw [plan_ofChildren, ScorePlan.share, Query.onePath]
    by_cases hhas : (ScorePlan.combine op weights .min (children.map plan)).has doc = true
    · have hne : args.isEmpty = false := by
        obtain ⟨child, hc, -⟩ := ((ScorePlan.has_combine doc ..).mp hhas).exists_mem
        cases hchildren with
        | nil => cases hc
        | cons => rfl
      rw [if_pos hhas, ScorePlan.score, hshares, hfollow.combine_eq, hne]
      rfl
    · have hnone : ∀ child ∈ children.map plan, child.has doc = false := fun child hc => by
        rw [← Bool.not_eq_true]
        exact fun hchild => hhas ((ScorePlan.has_combine doc ..).mpr ⟨child, hc, hchild⟩)
      have hempty : (children.map plan).isEmpty = args.isEmpty := by
        cases hchildren <;> rfl
      rw [if_neg hhas, ScorePlan.defaultScore, hempty,
        ← ScorePlan.sharesOf_eq_defaultScores basis hnone, hshares, hfollow.combineDefault_eq]

/-- Where any child is enough for a match, a tree has the documents of its leaves. -/
theorem has_iff_scored (hmin : ∀ op rule, basis.scorer.rule op = .ok rule → rule = .min)
    {query : Query α} {tree : ScoreTree α}
    (hbuilt : ofQuery basis.scorer basis.index query = .ok tree) (doc : DocId) :
    tree.plan.has doc = true ↔ ∃ leaf ∈ query.scored, ∃ source,
      Source.ofQuery basis.index leaf = .ok source ∧ doc ∈ source.list.docs := by
  induction query using Query.leafInduction generalizing tree with
  | leaf query hq =>
    obtain ⟨source, hs, rfl⟩ := ofQuery_leaf hq hbuilt
    rw [Query.scored_leaf hq, ofSource, plan, ScorePlan.has, List.contains_iff_mem]
    simp [hs]
  | combine op weights args ih =>
    obtain ⟨rule, children, hrule, hchildren, rfl⟩ := ofQuery_combine hbuilt
    obtain rfl := hmin op rule hrule
    rw [plan_ofChildren, ScorePlan.has_combine, MatchRule.admits_map_iff, Query.scored,
      Query.eachScored_eq_flatMap]
    clear hbuilt
    induction hchildren with
    | nil => simp [MatchRule.Admits]
    | cons hquery _ ihRest =>
      rw [List.forall_mem_cons] at ih
      have hfirst := ih.1 hquery
      have hrest := ihRest ih.2
      simp only [MatchRule.Admits, List.mem_cons, List.flatMap_cons, List.mem_append] at hrest ⊢
      rw [exists_eq_or_imp, hfirst, hrest]
      grind

end ScoreTree

/-! ## Searches -/

namespace Search

variable [DecimalText α] {search : Search α} {formulas : Formulas α} {documents : List Document}

/-- Under BM25 or Indri a search ranks exactly the documents that have a posting in a scored list of
the query that is evaluated, by their scores by one path. With a limit the ranking is that many of
the first hits. -/
theorem run_onePath {index : Index} (hb : index.BuiltOf documents)
    (hn : documents.length < UInt32.size) {settings : SearchSettings Float} {search : Search Float}
    (hsearch : create index settings = .ok search) {formulas : Formulas Float}
    (hmodel : settings.model.formulas? = some formulas) {query : Query Float}
    {ranking : Ranking Float} (hrun : search.run query = .ok ranking) :
    ∃ hits : List (Hit Float),
      Complete hits
        (fun doc => ∃ leaf ∈ (settings.evaluated query).scored, ∃ source,
          Source.ofQuery index leaf = .ok source ∧ doc ∈ source.list.docs)
        (fun doc => (settings.evaluated query).onePath formulas index doc) ∧
      ranking = { hits := settings.limit.elim hits (hits.take ·) } := by
  have hr := hb.reflects hn
  obtain ⟨hscorer, hindex, hsettings⟩ := create_eq_ok hsearch
  have hfollow := Model.follows hscorer hmodel search.basis.index
  rw [← wrapped_eq hsearch, ← hindex]
  rw [← hindex] at hr
  obtain ⟨tree, hits, hbuilt, hcomplete, hranking⟩ := run_eq_ok hr.ordered
    (fun op rule h => by rw [hfollow.rule_eq op rule h]; decide) hrun
  have hscored := ScoreTree.has_iff_scored hfollow.rule_eq hbuilt
  refine ⟨hits, hcomplete.congr hscored fun doc hhas => ?_, hsettings ▸ hranking⟩
  obtain ⟨leaf, -, source, hs, hd⟩ := (hscored doc).mp hhas
  have hshare := ScoreTree.share_eq_onePath hfollow hr (Source.lt_size_of_posted hr hs hd) hbuilt
  rw [ScorePlan.share, if_pos hhas] at hshare
  exact hshare

/-- A query with a posting in both documents. -/
def onePathSample : Query Float := .or [.term "body" "red", .term "title" "red"]

def onePathSearch : Search Float :=
  { basis := { scorer := Indri.standard.scorer, index := Index.empty.offered Index.mixedOffers }
    settings := { model := .indri Indri.standard, limit := some 1, wraps := true } }

theorem run_onePath_sample : ∃ ranking, onePathSearch.run onePathSample = .ok ranking ∧
    ∃ hits : List (Hit Float),
      Complete hits
        (fun doc => ∃ leaf ∈ (Query.and [onePathSample]).scored, ∃ source,
          Source.ofQuery onePathSearch.basis.index leaf = .ok source ∧ doc ∈ source.list.docs)
        (fun doc => (Query.and [onePathSample]).onePath Indri.standard.formulas
          onePathSearch.basis.index doc) ∧
      ranking = { hits := hits.take 1 } ∧ (∃ hit ∈ hits, hit.doc = 0) ∧
      (∃ hit ∈ hits, hit.doc = 1) ∧ ranking.hits.length = 1 := by
  have hb := Index.builtOf_mixed
  have hr := hb.reflects (by decide)
  have hvalid : Indri.standard.validate = .ok () := by decide +kernel
  have hcreate : create onePathSearch.basis.index onePathSearch.settings = .ok onePathSearch := by
    simp only [create, onePathSearch, Model.scorer, hvalid]
    rfl
  have hbuilt : ScoreTree.ofQuery onePathSearch.basis.scorer onePathSearch.basis.index
      (onePathSearch.wrapped onePathSample) = .ok (.ofChildren .and [] .min
        [.ofChildren .or [] .min
          [.ofSource onePathSearch.basis.index
              (Source.ofTerm onePathSearch.basis.index "body" "red"),
            .ofSource onePathSearch.basis.index
              (Source.ofTerm onePathSearch.basis.index "title" "red")]]) := rfl
  obtain ⟨ranking, hrun⟩ := exists_run_built (Indri.standard.total _) hr hbuilt
  obtain ⟨hits, hcomplete, hranking⟩ := run_onePath hb (by decide) hcreate rfl hrun
  have hbody : (0 : DocId) ∈ (onePathSearch.basis.index.postings "body" "red").docs :=
    hr.mem_docs_iff.mpr ⟨Index.sampleDocument, rfl, by decide⟩
  have htitle : (1 : DocId) ∈ (onePathSearch.basis.index.postings "title" "red").docs :=
    hr.mem_docs_iff.mpr ⟨Index.laterDocument, rfl, by decide⟩
  have hfirst := (hcomplete.has_iff 0).mpr ⟨.term "body" "red", List.mem_cons_self ..,
    Source.ofTerm onePathSearch.basis.index "body" "red", rfl, hbody⟩
  have hsecond := (hcomplete.has_iff 1).mpr ⟨.term "title" "red",
    List.mem_cons_of_mem _ (List.mem_cons_self ..),
    Source.ofTerm onePathSearch.basis.index "title" "red", rfl, htitle⟩
  have hsome : 0 < hits.length := by
    obtain ⟨hit, hm, -⟩ := hfirst
    exact List.length_pos_of_mem hm
  refine ⟨ranking, hrun, hits, hcomplete, hranking, hfirst, hsecond, ?_⟩
  rw [hranking]
  exact (List.length_take ..).trans (Nat.min_eq_left hsome)

end Search

end Retrieval
