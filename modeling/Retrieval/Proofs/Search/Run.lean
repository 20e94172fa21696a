import Retrieval.Proofs.Ranking.Sort
import Retrieval.Proofs.Scoring.Drain
import Retrieval.Search

/-!
# Runs of a search

A search that comes out well has built a tree for the wrapped query and scored all documents of its
plan. Its ranking is the first part of these, by descending score and ascending document, as far as
the limit goes (`Search.run_eq_ok`).

The visits to a tree need no bound to come to an end: a search collects what the loop without one
has drained the tree of (`Search.run_of_drains`).
-/

set_option autoImplicit false

namespace Retrieval

variable {α : Type}

/-- The hits of all documents that a query has, each with its score, in the order of a ranking. -/
structure Complete [Ord α] (hits : List (Hit α)) (has : DocId → Prop)
    (outcome : DocId → Except Fault α) : Prop where
  has_iff : ∀ doc, (∃ hit ∈ hits, hit.doc = doc) ↔ has doc
  scored : ∀ hit ∈ hits, outcome hit.doc = .ok hit.score
  once : hits.Pairwise (·.doc ≠ ·.doc)
  sorted : hits.Pairwise (Hit.byScore · · = .lt)

namespace Complete

variable [Ord α] {hits : List (Hit α)} {has has' : DocId → Prop}
  {outcome outcome' : DocId → Except Fault α}

theorem congr (h : Complete hits has outcome) (hhas : ∀ doc, has doc ↔ has' doc)
    (houtcome : ∀ doc, has doc → outcome doc = outcome' doc) : Complete hits has' outcome' where
  has_iff doc := (h.has_iff doc).trans (hhas doc)
  scored hit hm := (houtcome hit.doc ((h.has_iff hit.doc).mp ⟨hit, hm, rfl⟩)) ▸ h.scored hit hm
  once := h.once
  sorted := h.sorted

theorem mem_iff (h : Complete hits has outcome) (hit : Hit α) :
    hit ∈ hits ↔ has hit.doc ∧ outcome hit.doc = .ok hit.score := by
  constructor
  · intro hm
    exact ⟨(h.has_iff hit.doc).mp ⟨hit, hm, rfl⟩, h.scored hit hm⟩
  · rintro ⟨hhas, hscore⟩
    obtain ⟨⟨doc, score⟩, ho, rfl⟩ := (h.has_iff hit.doc).mpr hhas
    have hother := h.scored _ ho
    rw [hscore] at hother
    cases hother
    exact ho

theorem nodup (h : Complete hits has outcome) : hits.Nodup :=
  h.once.imp fun hne heq => hne (congrArg Hit.doc heq)

/-- There is one way only to list the hits. -/
theorem unique [Std.TransOrd α] {hits' : List (Hit α)} (h : Complete hits has outcome)
    (h' : Complete hits' has outcome) : hits = hits' := by
  have hperm : hits.Perm hits' := by
    rw [List.perm_ext_iff_of_nodup h.nodup h'.nodup]
    intro hit
    rw [h.mem_iff, h'.mem_iff]
  refine hperm.eq_of_pairwise (fun a b _ _ hab hba => ?_) h.sorted h'.sorted
  exact absurd hba (Std.OrientedCmp.not_lt_of_lt hab)

end Complete

/-! ## Queries as they are evaluated -/

/-- The operator at the root, if it is a combinator. -/
def Query.operator? : Query α → Option Operator
  | combine op _ _ => some op
  | term .. | proximity .. | score _ => none

/-- The operator that a model puts queries under. -/
def Model.joiner : Model α → Operator
  | unrankedBoolean | rankedBoolean => .or
  | bm25 _ => .sum
  | indri _ => .and

/-- The query that is evaluated for a given one. With wrapping it has the operator of the model at
its root. -/
def SearchSettings.evaluated (settings : SearchSettings α) (query : Query α) : Query α :=
  if settings.wraps = true ∧ query.operator? ≠ some settings.model.joiner then
    .combine settings.model.joiner [] [query]
  else query

theorem Model.defaultOp_eq [Scalar α] [DecimalText α] {model : Model α} {scorer : Scorer α}
    (hs : model.scorer = .ok scorer) : scorer.defaultOp = model.joiner := by
  cases model with
  | unrankedBoolean | rankedBoolean =>
    cases hs
    rfl
  | bm25 params | indri params =>
    obtain ⟨_, -, rfl⟩ := map_eq_ok.mp hs
    rfl

theorem Search.wrap_eq (op : Operator) (query : Query α) :
    wrap op query = if query.operator? = some op then query else .combine op [] [query] := by
  cases query with
  | combine own weights args => simp [wrap, Query.operator?]
  | term field word => simp [wrap, Query.operator?]
  | proximity kind span args => simp [wrap, Query.operator?]
  | score arg => simp [wrap, Query.operator?]

/-! ## Rankings -/

namespace Search

theorem collect_map_eq_ok {docs : List DocId} {outcome : DocId → Except Fault α}
    {hits : List (Hit α)} (h : collect (docs.map fun doc => (doc, outcome doc)) = .ok hits) :
    hits.map (·.doc) = docs ∧ ∀ hit ∈ hits, outcome hit.doc = .ok hit.score := by
  induction docs generalizing hits with
  | nil =>
    cases h
    simp
  | cons doc rest ih =>
    simp only [List.map_cons, collect, bind_eq_ok, pure_eq_ok] at h
    obtain ⟨score, hscore, more, hmore, rfl⟩ := h
    obtain ⟨hdocs, hscored⟩ := ih hmore
    rw [List.map_cons, hdocs, List.forall_mem_cons]
    exact ⟨rfl, hscore, hscored⟩

theorem exists_collect {docs : List DocId} {outcome : DocId → Except Fault α}
    (h : ∀ doc ∈ docs, ∃ score, outcome doc = .ok score) :
    ∃ hits, collect (docs.map fun doc => (doc, outcome doc)) = .ok hits := by
  induction docs with
  | nil => exact ⟨[], rfl⟩
  | cons doc rest ih =>
    rw [List.forall_mem_cons] at h
    obtain ⟨score, hscore⟩ := h.1
    obtain ⟨hits, hhits⟩ := ih h.2
    refine ⟨{ doc, score } :: hits, ?_⟩
    simp only [List.map_cons, collect, bind_eq_ok, pure_eq_ok]
    exact ⟨score, hscore, hits, hhits, rfl⟩

theorem limit_eq (settings : SearchSettings α) (hits : List (Hit α)) :
    limit settings { hits } = { hits := settings.limit.elim hits (hits.take ·) } := by
  rw [limit]
  cases settings.limit <;> rfl

variable [Scalar α] [DecimalText α] {search : Search α}

theorem create_eq_ok {index : Index} {settings : SearchSettings α}
    (h : create index settings = .ok search) :
    settings.model.scorer = .ok search.basis.scorer ∧ search.basis.index = index ∧
      search.settings = settings := by
  simp only [create, bind_eq_ok, pure_eq_ok] at h
  obtain ⟨scorer, hscorer, rfl⟩ := h
  exact ⟨hscorer, rfl, rfl⟩

theorem wrapped_eq {index : Index} {settings : SearchSettings α}
    (hsearch : create index settings = .ok search) (query : Query α) :
    search.wrapped query = settings.evaluated query := by
  obtain ⟨hscorer, -, rfl⟩ := create_eq_ok hsearch
  rw [wrapped, SearchSettings.evaluated, wrap_eq, Model.defaultOp_eq hscorer]
  by_cases hwraps : search.settings.wraps = true
  · by_cases hroot : query.operator? = some search.settings.model.joiner <;> simp [hwraps, hroot]
  · simp [hwraps]

variable [Ord α]

/-- Every tree is drained by a loop that ends of itself, and the search is made of its hits. -/
theorem run_of_drains (hordered : search.basis.index.Ordered) {query : Query α}
    {tree : ScoreTree α}
    (hbuilt : ScoreTree.ofQuery search.basis.scorer search.basis.index (search.wrapped query) =
      .ok tree) :
    ∃ drained, (∀ other, tree.Drains search.basis other ↔ other = drained) ∧
      search.run query = (collect drained.1).map fun hits =>
        let sorted := (Ranking.sort { hits }).hits
        { hits := search.settings.limit.elim sorted (sorted.take ·) } := by
  have hsound := (ScoreTree.fresh_of_built hordered hbuilt).sound
  refine ⟨tree.drain search.basis, fun other => hsound.drains_iff, ?_⟩
  simp only [run, hbuilt, ← limit_eq]
  rfl

theorem exists_run (hordered : search.basis.index.Ordered)
    (hrule : ∀ op rule, search.basis.scorer.rule op = .ok rule → rule ≠ .first)
    {query : Query α} {tree : ScoreTree α}
    (hbuilt : ScoreTree.ofQuery search.basis.scorer search.basis.index (search.wrapped query) =
      .ok tree)
    (hscore : ∀ doc, tree.plan.has doc = true →
      ∃ score, tree.plan.score search.basis doc = .ok score) :
    ∃ ranking, search.run query = .ok ranking := by
  have hfresh := ScoreTree.fresh_of_built hordered hbuilt
  have hjoined := ScoreTree.joined_of_built hrule hbuilt
  obtain ⟨docs, -, hmem, hdrain⟩ := hfresh.sound.drain_hits search.basis hjoined
  have hdocs : ∀ doc ∈ docs, ∃ score, tree.plan.score search.basis doc = .ok score :=
    fun doc hd => hscore doc ((hfresh.expects_eq doc).mp ((hmem doc).mp hd))
  obtain ⟨hits, hcollect⟩ := exists_collect hdocs
  refine ⟨limit search.settings (Ranking.sort { hits }), ?_⟩
  simp only [run, bind_eq_ok, pure_eq_ok]
  exact ⟨tree, hbuilt, hits, hdrain ▸ hcollect, rfl⟩

variable [Std.TransOrd α]

theorem run_eq_ok (hordered : search.basis.index.Ordered)
    (hrule : ∀ op rule, search.basis.scorer.rule op = .ok rule → rule ≠ .first)
    {query : Query α} {ranking : Ranking α} (h : search.run query = .ok ranking) :
    ∃ tree hits,
      ScoreTree.ofQuery search.basis.scorer search.basis.index (search.wrapped query) = .ok tree ∧
      Complete hits (fun doc => tree.plan.has doc = true) (tree.plan.score search.basis) ∧
      ranking = { hits := search.settings.limit.elim hits (hits.take ·) } := by
  simp only [run, bind_eq_ok, pure_eq_ok] at h
  obtain ⟨tree, hbuilt, hits, hcollect, rfl⟩ := h
  have hfresh := ScoreTree.fresh_of_built hordered hbuilt
  have hjoined := ScoreTree.joined_of_built hrule hbuilt
  obtain ⟨docs, hasc, hmem, hdrain⟩ := hfresh.sound.drain_hits search.basis hjoined
  rw [hdrain] at hcollect
  obtain ⟨hdocs, hscored⟩ := collect_map_eq_ok hcollect
  have hitsAsc : hits.Pairwise (·.doc < ·.doc) := by
    rw [← List.pairwise_map (f := Hit.doc), hdocs]
    exact hasc
  have hperm := Ranking.sort_perm hitsAsc
  refine ⟨tree, (Ranking.sort { hits }).hits, hbuilt, ?_, limit_eq ..⟩
  refine ⟨fun doc => ?_, fun hit hm => ?_, Ranking.nodup_sort hitsAsc,
    Ranking.pairwise_sort hitsAsc⟩
  · rw [← hfresh.expects_eq, ← hmem, ← hdocs, List.mem_map]
    simp only [hperm.mem_iff]
  · exact hscored hit (hperm.mem_iff.mp hm)

end Search

end Retrieval
