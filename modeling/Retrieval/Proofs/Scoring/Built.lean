import Retrieval.Proofs.Index.History
import Retrieval.Proofs.Outcome
import Retrieval.Proofs.Scoring.Traversal
import Retrieval.Scoring.TreeOfQuery

/-!
# Trees that queries are built into

On an index with ascending posting lists a query is built into a fresh tree
(`ScoreTree.fresh_of_built`), whose combinators match as the scorer says
(`ScoreTree.joined_of_built`). The lists of an index are ascending whatever it was offered
(`Index.ordered_of_offered`). Proximity operators need no more of their arguments: what they append
is in order, or refused.
-/

set_option autoImplicit false

namespace Retrieval

variable {α : Type}

@[elab_as_elim]
theorem Query.inductionOn {motive : Query α → Prop} (query : Query α)
    (term : ∀ field word, motive (.term field word))
    (proximity : ∀ kind span args, (∀ arg ∈ args, motive arg) →
      motive (.proximity kind span args))
    (score : ∀ arg, motive arg → motive (.score arg))
    (combine : ∀ op weights args, (∀ arg ∈ args, motive arg) →
      motive (.combine op weights args)) : motive query :=
  match query with
  | .term field word => term field word
  | .proximity kind span args => proximity kind span args fun arg _ =>
    inductionOn arg term proximity score combine
  | .score arg => score arg (inductionOn arg term proximity score combine)
  | .combine op weights args => combine op weights args fun arg _ =>
    inductionOn arg term proximity score combine

namespace Query

/-- Whether the query is built into a leaf. -/
def IsLeaf : Query α → Prop
  | combine .. => False
  | term .. | proximity .. | score _ => True

/-- The query that gives a leaf its postings. -/
def posted : Query α → Query α
  | score arg => arg
  | query => query

@[elab_as_elim]
theorem leafInduction {motive : Query α → Prop} (query : Query α)
    (leaf : ∀ query, IsLeaf query → motive query)
    (combine : ∀ op weights args, (∀ arg ∈ args, motive arg) →
      motive (.combine op weights args)) : motive query := by
  induction query using inductionOn with
  | term field word => exact leaf _ trivial
  | proximity kind span args _ => exact leaf _ trivial
  | score arg _ => exact leaf _ trivial
  | combine op weights args ih => exact combine op weights args ih

end Query

/-! ## Sources -/

theorem Proximity.ascending_merge {kind : ProximityOp} {span : UInt32} {sources : List Source}
    {list : PostingList} (h : merge kind span sources = .ok list) : list.Ascending := by
  unfold merge at h
  split at h
  · cases h
  · dsimp only at h
    split at h
    · cases h
    · exact mergeFrom_keeps ascending_record (PostingList.ascending_empty _) h

variable [Scalar α] [DecimalText α]

/-- A source that was just built stands at the start of an ascending list. -/
theorem Source.built {index : Index} (hordered : index.Ordered) {query : Query α}
    {source : Source} (h : ofQuery index query = .ok source) :
    source.list.Ascending ∧ source = ofList source.label source.list := by
  cases query with
  | term field word =>
    cases h
    exact ⟨hordered field word, rfl⟩
  | proximity kind span args =>
    simp only [ofQuery, bind_eq_ok, pure_eq_ok] at h
    obtain ⟨_, _, sources, _, list, hmerge, rfl⟩ := h
    exact ⟨Proximity.ascending_merge hmerge, rfl⟩
  | score arg => cases h
  | combine op weights args => cases h

/-! ## Trees -/

/-- No combinator looks at its first child only. -/
inductive ScorePlan.Joined : ScorePlan α → Prop
  | leaf {list : PostingList} {stats : ListStats α} : Joined (leaf list stats)
  | combine {op : Operator} {weights : List α} {rule : MatchRule}
      {children : List (ScorePlan α)} (hrule : rule ≠ .first)
      (hchildren : ∀ child ∈ children, Joined child) : Joined (combine op weights rule children)

namespace ScoreTree

variable {scorer : Scorer α} {index : Index}

theorem ofQueries_eq_mapM (queries : List (Query α)) :
    ofQueries scorer index queries = queries.mapM (ofQuery scorer index) := by
  induction queries with
  | nil => rfl
  | cons query rest ih => rw [ofQueries, ih, List.mapM_cons]

theorem ofQuery_leaf {query : Query α} (hq : query.IsLeaf) {tree : ScoreTree α}
    (h : ofQuery scorer index query = .ok tree) :
    ∃ source, Source.ofQuery index query.posted = .ok source ∧ tree = ofSource index source := by
  cases query with
  | term field word =>
    simp only [ofQuery, bind_eq_ok, pure_eq_ok] at h
    obtain ⟨source, hs, rfl⟩ := h
    exact ⟨source, hs, rfl⟩
  | proximity kind span args =>
    simp only [ofQuery, bind_eq_ok, pure_eq_ok] at h
    obtain ⟨source, hs, rfl⟩ := h
    exact ⟨source, hs, rfl⟩
  | score arg =>
    simp only [ofQuery, bind_eq_ok, pure_eq_ok] at h
    obtain ⟨_, _, source, hs, rfl⟩ := h
    exact ⟨source, hs, rfl⟩
  | combine op weights args => exact hq.elim

theorem ofQuery_combine {op : Operator} {weights : List α} {args : List (Query α)}
    {tree : ScoreTree α} (h : ofQuery scorer index (.combine op weights args) = .ok tree) :
    ∃ rule children, scorer.rule op = .ok rule ∧
      List.Forall₂ (fun query tree => ofQuery scorer index query = .ok tree) args children ∧
      tree = ofChildren op weights rule children := by
  simp only [ofQuery, bind_eq_ok, pure_eq_ok, ofQueries_eq_mapM, mapM_eq_ok] at h
  obtain ⟨_, _, rule, hr, children, hc, rfl⟩ := h
  exact ⟨rule, children, hr, hc, rfl⟩

theorem fresh_of_built (hordered : index.Ordered) {query : Query α} {tree : ScoreTree α}
    (h : ofQuery scorer index query = .ok tree) : tree.Fresh := by
  induction query using Query.leafInduction generalizing tree with
  | leaf query hq =>
    obtain ⟨source, hs, rfl⟩ := ofQuery_leaf hq h
    obtain ⟨ha, he⟩ := Source.built hordered hs
    rw [ofSource, he]
    exact .leaf ha
  | combine op weights args ih =>
    obtain ⟨rule, children, _, hc, rfl⟩ := ofQuery_combine h
    refine .combine fun child hchild => ?_
    obtain ⟨arg, harg, hbuilt⟩ := exists_of_forall₂ hc hchild
    exact ih arg harg hbuilt

theorem joined_of_built (hrule : ∀ op rule, scorer.rule op = .ok rule → rule ≠ .first)
    {query : Query α} {tree : ScoreTree α} (h : ofQuery scorer index query = .ok tree) :
    tree.plan.Joined := by
  induction query using Query.leafInduction generalizing tree with
  | leaf query hq =>
    obtain ⟨source, _, rfl⟩ := ofQuery_leaf hq h
    exact .leaf
  | combine op weights args ih =>
    obtain ⟨rule, children, hr, hc, rfl⟩ := ofQuery_combine h
    rw [plan_ofChildren]
    refine .combine (hrule op rule hr) (List.forall_mem_map.mpr fun child hchild => ?_)
    obtain ⟨arg, harg, hbuilt⟩ := exists_of_forall₂ hc hchild
    exact ih arg harg hbuilt

end ScoreTree

end Retrieval
