import Retrieval.Proofs.Search.Run
import Retrieval.Proofs.Source.OfQuery

/-!
# Scoring does not fail

A scorer gives a score wherever it is asked for one, provided that the document is one of the index
and that operators are scored which it has a rule for (`Scorer.Total`). A tree is built with such
operators only and has documents of the index only, so a search fails at most while it builds the
tree (`Search.exists_run_built`).
-/

set_option autoImplicit false

namespace Retrieval

variable {α : Type}

structure Scorer.Total (scorer : Scorer α) (index : Index) : Prop where
  rule_ne_first : ∀ op rule, scorer.rule op = .ok rule → rule ≠ .first
  leaf : ∀ stats frequency (doc : DocId), doc.toNat < index.size →
    ∃ score, scorer.leaf index stats frequency doc = .ok score
  defaultLeaf : ∀ stats (doc : DocId), doc.toNat < index.size →
    ∃ score, scorer.defaultLeaf index stats doc = .ok score
  combine : ∀ op rule weights scores, scorer.rule op = .ok rule →
    ∃ score, scorer.combine op weights scores = .ok score
  combineDefault : ∀ op rule weights scores, scorer.rule op = .ok rule →
    ∃ score, scorer.combineDefault op weights scores = .ok score

variable [Scalar α] [DecimalText α] {documents : List Document}

theorem Source.lt_size_of_posted {index : Index} (hr : index.Reflects documents) {doc : DocId}
    {leaf : Query α} {source : Source} (hs : ofQuery index leaf = .ok source)
    (hd : doc ∈ source.list.docs) : doc.toNat < index.size := by
  obtain ⟨hf, hplaces⟩ := places_of_built hr hs
  rw [hf.mem_docs_iff, hplaces] at hd
  rw [hr.size_eq]
  by_contra hge
  exact hd (Query.placesIn_of_le (Nat.not_lt.mp hge) leaf)

namespace ScoreTree

variable {basis : ScoreBasis α} {doc : DocId}

/-- A tree has documents of the index only. -/
theorem lt_size_of_has (hr : basis.index.Reflects documents) {query : Query α} {tree : ScoreTree α}
    (hbuilt : ofQuery basis.scorer basis.index query = .ok tree)
    (hhas : tree.plan.has doc = true) : doc.toNat < basis.index.size := by
  induction query using Query.leafInduction generalizing tree with
  | leaf query hq =>
    obtain ⟨source, hs, rfl⟩ := ofQuery_leaf hq hbuilt
    rw [ofSource, plan, ScorePlan.has, List.contains_iff_mem] at hhas
    exact Source.lt_size_of_posted hr hs hhas
  | combine op weights args ih =>
    obtain ⟨rule, children, -, hchildren, rfl⟩ := ofQuery_combine hbuilt
    rw [plan_ofChildren, ScorePlan.has_combine] at hhas
    obtain ⟨child, hc, hhas⟩ := hhas.exists_mem
    obtain ⟨tree, ht, rfl⟩ := List.mem_map.mp hc
    obtain ⟨arg, harg, hquery⟩ := exists_of_forall₂ hchildren ht
    exact ih arg harg hquery hhas

theorem exists_scores (htotal : basis.scorer.Total basis.index)
    (hdoc : doc.toNat < basis.index.size) {query : Query α} {tree : ScoreTree α}
    (hbuilt : ofQuery basis.scorer basis.index query = .ok tree) :
    (∃ score, tree.plan.score basis doc = .ok score) ∧
      ∃ score, tree.plan.defaultScore basis doc = .ok score := by
  induction query using Query.leafInduction generalizing tree with
  | leaf query hq =>
    obtain ⟨source, -, rfl⟩ := ofQuery_leaf hq hbuilt
    exact ⟨htotal.leaf _ _ doc hdoc, htotal.defaultLeaf _ doc hdoc⟩
  | combine op weights args ih =>
    obtain ⟨rule, children, hrule, hchildren, rfl⟩ := ofQuery_combine hbuilt
    have hargs : ∀ child ∈ children.map plan, (∃ score, child.score basis doc = .ok score) ∧
        ∃ score, child.defaultScore basis doc = .ok score := by
      refine List.forall_mem_map.mpr fun child hc => ?_
      obtain ⟨arg, harg, hquery⟩ := exists_of_forall₂ hchildren hc
      exact ih arg harg hquery
    obtain ⟨shares, hshares⟩ :
        ∃ shares, ScorePlan.sharesOf basis doc (children.map plan) = .ok shares := by
      rw [ScorePlan.sharesOf_eq_mapM]
      refine exists_mapM fun child hc => ?_
      rw [ScorePlan.share]
      split
      · exact (hargs child hc).1
      · exact (hargs child hc).2
    obtain ⟨defaults, hdefaults⟩ :
        ∃ defaults, ScorePlan.defaultScores basis doc (children.map plan) = .ok defaults := by
      rw [ScorePlan.defaultScores_eq_mapM]
      exact exists_mapM fun child hc => (hargs child hc).2
    rw [plan_ofChildren, ScorePlan.score, ScorePlan.defaultScore, hshares, hdefaults]
    refine ⟨htotal.combine op rule weights shares hrule, ?_⟩
    split
    · exact ⟨_, rfl⟩
    · exact htotal.combineDefault op rule weights defaults hrule

end ScoreTree

/-- Evaluation fails in no other way than that the query cannot be built. -/
theorem Search.exists_run_built [Ord α] {search : Search α}
    (htotal : search.basis.scorer.Total search.basis.index)
    (hr : search.basis.index.Reflects documents) {query : Query α} {tree : ScoreTree α}
    (hbuilt : ScoreTree.ofQuery search.basis.scorer search.basis.index (search.wrapped query) =
      .ok tree) :
    ∃ ranking, search.run query = .ok ranking := by
  refine exists_run hr.ordered htotal.rule_ne_first hbuilt fun doc hhas => ?_
  exact (ScoreTree.exists_scores htotal (ScoreTree.lt_size_of_has hr hbuilt hhas) hbuilt).1

end Retrieval
