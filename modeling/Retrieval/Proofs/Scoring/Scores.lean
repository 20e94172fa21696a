import Retrieval.Decimal.Text
import Retrieval.Proofs.Scoring.Built
import Retrieval.Scoring.Boolean

/-!
# Scores of a moved tree

Scores are a matter of the document alone. A tree that stands on a document scores what its plan
scores there (`ScoreTree.Sound.score_eq`), and its default scores are those of its plan wherever
it stands (`ScoreTree.defaultScore_eq`). The choice between the two is made from where the children
stand; a sound tree has every child that has the document standing on it.

The main statement is `ScoreTree.score_after_calls`.
-/

set_option autoImplicit false

namespace Retrieval.ScoreTree

variable {α : Type}

/-! ## Documents that a tree stands on -/

/-- No tree has a document before it that its plan does not have. -/
theorem Sound.has_of_expects {tree : ScoreTree α} (hs : tree.Sound) {doc : DocId}
    (hd : tree.expects doc = true) : tree.plan.has doc = true := by
  induction hs with
  | @leaf source stats hsource =>
    obtain ⟨posting, hp, rfl⟩ := Source.expects_iff.mp hd
    rw [plan, ScorePlan.has, List.contains_iff_mem, PostingList.docs]
    exact List.mem_map_of_mem (hsource.suffix.subset hp)
  | @combine op weights rule children current exhausted _ _ ih =>
    rw [expects_combine] at hd
    rw [plan_combine, ScorePlan.has_combine, rule.admits_map_iff]
    exact hd.mono ih

/-- Under a combinator that stands on a document, a child stands on it exactly if it has it. -/
theorem NodeSound.standsOn_eq {rule : MatchRule} {children : List (ScoreTree α)} {doc : DocId}
    (hn : NodeSound rule children (some doc) false)
    (hr : rule ≠ .first) {child : ScoreTree α} (hc : child ∈ children) (hs : child.Sound) :
    child.standsOn doc = child.plan.has doc := by
  rw [standsOn, Bool.eq_iff_iff, beq_iff_eq]
  constructor
  · intro hd
    exact hs.has_of_expects (hs.least_doc hd).1
  · intro hhas
    have hfirst := hn.current_first doc rfl
    exact hn.children_stand hr doc rfl child hc (hn.none_lost doc hfirst.1 child hc hhas)

/-! ## Scores -/

variable [Scalar α] (basis : ScoreBasis α)

theorem defaultScores_eq_mapM (doc : DocId) (trees : List (ScoreTree α)) :
    defaultScores basis doc trees = trees.mapM (defaultScore basis doc) := by
  induction trees with
  | nil => rfl
  | cons tree rest ih => rw [defaultScores, ih, List.mapM_cons]

theorem scoresAt_eq_mapM (doc : DocId) (trees : List (ScoreTree α)) :
    scoresAt basis doc trees = trees.mapM fun tree =>
      if tree.standsOn doc then tree.score basis else tree.defaultScore basis doc := by
  induction trees with
  | nil => rfl
  | cons tree rest ih =>
    rw [scoresAt, ih, List.mapM_cons]
    split <;> rfl

theorem defaultScore_eq (doc : DocId) (tree : ScoreTree α) :
    tree.defaultScore basis doc = tree.plan.defaultScore basis doc := by
  induction tree using inductionOn with
  | leaf source stats => rfl
  | combine op weights rule children current exhausted ih =>
    have hall : defaultScores basis doc children =
        ScorePlan.defaultScores basis doc (children.map plan) := by
      rw [defaultScores_eq_mapM, ScorePlan.defaultScores_eq_mapM, List.mapM_map]
      exact mapM_congr_of_mem ih
    rw [plan_combine, defaultScore, ScorePlan.defaultScore, hall, List.isEmpty_map]

theorem scoresAt_eq (doc : DocId) {children : List (ScoreTree α)}
    (hstand : ∀ child ∈ children, child.standsOn doc = child.plan.has doc)
    (hscore : ∀ child ∈ children, child.standsOn doc = true →
      child.score basis = child.plan.score basis doc) :
    scoresAt basis doc children = ScorePlan.sharesOf basis doc (children.map plan) := by
  rw [scoresAt_eq_mapM, ScorePlan.sharesOf_eq_mapM, List.mapM_map]
  refine mapM_congr_of_mem fun child hc => ?_
  rw [Function.comp_apply, ScorePlan.share, ← hstand child hc]
  split
  · exact hscore child hc ‹_›
  · exact defaultScore_eq basis doc child

theorem Sound.score_eq {tree : ScoreTree α} (hs : tree.Sound) (hj : tree.plan.Joined)
    {doc : DocId} (hd : tree.doc? = some doc) :
    tree.score basis = tree.plan.score basis doc := by
  induction hs with
  | @leaf source stats hsource =>
    obtain ⟨posting, hp, rfl⟩ := Option.map_eq_some_iff.mp hd
    have hlist := hsource.posting_of_current hp
    rw [plan, ScorePlan.score, ScorePlan.frequencyOf, hlist, score, hp]
    rfl
  | @combine op weights rule children current exhausted hchildren hnode ih =>
    rw [plan_combine] at hj ⊢
    cases hj with
    | combine hr hjoined =>
      obtain rfl : current = some doc := hd
      have hex : exhausted = false := by
        cases exhausted with
        | false => rfl
        | true => cases (hnode.exhausted_none rfl).1
      subst hex
      have hstand := fun child hc => hnode.standsOn_eq hr hc (hchildren child hc)
      rw [score, ScorePlan.score, scoresAt_eq basis doc hstand]
      intro child hc hon
      exact ih child hc (hjoined _ (List.mem_map_of_mem hc)) (beq_iff_eq.mp hon)

/-! ## Any calls in any order -/

/-- Where a fresh tree settles after any calls, it is on a document of its plan, and scores there
what its plan does. -/
theorem Fresh.score_run {tree : ScoreTree α} (hf : tree.Fresh) (hj : tree.plan.Joined)
    (calls : List CursorCall) {doc : DocId}
    (hd : (cursor.run calls tree).settle.2.doc? = some doc) :
    tree.plan.has doc = true ∧
      (cursor.run calls tree).settle.2.score basis = tree.plan.score basis doc := by
  have hs : (cursor.run calls tree).settle.2.Sound :=
    cursor_lawful.sound_settle _ (cursor_lawful.sound_run calls hf.sound)
  have hplan : (cursor.run calls tree).settle.2.plan = tree.plan :=
    (plan_settleWithin _ _).trans (cursor_keeps_plan.run calls tree)
  rw [← hplan] at hj ⊢
  exact ⟨hs.has_of_expects (hs.least_doc hd).1, hs.score_eq basis hj hd⟩

theorem defaultScore_run (calls : List CursorCall) (tree : ScoreTree α) (doc : DocId) :
    (cursor.run calls tree).defaultScore basis doc = tree.plan.defaultScore basis doc := by
  rw [defaultScore_eq, cursor_keeps_plan.run calls tree]

/-- For a scorer that matches combinators by all or by any of their children: on whatever way a
built tree came to a document, its score there is that of its plan, and so are its default scores
wherever it stands. -/
theorem score_after_calls [DecimalText α] {basis : ScoreBasis α}
    (hordered : basis.index.Ordered)
    (hrule : ∀ op rule, basis.scorer.rule op = .ok rule → rule = .all ∨ rule = .min)
    {query : Query α} {tree : ScoreTree α}
    (hbuilt : ofQuery basis.scorer basis.index query = .ok tree) (calls : List CursorCall) :
    let reached := cursor.run calls tree
    (∀ doc, reached.settle.1 = true → reached.settle.2.doc? = some doc →
      reached.settle.2.score basis = tree.plan.score basis doc) ∧
    ∀ doc, reached.defaultScore basis doc = tree.plan.defaultScore basis doc := by
  intro reached
  have hf : tree.Fresh := fresh_of_built hordered hbuilt
  have hj : tree.plan.Joined := joined_of_built (fun op rule hr => by
    rcases hrule op rule hr with rfl | rfl <;> decide) hbuilt
  exact ⟨fun doc _ hd => (hf.score_run basis hj calls hd).2, defaultScore_run basis calls tree⟩

def sampleList : PostingList :=
  { field := "body", postings := #[⟨1, 1, [0]⟩, ⟨4, 2, [0, 3]⟩], ctf := 3 }

def sampleBasis : ScoreBasis Float :=
  { scorer := Boolean.ranked
    index := { Index.empty with
      lists := Index.empty.lists.insert ("body", "red") sampleList } }

def sampleQuery : Query Float := .or [.term "body" "red", .and [.term "body" "blue"]]

def sampleBuilt : ScoreTree Float :=
  ofChildren .or [] .min
    [ofSource sampleBasis.index (Source.ofTerm sampleBasis.index "body" "red"),
      ofChildren .and [] .all
        [ofSource sampleBasis.index (Source.ofTerm sampleBasis.index "body" "blue")]]

theorem postings_sample (field word : String) : sampleBasis.index.postings field word =
    if "body" = field ∧ "red" = word then sampleList else PostingList.empty field := by
  rw [sampleBasis, Index.postings_insert, Index.postings, Index.empty, Std.HashMap.getD_empty]

theorem built_sample :
    ofQuery sampleBasis.scorer sampleBasis.index sampleQuery = .ok sampleBuilt := rfl

theorem rule_sample :
    ∀ op rule, sampleBasis.scorer.rule op = .ok rule → rule = .all ∨ rule = .min := by
  intro op rule h
  cases op <;> cases h
  · exact .inl rfl
  · exact .inr rfl

theorem ordered_sample : sampleBasis.index.Ordered := by
  intro field word
  rw [postings_sample]
  split
  · decide
  · exact PostingList.ascending_empty field

theorem plan_sample : sampleBuilt.plan = .combine .or [] .min
    [.leaf sampleList (ListStats.ofList sampleBasis.index sampleList),
      .combine .and [] .all [.leaf (PostingList.empty "body")
        (ListStats.ofList sampleBasis.index (PostingList.empty "body"))]] := by
  have hred := postings_sample "body" "red"
  have hblue := postings_sample "body" "blue"
  rw [if_pos (by decide)] at hred
  rw [if_neg (by decide)] at hblue
  simp only [sampleBuilt, ofChildren, plan, plans, ofSource, Source.ofTerm, Source.ofList, hred,
    hblue]

theorem score_after_calls_sample :
    let reached := cursor.run [.settle, .moveBeyond 1, .look] sampleBuilt
    ofQuery sampleBasis.scorer sampleBasis.index sampleQuery = .ok sampleBuilt ∧
      reached.settle.1 = true ∧ reached.settle.2.doc? = some 4 ∧
      reached.settle.2.score sampleBasis =
        .ok (Boolean.disjunction [Scalar.ofNat 2, Scalar.zero]) ∧
      reached.defaultScore sampleBasis 1 = .ok Scalar.zero := by
  intro reached
  have hf : sampleBuilt.Fresh := fresh_of_built ordered_sample built_sample
  have hs : reached.Sound := cursor_lawful.sound_run _ hf.sound
  have hleft : ∀ doc, reached.expects doc = true ↔ doc = 4 := fun doc => by
    have hhas : sampleBuilt.plan.has doc = true ↔ doc = 1 ∨ doc = 4 := by
      simp [plan_sample, ScorePlan.has, ScorePlan.eachHas, MatchRule.holds, PostingList.docs,
        PostingList.toList, PostingList.empty, sampleList]
    rw [cursor_lawful.ahead_run _ hf.sound, hf.expects_eq, hhas]
    constructor
    · rintro ⟨rfl | rfl, hreach⟩
      · revert hreach; decide
      · rfl
    · rintro rfl
      decide
  have hdoc : reached.settle.2.doc? = some 4 :=
    (cursor_lawful.first_doc reached hs).eq_some_iff.mpr
      ⟨(hleft 4).mpr rfl, fun other ho => (hleft other).mp ho ▸ UInt32.le_refl _⟩
  have hfound : reached.settle.1 = true :=
    (cursor_lawful.found_iff reached hs).trans (congrArg Option.isSome hdoc)
  obtain ⟨hscore, hdefault⟩ := score_after_calls ordered_sample rule_sample built_sample
    [.settle, .moveBeyond 1, .look]
  have hplan : sampleBuilt.plan.score sampleBasis 4 =
      .ok (Boolean.disjunction [Scalar.ofNat 2, Scalar.zero]) := by rw [plan_sample]; rfl
  exact ⟨built_sample, hfound, hdoc, (hscore 4 hfound hdoc).trans hplan, hdefault 1⟩

end Retrieval.ScoreTree
