import Mathlib.Tactic.Common
import Retrieval.Proofs.Postings
import Retrieval.Scoring.Score

/-!
# Score plans

A score plan is a score tree without its cursors: what stays of the tree when it is moved. It says
which documents the tree has (`ScorePlan.has`), what it scores on them and what it adds elsewhere
(`ScorePlan.score`, `ScorePlan.defaultScore`), so these depend on a document only, and not on how
a traversal came to it.
-/

set_option autoImplicit false

namespace Retrieval

/-- Whether a node matches, given which of its children match. A conjunction without children
matches nothing. -/
def MatchRule.holds : MatchRule → List Bool → Bool
  | .all, marks => !marks.isEmpty && marks.all id
  | .min, marks => marks.any id
  | .first, marks => marks.headD false

theorem MatchRule.holds_map_iff {σ : Type} (rule : MatchRule) (p : σ → Bool) (items : List σ) :
    rule.holds (items.map p) = true ↔ rule.Admits (fun item => p item = true) items := by
  cases rule with
  | all => simp [holds, Admits]
  | min => simp [holds, Admits]
  | first => cases items <;> simp [holds, Admits]

/-- Leaves are posting lists with their statistics. -/
inductive ScorePlan (α : Type) where
  | leaf (list : PostingList) (stats : ListStats α)
  | combine (op : Operator) (weights : List α) (rule : MatchRule) (children : List (ScorePlan α))

variable {α : Type}

namespace ScorePlan

mutual

/-- The documents of a plan are those of its lists, joined as the rules say. -/
def has (doc : DocId) : ScorePlan α → Bool
  | leaf list _ => list.docs.contains doc
  | combine _ _ rule children => rule.holds (eachHas doc children)

def eachHas (doc : DocId) : List (ScorePlan α) → List Bool
  | [] => []
  | plan :: rest => has doc plan :: eachHas doc rest

end

mutual

def height : ScorePlan α → Nat
  | leaf .. => 1
  | combine _ _ _ children => heightOfAll children + 1

def heightOfAll : List (ScorePlan α) → Nat
  | [] => 0
  | plan :: rest => max (height plan) (heightOfAll rest)

end

theorem eachHas_eq_map (doc : DocId) (plans : List (ScorePlan α)) :
    eachHas doc plans = plans.map (has doc) := by
  induction plans with
  | nil => rfl
  | cons plan rest ih => rw [eachHas, ih, List.map_cons]

theorem has_combine (doc : DocId) (op : Operator) (weights : List α) (rule : MatchRule)
    (children : List (ScorePlan α)) :
    has doc (combine op weights rule children) = true ↔
      rule.Admits (fun child => has doc child = true) children := by
  rw [has, eachHas_eq_map, MatchRule.holds_map_iff]

/-! ## Scores -/

section Scores

variable [Scalar α] (basis : ScoreBasis α)

mutual

/-- What a plan adds to a document that it does not have. -/
def defaultScore (doc : DocId) : ScorePlan α → Except Fault α
  | leaf _ stats => basis.scorer.defaultLeaf basis.index stats doc
  | combine op weights _ children =>
    if children.isEmpty then .ok Scalar.zero
    else do
      let scores ← defaultScores doc children
      basis.scorer.combineDefault op weights scores

def defaultScores (doc : DocId) : List (ScorePlan α) → Except Fault (List α)
  | [] => .ok []
  | plan :: rest => do
    let score ← defaultScore doc plan
    let scores ← defaultScores doc rest
    return score :: scores

end

/-- The frequency that a list has for a document; zero without a posting. -/
def frequencyOf (list : PostingList) (doc : DocId) : UInt32 :=
  ((list.posting? doc).map (·.frequency)).getD 0

mutual

/-- The score of a document of the plan. Children that do not have it add their default score. -/
def score (doc : DocId) : ScorePlan α → Except Fault α
  | leaf list stats => basis.scorer.leaf basis.index stats (frequencyOf list doc) doc
  | combine op weights _ children => do
    let scores ← sharesOf doc children
    basis.scorer.combine op weights scores

def sharesOf (doc : DocId) : List (ScorePlan α) → Except Fault (List α)
  | [] => .ok []
  | plan :: rest => do
    let score ← if has doc plan then score doc plan else defaultScore basis doc plan
    let scores ← sharesOf doc rest
    return score :: scores

end

/-- What a plan adds to the combinator above it. -/
def share (doc : DocId) (plan : ScorePlan α) : Except Fault α :=
  if has doc plan then score basis doc plan else defaultScore basis doc plan

theorem defaultScores_eq_mapM (doc : DocId) (plans : List (ScorePlan α)) :
    defaultScores basis doc plans = plans.mapM (defaultScore basis doc) := by
  induction plans with
  | nil => rfl
  | cons plan rest ih => rw [defaultScores, ih, List.mapM_cons]

theorem sharesOf_eq_mapM (doc : DocId) (plans : List (ScorePlan α)) :
    sharesOf basis doc plans = plans.mapM (share basis doc) := by
  induction plans with
  | nil => rfl
  | cons plan rest ih =>
    rw [sharesOf, ih, List.mapM_cons, share]
    split <;> rfl

end Scores

end ScorePlan

/-! ## The plan of a tree -/

namespace ScoreTree

mutual

/-- The tree without its cursors. -/
def plan : ScoreTree α → ScorePlan α
  | leaf source stats => .leaf source.list stats
  | combine op weights rule children _ _ => .combine op weights rule (plans children)

def plans : List (ScoreTree α) → List (ScorePlan α)
  | [] => []
  | tree :: rest => plan tree :: plans rest

end

@[elab_as_elim]
theorem inductionOn {motive : ScoreTree α → Prop} (tree : ScoreTree α)
    (leaf : ∀ source stats, motive (leaf source stats))
    (combine : ∀ op weights rule children current exhausted,
      (∀ child ∈ children, motive child) →
        motive (combine op weights rule children current exhausted)) : motive tree :=
  match tree with
  | .leaf source stats => leaf source stats
  | .combine op weights rule children current exhausted =>
    combine op weights rule children current exhausted fun child _ =>
      inductionOn child leaf combine
decreasing_by
  have hlt := List.sizeOf_lt_of_mem ‹child ∈ children›
  rw [ScoreTree.combine.sizeOf_spec]
  omega

theorem plans_eq_map (trees : List (ScoreTree α)) : plans trees = trees.map plan := by
  induction trees with
  | nil => rfl
  | cons tree rest ih => rw [plans, ih, List.map_cons]

theorem plan_combine (op : Operator) (weights : List α) (rule : MatchRule)
    (children : List (ScoreTree α)) (current : Option DocId) (exhausted : Bool) :
    plan (combine op weights rule children current exhausted) =
      .combine op weights rule (children.map plan) := by
  rw [plan, plans_eq_map]

theorem plan_ofChildren (op : Operator) (weights : List α) (rule : MatchRule)
    (children : List (ScoreTree α)) :
    plan (ofChildren op weights rule children) = .combine op weights rule (children.map plan) :=
  plan_combine op weights rule children none false

theorem heightOfAll_le_iff {trees : List (ScoreTree α)} {levels : Nat} :
    heightOfAll trees ≤ levels ↔ ∀ tree ∈ trees, tree.height ≤ levels := by
  induction trees with
  | nil => simp [heightOfAll]
  | cons tree rest ih => rw [heightOfAll, Nat.max_le, ih, List.forall_mem_cons]

theorem height_plan (tree : ScoreTree α) : tree.plan.height = tree.height := by
  induction tree using inductionOn with
  | leaf source stats => rfl
  | combine op weights rule children current exhausted ih =>
    rw [plan_combine, ScorePlan.height, height]
    congr 1
    induction children with
    | nil => rfl
    | cons child rest ihRest =>
      simp only [List.forall_mem_cons] at ih
      rw [List.map_cons, ScorePlan.heightOfAll, heightOfAll, ih.1, ihRest ih.2]

theorem height_eq_of_plan_eq {a b : ScoreTree α} (h : b.plan = a.plan) : b.height = a.height := by
  rw [← height_plan, h, height_plan]

end ScoreTree

end Retrieval
