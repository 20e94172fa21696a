import Mathlib.Algebra.Group.Action.Defs
import Mathlib.Algebra.Order.BigOperators.Group.List
import Mathlib.Algebra.Order.Group.Nat
import Mathlib.Algebra.Order.Ring.Nat
import Mathlib.Tactic.Common
import Retrieval.Proofs.Scoring.Scores

/-!
# Draining a tree

A loop that takes the document that a tree settles on, scores it and moves beyond it comes to an
end, and has then visited the documents that the tree had before it, once each and in ascending
order, with the scores of the plan (`ScoreTree.Sound.drain_hits`).

`ScoreTree.drain` goes on only while a visit leaves fewer postings. `ScoreTree.Drains` is the loop
without this bound, which a sound tree never comes up against
(`ScoreTree.Sound.postingsLeft_visit_lt`), so both come to the same end
(`ScoreTree.Sound.drains_iff`).
-/

set_option autoImplicit false

namespace Retrieval.ScoreTree

variable {α : Type}

/-! ## Postings left -/

theorem postingsLeftInAll_eq_sum (trees : List (ScoreTree α)) :
    postingsLeftInAll trees = (trees.map postingsLeft).sum := by
  induction trees with
  | nil => rfl
  | cons tree rest ih => rw [postingsLeftInAll, ih, List.map_cons, List.sum_cons]

theorem postingsLeft_combine (op : Operator) (weights : List α) (rule : MatchRule)
    (children : List (ScoreTree α)) (current : Option DocId) (exhausted : Bool) :
    postingsLeft (combine op weights rule children current exhausted) =
      (children.map postingsLeft).sum := by
  rw [postingsLeft, postingsLeftInAll_eq_sum]

theorem postingsLeft_moveTo_le (doc : DocId) (tree : ScoreTree α) :
    (tree.moveTo doc).postingsLeft ≤ tree.postingsLeft := by
  induction tree using inductionOn with
  | leaf source stats => exact (List.dropWhile_suffix _).length_le
  | combine op weights rule children current exhausted ih =>
    rw [moveTo]
    split
    · exact Nat.le_refl _
    · rw [moveAllTo_eq_map, postingsLeft_combine, postingsLeft_combine, List.map_map]
      exact List.sum_le_sum ih

theorem postingsLeft_moveBeyond_le (doc : DocId) (tree : ScoreTree α) :
    (tree.moveBeyond doc).postingsLeft ≤ tree.postingsLeft := by
  induction tree using inductionOn with
  | leaf source stats => exact (List.dropWhile_suffix _).length_le
  | combine op weights rule children current exhausted ih =>
    rw [ScoreTree.moveBeyond]
    split
    · exact Nat.le_refl _
    · rw [moveAllBeyond_eq_map, postingsLeft_combine, postingsLeft_combine, List.map_map]
      exact List.sum_le_sum ih

theorem postingsLeft_settleWithin_le (levels : Nat) (tree : ScoreTree α) :
    (settleWithin levels tree).2.postingsLeft ≤ tree.postingsLeft := by
  induction levels generalizing tree with
  | zero => cases tree <;> exact Nat.le_refl _
  | succ levels ih =>
    cases tree with
    | leaf source stats => exact Nat.le_refl _
    | combine op weights rule children current exhausted =>
      cases exhausted with
      | true => exact Nat.le_refl _
      | false =>
        cases current with
        | some doc => exact Nat.le_refl _
        | none =>
          have hkeeps : (cursorWithin levels).Keeps
              fun a b : ScoreTree α => b.postingsLeft ≤ a.postingsLeft :=
            { refl := fun _ => Nat.le_refl _
              trans := fun hab hbc => Nat.le_trans hbc hab
              settle := ih
              moveTo := postingsLeft_moveTo_le
              moveBeyond := postingsLeft_moveBeyond_le }
          rw [settleWithin_combine, postingsLeft_combine, postingsLeft_combine]
          have hall := (hkeeps.find rule children).flip
          exact List.Forall₂.sum_le_sum
            (List.forall₂_map_left_iff.mpr (List.forall₂_map_right_iff.mpr hall))

theorem Sound.postingsLeft_moveBeyond_lt {tree : ScoreTree α} (hs : tree.Sound) {doc : DocId}
    (hd : tree.expects doc = true) : (tree.moveBeyond doc).postingsLeft < tree.postingsLeft := by
  induction hs with
  | leaf hsource => exact hsource.rest_moveBeyond_lt hd
  | @combine op weights rule children current exhausted hchildren hnode ih =>
    rw [expects_combine] at hd
    rw [ScoreTree.moveBeyond]
    split
    · rename_i hstay
      obtain ⟨place, rfl, hlt⟩ := of_any_eq_true hstay
      rw [decide_eq_true_eq] at hlt
      exact absurd ((hnode.current_first place rfl).2 doc hd) (UInt32.not_le.mpr hlt)
    · rw [moveAllBeyond_eq_map, postingsLeft_combine, postingsLeft_combine, List.map_map]
      obtain ⟨child, hc, he⟩ := hd.exists_mem
      exact List.sum_lt_sum _ _ (fun c _ => postingsLeft_moveBeyond_le doc c)
        ⟨child, hc, ih child hc he⟩

/-! ## Documents visited -/

theorem Sound.settled {tree settled : ScoreTree α} {found : Bool} (hs : tree.Sound)
    (he : tree.settle = (found, settled)) :
    settled.Sound ∧ settled.plan = tree.plan ∧
      (∀ doc, settled.expects doc = true ↔ tree.expects doc = true) ∧
      FirstOf (tree.expects · = true) settled.doc? ∧ found = settled.doc?.isSome := by
  have hsettled : (cursor.settle tree).2 = settled := congrArg Prod.snd he
  have hsound := cursor_lawful.sound_settle tree hs
  have hplan := cursor_keeps_plan.settle tree
  have hahead := cursor_lawful.ahead_settle tree hs
  have hfirst := cursor_lawful.first_doc tree hs
  have hfound := cursor_lawful.found_iff tree hs
  rw [hsettled] at hsound hplan hahead hfirst hfound
  exact ⟨hsound, hplan, hahead, hfirst, (congrArg Prod.fst he).symm.trans hfound⟩

/-- A visit moves some leaf past a posting. -/
theorem Sound.postingsLeft_visit_lt {tree settled : ScoreTree α} {doc : DocId} (hs : tree.Sound)
    (he : tree.settle = (true, settled)) (hd : settled.doc? = some doc) :
    (settled.moveBeyond doc).postingsLeft < tree.postingsLeft := by
  obtain ⟨hsound, -, hexpects, hfirst, -⟩ := hs.settled he
  rw [hd] at hfirst
  have hlt := hsound.postingsLeft_moveBeyond_lt ((hexpects doc).mpr hfirst.1)
  have hle := postingsLeft_settleWithin_le tree.height tree
  rw [show settleWithin tree.height tree = (true, settled) from he] at hle
  exact Nat.lt_of_lt_of_le hlt hle

variable [Scalar α] (basis : ScoreBasis α)

/-- Draining visits every document that the tree has before it once, in ascending order, and gives
it the score of the plan. -/
theorem Sound.drain_hits {tree : ScoreTree α} (hs : tree.Sound) (hj : tree.plan.Joined) :
    ∃ docs : List DocId, docs.Pairwise (· < ·) ∧ (∀ doc, doc ∈ docs ↔ tree.expects doc = true) ∧
      (tree.drain basis).1 = docs.map fun doc => (doc, tree.plan.score basis doc) := by
  fun_induction drain basis tree with
  | case1 tree settled he =>
    obtain ⟨-, -, -, hfirst, hfound⟩ := hs.settled he
    have hnone : settled.doc? = none := by simpa using hfound
    rw [hnone] at hfirst
    exact ⟨[], .nil, fun doc => by simp [hfirst doc], rfl⟩
  | case2 tree settled he hnone =>
    obtain ⟨-, -, -, -, hfound⟩ := hs.settled he
    rw [hnone] at hfound
    cases hfound
  | case3 tree settled he doc hd hit moved hlt hits last hrest ih =>
    obtain ⟨hsound, hplan, hexpects, hfirst, -⟩ := hs.settled he
    have hmoved : moved.plan = tree.plan := (plan_moveBeyond doc settled).trans hplan
    have hahead : ∀ other, moved.expects other = true ↔ tree.expects other = true ∧ doc < other :=
      fun other => by rw [hsound.expects_moveBeyond doc other, hexpects]
    rw [hd] at hfirst
    obtain ⟨docs, hasc, hmem, hhits⟩ := ih (hsound.moveBeyond doc) (hmoved ▸ hj)
    have hscore : score basis settled = tree.plan.score basis doc := by
      rw [← hplan]
      exact hsound.score_eq basis (hplan ▸ hj) hd
    obtain ⟨hasc, hmem⟩ := hfirst.cons_ascending hasc fun other =>
      (hmem other).trans (hahead other)
    refine ⟨doc :: docs, hasc, hmem, ?_⟩
    rw [hrest, hmoved] at hhits
    rw [List.map_cons, ← hhits, ← hscore]
  | case4 tree settled he doc hd hit moved hnlt =>
    exact absurd (hs.postingsLeft_visit_lt he hd) hnlt

/-! ## The loop without a bound -/

/-- Visit after visit for as long as the tree settles on a document, with the documents and their
scores and the tree at its end. -/
inductive Drains : ScoreTree α → List (DocId × Except Fault α) × ScoreTree α → Prop
  | ended {tree settled : ScoreTree α} (hsettle : tree.settle = (false, settled)) :
      Drains tree ([], settled)
  | unplaced {tree settled : ScoreTree α} (hsettle : tree.settle = (true, settled))
      (hnone : settled.doc? = none) : Drains tree ([], settled)
  | next {tree settled last : ScoreTree α} {doc : DocId} {hits : List (DocId × Except Fault α)}
      (hsettle : tree.settle = (true, settled)) (hsome : settled.doc? = some doc)
      (hrest : Drains (settled.moveBeyond doc) (hits, last)) :
      Drains tree ((doc, score basis settled) :: hits, last)

variable {basis}

/-- The loop comes to one end at most. -/
theorem Drains.unique {tree : ScoreTree α}
    {drained other : List (DocId × Except Fault α) × ScoreTree α}
    (h : Drains basis tree drained) (h' : Drains basis tree other) : drained = other := by
  induction h generalizing other with
  | ended hsettle => cases h' <;> grind
  | unplaced hsettle hnone => cases h' <;> grind
  | next hsettle hsome _ ih =>
    cases h' with
    | ended hsettle' => cases hsettle.symm.trans hsettle'
    | unplaced hsettle' hnone =>
      cases hsettle.symm.trans hsettle'
      cases hsome.symm.trans hnone
    | next hsettle' hsome' hrest =>
      cases hsettle.symm.trans hsettle'
      cases hsome.symm.trans hsome'
      cases ih hrest
      rfl

theorem Sound.drains_drain {tree : ScoreTree α} (hs : tree.Sound) :
    Drains basis tree (tree.drain basis) := by
  fun_induction drain basis tree with
  | case1 tree settled he => exact .ended he
  | case2 tree settled he hnone => exact .unplaced he hnone
  | case3 tree settled he doc hd hit moved hlt hits last hrest ih =>
    obtain ⟨hsound, -⟩ := hs.settled he
    have hlater := ih (hsound.moveBeyond doc)
    rw [hrest] at hlater
    exact .next he hd hlater
  | case4 tree settled he doc hd hit moved hnlt =>
    exact absurd (hs.postingsLeft_visit_lt he hd) hnlt

/-- A sound tree is drained to an end, which is the one that the bounded loop gives. -/
theorem Sound.drains_iff {tree : ScoreTree α} (hs : tree.Sound)
    {drained : List (DocId × Except Fault α) × ScoreTree α} :
    Drains basis tree drained ↔ drained = tree.drain basis := by
  constructor
  · intro h
    exact h.unique hs.drains_drain
  · rintro rfl
    exact hs.drains_drain

end Retrieval.ScoreTree
