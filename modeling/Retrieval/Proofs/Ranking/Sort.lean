import Mathlib.Data.List.Pairwise
import Retrieval.Ranking

/-!
# Sorted rankings

Hits compare by descending score and then by ascending document, and this is a total order as soon
as the scores have one; doubles do, by their bits. Sorting the hits of different documents
rearranges them into strictly ascending order (`Ranking.pairwise_sort`).
-/

set_option autoImplicit false

namespace Retrieval

instance : Std.TransOrd Double := inferInstanceAs (Std.TransCmp (compareOn Double.place))

instance instTransOrdFloat : Std.TransOrd Float :=
  inferInstanceAs (Std.TransCmp (compareOn Double.ofFloat))

variable {α : Type} [Ord α] [Std.TransOrd α]

namespace Hit

instance : Std.TransCmp (byScore : Hit α → Hit α → Ordering) :=
  have hscore : Std.TransCmp (compareOn fun hit : Hit α => hit.score) := inferInstance
  have : Std.TransCmp fun a b : Hit α => compare b.score a.score := hscore.opposite
  inferInstanceAs (Std.TransCmp
    (compareLex (fun a b : Hit α => compare b.score a.score) (compareOn Hit.doc)))

omit [Std.TransOrd α] in
theorem byDoc_of_lt {a b : Hit α} (h : a.doc < b.doc) : byDoc a b = .lt := by
  have hlt : compare a.doc b.doc = .lt := compareOfLessAndEq_eq_lt.mpr h
  rw [byDoc, hlt]
  rfl

omit [Std.TransOrd α] in
theorem doc_eq_of_byScore {a b : Hit α} (h : byScore a b = .eq) : a.doc = b.doc := by
  rw [byScore, Ordering.then_eq_eq] at h
  exact Std.LawfulEqCmp.eq_of_compare h.2

end Hit

/-- Sorting by an order puts every item at or before those after it. -/
theorem pairwise_mergeSort_isLE {σ : Type} (cmp : σ → σ → Ordering) [Std.TransCmp cmp]
    (items : List σ) : (items.mergeSort fun a b => (cmp a b).isLE).Pairwise (cmp · · |>.isLE) := by
  refine List.pairwise_mergeSort (fun a b c => Std.TransCmp.isLE_trans) (fun a b => ?_) items
  have hswap : cmp b a = (cmp a b).swap := Std.OrientedCmp.eq_swap
  rw [hswap]
  cases cmp a b <;> rfl

namespace Ranking

omit [Ord α] [Std.TransOrd α] in
theorem distinctAfter_of_ne {last : DocId} {hits : List (Hit α)}
    (hlast : ∀ hit ∈ hits, last ≠ hit.doc) (hne : hits.Pairwise (·.doc ≠ ·.doc)) :
    distinctAfter last hits = hits := by
  induction hits generalizing last with
  | nil => rfl
  | cons hit rest ih =>
    rw [List.pairwise_cons] at hne
    rw [distinctAfter, if_neg (hlast hit (List.mem_cons_self ..)).symm, ih hne.1 hne.2]

omit [Ord α] [Std.TransOrd α] in
theorem distinct_of_ne {hits : List (Hit α)} (hne : hits.Pairwise (·.doc ≠ ·.doc)) :
    distinct hits = hits := by
  cases hits with
  | nil => rfl
  | cons hit rest =>
    rw [List.pairwise_cons] at hne
    rw [distinct, distinctAfter_of_ne hne.1 hne.2]

omit [Std.TransOrd α] in
/-- Hits that are in document order have no others of their documents to be compared with. -/
theorem best_of_ascending {hits : List (Hit α)} (hasc : hits.Pairwise (·.doc < ·.doc)) :
    (best { hits }).hits = hits := by
  have hsorted : hits.Pairwise fun a b => (Hit.byDoc a b).isLE := hasc.imp fun h => by
    rw [Hit.byDoc_of_lt h]
    rfl
  rw [best, List.mergeSort_of_pairwise hsorted]
  exact distinct_of_ne (hasc.imp UInt32.ne_of_lt)

omit [Std.TransOrd α] in
theorem sort_perm {hits : List (Hit α)} (hasc : hits.Pairwise (·.doc < ·.doc)) :
    (sort { hits }).hits.Perm hits := by
  rw [sort, best_of_ascending hasc]
  exact List.mergeSort_perm ..

omit [Std.TransOrd α] in
theorem nodup_sort {hits : List (Hit α)} (hasc : hits.Pairwise (·.doc < ·.doc)) :
    (sort { hits }).hits.Pairwise (·.doc ≠ ·.doc) :=
  (sort_perm hasc).symm.pairwise (hasc.imp UInt32.ne_of_lt) Ne.symm

theorem pairwise_sort {hits : List (Hit α)} (hasc : hits.Pairwise (·.doc < ·.doc)) :
    (sort { hits }).hits.Pairwise (Hit.byScore · · = .lt) := by
  have hle := pairwise_mergeSort_isLE Hit.byScore (best { hits }).hits
  refine (hle.and (nodup_sort hasc)).imp fun ⟨hle, hne⟩ => ?_
  rcases Ordering.isLE_iff_eq_lt_or_eq_eq.mp hle with hlt | heq
  · exact hlt
  · exact absurd (Hit.doc_eq_of_byScore heq) hne

end Ranking

end Retrieval
