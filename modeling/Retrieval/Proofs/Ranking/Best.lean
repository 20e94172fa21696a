import Mathlib.Data.List.Induction
import Mathlib.Data.List.Nodup
import Retrieval.Proofs.Outcome
import Retrieval.Proofs.Ranking.Sort

/-!
# The best hits of a ranking

Before a ranking is sorted, its hits are put in document order, the best one of every document
first, and the others are dropped. What is left stands for all hits that were there: each of them
has one of its document that is at least as good (`Ranking.Covers`). Every call keeps this
(`Ranking.Covers.apply`), so whatever was sorted on the way, the hits stand for all that were ever
added (`Ranking.covers_after`).

In document order there is only one way to stand for given hits (`Ranking.Covers.unique`). So the
best hits depend on the added ones alone (`Ranking.best_after_congr`), and with them all that is
made of them.
-/

set_option autoImplicit false

namespace Retrieval

variable {α : Type} [Ord α]

namespace Hit

instance [Std.TransOrd α] : Std.TransCmp (byDoc : Hit α → Hit α → Ordering) :=
  have hscore : Std.TransCmp (compareOn fun hit : Hit α => hit.score) := inferInstance
  have : Std.TransCmp fun a b : Hit α => compare b.score a.score := hscore.opposite
  inferInstanceAs (Std.TransCmp
    (compareLex (compareOn Hit.doc) (fun a b : Hit α => compare b.score a.score)))

/-- In document order the better one of two hits of one document comes first. -/
theorem byDoc_isLE {a b : Hit α} (h : (byDoc a b).isLE) :
    a.doc < b.doc ∨ a.doc = b.doc ∧ (compare b.score a.score).isLE := by
  rw [byDoc, Ordering.isLE_then_iff_or, Std.compare_eq_lt] at h
  exact h.imp_right (And.imp_left Std.LawfulEqCmp.eq_of_compare)

end Hit

namespace Ranking

/-- The hits are among the added ones, and stand for all of them: each of these has one of its
document that is at least as good. -/
structure Covers (added hits : List (Hit α)) : Prop where
  subset : ∀ hit ∈ hits, hit ∈ added
  exists_ge : ∀ hit ∈ added, ∃ best ∈ hits,
    best.doc = hit.doc ∧ (compare hit.score best.score).isLE

omit [Ord α] in
theorem nodup_docs {hits : List (Hit α)} (hasc : hits.Pairwise (·.doc < ·.doc)) :
    (hits.map (·.doc)).Nodup :=
  List.pairwise_map.mpr (hasc.imp UInt32.ne_of_lt)

namespace Covers

variable [Std.TransOrd α] {added hits others : List (Hit α)}

theorem refl (hits : List (Hit α)) : Covers hits hits where
  subset _ hm := hm
  exists_ge hit hm := ⟨hit, hm, rfl, Std.ReflCmp.isLE_rfl⟩

theorem trans (h : Covers added hits) (h' : Covers hits others) : Covers added others where
  subset hit hm := h.subset hit (h'.subset hit hm)
  exists_ge hit hm := by
    obtain ⟨good, hgood, hdoc, hle⟩ := h.exists_ge hit hm
    obtain ⟨best, hbest, hdoc', hle'⟩ := h'.exists_ge good hgood
    exact ⟨best, hbest, hdoc'.trans hdoc, Std.TransCmp.isLE_trans hle hle'⟩

omit [Std.TransOrd α] in
theorem perm (h : Covers added hits) (hperm : hits.Perm others) : Covers added others where
  subset hit hm := h.subset hit (hperm.mem_iff.mpr hm)
  exists_ge hit hm := by
    obtain ⟨best, hbest, hle⟩ := h.exists_ge hit hm
    exact ⟨best, hperm.mem_iff.mp hbest, hle⟩

omit [Std.TransOrd α] in
theorem congr {added' : List (Hit α)} (h : Covers added hits)
    (hsame : ∀ hit, hit ∈ added ↔ hit ∈ added') : Covers added' hits where
  subset hit hm := (hsame hit).mp (h.subset hit hm)
  exists_ge hit hm := h.exists_ge hit ((hsame hit).mpr hm)

omit [Std.TransOrd α] in
theorem append {added' hits' : List (Hit α)} (h : Covers added hits) (h' : Covers added' hits') :
    Covers (added ++ added') (hits ++ hits') where
  subset hit hm := by
    rw [List.mem_append] at hm ⊢
    exact hm.imp (h.subset hit) (h'.subset hit)
  exists_ge hit hm := by
    rcases List.mem_append.mp hm with hleft | hright
    · obtain ⟨best, hbest, hle⟩ := h.exists_ge hit hleft
      exact ⟨best, List.mem_append_left _ hbest, hle⟩
    · obtain ⟨best, hbest, hle⟩ := h'.exists_ge hit hright
      exact ⟨best, List.mem_append_right _ hbest, hle⟩

omit [Std.TransOrd α] in
theorem docs_iff (h : Covers added hits) (doc : DocId) :
    doc ∈ hits.map (·.doc) ↔ doc ∈ added.map (·.doc) := by
  rw [List.mem_map, List.mem_map]
  constructor
  · rintro ⟨hit, hm, hdoc⟩
    exact ⟨hit, h.subset hit hm, hdoc⟩
  · rintro ⟨hit, hm, hdoc⟩
    obtain ⟨best, hbest, hsame, -⟩ := h.exists_ge hit hm
    exact ⟨best, hbest, hsame.trans hdoc⟩

omit [Std.TransOrd α] in
/-- A hit that is no better than another one of its document need not be kept. -/
theorem absorb {hit best : Hit α} (h : Covers added hits) (hbest : best ∈ hits)
    (hdoc : best.doc = hit.doc) (hle : (compare hit.score best.score).isLE) :
    Covers (hit :: added) hits where
  subset other ho := List.mem_cons_of_mem _ (h.subset other ho)
  exists_ge other ho := by
    rcases List.mem_cons.mp ho with rfl | hold
    · exact ⟨best, hbest, hdoc, hle⟩
    · exact h.exists_ge other hold

/-- In document order there is one way only to stand for all added hits. -/
theorem unique [Std.LawfulEqOrd α] (h : Covers added hits) (h' : Covers added others)
    (hasc : hits.Pairwise (·.doc < ·.doc)) (hasc' : others.Pairwise (·.doc < ·.doc)) :
    hits = others := by
  have hmem {xs ys : List (Hit α)} (hx : Covers added xs) (hy : Covers added ys)
      (hxs : xs.Pairwise (·.doc < ·.doc)) : ∀ hit ∈ xs, hit ∈ ys := by
    intro hit hm
    obtain ⟨⟨doc, score⟩, ho, rfl, hle⟩ := hy.exists_ge hit (hx.subset hit hm)
    -- The other list has a hit that is as good, and this list one that is as good as that.
    obtain ⟨again, hm', hdoc, hle'⟩ := hx.exists_ge _ (hy.subset _ ho)
    obtain rfl : again = hit := List.inj_on_of_nodup_map (nodup_docs hxs) hm' hm hdoc
    obtain rfl : score = again.score :=
      Std.LawfulEqCmp.eq_of_compare (Std.OrientedCmp.isLE_antisymm hle' hle)
    exact ho
  have hperm : hits.Perm others := by
    rw [List.perm_ext_iff_of_nodup (List.Nodup.of_map _ (nodup_docs hasc))
      (List.Nodup.of_map _ (nodup_docs hasc'))]
    exact fun hit => ⟨hmem h h' hasc hit, hmem h' h hasc' hit⟩
  exact hperm.eq_of_pairwise (fun a b _ _ hab hba => absurd hba (UInt32.lt_asymm hab)) hasc hasc'

end Covers

/-! ## Dropping the other hits of a document -/

theorem distinctAfter_spec [Std.TransOrd α] {last : Hit α} {hits : List (Hit α)}
    (hsorted : (last :: hits).Pairwise (Hit.byDoc · · |>.isLE)) :
    Covers (last :: hits) (last :: distinctAfter last.doc hits) ∧
      (last :: distinctAfter last.doc hits).Pairwise (·.doc < ·.doc) := by
  induction hits generalizing last with
  | nil => exact ⟨.refl _, List.pairwise_singleton ..⟩
  | cons hit rest ih =>
    obtain ⟨hlast, hrest⟩ := List.pairwise_cons.mp hsorted
    rw [List.forall_mem_cons] at hlast
    rw [distinctAfter]
    by_cases hsame : hit.doc = last.doc
    · rw [if_pos hsame]
      obtain ⟨hcovers, hasc⟩ :=
        ih (List.pairwise_cons.mpr ⟨hlast.2, (List.pairwise_cons.mp hrest).2⟩)
      have hle : (compare hit.score last.score).isLE :=
        ((Hit.byDoc_isLE hlast.1).resolve_left fun h => UInt32.ne_of_lt h hsame.symm).2
      refine ⟨?_, hasc⟩
      refine (hcovers.absorb (List.mem_cons_self ..) hsame.symm hle).congr fun other => ?_
      exact (List.Perm.swap ..).mem_iff
    · rw [if_neg hsame]
      obtain ⟨hcovers, hasc⟩ := ih hrest
      have hlt : last.doc < hit.doc :=
        (Hit.byDoc_isLE hlast.1).resolve_right fun h => hsame h.1.symm
      refine ⟨(Covers.refl [last]).append hcovers, .cons ?_ hasc⟩
      rw [List.forall_mem_cons]
      exact ⟨hlt, fun other ho => UInt32.lt_trans hlt ((List.pairwise_cons.mp hasc).1 other ho)⟩

theorem distinct_spec [Std.TransOrd α] {hits : List (Hit α)}
    (hsorted : hits.Pairwise (Hit.byDoc · · |>.isLE)) :
    Covers hits (distinct hits) ∧ (distinct hits).Pairwise (·.doc < ·.doc) := by
  cases hits with
  | nil => exact ⟨.refl _, .nil⟩
  | cons hit rest => exact distinctAfter_spec hsorted

section Best

variable [Std.TransOrd α] (ranking : Ranking α)

theorem covers_best : Covers ranking.hits ranking.best.hits := by
  have hperm := List.mergeSort_perm ranking.hits fun a b => (Hit.byDoc a b).isLE
  have hsorted := pairwise_mergeSort_isLE Hit.byDoc ranking.hits
  exact (distinct_spec hsorted).1.congr fun hit => hperm.mem_iff

theorem pairwise_best : ranking.best.hits.Pairwise (·.doc < ·.doc) :=
  (distinct_spec (pairwise_mergeSort_isLE Hit.byDoc ranking.hits)).2

end Best

/-! ## Both orders -/

theorem sort_perm_best (ranking : Ranking α) : ranking.sort.hits.Perm ranking.best.hits :=
  List.mergeSort_perm ..

omit [Ord α] in
theorem map_withIds {index : Index} {hits : List (Hit α)} {keyed : List (String × Hit α)}
    (h : withIds index hits = .ok keyed) :
    keyed.map (·.2) = hits ∧ ∀ pair ∈ keyed, index.idOf pair.2.doc = .ok pair.1 := by
  induction hits generalizing keyed with
  | nil =>
    cases h
    exact ⟨rfl, List.forall_mem_nil _⟩
  | cons hit rest ih =>
    simp only [withIds, bind_eq_ok, pure_eq_ok] at h
    obtain ⟨id, hid, more, hmore, rfl⟩ := h
    obtain ⟨hmap, hids⟩ := ih hmore
    exact ⟨by rw [List.map_cons, hmap], List.forall_mem_cons.mpr ⟨hid, hids⟩⟩

theorem sortById_perm_best (ranking : Ranking α) (index : Index) :
    (ranking.sortById index).1.hits.Perm ranking.best.hits := by
  rw [sortById]
  split
  · exact .refl _
  · rename_i keyed hkeyed
    rw [← (map_withIds hkeyed).1]
    exact (List.mergeSort_perm ..).map _

/-! ## Calls -/

/-- A call that changes a ranking. -/
inductive Call (α : Type) where
  | add (doc : DocId) (score : α)
  | sort
  | sortById (index : Index)

namespace Call

/-- The ranking after a call; one that fails may have dropped hits, too. -/
def apply (ranking : Ranking α) : Call α → Ranking α
  | add doc score => ranking.add doc score
  | sort => ranking.sort
  | sortById index => (ranking.sortById index).1

def hit? : Call α → Option (Hit α)
  | add doc score => some { doc, score }
  | sort | sortById _ => none

end Call

/-- A new ranking after some calls. -/
def after (calls : List (Call α)) : Ranking α := calls.foldl Call.apply empty

/-- The hits that calls add. -/
def added (calls : List (Call α)) : List (Hit α) := calls.filterMap Call.hit?

theorem after_concat (calls : List (Call α)) (call : Call α) :
    after (calls ++ [call]) = call.apply (after calls) :=
  List.foldl_concat ..

omit [Ord α] in
theorem added_concat (calls : List (Call α)) (call : Call α) :
    added (calls ++ [call]) = added calls ++ call.hit?.toList := by
  rw [added, List.filterMap_append, added]
  cases hhit : call.hit? <;> simp [hhit]

variable [Std.TransOrd α]

theorem Covers.apply {hits : List (Hit α)} {ranking : Ranking α} (h : Covers hits ranking.hits)
    (call : Call α) : Covers (hits ++ call.hit?.toList) (call.apply ranking).hits := by
  cases call with
  | add doc score => exact h.append (.refl _)
  | sort =>
    rw [Call.hit?, Option.toList_none, List.append_nil]
    exact (h.trans ranking.covers_best).perm ranking.sort_perm_best.symm
  | sortById index =>
    rw [Call.hit?, Option.toList_none, List.append_nil]
    exact (h.trans ranking.covers_best).perm (ranking.sortById_perm_best index).symm

/-- Whatever was called, the hits stand for all that were added. -/
theorem covers_after (calls : List (Call α)) : Covers (added calls) (after calls).hits := by
  induction calls using List.reverseRecOn with
  | nil => exact .refl _
  | append_singleton calls call ih =>
    rw [added_concat, after_concat]
    exact ih.apply call

/-- The best hits depend on the added ones only. -/
theorem best_after_congr [Std.LawfulEqOrd α] {calls calls' : List (Call α)}
    (h : ∀ hit, hit ∈ added calls ↔ hit ∈ added calls') :
    (after calls).best = (after calls').best := by
  have hcovers := (covers_after calls).trans (after calls).covers_best
  have hcovers' := (covers_after calls').trans (after calls').covers_best
  have hhits := (hcovers.congr h).unique hcovers' (pairwise_best _) (pairwise_best _)
  exact congrArg Ranking.mk hhits

end Ranking

end Retrieval
