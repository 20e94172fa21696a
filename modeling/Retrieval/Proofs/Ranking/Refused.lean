import Retrieval.Proofs.Cursor.Laws
import Retrieval.Proofs.Ranking.Canonical

/-!
# Rankings that cannot be sorted by identifiers

Sorting by identifiers drops hits and puts the others in document order before it looks the first
identifier up. When the index lacks one, the ranking is left that way, and the fault names the first
of the unknown documents (`Ranking.sortById_error_iff`). So a refusal leaves only those rankings as
they were that had been in strictly ascending document order.
-/

set_option autoImplicit false

namespace Retrieval

theorem Index.idOf_eq_error {index : Index} {doc : DocId} {fault : Fault} :
    index.idOf doc = .error fault ↔
      index.size ≤ doc.toNat ∧ fault = .lookup (.unknownDocument doc) := by
  rw [idOf, size, ← Array.getElem?_eq_none_iff]
  cases index.ids[doc.toNat]? <;> simp [eq_comm]

namespace Ranking

section Lookup

variable {α : Type}

/-- The documents of the hits that an index does not have. -/
def Unknown (index : Index) (hits : List (Hit α)) (doc : DocId) : Prop :=
  doc ∈ hits.map (·.doc) ∧ index.size ≤ doc.toNat

theorem unknown_cons {index : Index} {hit : Hit α} {rest : List (Hit α)} {doc : DocId} :
    Unknown index (hit :: rest) doc ↔
      (doc = hit.doc ∧ index.size ≤ doc.toNat) ∨ Unknown index rest doc := by
  rw [Unknown, Unknown, List.map_cons, List.mem_cons, or_and_right]

/-- In document order the first hit that cannot be looked up is that of the least unknown
document. -/
theorem withIds_eq_error {index : Index} {hits : List (Hit α)}
    (hasc : hits.Pairwise (·.doc < ·.doc)) {fault : Fault} :
    withIds index hits = .error fault ↔
      ∃ doc, FirstOf (Unknown index hits) (some doc) ∧ fault = .lookup (.unknownDocument doc) := by
  induction hits with
  | nil => simp [withIds, FirstOf, Unknown]
  | cons hit rest ih =>
    rw [List.pairwise_cons] at hasc
    rw [withIds]
    cases hid : index.idOf hit.doc with
    | error refusal =>
      obtain ⟨hsize, rfl⟩ := Index.idOf_eq_error.mp hid
      have hfirst : FirstOf (Unknown index (hit :: rest)) (some hit.doc) := by
        refine ⟨unknown_cons.mpr (.inl ⟨rfl, hsize⟩), fun doc hdoc => ?_⟩
        obtain ⟨other, ho, rfl⟩ := List.mem_map.mp hdoc.1
        rcases List.mem_cons.mp ho with rfl | hlater
        · exact UInt32.le_refl _
        · exact UInt32.le_of_lt (hasc.1 other hlater)
      constructor
      · intro h
        cases h
        exact ⟨hit.doc, hfirst, rfl⟩
      · rintro ⟨doc, hdoc, rfl⟩
        cases hfirst.eq_some_iff.mpr hdoc
        rfl
    | ok id =>
      have hknown : ∀ doc, Unknown index rest doc ↔ Unknown index (hit :: rest) doc := by
        intro doc
        rw [unknown_cons]
        refine ⟨.inr, fun h => h.resolve_left ?_⟩
        rintro ⟨rfl, hsize⟩
        simp [Index.idOf_eq_error.mpr ⟨hsize, rfl⟩] at hid
      have hmore : (do
          let more ← withIds index rest
          return (id, hit) :: more : Except Fault _) = .error fault ↔
          withIds index rest = .error fault := by
        cases withIds index rest <;> simp [bind, Except.bind, pure, Except.pure]
      refine (hmore.trans (ih hasc.2)).trans (exists_congr fun doc => and_congr_left' ?_)
      exact ⟨.congr hknown, .congr fun doc => (hknown doc).symm⟩

end Lookup

section Refusal

variable {α : Type} [Ord α]

theorem sortById_eq_error {ranking left : Ranking α} {index : Index} {fault : Fault} :
    ranking.sortById index = (left, .error fault) ↔
      left = ranking.best ∧ withIds index ranking.best.hits = .error fault := by
  rw [sortById]
  cases withIds index ranking.best.hits <;> simp [eq_comm]

variable [Std.TransOrd α]

/-- The best hits are the only ones in document order that stand for all hits. -/
theorem eq_best_iff [Std.LawfulEqOrd α] {ranking left : Ranking α} :
    left = ranking.best ↔
      Covers ranking.hits left.hits ∧ left.hits.Pairwise (·.doc < ·.doc) := by
  constructor
  · rintro rfl
    exact ⟨ranking.covers_best, ranking.pairwise_best⟩
  · rintro ⟨hleft, hasc⟩
    exact congrArg Ranking.mk (hleft.unique ranking.covers_best hasc ranking.pairwise_best)

theorem withIds_best_eq_error {ranking : Ranking α} {index : Index} {fault : Fault} :
    withIds index ranking.best.hits = .error fault ↔
      ∃ doc, FirstOf (Unknown index ranking.hits) (some doc) ∧
        fault = .lookup (.unknownDocument doc) := by
  have hunknown : ∀ doc, Unknown index ranking.best.hits doc ↔ Unknown index ranking.hits doc :=
    fun doc => and_congr_left' (ranking.covers_best.docs_iff doc)
  rw [withIds_eq_error ranking.pairwise_best]
  exact exists_congr fun doc =>
    and_congr_left' ⟨.congr hunknown, .congr fun doc => (hunknown doc).symm⟩

end Refusal

/-- A ranking is refused when the index lacks a document of it. What is left are its best hits in
document order; that is the ranking it was only if its hits were in strict document order. -/
theorem sortById_error_iff (ranking left : Ranking Double) (index : Index) (fault : Fault) :
    (ranking.sortById index = (left, .error fault) ↔
      (Covers ranking.hits left.hits ∧ left.hits.Pairwise (·.doc < ·.doc)) ∧
        ∃ doc, FirstOf (Unknown index ranking.hits) (some doc) ∧
          fault = .lookup (.unknownDocument doc)) ∧
      (ranking.sortById index = (ranking, .error fault) ↔
        ranking.hits.Pairwise (·.doc < ·.doc) ∧
          ∃ doc, FirstOf (Unknown index ranking.hits) (some doc) ∧
            fault = .lookup (.unknownDocument doc)) := by
  constructor
  · rw [sortById_eq_error, eq_best_iff, withIds_best_eq_error]
  · rw [sortById_eq_error, eq_best_iff, withIds_best_eq_error,
      and_iff_right (Covers.refl ranking.hits)]

/-- Two hits of document 7 around one of document 0. -/
def scattered : Ranking Double :=
  { hits := [⟨7, ⟨0x3fe0000000000000⟩⟩, ⟨0, ⟨0x3ff0000000000000⟩⟩, ⟨7, ⟨0x4000000000000000⟩⟩] }

/-- With an index of one document the scattered hits are refused, but not as they were: they are in
document order, and one is missing. -/
theorem sortById_scattered :
    let index := Index.empty.offered [{ id := "a", fields := [] }]
    ∃ left, scattered.sortById index = (left, .error (.lookup (.unknownDocument 7))) ∧
      left.hits = [⟨0, ⟨0x3ff0000000000000⟩⟩, ⟨7, ⟨0x4000000000000000⟩⟩] ∧ left ≠ scattered := by
  intro index
  have hsize : index.size = 1 := by
    simp [index, Index.size, Index.offered, Index.addTokens, Index.empty, Index.register,
      Index.addFields, firstRepeated?]
  have hfirst : FirstOf (Unknown index scattered.hits) (some 7) := by
    refine ⟨⟨by decide, by simp [hsize]⟩, ?_⟩
    rintro doc ⟨hdoc, hge⟩
    have hdocs : doc = 7 ∨ doc = 0 ∨ doc = 7 := by simpa [scattered] using hdoc
    rcases hdocs with rfl | rfl | rfl
    · exact UInt32.le_refl _
    · simp [hsize] at hge
    · exact UInt32.le_refl _
  have hleft : { hits := [⟨0, ⟨0x3ff0000000000000⟩⟩, ⟨7, ⟨0x4000000000000000⟩⟩] } = scattered.best :=
    eq_best_iff.mpr ⟨⟨by decide, by decide⟩, by decide⟩
  exact ⟨_, sortById_eq_error.mpr ⟨hleft, withIds_best_eq_error.mpr ⟨7, hfirst, rfl⟩⟩, rfl,
    by decide⟩

end Ranking

end Retrieval
