import Retrieval.Proofs.Index.Statistics
import Retrieval.Proofs.Ranking.Best
import Retrieval.Proofs.Text.Bytes

/-!
# The order of a ranking

A sorted ranking has one hit for every document that was added, with the greatest score that was
added for it, and its order leaves no choice (`Ranking.Canonical`). It depends on the added hits
only, not on their order nor on what was sorted before (`Ranking.sort_canonical`). The same holds if
ties are broken by identifiers: an index has different ones for different documents, and their order
is that of their bytes.
-/

set_option autoImplicit false

namespace Retrieval

/-! ## Total orders -/

theorem Double.place_eq (x : Double) : x.place =
    if x.bits.toNat < 2 ^ 63 then (x.bits.toNat : Int) else 2 ^ 63 - x.bits.toNat - 1 := by
  have htop : (0x8000000000000000 : UInt64).toNat = 2 ^ 63 := rfl
  simp only [place, UInt64.lt_iff_toNat_lt, htop]
  split
  · rfl
  · rename_i hge
    have hle : 0x8000000000000000 ≤ x.bits := by
      rw [UInt64.le_iff_toNat_le, htop]
      omega
    rw [UInt64.toNat_sub_of_le _ _ hle, htop]
    omega

/-- No two bit patterns share a place. -/
theorem Double.place_inj {x y : Double} (h : x.place = y.place) : x = y := by
  have hx := x.bits.toNat_lt
  have hy := y.bits.toNat_lt
  rw [place_eq, place_eq] at h
  have hbits : x.bits = y.bits := by
    apply UInt64.toNat_inj.mp
    split at h <;> split at h <;> omega
  exact congrArg Double.mk hbits

instance : Std.LawfulEqOrd Double where
  eq_of_compare {x y} h := by
    have hplace : compare x.place y.place = .eq := h
    exact Double.place_inj (Std.LawfulEqCmp.eq_of_compare hplace)

variable {α : Type} [Ord α]

namespace Hit

instance [Std.TransOrd α] :
    Std.TransCmp (byScoreAndId : String × Hit α → String × Hit α → Ordering) :=
  have hscore : Std.TransCmp (compareOn fun pair : String × Hit α => pair.2.score) := inferInstance
  have : Std.TransCmp fun a b : String × Hit α => compare b.2.score a.2.score := hscore.opposite
  inferInstanceAs (Std.TransCmp
    (compareLex (fun a b : String × Hit α => compare b.2.score a.2.score) (compareOn Prod.fst)))

theorem byScoreAndId_lt [Std.TransOrd α] {a b : String × Hit α} (h : (byScoreAndId a b).isLE)
    (hne : a.1 ≠ b.1) : byScoreAndId a b = .lt := by
  rcases Ordering.isLE_iff_eq_lt_or_eq_eq.mp h with hlt | heq
  · exact hlt
  · rw [byScoreAndId, Ordering.then_eq_eq] at heq
    exact absurd (Std.LawfulEqCmp.eq_of_compare heq.2) hne

end Hit

/-- Both documents have identifiers, and the bytes of the first one's come first. -/
def Index.IdBefore (index : Index) (doc other : DocId) : Prop :=
  ∃ id id', index.idOf doc = .ok id ∧ index.idOf other = .ok id' ∧ Text.bytes id < Text.bytes id'

namespace Ranking

/-- A better score, or the same score and the first place in a tie. -/
def Outranks (tie : DocId → DocId → Prop) (a b : Hit α) : Prop :=
  compare b.score a.score = .lt ∨ a.score = b.score ∧ tie a.doc b.doc

/-- The hits are one for every document that was added, with the greatest score that was added for
it, in the order of their scores and of the ties. -/
structure Canonical (tie : DocId → DocId → Prop) (added hits : List (Hit α)) : Prop where
  once : (hits.map (·.doc)).Nodup
  docs_iff : ∀ doc, doc ∈ hits.map (·.doc) ↔ doc ∈ added.map (·.doc)
  greatest : ∀ hit ∈ hits, hit ∈ added ∧
    ∀ other ∈ added, other.doc = hit.doc → (compare other.score hit.score).isLE
  ranked : hits.Pairwise (Outranks tie)

theorem outranks_of_then [Std.LawfulEqOrd α] {tie : DocId → DocId → Prop} {a b : Hit α}
    {order : Ordering} (h : (compare b.score a.score).then order = .lt)
    (htie : order = .lt → tie a.doc b.doc) : Outranks tie a b := by
  rw [Ordering.then_eq_lt] at h
  refine h.imp_right fun heq => ⟨?_, htie heq.2⟩
  exact (Std.LawfulEqCmp.eq_of_compare heq.1).symm

theorem Covers.canonical {tie : DocId → DocId → Prop} {added hits : List (Hit α)}
    (h : Covers added hits) (honce : (hits.map (·.doc)).Nodup)
    (hranked : hits.Pairwise (Outranks tie)) : Canonical tie added hits where
  once := honce
  docs_iff := h.docs_iff
  greatest hit hm := by
    refine ⟨h.subset hit hm, fun other ho hdoc => ?_⟩
    obtain ⟨best, hbest, hsame, hle⟩ := h.exists_ge other ho
    rwa [List.inj_on_of_nodup_map honce hbest hm (hsame.trans hdoc)] at hle
  ranked := hranked

variable [Std.TransOrd α]

theorem nodup_of_perm_best {ranking : Ranking α} {hits : List (Hit α)}
    (h : hits.Perm ranking.best.hits) : (hits.map (·.doc)).Nodup :=
  (h.map _).nodup_iff.mpr (nodup_docs ranking.pairwise_best)

theorem covers_after_of_perm {calls : List (Call α)} {hits : List (Hit α)}
    (h : hits.Perm (after calls).best.hits) : Covers (added calls) hits :=
  ((covers_after calls).trans (after calls).covers_best).perm h.symm

/-! ## Ties by document -/

theorem sort_best (ranking : Ranking α) : ranking.best.sort = ranking.sort := by
  rw [sort, sort, best_of_ascending ranking.pairwise_best]

theorem canonical_sort [Std.LawfulEqOrd α] (calls : List (Call α)) :
    Canonical (· < ·) (added calls) (after calls).sort.hits := by
  have hperm := (after calls).sort_perm_best
  refine (covers_after_of_perm hperm).canonical (nodup_of_perm_best hperm) ?_
  have hsorted := pairwise_sort (after calls).pairwise_best
  rw [← sort_best]
  exact hsorted.imp fun h => outranks_of_then h Std.compare_eq_lt.mp

theorem sort_after_congr [Std.LawfulEqOrd α] {calls calls' : List (Call α)}
    (h : ∀ hit, hit ∈ added calls ↔ hit ∈ added calls') :
    (after calls).sort = (after calls').sort := by
  rw [← sort_best, best_after_congr h, sort_best]

/-! ## Ties by identifier -/

omit [Ord α] [Std.TransOrd α] in
theorem exists_withIds_iff {index : Index} {hits : List (Hit α)} :
    (∃ keyed, withIds index hits = .ok keyed) ↔
      ∀ hit ∈ hits, ∃ id, index.idOf hit.doc = .ok id := by
  induction hits with
  | nil => simp [withIds]
  | cons hit rest ih =>
    rw [List.forall_mem_cons, ← ih]
    simp only [withIds, bind_eq_ok, pure_eq_ok]
    constructor
    · rintro ⟨_, id, hid, more, hmore, -⟩
      exact ⟨⟨id, hid⟩, more, hmore⟩
    · rintro ⟨⟨id, hid⟩, more, hmore⟩
      exact ⟨_, id, hid, more, hmore, rfl⟩

omit [Std.TransOrd α] in
theorem sortById_eq_ok {ranking byId : Ranking α} {index : Index}
    (h : ranking.sortById index = (byId, .ok ())) :
    ∃ keyed, withIds index ranking.best.hits = .ok keyed ∧
      byId.hits = (keyed.mergeSort fun a b => (Hit.byScoreAndId a b).isLE).map (·.2) := by
  rw [sortById] at h
  split at h
  · cases h
  · rename_i keyed hkeyed
    cases h
    exact ⟨keyed, hkeyed, rfl⟩

/-- Sorting by identifiers succeeds exactly if the index has one for every document. -/
theorem exists_sortById_iff {calls : List (Call α)} {index : Index} :
    (∃ byId, (after calls).sortById index = (byId, .ok ())) ↔
      ∀ hit ∈ added calls, ∃ id, index.idOf hit.doc = .ok id := by
  have hcovers := (covers_after calls).trans (after calls).covers_best
  have hbest : (∃ byId, (after calls).sortById index = (byId, .ok ())) ↔
      ∀ hit ∈ (after calls).best.hits, ∃ id, index.idOf hit.doc = .ok id := by
    rw [← exists_withIds_iff, sortById]
    cases withIds index (after calls).best.hits <;> simp
  rw [hbest]
  constructor
  · intro h hit hm
    obtain ⟨best, hb, hdoc, -⟩ := hcovers.exists_ge hit hm
    exact hdoc ▸ h best hb
  · exact fun h hit hm => h hit (hcovers.subset hit hm)

theorem canonical_sortById [Std.LawfulEqOrd α] {calls : List (Call α)} {byId : Ranking α}
    {index : Index} (hindex : index.Distinct)
    (h : (after calls).sortById index = (byId, .ok ())) :
    Canonical index.IdBefore (added calls) byId.hits := by
  have hperm := (after calls).sortById_perm_best index
  rw [h] at hperm
  have honce := nodup_of_perm_best hperm
  refine (covers_after_of_perm hperm).canonical honce ?_
  obtain ⟨keyed, hkeyed, hhits⟩ := sortById_eq_ok h
  obtain ⟨-, hids⟩ := map_withIds hkeyed
  have hsorted := pairwise_mergeSort_isLE Hit.byScoreAndId keyed
  rw [hhits, List.map_map] at honce
  rw [hhits, List.pairwise_map]
  refine (hsorted.and (List.pairwise_map.mp honce)).imp_of_mem fun {a b} ha hb ⟨hle, hne⟩ => ?_
  have hida := hids a (List.mem_mergeSort.mp ha)
  have hidb := hids b (List.mem_mergeSort.mp hb)
  refine outranks_of_then (Hit.byScoreAndId_lt hle (hindex.idOf_ne hida hidb hne)) fun hlt => ?_
  exact ⟨a.1, b.1, hida, hidb, Text.lt_iff_bytes_lt.mp (compareOfLessAndEq_eq_lt.mp hlt)⟩

theorem sortById_after_congr [Std.LawfulEqOrd α] {calls calls' : List (Call α)}
    (h : ∀ hit, hit ∈ added calls ↔ hit ∈ added calls') (index : Index) :
    (after calls).sortById index = (after calls').sortById index := by
  rw [sortById, sortById, best_after_congr h]

/-! ## Both orders -/

/-- A sorted ranking is what the added scores say, in whatever order they were added and whatever
was sorted on the way. With ties by identifiers it has the same hits in another order, and that
depends on nothing else, either. -/
theorem sort_canonical (calls : List (Call Double)) :
    let sorted := (after calls).sort
    Canonical (· < ·) (added calls) sorted.hits ∧ sorted.sort = sorted ∧
      (∀ calls' : List (Call Double), (∀ hit, hit ∈ added calls' ↔ hit ∈ added calls) →
        (after calls').sort = sorted) ∧
      ∀ (documents : List Document) (byId : Ranking Double),
        let index := Index.empty.offered documents
        (after calls).sortById index = (byId, .ok ()) →
          Canonical index.IdBefore (added calls) byId.hits ∧ byId.hits.Perm sorted.hits ∧
            byId.sortById index = (byId, .ok ()) ∧
            ∀ calls' : List (Call Double), (∀ hit, hit ∈ added calls' ↔ hit ∈ added calls) →
              (after calls').sortById index = (byId, .ok ()) := by
  have hadded : ∀ call : Call Double, call.hit? = none →
      ∀ hit, hit ∈ added (calls ++ [call]) ↔ hit ∈ added calls := by
    intro call hcall hit
    rw [added_concat, hcall, Option.toList_none, List.append_nil]
  refine ⟨canonical_sort calls, ?_, fun calls' h => sort_after_congr h, ?_⟩
  · have hsame := sort_after_congr (hadded .sort rfl)
    rwa [after_concat] at hsame
  · intro documents byId index h
    have hperm := (after calls).sortById_perm_best index
    rw [h] at hperm
    refine ⟨canonical_sortById (Index.distinct_of_offered documents) h,
      hperm.trans (after calls).sort_perm_best.symm, ?_, fun calls' hsame => ?_⟩
    · have hsame := sortById_after_congr (hadded (.sortById index) rfl) index
      rwa [after_concat, Call.apply, h] at hsame
    · rw [sortById_after_congr hsame, h]

/-- Two documents with one score, whose identifiers are not in the order of their numbers. -/
def tiedDocuments : List Document :=
  [{ id := "later", fields := [] }, { id := "first", fields := [] }]

theorem idOf_tied : (Index.empty.offered tiedDocuments).idOf 0 = .ok "later" ∧
    (Index.empty.offered tiedDocuments).idOf 1 = .ok "first" := by
  simp [tiedDocuments, Index.offered, Index.addTokens, Index.empty, Index.register,
    Index.addFields, Index.idOf, firstRepeated?]

def tiedCalls : List (Call Double) :=
  [.add 0 ⟨0x3ff0000000000000⟩, .add 1 ⟨0⟩, .sort, .add 1 ⟨0x3ff0000000000000⟩]

theorem sort_canonical_tied :
    Canonical (· < ·) (added tiedCalls) (after tiedCalls).sort.hits ∧
      ∃ byId, (after tiedCalls).sortById (Index.empty.offered tiedDocuments) = (byId, .ok ()) ∧
        Canonical (Index.empty.offered tiedDocuments).IdBefore (added tiedCalls) byId.hits := by
  obtain ⟨byId, h⟩ : ∃ byId,
      (after tiedCalls).sortById (Index.empty.offered tiedDocuments) = (byId, .ok ()) := by
    rw [exists_sortById_iff]
    have hadded : ∀ hit ∈ added tiedCalls, hit.doc = 0 ∨ hit.doc = 1 := by decide
    intro hit hm
    rcases hadded hit hm with hdoc | hdoc
    · exact ⟨_, hdoc ▸ idOf_tied.1⟩
    · exact ⟨_, hdoc ▸ idOf_tied.2⟩
  obtain ⟨hsorted, -, -, hid⟩ := sort_canonical tiedCalls
  exact ⟨hsorted, byId, h, (hid tiedDocuments byId h).1⟩

end Ranking

end Retrieval
