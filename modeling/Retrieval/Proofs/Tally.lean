import Mathlib.Algebra.Group.Action.Defs
import Mathlib.Algebra.Order.BigOperators.Group.List
import Mathlib.Algebra.Order.Group.Nat
import Mathlib.Algebra.Order.Ring.Nat
import Mathlib.Data.List.Perm.Subperm
import Retrieval.Proofs.Records

/-!
# Collection frequencies

A posting list counts its occurrences in 64 bits, adding the frequency of every posting that is
appended. The count cannot run over: documents are numbered by 32 bits, so an ascending list has at
most that many postings, and a frequency has 32 bits too. It is therefore the exact number of
occurrences (`PostingList.Tallied`).
-/

set_option autoImplicit false

namespace Retrieval

namespace PostingList

/-- The count is the sum of the frequencies as natural numbers. -/
def Tallied (list : PostingList) : Prop :=
  list.ctf.toNat = (list.toList.map (·.frequency.toNat)).sum

theorem tallied_empty (field : String) : (empty field).Tallied := rfl

theorem Ascending.nodup_docs {list : PostingList} (ha : list.Ascending) : list.docs.Nodup := by
  refine List.pairwise_map.mpr (List.Pairwise.imp (fun {a b} hab => ?_) ha)
  exact UInt32.ne_of_lt hab

theorem Ascending.length_le {list : PostingList} (ha : list.Ascending) :
    list.toList.length ≤ UInt32.size := by
  have hnodup : (list.docs.map (·.toNat)).Nodup := by
    refine List.pairwise_map.mpr (List.Pairwise.imp (fun {a b} hab => ?_) ha.nodup_docs)
    exact fun heq => hab (UInt32.toNat_inj.mp heq)
  have hsub : list.docs.map (·.toNat) ⊆ List.range UInt32.size := by
    refine List.forall_mem_map.mpr fun doc _ => ?_
    exact List.mem_range.mpr doc.toNat_lt
  have hle := (List.subperm_of_subset hnodup hsub).length_le
  rwa [List.length_map, PostingList.docs, List.length_map, List.length_range] at hle

theorem Ascending.sum_frequencies_lt {list : PostingList} (ha : list.Ascending) :
    (list.toList.map (·.frequency.toNat)).sum < UInt64.size := by
  have hsum : (list.toList.map (·.frequency.toNat)).sum ≤
      (list.toList.map (·.frequency.toNat)).length • (UInt32.size - 1) := by
    refine List.sum_le_card_nsmul _ _ (List.forall_mem_map.mpr fun posting _ => ?_)
    exact Nat.le_sub_one_of_lt posting.frequency.toNat_lt
  rw [List.length_map, smul_eq_mul] at hsum
  have hmul := Nat.mul_le_mul_right (UInt32.size - 1) ha.length_le
  have hbound : UInt32.size * (UInt32.size - 1) < UInt64.size := by decide
  omega

theorem ctf_append {list next : PostingList} {posting : Posting}
    (h : list.append posting = (next, .ok ())) :
    next.ctf = list.ctf + posting.frequency.toUInt64 := by
  unfold append at h
  split at h
  · cases h
  · split at h
    · cases h
    · cases h
      rfl

theorem Tallied.append {list next : PostingList} {posting : Posting} (ht : list.Tallied)
    (ha : list.Ascending) (h : list.append posting = (next, .ok ())) : next.Tallied := by
  have hlt := (ha.append h).sum_frequencies_lt
  obtain ⟨-, -, -, he⟩ := append_eq_ok h
  have hsum : (next.toList.map (·.frequency.toNat)).sum =
      list.ctf.toNat + posting.frequency.toNat := by
    rw [he, List.map_append, List.sum_append, ← ht]
    simp
  have hword : posting.frequency.toUInt64.toNat = posting.frequency.toNat :=
    UInt32.toNat_toUInt64 _
  rw [hsum] at hlt
  rw [Tallied, hsum, ctf_append h, UInt64.toNat_add, hword]
  exact Nat.mod_eq_of_lt hlt

end PostingList

theorem Proximity.tallied_record {list next : PostingList} {doc : DocId}
    {positions : List Position} (h : list.Ascending ∧ list.Tallied)
    (hrecord : record list doc positions = (next, .ok ())) : next.Ascending ∧ next.Tallied := by
  refine ⟨ascending_record h.1 hrecord, ?_⟩
  by_cases hne : positions = []
  · subst hne
    rw [record_nil hrecord]
    exact h.2
  · exact h.2.append h.1 (record_eq_ok hne hrecord).2

theorem Proximity.ctf_record {list next : PostingList} {doc : DocId} {positions : List Position}
    (h : list.Ascending ∧ list.Tallied) (hrecord : record list doc positions = (next, .ok ())) :
    next.ctf.toNat = list.ctf.toNat + positions.length := by
  have hnext := (tallied_record h hrecord).2
  by_cases hne : positions = []
  · subst hne
    rw [record_nil hrecord, List.length_nil, Nat.add_zero]
  · obtain ⟨-, hcount, -, he⟩ := PostingList.append_eq_ok (record_eq_ok hne hrecord).2
    rw [hnext, he, List.map_append, List.sum_append, ← h.2, List.map_singleton, List.sum_singleton,
      hcount]

theorem PostingList.Faithful.places_eq {list : PostingList} (hf : list.Faithful)
    {posting : Posting} (hp : posting ∈ list.toList) :
    list.places posting.doc = posting.positions := by
  rw [places, hf.ascending.posting_eq_some.mpr ⟨hp, rfl⟩]
  rfl

/-- The count of a faithful list is the number of places where it occurs. -/
theorem PostingList.Faithful.sum_places {list : PostingList} (hf : list.Faithful)
    (ht : list.Tallied) :
    list.ctf.toNat = (list.docs.map fun doc => (list.places doc).length).sum := by
  rw [ht, PostingList.docs, List.map_map]
  congr 1
  refine List.map_congr_left fun posting hp => ?_
  rw [Function.comp_apply, hf.places_eq hp]
  exact hf.counted posting hp

/-- A list that occurs nowhere more often than another one does not occur more often in all. -/
theorem PostingList.Faithful.ctf_le {list other : PostingList} (hf : list.Faithful)
    (ht : list.Tallied) (hf' : other.Faithful) (ht' : other.Tallied)
    (hle : ∀ doc, (list.places doc).length ≤ (other.places doc).length) :
    list.ctf.toNat ≤ other.ctf.toNat := by
  have hsub : list.docs ⊆ other.docs := by
    intro doc hd
    rw [hf.mem_docs_iff, ← List.length_pos_iff] at hd
    rw [hf'.mem_docs_iff, ← List.length_pos_iff]
    exact Nat.lt_of_lt_of_le hd (hle doc)
  obtain ⟨docs, hperm, hsublist⟩ := List.subperm_of_subset hf.ascending.nodup_docs hsub
  rw [hf.sum_places ht, hf'.sum_places ht']
  calc (list.docs.map fun doc => (list.places doc).length).sum
      ≤ (list.docs.map fun doc => (other.places doc).length).sum :=
        List.sum_le_sum fun doc _ => hle doc
    _ = (docs.map fun doc => (other.places doc).length).sum := (hperm.map _).sum_eq.symm
    _ ≤ (other.docs.map fun doc => (other.places doc).length).sum :=
        (hsublist.map _).sum_le_sum fun _ _ => Nat.zero_le _

end Retrieval
