import Retrieval.Proofs.Index.Statistics
import Retrieval.Proofs.Proximity.Closed
import Retrieval.Proofs.Source.OfQuery

/-!
# Occurrences and lengths

A query with postings occurs in a document no more often than its field has tokens there, and in all
documents no more often than the field has tokens in all (`Source.bounds_of_built`). For proximity
operators this goes back to the argument that their field comes from: every match takes one of its
places.
-/

set_option autoImplicit false

namespace Retrieval

theorem Document.countIn_le_tokens (documents : List Document) (field term : String) :
    countIn documents field term ≤ (totalsOf documents field).tokens :=
  List.sum_le_sum fun _ _ => List.count_le_length

namespace Source

variable {α : Type} [Scalar α] [DecimalText α] {index : Index} {documents : List Document}

theorem bounds_of_built (hr : index.Reflects documents) (hm : index.Measured documents)
    {query : Query α} {source : Source} (h : ofQuery index query = .ok source) :
    source.list.Tallied ∧
      (∀ doc, (source.list.places doc).length ≤
        (Document.tokensOf documents source.field doc).length) ∧
      source.list.ctf.toNat ≤ (index.fieldTotals source.field).tokens := by
  induction query using Query.inductionOn generalizing source with
  | term field word =>
    cases h
    rw [show (ofTerm index field word).field = field from hr.field_eq field word]
    refine ⟨hm.tallied field word, fun doc => ?_, ?_⟩
    · rw [ofTerm, ofList, hr.places_eq, length_positionsOf]
      exact List.count_le_length
    · rw [ofTerm, ofList, hm.count_eq, hm.totals_eq]
      exact Document.countIn_le_tokens documents field word
  | proximity kind span args ih =>
    obtain ⟨sources, list, hsources, hmerge, rfl⟩ := ofQuery_proximity h
    have hstart := starts_of_args hr.listed hsources
    obtain ⟨hf, ht, hfield, hplaces⟩ := Proximity.places_merge hstart hmerge
    refine ⟨ht, ?_⟩
    simp only [ofList, field, hplaces]
    rcases eq_or_ne sources [] with rfl | hne
    · have hnone : ∀ doc, Proximity.matchesIn kind span [] doc = [] := fun doc =>
        Proximity.hits_nil kind span
      have hzero : list.ctf.toNat ≤ (PostingList.empty "").ctf.toNat :=
        hf.ctf_le ht (PostingList.faithful_empty "") (PostingList.tallied_empty "") fun doc => by
          rw [hplaces]
          exact (congrArg List.length (hnone doc)).le
      exact ⟨fun doc => by rw [List.map_nil, hnone]; exact Nat.zero_le _,
        Nat.le_trans hzero (Nat.zero_le _)⟩
    · obtain ⟨source, hs, heq⟩ := Proximity.exists_commonField hne
      obtain ⟨arg, harg, hbuilt⟩ := exists_of_forall₂ hsources hs
      obtain ⟨ht', hbound, hctf⟩ := ih arg harg hbuilt
      have hle : ∀ doc, (Proximity.matchesIn kind span (sources.map (·.list)) doc).length ≤
          (source.list.places doc).length := fun doc =>
        Proximity.length_matchesIn_le (List.mem_map_of_mem hs) kind span doc
      rw [hfield, ← heq]
      refine ⟨fun doc => Nat.le_trans (hle doc) (hbound doc), Nat.le_trans ?_ hctf⟩
      exact hf.ctf_le ht (hstart source hs).1 ht' fun doc => hplaces doc ▸ hle doc
  | score arg _ => cases h
  | combine op weights args _ => cases h

end Source

end Retrieval
