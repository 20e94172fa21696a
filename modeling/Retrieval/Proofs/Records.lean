import Mathlib.Logic.Function.Basic
import Retrieval.Proofs.Postings
import Retrieval.Proximity.Merge

/-!
# Lists that record positions

Terms and proximity operators build their lists alike: documents come in ascending order, and each
gets a posting for its positions if there are any. Such a list is faithful
(`PostingList.Faithful`), and says no more than where it occurs in every document
(`PostingList.places`).
-/

set_option autoImplicit false

namespace Retrieval

namespace PostingList

/-- The list is ascending, and every posting counts the positions beside it, of which there is at
least one. -/
structure Faithful (list : PostingList) : Prop where
  ascending : list.Ascending
  counted : ∀ posting ∈ list.toList, posting.frequency.toNat = posting.positions.length
  increasing : ∀ posting ∈ list.toList, strictlyIncreasing posting.positions = true
  occurring : ∀ posting ∈ list.toList, posting.positions ≠ []

def places (list : PostingList) (doc : DocId) : List Position :=
  ((list.posting? doc).map (·.positions)).getD []

theorem faithful_empty (field : String) : (empty field).Faithful := by
  refine ⟨ascending_empty field, ?_, ?_, ?_⟩ <;> simp [toList_empty]

theorem places_empty (field : String) (doc : DocId) : (empty field).places doc = [] := rfl

theorem Faithful.mem_docs_iff {list : PostingList} (hf : list.Faithful) {doc : DocId} :
    doc ∈ list.docs ↔ list.places doc ≠ [] := by
  constructor
  · intro hd
    obtain ⟨posting, hp, rfl⟩ := List.mem_map.mp hd
    have hlist := hf.ascending.posting_eq_some.mpr ⟨hp, rfl⟩
    rw [places, hlist]
    exact hf.occurring posting hp
  · intro hne
    unfold places at hne
    cases hlist : list.posting? doc with
    | none => simp [hlist] at hne
    | some posting =>
      obtain ⟨hp, rfl⟩ := hf.ascending.posting_eq_some.mp hlist
      exact List.mem_map_of_mem hp

theorem posting_append {list next : PostingList} {posting : Posting}
    (he : next.toList = list.toList ++ [posting]) (doc : DocId) :
    next.posting? doc =
      (list.posting? doc).or (if posting.doc = doc then some posting else none) := by
  rw [posting?, he, List.find?_append, ← posting?, List.find?_singleton]
  simp

theorem exists_appendAt {list : PostingList} {doc : DocId} {positions : List Position}
    (hlast : ∀ posting ∈ list.toList, posting.doc < doc)
    (hinc : strictlyIncreasing positions = true) (hlen : positions.length < UInt32.size) :
    ∃ next, list.appendAt doc positions = (next, .ok ()) := by
  have hback : list.postings.back?.filter (doc ≤ ·.doc) = none := by
    rw [Option.filter_eq_none_iff]
    intro last hl hle
    rw [← Array.getLast?_toList] at hl
    have hlt := hlast last (List.mem_of_getLast? hl)
    exact UInt32.not_le.mpr hlt (by simpa using hle)
  have hcount : positions.length.toUInt32.toNat = positions.length :=
    UInt32.toNat_ofNat_of_lt' hlen
  simp only [appendAt, Posting.ofPositions, if_pos hinc, append, hback, hcount, ne_eq,
    not_true_eq_false, if_false]
  exact ⟨_, rfl⟩

end PostingList

namespace Proximity

theorem record_nil {list next : PostingList} {doc : DocId}
    (h : record list doc [] = (next, .ok ())) : next = list := by
  cases h
  rfl

theorem record_eq_ok {list next : PostingList} {doc : DocId} {positions : List Position}
    (hne : positions ≠ []) (h : record list doc positions = (next, .ok ())) :
    strictlyIncreasing positions = true ∧
      list.append { doc, frequency := positions.length.toUInt32, positions } = (next, .ok ()) := by
  rw [record, if_neg (by simpa using hne)] at h
  exact PostingList.appendAt_eq_ok h

theorem field_record {list next : PostingList} {doc : DocId} {positions : List Position}
    (h : record list doc positions = (next, .ok ())) : next.field = list.field := by
  by_cases hne : positions = []
  · subst hne
    rw [record_nil h]
  · exact (PostingList.append_eq_ok (record_eq_ok hne h).2).2.2.1

theorem ascending_record {list next : PostingList} {doc : DocId} {positions : List Position}
    (ha : list.Ascending) (h : record list doc positions = (next, .ok ())) : next.Ascending := by
  by_cases hne : positions = []
  · subst hne
    rwa [record_nil h]
  · exact ha.append (record_eq_ok hne h).2

theorem faithful_record {list next : PostingList} {doc : DocId} {positions : List Position}
    (hf : list.Faithful) (h : record list doc positions = (next, .ok ())) : next.Faithful := by
  by_cases hne : positions = []
  · subst hne
    rwa [record_nil h]
  · obtain ⟨hinc, happend⟩ := record_eq_ok hne h
    obtain ⟨-, hcount, -, he⟩ := PostingList.append_eq_ok happend
    refine ⟨hf.ascending.append happend, ?_, ?_, ?_⟩ <;>
      simp only [he, List.forall_mem_append, List.forall_mem_singleton]
    · exact ⟨hf.counted, hcount⟩
    · exact ⟨hf.increasing, hinc⟩
    · exact ⟨hf.occurring, hne⟩

theorem toList_record {list next : PostingList} {doc : DocId} {positions : List Position}
    (h : record list doc positions = (next, .ok ())) :
    ∀ posting ∈ next.toList, posting ∈ list.toList ∨ posting.doc = doc := by
  intro posting hp
  by_cases hne : positions = []
  · subst hne
    rw [record_nil h] at hp
    exact .inl hp
  · obtain ⟨-, -, -, he⟩ := PostingList.append_eq_ok (record_eq_ok hne h).2
    rw [he, List.mem_append, List.mem_singleton] at hp
    rcases hp with hold | rfl
    · exact .inl hold
    · exact .inr rfl

/-- Nothing is refused that lies behind the list's documents and can be counted. -/
theorem exists_record {list : PostingList} {doc : DocId} {positions : List Position}
    (hlast : ∀ posting ∈ list.toList, posting.doc < doc)
    (hinc : strictlyIncreasing positions = true) (hlen : positions.length < UInt32.size) :
    ∃ next, record list doc positions = (next, .ok ()) := by
  rw [record]
  split
  · exact ⟨list, rfl⟩
  · exact PostingList.exists_appendAt hlast hinc hlen

/-- What a merge does to its list is to record. -/
theorem mergeFrom_keeps {p : PostingList → Prop}
    (hp : ∀ {list next : PostingList} {doc : DocId} {positions : List Position},
      p list → record list doc positions = (next, .ok ()) → p next)
    {kind : ProximityOp} {span : UInt32} {list next : PostingList} {sources : List Source}
    (hlist : p list) (h : mergeFrom kind span list sources = .ok next) : p next := by
  fun_induction mergeFrom kind span list sources with
  | case1 => cases h; exact hlist
  | case2 => cases h
  | case3 list sources doc found _ recorded hrecord _ _ ih => exact ih (hp hlist hrecord) h
  | case4 list sources doc found _ recorded hrecord =>
    cases h
    exact hp hlist hrecord

/-- What is recorded for a document is where the list then occurs in it. -/
theorem places_record {list next : PostingList} {doc : DocId} {positions : List Position}
    (hnew : list.places doc = []) (hf : list.Faithful)
    (h : record list doc positions = (next, .ok ())) :
    next.places = Function.update list.places doc positions := by
  by_cases hne : positions = []
  · subst hne
    rw [record_nil h, ← hnew, Function.update_eq_self]
  · obtain ⟨-, -, -, he⟩ := PostingList.append_eq_ok (record_eq_ok hne h).2
    have hnone : list.posting? doc = none := by
      refine List.find?_eq_none.mpr fun posting hp hdoc => ?_
      have hmem : doc ∈ list.docs := beq_iff_eq.mp hdoc ▸ List.mem_map_of_mem hp
      exact hf.mem_docs_iff.mp hmem hnew
    funext other
    rw [PostingList.places, PostingList.posting_append he]
    by_cases ho : other = doc
    · subst ho
      rw [hnone, Function.update_self]
      simp
    · rw [Function.update_of_ne ho, if_neg (Ne.symm ho), Option.or_none, PostingList.places]

end Proximity

/-! ## Sources over such lists -/

/-- At a document that it stands on, a source reads where its list occurs. -/
theorem Source.Sound.locations_eq {source : Source} (hs : source.Sound) {doc : DocId}
    (hd : source.doc? = some doc) : source.locations = source.list.places doc := by
  obtain ⟨posting, hp, rfl⟩ := Option.map_eq_some_iff.mp hd
  rw [locations, hp, PostingList.places, hs.posting_of_current hp]

theorem Source.expects_ofList (label : String) (list : PostingList) (doc : DocId) :
    (ofList label list).expects doc = true ↔ doc ∈ list.docs := by
  simp [expects, ofList, PostingList.docs]

end Retrieval
