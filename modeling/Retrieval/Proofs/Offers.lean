import Mathlib.Data.List.Induction
import Retrieval.Proofs.Postings

/-!
# Offers to a list

A posting is offered to a list either whole or as the positions of a document. Its document and
its frequency are checked in both cases (`PostingList.append_isOk_iff`), the order of its positions
only where the posting is made from them (`PostingList.appendAt_isOk_iff`). A refused offer leaves
the list as it was (`PostingList.accept_eq_error`).

So a run of offers stores postings in order except for some that were offered whole
(`PostingList.offers_increasing_iff`), and one of those does not have to be in order
(`PostingList.offers_unordered`). What a list can come to hold is said by
`PostingList.exists_offers_iff`.
-/

set_option autoImplicit false

namespace Retrieval

/-- A posting for a list, whole or as the positions of a document. -/
inductive Offer where
  | whole (posting : Posting)
  | placed (doc : DocId) (positions : List Position)
  deriving DecidableEq

namespace PostingList

/-- Makes an offer, either way. -/
def accept (list : PostingList) : Offer → PostingList × Except Fault Unit
  | .whole posting => list.append posting
  | .placed doc positions => list.appendAt doc positions

/-- The list after an offer, whatever the outcome. -/
def offer (list : PostingList) (item : Offer) : PostingList := (list.accept item).1

def offers (list : PostingList) (items : List Offer) : PostingList := items.foldl offer list

/-- What a list keeps at every offer, it keeps whatever it is offered. -/
theorem offers_keeps {p : PostingList → Prop}
    (hstep : ∀ {list : PostingList} (item : Offer), p list → p (list.offer item))
    {list : PostingList} (h : p list) (items : List Offer) : p (list.offers items) := by
  induction items generalizing list with
  | nil => exact h
  | cons item rest ih => exact ih (hstep item h)

theorem offers_concat (list : PostingList) (items : List Offer) (item : Offer) :
    list.offers (items ++ [item]) = (list.offers items).offer item :=
  List.foldl_concat ..

/-! ## What is checked -/

theorem append_isOk_iff {list : PostingList} {posting : Posting} :
    (∃ next, list.append posting = (next, .ok ())) ↔
      (∀ last ∈ list.toList.getLast?, last.doc < posting.doc) ∧
        posting.frequency.toNat = posting.positions.length := by
  constructor
  · rintro ⟨next, happend⟩
    obtain ⟨hlast, hcount, -⟩ := append_eq_ok happend
    exact ⟨hlast, hcount⟩
  · rintro ⟨hlast, hcount⟩
    have hback : list.postings.back?.filter (posting.doc ≤ ·.doc) = none := by
      rw [Option.filter_eq_none_iff]
      intro last hl
      rw [← Array.getLast?_toList] at hl
      simpa using hlast last hl
    rw [append, hback]
    simp [hcount]

/-- The last condition fails only for more positions than a frequency can count. -/
theorem appendAt_isOk_iff {list : PostingList} {doc : DocId} {positions : List Position} :
    (∃ next, list.appendAt doc positions = (next, .ok ())) ↔
      strictlyIncreasing positions = true ∧ (∀ last ∈ list.toList.getLast?, last.doc < doc) ∧
        positions.length.toUInt32.toNat = positions.length := by
  rw [appendAt, Posting.ofPositions]
  by_cases hinc : strictlyIncreasing positions = true
  · rw [if_pos hinc]
    simp only [hinc, true_and]
    exact append_isOk_iff
  · rw [if_neg hinc]
    simp [hinc]

/-- A refused offer leaves the list as it was. -/
theorem accept_eq_error {list next : PostingList} {item : Offer} {fault : Fault}
    (h : list.accept item = (next, .error fault)) : next = list := by
  cases item with
  | whole posting => exact append_eq_error h
  | placed doc positions => exact appendAt_eq_error h

/-! ## What is stored -/

/-- What one offer does: it is refused, or its posting is appended. -/
theorem offer_cases (list : PostingList) (item : Offer) :
    list.offer item = list ∨
      ∃ posting, list.append posting = (list.offer item, .ok ()) ∧
        (item = .whole posting ∨ strictlyIncreasing posting.positions = true) := by
  obtain ⟨outcome, haccept⟩ : ∃ outcome, list.accept item = (list.offer item, outcome) :=
    ⟨_, rfl⟩
  cases outcome with
  | error fault => exact .inl (accept_eq_error haccept)
  | ok =>
    right
    cases item with
    | whole posting => exact ⟨posting, haccept, .inl rfl⟩
    | placed doc positions =>
      obtain ⟨hinc, happend⟩ := appendAt_eq_ok haccept
      exact ⟨_, happend, .inr hinc⟩

theorem mem_offer {list : PostingList} {item : Offer} {posting : Posting}
    (h : posting ∈ (list.offer item).toList) :
    posting ∈ list.toList ∨ item = .whole posting ∨
      strictlyIncreasing posting.positions = true := by
  rcases list.offer_cases item with hsame | ⟨added, happend, horder⟩
  · exact .inl (hsame ▸ h)
  · rw [(append_eq_ok happend).2.2.2, List.mem_append, List.mem_singleton] at h
    rcases h with hmem | rfl
    · exact .inl hmem
    · exact .inr horder

theorem mem_offers {list : PostingList} {items : List Offer} {posting : Posting}
    (h : posting ∈ (list.offers items).toList) :
    posting ∈ list.toList ∨ .whole posting ∈ items ∨
      strictlyIncreasing posting.positions = true := by
  induction items generalizing list with
  | nil => exact .inl h
  | cons item rest ih =>
    rcases ih h with hmem | hrest | hinc
    · rcases mem_offer hmem with hlist | rfl | hinc
      · exact .inl hlist
      · exact .inr (.inl (List.mem_cons_self ..))
      · exact .inr (.inr hinc)
    · exact .inr (.inl (List.mem_cons_of_mem _ hrest))
    · exact .inr (.inr hinc)

/-- All positions in a new list are in order exactly if those are that came in whole. -/
theorem offers_increasing_iff (field : String) (items : List Offer) :
    (∀ posting ∈ ((empty field).offers items).toList,
        strictlyIncreasing posting.positions = true) ↔
      ∀ posting ∈ ((empty field).offers items).toList, .whole posting ∈ items →
        strictlyIncreasing posting.positions = true := by
  refine ⟨fun h posting hp _ => h posting hp, fun h posting hp => ?_⟩
  rcases mem_offers hp with hnone | hwhole | hinc
  · cases hnone
  · exact h posting hp hwhole
  · exact hinc

/-- The positions of a whole posting are taken in the wrong order too. -/
theorem offers_unordered :
    ¬ ∀ (field : String) (items : List Offer), ∀ posting ∈ ((empty field).offers items).toList,
      strictlyIncreasing posting.positions = true := by
  intro h
  have hfalse := h "body" [.whole { doc := 1, frequency := 2, positions := [5, 3] }]
    { doc := 1, frequency := 2, positions := [5, 3] } (by decide)
  exact absurd hfalse (by decide)

/-! ## Which lists there are -/

/-- What every offer keeps: documents ascend, and frequencies count positions. -/
structure Regular (list : PostingList) : Prop where
  ascending : list.Ascending
  counted : ∀ posting ∈ list.toList, posting.frequency.toNat = posting.positions.length

theorem regular_empty (field : String) : (empty field).Regular :=
  ⟨ascending_empty field, fun _ hp => nomatch hp⟩

theorem Regular.append {list next : PostingList} {posting : Posting} (hr : list.Regular)
    (h : list.append posting = (next, .ok ())) : next.Regular := by
  obtain ⟨-, hcount, -, hnext⟩ := append_eq_ok h
  refine ⟨hr.ascending.append h, fun other ho => ?_⟩
  rw [hnext, List.mem_append, List.mem_singleton] at ho
  rcases ho with ho | rfl
  · exact hr.counted other ho
  · exact hcount

theorem Regular.offer {list : PostingList} (hr : list.Regular) (item : Offer) :
    (list.offer item).Regular := by
  rcases list.offer_cases item with hsame | ⟨posting, happend, -⟩
  · rwa [hsame]
  · exact hr.append happend

theorem Regular.offers {list : PostingList} (hr : list.Regular) (items : List Offer) :
    (list.offers items).Regular :=
  offers_keeps (fun item h => h.offer item) hr items

/-- Whole postings go into a new list as they are, whatever the order of their positions. -/
theorem toList_offers_whole (field : String) {postings : List Posting}
    (hdocs : postings.Pairwise (·.doc < ·.doc))
    (hcount : ∀ posting ∈ postings, posting.frequency.toNat = posting.positions.length) :
    ((empty field).offers (postings.map .whole)).toList = postings := by
  induction postings using List.reverseRecOn with
  | nil => rfl
  | append_singleton earlier last ih =>
    obtain ⟨hearlier, -, hbelow⟩ := List.pairwise_append.mp hdocs
    rw [List.forall_mem_append, List.forall_mem_singleton] at hcount
    have hstored := ih hearlier hcount.1
    have hlast : ∀ posting ∈ ((empty field).offers (earlier.map .whole)).toList.getLast?,
        posting.doc < last.doc := by
      intro posting hp
      rw [hstored] at hp
      exact hbelow posting (List.mem_of_getLast? hp) last (List.mem_singleton_self last)
    obtain ⟨next, happend⟩ := append_isOk_iff.mpr ⟨hlast, hcount.2⟩
    rw [List.map_append, List.map_singleton, offers_concat, offer, accept, happend]
    rw [(append_eq_ok happend).2.2.2, hstored]

/-- The postings that a new list can come to hold: the order of their positions is no part of it. -/
theorem exists_offers_iff (field : String) (postings : List Posting) :
    (∃ items, ((empty field).offers items).toList = postings) ↔
      postings.Pairwise (·.doc < ·.doc) ∧
        ∀ posting ∈ postings, posting.frequency.toNat = posting.positions.length := by
  constructor
  · rintro ⟨items, rfl⟩
    have hregular := (regular_empty field).offers items
    exact ⟨hregular.ascending, hregular.counted⟩
  · rintro ⟨hdocs, hcount⟩
    exact ⟨postings.map .whole, toList_offers_whole field hdocs hcount⟩

end PostingList

end Retrieval
