import Retrieval.Proofs.Offers
import Retrieval.Proofs.Tally

/-!
# Bookkeeping of a list

A list counts its documents and its occurrences while postings are offered to it. The counts are
right after every offer (`PostingList.offers_booked`): what is refused leaves nothing behind, and
what is accepted adds its frequency as a natural number, since the sum cannot run over 64 bits.

The frequency of a posting that is made from positions is their number cut down to 32 bits. No such
posting is stored: the length of the positions is compared with the frequency when the posting is
appended.
-/

set_option autoImplicit false

namespace Retrieval

/-- The posting that an offer asks a list to store. -/
def Offer.posting : Offer → Posting
  | .whole posting => posting
  | .placed doc positions => { doc, frequency := positions.length.toUInt32, positions }

namespace PostingList

/-- Documents ascend, frequencies count positions, and the counts of the list are exact. -/
structure Booked (list : PostingList) : Prop where
  ascending : list.toList.Pairwise (·.doc < ·.doc)
  counted : ∀ posting ∈ list.toList, posting.frequency.toNat = posting.positions.length
  df_eq : list.df = list.toList.length
  ctf_eq : list.ctf.toNat = (list.toList.map (·.frequency.toNat)).sum

theorem Regular.booked {list : PostingList} (hr : list.Regular) (ht : list.Tallied) :
    list.Booked :=
  ⟨hr.ascending, hr.counted, Array.length_toList.symm, ht⟩

theorem append_of_accept {list next : PostingList} {item : Offer}
    (h : list.accept item = (next, .ok ())) : list.append item.posting = (next, .ok ()) := by
  cases item with
  | whole posting => exact h
  | placed doc positions => exact (appendAt_eq_ok h).2

/-- One posting at the end of a list whose counts are right. -/
theorem Booked.append {list next : PostingList} {posting : Posting} (hb : list.Booked)
    (h : list.append posting = (next, .ok ())) :
    next.Booked ∧ next.field = list.field ∧ next.toList = list.toList ++ [posting] ∧
      next.ctf.toNat = list.ctf.toNat + posting.frequency.toNat := by
  obtain ⟨-, -, hfield, hlist⟩ := append_eq_ok h
  have hregular : list.Regular := ⟨hb.ascending, hb.counted⟩
  have htallied : next.Tallied := Tallied.append hb.ctf_eq hb.ascending h
  refine ⟨(hregular.append h).booked htallied, hfield, hlist, ?_⟩
  rw [htallied, hlist, List.map_append, List.sum_append, ← hb.ctf_eq, List.map_singleton,
    List.sum_singleton]

theorem Booked.offer {list : PostingList} (hb : list.Booked) (item : Offer) :
    (list.offer item).Booked := by
  rcases list.offer_cases item with hsame | ⟨posting, happend, -⟩
  · rwa [hsame]
  · exact (hb.append happend).1

theorem booked_empty (field : String) : (empty field).Booked :=
  (regular_empty field).booked (tallied_empty field)

/-- More positions than a frequency can count are refused. -/
theorem appendAt_of_length (list : PostingList) (doc : DocId) {positions : List Position}
    (h : UInt32.size ≤ positions.length) :
    ∃ fault, list.appendAt doc positions = (list, .error fault) := by
  rcases hresult : list.appendAt doc positions with ⟨next, fault | ⟨⟨⟩⟩⟩
  · exact ⟨fault, by rw [appendAt_eq_error hresult]⟩
  · obtain ⟨-, -, hcount⟩ := appendAt_isOk_iff.mp ⟨next, hresult⟩
    have hlt : positions.length.toUInt32.toNat < UInt32.size := UInt32.toNat_lt _
    exact absurd (hcount ▸ hlt) (Nat.not_lt.mpr h)

/-- Whatever was offered to a new list, its documents ascend, every frequency counts positions, and
both of its counts are exact. A further offer is refused, and the list that comes back is the one
before it; or its posting comes last and its frequency is added to the occurrences as a natural
number. Positions that are too many to be counted are always refused. -/
theorem offers_booked (field : String) (items : List Offer) :
    let list := (empty field).offers items
    list.Booked ∧
      (∀ item, (∃ fault, list.accept item = (list, .error fault)) ∨
        ∃ next, list.accept item = (next, .ok ()) ∧ next.field = list.field ∧
          next.toList = list.toList ++ [item.posting] ∧
          next.ctf.toNat = list.ctf.toNat + item.posting.frequency.toNat) ∧
      ∀ doc positions, UInt32.size ≤ positions.length →
        ∃ fault, list.accept (.placed doc positions) = (list, .error fault) := by
  intro list
  have hbooked : list.Booked :=
    offers_keeps (fun item h => h.offer item) (booked_empty field) items
  refine ⟨hbooked, fun item => ?_, fun doc positions => appendAt_of_length list doc⟩
  rcases haccept : list.accept item with ⟨next, fault | ⟨⟨⟩⟩⟩
  · exact .inl ⟨fault, by rw [accept_eq_error haccept]⟩
  · obtain ⟨-, hfield, hlist, hcount⟩ := hbooked.append (append_of_accept haccept)
    exact .inr ⟨next, rfl, hfield, hlist, hcount⟩

end PostingList

end Retrieval
