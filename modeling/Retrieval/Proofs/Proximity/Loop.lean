import Retrieval.Proofs.Cursor.Common
import Retrieval.Proofs.Proximity.Merge

/-!
# The loop over common documents

`Proximity.mergeFrom` goes on only while a visit leaves fewer postings, and the search that it
begins each visit with only while a sweep raises the candidate. `Proximity.Merges` is the loop with
neither of these bounds. It goes on for as long as all sources have a document in common, so there
may be no end that it comes to.

Over sound sources it does come to an end, and to no other one than `mergeFrom`
(`Proximity.merges_iff`): the sweeps are those of `Cursor.Synchronizes`, and every visit moves a
source past a posting.
-/

set_option autoImplicit false

namespace Retrieval.Proximity

/-- The search for a document that all sources have, with what it ends with. Without sources there
is nothing to sweep. -/
inductive Meets : List Source → Option DocId × List Source → Prop
  | idle : Meets [] (none, [])
  | swept {sources : List Source} {last : Option DocId × List Source} (hne : sources ≠ [])
      (hsweeps : Source.cursor.Synchronizes 0 sources last) : Meets sources last

/-- Visit after visit with a list, until the sources have no document in common or a posting is
refused, with the outcome. -/
inductive Merges (kind : ProximityOp) (span : UInt32) :
    PostingList → List Source → Except Fault PostingList → Prop
  | ended {list : PostingList} {sources found : List Source}
      (hmeets : Meets sources (none, found)) : Merges kind span list sources (.ok list)
  | refused {list left : PostingList} {sources found : List Source} {doc : DocId} {fault : Fault}
      (hmeets : Meets sources (some doc, found))
      (hrecord : record list doc (hits kind span (found.map Source.locations)) =
        (left, .error fault)) :
      Merges kind span list sources (.error fault)
  | again {list next : PostingList} {sources found : List Source} {doc : DocId}
      {outcome : Except Fault PostingList} (hmeets : Meets sources (some doc, found))
      (hrecord : record list doc (hits kind span (found.map Source.locations)) = (next, .ok ()))
      (hrest : Merges kind span next (moveAllBeyond doc found) outcome) :
      Merges kind span list sources outcome

theorem Meets.unique {sources : List Source} {last other : Option DocId × List Source}
    (h : Meets sources last) (h' : Meets sources other) : last = other := by
  cases h with
  | idle =>
    cases h' with
    | idle => rfl
    | swept hne => exact absurd rfl hne
  | swept hne hsweeps =>
    cases h' with
    | idle => exact absurd rfl hne
    | swept _ hsweeps' => exact hsweeps.unique hsweeps'

theorem meets_common {sources : List Source} (hs : ∀ source ∈ sources, source.Sound) :
    Meets sources (Source.cursor.common sources) := by
  by_cases hnil : sources = []
  · subst hnil
    exact .idle
  · rw [Cursor.common, if_neg (by simpa using hnil)]
    exact .swept hnil (Source.cursor_lawful.synchronizes_commonFrom 0 sources hs)

variable {kind : ProximityOp} {span : UInt32}

/-- The loop comes to one end at most. -/
theorem Merges.unique {list : PostingList} {sources : List Source}
    {outcome other : Except Fault PostingList} (h : Merges kind span list sources outcome)
    (h' : Merges kind span list sources other) : outcome = other := by
  induction h with
  | ended hmeets =>
    cases h' with
    | ended => rfl
    | refused hmeets' => cases hmeets.unique hmeets'
    | again hmeets' => cases hmeets.unique hmeets'
  | refused hmeets hrecord =>
    cases h' with
    | ended hmeets' => cases hmeets.unique hmeets'
    | refused hmeets' hrecord' =>
      cases hmeets.unique hmeets'
      cases hrecord.symm.trans hrecord'
      rfl
    | again hmeets' hrecord' =>
      cases hmeets.unique hmeets'
      cases hrecord.symm.trans hrecord'
  | again hmeets hrecord _ ih =>
    cases h' with
    | ended hmeets' => cases hmeets.unique hmeets'
    | refused hmeets' hrecord' =>
      cases hmeets.unique hmeets'
      cases hrecord.symm.trans hrecord'
    | again hmeets' hrecord' hrest' =>
      cases hmeets.unique hmeets'
      cases hrecord.symm.trans hrecord'
      exact ih hrest'

/-- Every visit of sound sources leaves fewer postings, so the bounded loop goes through all of
them. -/
theorem merges_mergeFrom (list : PostingList) {sources : List Source}
    (hs : ∀ source ∈ sources, source.Sound) :
    Merges kind span list sources (mergeFrom kind span list sources) := by
  fun_induction mergeFrom kind span list sources with
  | case1 list sources found hc => exact .ended (hc ▸ meets_common hs)
  | case2 list sources doc found hc left fault hrecord =>
    exact .refused (hc ▸ meets_common hs) hrecord
  | case3 list sources doc found hc next hrecord moved hlt ih =>
    obtain ⟨-, hsound, -⟩ := visit hs hc
    exact .again (hc ▸ meets_common hs) hrecord (ih hsound)
  | case4 list sources doc found hc next hrecord moved hnlt =>
    exact absurd (postingsLeft_lt hs hc) hnlt

/-- Over sound sources the loop comes to an end, which is the one that the bounded loop gives. -/
theorem merges_iff {list : PostingList} {sources : List Source}
    (hs : ∀ source ∈ sources, source.Sound) {outcome : Except Fault PostingList} :
    Merges kind span list sources outcome ↔ outcome = mergeFrom kind span list sources := by
  constructor
  · intro h
    exact h.unique (merges_mergeFrom list hs)
  · rintro rfl
    exact merges_mergeFrom list hs

end Retrieval.Proximity
