import Mathlib.Data.List.Pairwise
import Retrieval.Proofs.Cursor.Laws
import Retrieval.Source

/-!
# Posting lists in document order

Lists that are built by appending hold one posting per document, in ascending document order, and
every frequency counts the positions beside it. A source over such a list is a lawful cursor:
ahead of it are the documents of the postings that it has not passed.
-/

set_option autoImplicit false

namespace Retrieval

/-! ## Lists -/

namespace PostingList

def Ascending (list : PostingList) : Prop := list.toList.Pairwise (·.doc < ·.doc)

instance (list : PostingList) : Decidable list.Ascending :=
  inferInstanceAs (Decidable (list.toList.Pairwise (·.doc < ·.doc)))

def posting? (list : PostingList) (doc : DocId) : Option Posting :=
  list.toList.find? (·.doc == doc)

theorem ascending_empty (field : String) : (empty field).Ascending := List.Pairwise.nil

theorem toList_empty (field : String) : (empty field).toList = [] := rfl

theorem append_eq_ok {list next : PostingList} {posting : Posting}
    (h : list.append posting = (next, .ok ())) :
    (∀ last ∈ list.toList.getLast?, last.doc < posting.doc) ∧
      posting.frequency.toNat = posting.positions.length ∧ next.field = list.field ∧
      next.toList = list.toList ++ [posting] := by
  unfold append at h
  split at h
  · cases h
  · rename_i hback
    split at h
    · cases h
    · rename_i hfreq
      cases h
      refine ⟨fun last hlast => ?_, not_not.mp hfreq, rfl, by simp [toList]⟩
      rw [toList, Option.mem_def, Array.getLast?_toList] at hlast
      rw [hlast, Option.filter_eq_none_iff] at hback
      simpa using hback last rfl

theorem append_eq_error {list next : PostingList} {posting : Posting} {fault : Fault}
    (h : list.append posting = (next, .error fault)) : next = list := by
  unfold append at h
  split at h
  · cases h
    rfl
  · split at h
    · cases h
      rfl
    · cases h

theorem appendAt_eq_ok {list next : PostingList} {doc : DocId} {positions : List Position}
    (h : list.appendAt doc positions = (next, .ok ())) :
    strictlyIncreasing positions = true ∧
      list.append { doc, frequency := positions.length.toUInt32, positions } = (next, .ok ()) := by
  by_cases hinc : strictlyIncreasing positions = true
  · rw [appendAt, Posting.ofPositions, if_pos hinc] at h
    exact ⟨hinc, h⟩
  · rw [appendAt, Posting.ofPositions, if_neg hinc] at h
    cases h

theorem appendAt_eq_error {list next : PostingList} {doc : DocId} {positions : List Position}
    {fault : Fault} (h : list.appendAt doc positions = (next, .error fault)) : next = list := by
  unfold appendAt at h
  split at h
  · cases h
    rfl
  · exact append_eq_error h

theorem Ascending.append {list next : PostingList} {posting : Posting} (ha : list.Ascending)
    (h : list.append posting = (next, .ok ())) : next.Ascending := by
  obtain ⟨hlast, -, -, he⟩ := append_eq_ok h
  rw [Ascending, he, List.pairwise_append]
  refine ⟨ha, List.pairwise_singleton _ _, fun first hf other ho => ?_⟩
  rw [List.mem_singleton] at ho
  subst ho
  rcases List.eq_nil_or_concat list.toList with hnil | ⟨initial, last, hl⟩
  · simp [hnil] at hf
  · rw [Ascending, hl] at ha
    have hle : first.doc ≤ last.doc := by
      rw [hl, List.concat_eq_append, List.mem_append, List.mem_singleton] at hf
      rcases hf with hf | rfl
      · rw [List.concat_eq_append, List.pairwise_append] at ha
        exact UInt32.le_of_lt (ha.2.2 first hf last (List.mem_singleton_self _))
      · exact UInt32.le_refl _
    exact UInt32.lt_of_le_of_lt hle (hlast last (by simp [hl]))

theorem Ascending.posting_eq_some {list : PostingList} (ha : list.Ascending) {doc : DocId}
    {posting : Posting} :
    list.posting? doc = some posting ↔ posting ∈ list.toList ∧ posting.doc = doc := by
  unfold posting?
  constructor
  · intro h
    exact ⟨List.mem_of_find?_eq_some h, by simpa using List.find?_some h⟩
  · rintro ⟨hmem, rfl⟩
    unfold Ascending at ha
    generalize list.toList = postings at ha hmem ⊢
    induction postings with
    | nil => simp at hmem
    | cons first rest ih =>
      rw [List.pairwise_cons] at ha
      rcases List.mem_cons.mp hmem with rfl | hrest
      · simp
      · have hne : first.doc ≠ posting.doc := UInt32.ne_of_lt (ha.1 posting hrest)
        simpa [hne] using ih ha.2 hrest

end PostingList

/-! ## Sources -/

/-- On an ascending list the items in front of a bound are those below it. -/
theorem mem_dropWhile_iff {p : Posting → Bool} {postings : List Posting}
    (hp : postings.Pairwise fun a b => p b = true → p a = true) {posting : Posting} :
    posting ∈ postings.dropWhile p ↔ posting ∈ postings ∧ p posting = false := by
  induction postings with
  | nil => simp
  | cons first rest ih =>
    rw [List.pairwise_cons] at hp
    by_cases hf : p first = true
    · rw [List.dropWhile_cons_of_pos hf, ih hp.2, List.mem_cons]
      constructor
      · rintro ⟨hr, hb⟩
        exact ⟨.inr hr, hb⟩
      · rintro ⟨rfl | hr, hb⟩
        · simp [hf] at hb
        · exact ⟨hr, hb⟩
    · rw [List.dropWhile_cons_of_neg hf, List.mem_cons]
      refine ⟨fun hm => ⟨hm, ?_⟩, And.left⟩
      rcases hm with rfl | hr
      · simpa using hf
      · exact Bool.eq_false_iff.mpr fun hb => hf (hp.1 posting hr hb)

namespace Source

/-- The list is ascending, and the cursor has a last part of it before it. -/
structure Sound (source : Source) : Prop where
  ascending : source.list.Ascending
  suffix : source.rest <:+ source.list.toList

/-- Whether a posting of the document is still to come. -/
def expects (source : Source) (doc : DocId) : Bool := source.rest.any (·.doc == doc)

theorem sound_ofList (label : String) {list : PostingList} (ha : list.Ascending) :
    (ofList label list).Sound := ⟨ha, List.suffix_refl _⟩

theorem expects_iff {source : Source} {doc : DocId} :
    source.expects doc = true ↔ ∃ posting ∈ source.rest, posting.doc = doc := by
  simp [expects]

theorem Sound.rest_ascending {source : Source} (hs : source.Sound) :
    source.rest.Pairwise (·.doc < ·.doc) := hs.ascending.sublist hs.suffix.sublist

theorem Sound.moveTo {source : Source} (hs : source.Sound) (doc : DocId) :
    (source.moveTo doc).Sound := ⟨hs.ascending, (List.dropWhile_suffix _).trans hs.suffix⟩

theorem Sound.moveBeyond {source : Source} (hs : source.Sound) (doc : DocId) :
    (source.moveBeyond doc).Sound := ⟨hs.ascending, (List.dropWhile_suffix _).trans hs.suffix⟩

theorem Sound.expects_moveTo {source : Source} (hs : source.Sound) (bound doc : DocId) :
    (source.moveTo bound).expects doc = true ↔ source.expects doc = true ∧ bound ≤ doc := by
  have hmono : source.rest.Pairwise fun a b =>
      decide (b.doc < bound) = true → decide (a.doc < bound) = true :=
    hs.rest_ascending.imp fun hab hb => by
      simp only [decide_eq_true_eq] at hb ⊢
      exact UInt32.lt_trans hab hb
  simp only [expects_iff, Source.moveTo, mem_dropWhile_iff hmono, decide_eq_false_iff_not,
    UInt32.not_lt]
  grind

theorem Sound.expects_moveBeyond {source : Source} (hs : source.Sound) (bound doc : DocId) :
    (source.moveBeyond bound).expects doc = true ↔ source.expects doc = true ∧ bound < doc := by
  have hmono : source.rest.Pairwise fun a b =>
      decide (b.doc ≤ bound) = true → decide (a.doc ≤ bound) = true :=
    hs.rest_ascending.imp fun hab hb => by
      simp only [decide_eq_true_eq] at hb ⊢
      exact UInt32.le_trans (UInt32.le_of_lt hab) hb
  simp only [expects_iff, Source.moveBeyond, mem_dropWhile_iff hmono, decide_eq_false_iff_not,
    UInt32.not_le]
  grind

/-- The posting at the head is that of the first document to come. -/
theorem Sound.first_doc {source : Source} (hs : source.Sound) :
    FirstOf (source.expects · = true) source.doc? := by
  have hasc := hs.rest_ascending
  unfold doc? current? expects
  cases hrest : source.rest with
  | nil => simp [FirstOf]
  | cons first rest =>
    rw [hrest, List.pairwise_cons] at hasc
    refine ⟨by simp, fun doc hd => ?_⟩
    simp only [List.any_cons, Bool.or_eq_true, beq_iff_eq, List.any_eq_true] at hd
    rcases hd with rfl | ⟨posting, hp, rfl⟩
    · exact UInt32.le_refl _
    · exact UInt32.le_of_lt (hasc.1 posting hp)

/-- A source that moves beyond a document still to come leaves its posting behind. -/
theorem Sound.rest_moveBeyond_lt {source : Source} (hs : source.Sound) {doc : DocId}
    (hd : source.expects doc = true) :
    (source.moveBeyond doc).rest.length < source.rest.length := by
  have hfirst := hs.first_doc
  unfold doc? current? at hfirst
  cases hrest : source.rest with
  | nil => simp [expects, hrest] at hd
  | cons first later =>
    rw [hrest] at hfirst
    have hle : first.doc ≤ doc := hfirst.2 doc hd
    have hdrop : (source.moveBeyond doc).rest = later.dropWhile (·.doc ≤ doc) := by
      rw [Source.moveBeyond, hrest, List.dropWhile_cons_of_pos (by simpa using hle)]
    have hlater := (List.dropWhile_suffix (l := later) (fun p => decide (p.doc ≤ doc))).length_le
    rw [hdrop, List.length_cons]
    omega

theorem cursor_lawful : cursor.Lawful Sound (fun source doc => source.expects doc = true) where
  sound_settle _ := id
  sound_moveTo doc _ hs := hs.moveTo doc
  sound_moveBeyond doc _ hs := hs.moveBeyond doc
  ahead_settle _ _ _ := Iff.rfl
  ahead_moveTo doc _ hs := hs.expects_moveTo doc
  ahead_moveBeyond doc _ hs := hs.expects_moveBeyond doc
  first_doc _ hs := hs.first_doc
  found_iff source _ := by
    simp only [cursor, isExhausted, doc?, current?]
    cases source.rest <;> rfl
  least_doc source doc hs hd := by
    have hf := hs.first_doc
    rw [show source.doc? = some doc from hd] at hf
    exact hf

/-- The current posting is the one that the list has for its document. -/
theorem Sound.posting_of_current {source : Source} (hs : source.Sound) {posting : Posting}
    (hc : source.current? = some posting) : source.list.posting? posting.doc = some posting :=
  hs.ascending.posting_eq_some.mpr ⟨hs.suffix.subset (List.mem_of_head? hc), rfl⟩

end Source

end Retrieval
