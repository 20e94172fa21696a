import Retrieval.Proofs.Proximity.Loop

/-!
# Merging comes out well

Sources that agree on a field and keep their positions in order are merged without a fault, wherever
their cursors stand (`Proximity.exists_merge`). The list is what the loop without any bound ends
with, has exactly the matches of the documents that all sources still have before them, and may
itself be an argument of a merge (`Proximity.merge_closed`).

No posting is refused: documents are visited in ascending order, matches increase as the positions
of the arguments do, and there are no more of them than an argument has positions.
-/

set_option autoImplicit false

namespace Retrieval

/-- Positions increase, and there are not too many of them for a frequency of 32 bits. Postings that
were appended have the latter of themselves, since their frequency counts their positions. -/
structure PostingList.Placed (list : PostingList) : Prop where
  increasing : ∀ posting ∈ list.toList, posting.positions.Pairwise (· < ·)
  countable : ∀ posting ∈ list.toList, posting.positions.length < UInt32.size

namespace PostingList

theorem Faithful.placed {list : PostingList} (hf : list.Faithful) : list.Placed where
  increasing posting hp := strictlyIncreasing_iff.mp (hf.increasing posting hp)
  countable posting hp := by
    rw [← hf.counted posting hp]
    exact posting.frequency.toNat_lt

theorem Placed.places {list : PostingList} (hp : list.Placed) (doc : DocId) :
    (list.places doc).Pairwise (· < ·) ∧ (list.places doc).length < UInt32.size := by
  unfold PostingList.places posting?
  cases hfound : list.toList.find? (·.doc == doc) with
  | none => exact ⟨.nil, by decide⟩
  | some posting =>
    have hmem := List.mem_of_find?_eq_some hfound
    exact ⟨hp.increasing posting hmem, hp.countable posting hmem⟩

end PostingList

namespace Source

/-- A source that can be merged: the cursor stands anywhere in a list whose documents ascend and
whose positions increase. -/
structure Ready (source : Source) : Prop where
  sound : source.Sound
  placed : source.list.Placed

/-- Fields that have a name do not differ. -/
def Agree (sources : List Source) : Prop :=
  ∀ source ∈ sources, ∀ other ∈ sources,
    source.field ≠ "" → other.field ≠ "" → source.field = other.field

end Source

namespace Proximity

/-! ## The field -/

/-- If names do not differ, the first of them is any of them. -/
theorem firstNamed_eq {names : List String}
    (hagree : ∀ name ∈ names, ∀ other ∈ names, name ≠ "" → other ≠ "" → name = other)
    {name : String} (hn : name ∈ names) (hne : name ≠ "") :
    (names.find? (!·.isEmpty)).getD "" = name := by
  cases hfind : names.find? (!·.isEmpty) with
  | none =>
    have hempty := List.find?_eq_none.mp hfind name hn
    simp [hne] at hempty
  | some first =>
    have hnamed := List.find?_some hfind
    exact hagree first (List.mem_of_find?_eq_some hfind) name hn (by simpa using hnamed) hne

theorem commonField_eq {sources : List Source} (ha : Source.Agree sources) {source : Source}
    (hs : source ∈ sources) (hne : source.field ≠ "") : commonField sources = source.field := by
  apply firstNamed_eq _ (List.mem_map_of_mem hs) hne
  rw [List.forall_mem_map]
  intro source hs
  rw [List.forall_mem_map]
  intro other ho
  exact ha source hs other ho

theorem commonField_eq_empty {sources : List Source} (h : ∀ source ∈ sources, source.field = "") :
    commonField sources = "" := by
  have hfind : (sources.map Source.field).find? (!·.isEmpty) = none := by
    rw [List.find?_eq_none]
    refine List.forall_mem_map.mpr fun source hs => ?_
    simp [h source hs]
  rw [commonField, hfind, Option.getD_none]

/-- The field of the result is one of the arguments', if there are any. -/
theorem exists_commonField {sources : List Source} (hne : sources ≠ []) :
    ∃ source ∈ sources, source.field = commonField sources := by
  unfold commonField
  cases hfind : (sources.map Source.field).find? (!·.isEmpty) with
  | some field => exact List.mem_map.mp (List.mem_of_find?_eq_some hfind)
  | none =>
    obtain ⟨source, hs⟩ := List.exists_mem_of_ne_nil sources hne
    have hempty := List.find?_eq_none.mp hfind source.field (List.mem_map_of_mem hs)
    exact ⟨source, hs, by simpa using hempty⟩

theorem find_mixed_eq_none_iff {sources : List Source} :
    (sources.find? fun source => !source.field.isEmpty && source.field != commonField sources) =
      none ↔ Source.Agree sources := by
  rw [List.find?_eq_none]
  constructor
  · intro h source hs other ho hne hne'
    have heq : ∀ source ∈ sources, source.field ≠ "" → source.field = commonField sources :=
      fun source hs hne => by simpa [hne] using h source hs
    rw [heq source hs hne, heq other ho hne']
  · intro ha source hs hmixed
    simp only [Bool.and_eq_true, Bool.not_eq_true', String.isEmpty_eq_false_iff,
      bne_iff_ne] at hmixed
    exact hmixed.2 (commonField_eq ha hs hmixed.1).symm

/-- Without a span of zero, a merge is refused only for its fields. -/
theorem merge_eq_mergeFrom {kind : ProximityOp} {span : UInt32} (hspan : span ≠ 0)
    {sources : List Source} (ha : Source.Agree sources) :
    merge kind span sources =
      mergeFrom kind span (PostingList.empty (commonField sources)) sources := by
  rw [merge, if_neg hspan]
  simp only [find_mixed_eq_none_iff.mpr ha]

theorem agree_of_merge {kind : ProximityOp} {span : UInt32} {sources : List Source}
    {list : PostingList} (h : merge kind span sources = .ok list) : Source.Agree sources := by
  unfold merge at h
  split at h
  · cases h
  · dsimp only at h
    split at h
    · cases h
    · exact find_mixed_eq_none_iff.mp ‹_›

/-! ## No posting is refused -/

theorem matchesIn_increasing {lists : List PostingList} (hp : ∀ list ∈ lists, list.Placed)
    (kind : ProximityOp) (span : UInt32) (doc : DocId) :
    (matchesIn kind span lists doc).Pairwise (· < ·) :=
  hits_increasing (List.forall_mem_map.mpr fun list hl => ((hp list hl).places doc).1) kind span

theorem length_matchesIn_le {lists : List PostingList} {list : PostingList} (hl : list ∈ lists)
    (kind : ProximityOp) (span : UInt32) (doc : DocId) :
    (matchesIn kind span lists doc).length ≤ (list.places doc).length :=
  length_hits_le (List.mem_map_of_mem hl) kind span

theorem length_matchesIn_lt {lists : List PostingList} (hp : ∀ list ∈ lists, list.Placed)
    (kind : ProximityOp) (span : UInt32) (doc : DocId) :
    (matchesIn kind span lists doc).length < UInt32.size := by
  cases lists with
  | nil =>
    rw [matchesIn, List.map_nil, hits_nil]
    decide
  | cons list rest =>
    have hlist := List.mem_cons_self (a := list) (l := rest)
    exact Nat.lt_of_le_of_lt (length_matchesIn_le hlist kind span doc)
      ((hp list hlist).places doc).2

theorem exists_mergeFrom {kind : ProximityOp} {span : UInt32} {list : PostingList}
    {sources : List Source} (hs : ∀ source ∈ sources, source.Sound)
    (hp : ∀ list ∈ sources.map (·.list), list.Placed)
    (hlast : ∀ posting ∈ list.toList, ∀ doc, Awaited sources doc → posting.doc < doc) :
    ∃ next, mergeFrom kind span list sources = .ok next := by
  fun_induction mergeFrom kind span list sources with
  | case1 list sources found hc => exact ⟨list, rfl⟩
  | case2 list sources doc found hc left fault hrecord =>
    obtain ⟨hfirst, -, -, -, hplaces⟩ := visit hs hc
    rw [hplaces] at hrecord
    have hmatches : hits kind span ((sources.map (·.list)).map (·.places doc)) =
        matchesIn kind span (sources.map (·.list)) doc := rfl
    rw [hmatches] at hrecord
    obtain ⟨next, hnext⟩ := exists_record (fun posting hm => hlast posting hm doc hfirst.1)
      (strictlyIncreasing_iff.mpr (matchesIn_increasing hp kind span doc))
      (length_matchesIn_lt hp kind span doc)
    rw [hnext] at hrecord
    cases hrecord
  | case3 list sources doc found hc recorded hrecord moved hlt ih =>
    obtain ⟨hfirst, hsound, hmoved, hlists, -⟩ := visit hs hc
    refine ih hsound (hlists ▸ hp) fun posting hm other ho => ?_
    obtain ⟨hother, hlater⟩ := (hmoved other).mp ho
    rcases toList_record hrecord posting hm with hold | rfl
    · exact hlast posting hold other hother
    · exact hlater
  | case4 list sources doc found hc recorded hrecord moved hnlt =>
    exact absurd (postingsLeft_lt hs hc) hnlt

theorem exists_merge {kind : ProximityOp} {span : UInt32} (hspan : span ≠ 0)
    {sources : List Source} (hready : ∀ source ∈ sources, source.Ready)
    (ha : Source.Agree sources) : ∃ list, merge kind span sources = .ok list := by
  rw [merge_eq_mergeFrom hspan ha]
  refine exists_mergeFrom (fun source hs => (hready source hs).sound)
    (List.forall_mem_map.mpr fun source hs => (hready source hs).placed) fun posting hm => ?_
  rw [PostingList.toList_empty] at hm
  cases hm

theorem merge_onlyConfig (kind : ProximityOp) (span : UInt32) {sources : List Source}
    (hready : ∀ source ∈ sources, source.Ready) : OnlyConfig (merge kind span sources) := by
  by_cases hspan : span = 0
  · rw [merge, if_pos hspan]
    exact onlyConfig_config _
  · by_cases ha : Source.Agree sources
    · obtain ⟨list, hmerge⟩ : ∃ list, merge kind span sources = .ok list :=
        exists_merge hspan hready ha
      rw [hmerge]
      exact onlyConfig_ok list
    · rw [merge, if_neg hspan]
      dsimp only
      split
      · exact onlyConfig_config _
      · exact absurd (find_mixed_eq_none_iff.mp ‹_›) ha

/-! ## What the list has -/

/-- Sources that agree are merged into a list of the matches in the documents that all of them
still have before them, from which a merge may start again. The loop over their common documents
ends with this list by itself. -/
theorem merge_closed {kind : ProximityOp} {span : UInt32} (hspan : span ≠ 0)
    {sources : List Source} (hready : ∀ source ∈ sources, source.Ready)
    (hagree : Source.Agree sources) :
    ∃ list, merge kind span sources = .ok list ∧
      (∀ outcome, Merges kind span (PostingList.empty (commonField sources)) sources outcome ↔
        outcome = .ok list) ∧
      (∀ doc, doc ∈ list.docs ↔
        Awaited sources doc ∧ matchesIn kind span (sources.map (·.list)) doc ≠ []) ∧
      (∀ posting ∈ list.toList,
        posting.positions = matchesIn kind span (sources.map (·.list)) posting.doc ∧
          posting.frequency.toNat = posting.positions.length) ∧
      list.ctf.toNat =
        (list.docs.map fun doc => (matchesIn kind span (sources.map (·.list)) doc).length).sum ∧
      (∀ source ∈ sources, source.field ≠ "" → list.field = source.field) ∧
      ((∀ source ∈ sources, source.field = "") → list.field = "") ∧
      list.Ascending ∧ (∀ posting ∈ list.toList, posting.positions.Pairwise (· < ·)) ∧
      ∀ source : Source, source.list = list → source.rest <:+ list.toList → source.Ready := by
  have hsound : ∀ source ∈ sources, source.Sound := fun source hs => (hready source hs).sound
  obtain ⟨list, hmerge⟩ := exists_merge hspan hready hagree
  obtain ⟨hf, htally, hfield, hplaces⟩ := merge_spec hsound hmerge
  have hloop : ∀ outcome,
      Merges kind span (PostingList.empty (commonField sources)) sources outcome ↔
        outcome = .ok list := fun outcome => by
    rw [merges_iff hsound, ← merge_eq_mergeFrom hspan hagree, hmerge]
  have hdocs : ∀ doc, doc ∈ list.docs ↔
      Awaited sources doc ∧ matchesIn kind span (sources.map (·.list)) doc ≠ [] := by
    intro doc
    rw [hf.mem_docs_iff, hplaces]
    by_cases hd : Awaited sources doc
    · rw [matchesAhead_of_awaited hd, and_iff_right hd]
    · simp [matchesAhead_of_not_awaited hd, hd]
  have hmatches : ∀ doc ∈ list.docs,
      list.places doc = matchesIn kind span (sources.map (·.list)) doc := fun doc hd => by
    rw [hplaces, matchesAhead_of_awaited ((hdocs doc).mp hd).1]
  refine ⟨list, hmerge, hloop, hdocs, fun posting hp => ⟨?_, hf.counted posting hp⟩, ?_, ?_, ?_,
    hf.ascending, hf.placed.increasing, ?_⟩
  · rw [← hmatches posting.doc (List.mem_map_of_mem hp)]
    exact (hf.places_eq hp).symm
  · rw [hf.sum_places htally, List.map_congr_left fun doc hd => by rw [hmatches doc hd]]
  · intro source hs hne
    rw [hfield, commonField_eq hagree hs hne]
  · intro hempty
    rw [hfield, commonField_eq_empty hempty]
  · rintro source rfl hrest
    exact ⟨⟨hf.ascending, hrest⟩, hf.placed⟩

/-- A list with a posting that has no positions. -/
def gappedList : PostingList :=
  { field := "body", postings := #[⟨1, 1, [0]⟩, ⟨3, 2, [2, 7]⟩, ⟨5, 0, []⟩], ctf := 3 }

def fullList : PostingList :=
  { field := "body", postings := #[⟨1, 1, [1]⟩, ⟨3, 2, [3, 9]⟩, ⟨5, 1, [4]⟩], ctf := 4 }

/-- The first source has passed a document, the second one has not moved. -/
def apartSources : List Source :=
  [(Source.ofList "red" gappedList).moveBeyond 1, Source.ofList "blue" fullList]

theorem merge_closed_apart :
    (∀ source ∈ apartSources, source.Ready) ∧ Source.Agree apartSources ∧
      ∃ list, merge .near 1 apartSources = .ok list ∧
        Merges .near 1 (PostingList.empty "body") apartSources (.ok list) ∧
        (∀ doc, doc ∈ list.docs ↔ doc = 3) ∧
        (∀ posting ∈ list.toList, posting.doc = 3 → posting.positions = [3]) ∧
        list.field = "body" ∧ (Source.ofList "#NEAR/1" list).Ready := by
  have hready : ∀ source ∈ apartSources, source.Ready := by
    have hgapped : (Source.ofList "red" gappedList).Sound := Source.sound_ofList _ (by decide)
    have hfull : (Source.ofList "blue" fullList).Sound := Source.sound_ofList _ (by decide)
    rw [apartSources, List.forall_mem_cons, List.forall_mem_singleton]
    exact ⟨⟨hgapped.moveBeyond 1, ⟨by decide, by decide⟩⟩, hfull, ⟨by decide, by decide⟩⟩
  have hagree : Source.Agree apartSources := by
    unfold Source.Agree
    decide
  obtain ⟨list, hmerge, hloop, hdocs, hpostings, -, hfield, -, -, -, hagain⟩ :=
    @merge_closed .near 1 (by decide) apartSources hready hagree
  refine ⟨hready, hagree, list, hmerge, (hloop (.ok list)).mpr rfl, fun doc => ?_,
    fun posting hp hdoc => ?_, ?_, ?_⟩
  · rw [hdocs]
    constructor
    · rintro ⟨hawaited, hmatches⟩
      obtain ⟨posting, hp, rfl⟩ :=
        Source.expects_iff.mp (hawaited.2 _ (List.mem_cons_self ..))
      clear hawaited
      revert posting
      decide
    · rintro rfl
      exact ⟨⟨by decide, by decide⟩, by decide⟩
  · rw [(hpostings posting hp).1, hdoc]
    decide
  · exact hfield _ (List.mem_cons_self ..) (by decide)
  · exact hagain _ rfl (List.suffix_refl _)

end Proximity

end Retrieval
