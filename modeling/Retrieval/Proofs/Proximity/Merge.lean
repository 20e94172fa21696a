import Mathlib.Tactic.Common
import Retrieval.Proofs.Cursor.Searches
import Retrieval.Proofs.Proximity.Hits
import Retrieval.Proofs.Tally

/-!
# Merging is exact

The list of a proximity operator occurs in a document exactly where the matcher for that document
says, given where the arguments occur in it (`Proximity.places_merge`). Documents that some
argument lacks are no exception: the matcher finds nothing in them.

The loop stands between two parts of the documents. Those that all sources still have before them
are to be visited, and for all others the list has their matches already.
-/

set_option autoImplicit false

namespace Retrieval.Proximity

/-! ## Matches of a document -/

/-- Where an operator matches in a document, given the lists of its arguments. -/
def matchesIn (kind : ProximityOp) (span : UInt32) (lists : List PostingList) (doc : DocId) :
    List Position :=
  hits kind span (lists.map (·.places doc))

/-- Whether all sources have the document before them. -/
def Awaited (sources : List Source) (doc : DocId) : Prop :=
  MatchRule.all.Admits (fun source : Source => source.expects doc = true) sources

/-! ## The loop -/

theorem cursor_keeps_list : Source.cursor.Keeps fun a b => b.list = a.list where
  refl _ := rfl
  trans hab hbc := hbc.trans hab
  settle _ := rfl
  moveTo _ _ := rfl
  moveBeyond _ _ := rfl

theorem cursor_keeps_rest : Source.cursor.Keeps fun a b => b.rest.length ≤ a.rest.length where
  refl _ := Nat.le_refl _
  trans hab hbc := Nat.le_trans hbc hab
  settle _ := Nat.le_refl _
  moveTo _ _ := (List.dropWhile_suffix _).length_le
  moveBeyond _ _ := (List.dropWhile_suffix _).length_le

theorem postingsLeft_eq_sum (sources : List Source) :
    postingsLeft sources = (sources.map (·.rest.length)).sum := List.length_flatMap

/-- A visit leaves fewer postings, so the loop goes on until a source has run out. -/
theorem postingsLeft_lt {sources found : List Source} {doc : DocId}
    (hs : ∀ source ∈ sources, source.Sound)
    (hc : Source.cursor.common sources = (some doc, found)) :
    postingsLeft (moveAllBeyond doc found) < postingsLeft sources := by
  have hfirst := Source.cursor_lawful.common_first hs
  have hjoint := (Source.cursor_lawful.admits_find .all hs doc).mpr
  have hsound := Source.cursor_lawful.sound_find .all hs
  have hrest := (cursor_keeps_rest.common sources).flip
  rw [Cursor.find, hc] at hjoint hsound
  rw [hc] at hfirst hrest
  obtain ⟨source, hsource, hd⟩ := (hjoint hfirst.1).exists_mem
  have hfound : postingsLeft found ≤ postingsLeft sources := by
    rw [postingsLeft_eq_sum, postingsLeft_eq_sum]
    exact List.Forall₂.sum_le_sum
      (List.forall₂_map_left_iff.mpr (List.forall₂_map_right_iff.mpr hrest))
  have hmoved : postingsLeft (moveAllBeyond doc found) < postingsLeft found := by
    rw [postingsLeft_eq_sum, postingsLeft_eq_sum, moveAllBeyond, List.map_map]
    exact List.sum_lt_sum _ _ (fun other _ => (List.dropWhile_suffix _).length_le)
      ⟨source, hsource, (hsound source hsource).rest_moveBeyond_lt hd⟩
  exact Nat.lt_of_lt_of_le hmoved hfound

/-- What one visit does: it comes to the first awaited document, reads the places of all arguments
in it, and leaves the later ones awaited. -/
theorem visit {sources found : List Source} {doc : DocId}
    (hs : ∀ source ∈ sources, source.Sound)
    (hc : Source.cursor.common sources = (some doc, found)) :
    FirstOf (Awaited sources) (some doc) ∧
      (∀ source ∈ moveAllBeyond doc found, source.Sound) ∧
      (∀ other, Awaited (moveAllBeyond doc found) other ↔ Awaited sources other ∧ doc < other) ∧
      (moveAllBeyond doc found).map (·.list) = sources.map (·.list) ∧
      found.map Source.locations = (sources.map (·.list)).map (·.places doc) := by
  have hfirst := Source.cursor_lawful.common_first hs
  have hjoint := Source.cursor_lawful.admits_find .all hs
  have hsound := Source.cursor_lawful.sound_find .all hs
  have hlists := cursor_keeps_list.map_find .all sources
  have hcommon : (Source.cursor.find .all sources).1 = some doc := by rw [Cursor.find, hc]
  have hstand := Source.cursor_lawful.doc_of_find (by decide) hs hcommon
  rw [Cursor.find, hc] at hjoint hsound hlists hstand
  rw [hc] at hfirst
  have hon : ∀ source ∈ found, source.doc? = some doc := fun source hm =>
    hstand source hm (((hjoint doc).mpr hfirst.1).2 source hm)
  refine ⟨hfirst, ?_, fun other => ?_, ?_, ?_⟩
  · exact List.forall_mem_map.mpr fun source hm => (hsound source hm).moveBeyond doc
  · refine (MatchRule.all.admits_map_and fun source hm => ?_).trans
      (and_congr_left fun _ => hjoint other)
    exact (hsound source hm).expects_moveBeyond doc other
  · rw [moveAllBeyond, List.map_map, ← hlists]
    rfl
  · rw [← hlists, List.map_map]
    exact List.map_congr_left fun source hm => (hsound source hm).locations_eq (hon source hm)

/-- The loop ends with the documents that it was told of, if it has those that it does not visit and
is told of the matches in those that it does. -/
theorem mergeFrom_spec {kind : ProximityOp} {span : UInt32} {list next : PostingList}
    {sources : List Source} {target : DocId → List Position}
    (hs : ∀ source ∈ sources, source.Sound) (hf : list.Faithful)
    (hawaited : ∀ doc, Awaited sources doc → list.places doc = [] ∧
      target doc = matchesIn kind span (sources.map (·.list)) doc)
    (hvisited : ∀ doc, ¬ Awaited sources doc → list.places doc = target doc)
    (h : mergeFrom kind span list sources = .ok next) :
    next.Faithful ∧ next.field = list.field ∧ ∀ doc, next.places doc = target doc := by
  fun_induction mergeFrom kind span list sources with
  | case1 list sources found hc =>
    have hfirst := Source.cursor_lawful.common_first hs
    rw [hc] at hfirst
    cases h
    exact ⟨hf, rfl, fun doc => hvisited doc (hfirst doc)⟩
  | case2 => cases h
  | case3 list sources doc found hc recorded hrecord moved hlt ih =>
    obtain ⟨hfirst, hsound, hmoved, hlists, hplaces⟩ := visit hs hc
    obtain ⟨hnone, htarget⟩ := hawaited doc hfirst.1
    rw [hplaces] at hrecord
    have hrec := places_record hnone hf hrecord
    rw [← field_record hrecord]
    rw [hlists] at ih
    refine ih hsound (faithful_record hf hrecord) (fun other ho => ?_) (fun other ho => ?_) h
    · obtain ⟨ha, hlt⟩ := (hmoved other).mp ho
      rw [hrec, Function.update_of_ne (UInt32.ne_of_lt hlt).symm]
      exact hawaited other ha
    · rw [hrec]
      by_cases he : other = doc
      · subst he
        rw [Function.update_self, htarget, matchesIn]
      · rw [Function.update_of_ne he]
        refine hvisited other fun ha => ho ((hmoved other).mpr ⟨ha, ?_⟩)
        exact (UInt32.lt_or_eq_of_le (hfirst.2 other ha)).resolve_right (Ne.symm he)
  | case4 list sources doc found hc recorded hrecord moved hnlt =>
    exact absurd (postingsLeft_lt hs hc) hnlt

/-- The matches in a document that all sources have before them; none in any other. -/
def matchesAhead (kind : ProximityOp) (span : UInt32) (sources : List Source) (doc : DocId) :
    List Position :=
  if sources.all (·.expects doc) then matchesIn kind span (sources.map (·.list)) doc else []

theorem all_expects_iff {sources : List Source} (hne : sources ≠ []) {doc : DocId} :
    sources.all (·.expects doc) = true ↔ Awaited sources doc := by
  simp [Awaited, MatchRule.Admits, hne]

theorem matchesAhead_of_awaited {kind : ProximityOp} {span : UInt32} {sources : List Source}
    {doc : DocId} (h : Awaited sources doc) :
    matchesAhead kind span sources doc = matchesIn kind span (sources.map (·.list)) doc :=
  if_pos ((all_expects_iff h.1).mpr h)

theorem matchesAhead_of_not_awaited {kind : ProximityOp} {span : UInt32} {sources : List Source}
    {doc : DocId} (h : ¬ Awaited sources doc) : matchesAhead kind span sources doc = [] := by
  by_cases hnil : sources = []
  · rw [hnil, matchesAhead, matchesIn, List.map_nil, List.map_nil, hits_nil, ite_self]
  · exact if_neg fun hall => h ((all_expects_iff hnil).mp hall)

/-- Merging gives a faithful list of the matches in the documents that are still to come. -/
theorem merge_spec {kind : ProximityOp} {span : UInt32} {next : PostingList}
    {sources : List Source} (hs : ∀ source ∈ sources, source.Sound)
    (h : merge kind span sources = .ok next) :
    next.Faithful ∧ next.Tallied ∧ next.field = commonField sources ∧
      ∀ doc, next.places doc = matchesAhead kind span sources doc := by
  unfold merge at h
  split at h
  · cases h
  · dsimp only at h
    split at h
    · cases h
    · have htally := mergeFrom_keeps tallied_record
        ⟨PostingList.ascending_empty _, PostingList.tallied_empty _⟩ h
      have hawaited : ∀ doc, Awaited sources doc →
          (PostingList.empty (commonField sources)).places doc = [] ∧
            matchesAhead kind span sources doc =
              matchesIn kind span (sources.map (·.list)) doc :=
        fun doc hd => ⟨PostingList.places_empty _ doc, matchesAhead_of_awaited hd⟩
      have hvisited : ∀ doc, ¬ Awaited sources doc →
          (PostingList.empty (commonField sources)).places doc =
            matchesAhead kind span sources doc :=
        fun doc hd => (PostingList.places_empty _ doc).trans (matchesAhead_of_not_awaited hd).symm
      obtain ⟨hf, hfield, hplaces⟩ :=
        mergeFrom_spec hs (PostingList.faithful_empty _) hawaited hvisited h
      exact ⟨hf, htally.2, hfield, hplaces⟩

/-- Merging sources that stand at the start of faithful lists gives a faithful list of the matches
in every document. -/
theorem places_merge {kind : ProximityOp} {span : UInt32} {next : PostingList}
    {sources : List Source}
    (hf : ∀ source ∈ sources,
      source.list.Faithful ∧ source = Source.ofList source.label source.list)
    (h : merge kind span sources = .ok next) :
    next.Faithful ∧ next.Tallied ∧ next.field = commonField sources ∧
      ∀ doc, next.places doc = matchesIn kind span (sources.map (·.list)) doc := by
  have hs : ∀ source ∈ sources, source.Sound := fun source hm => by
    rw [(hf source hm).2]
    exact Source.sound_ofList _ (hf source hm).1.ascending
  obtain ⟨hnext, htally, hfield, hplaces⟩ := merge_spec hs h
  refine ⟨hnext, htally, hfield, fun doc => ?_⟩
  rw [hplaces]
  by_cases hd : Awaited sources doc
  · exact matchesAhead_of_awaited hd
  · -- A document that is not awaited at first is one that some argument lacks.
    rw [matchesAhead_of_not_awaited hd, matchesIn]
    by_cases hnil : sources = []
    · rw [hnil, List.map_nil, List.map_nil, hits_nil]
    · refine (hits_eq_nil ?_ kind span).symm
      by_contra hmem
      refine hd ⟨hnil, fun source hm => ?_⟩
      obtain ⟨hlist, hstart⟩ := hf source hm
      rw [hstart, Source.expects_ofList, hlist.mem_docs_iff]
      refine fun hnone => hmem ?_
      rw [List.map_map, ← hnone]
      exact List.mem_map_of_mem hm

end Retrieval.Proximity
