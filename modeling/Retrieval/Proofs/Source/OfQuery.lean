import Retrieval.Proofs.Index.History
import Retrieval.Proofs.Proximity.Merge
import Retrieval.Proofs.Scoring.Built

/-!
# Postings of a query

A query that is evaluated to a posting list occurs in a document where the document's own tokens
say (`Query.placesIn`): terms at their tokens, proximity operators at the matches among the places
of their arguments, however they are nested (`Source.places_of_built`).
-/

set_option autoImplicit false

namespace Retrieval

variable {α : Type}

namespace Query

mutual

/-- Where a query occurs in a document, by the tokens of the document. A proximity operator occurs
nowhere if one of its arguments does not occur. -/
def placesIn (documents : List Document) (doc : DocId) : Query α → List Position
  | term field word => positionsOf word (Document.tokensOf documents field doc)
  | proximity kind span args =>
    let lists := eachPlacesIn documents doc args
    if lists.any (·.isEmpty) then [] else Proximity.hits kind span lists
  | score _ | combine .. => []

def eachPlacesIn (documents : List Document) (doc : DocId) : List (Query α) → List (List Position)
  | [] => []
  | query :: rest => placesIn documents doc query :: eachPlacesIn documents doc rest

end

theorem eachPlacesIn_eq_map (documents : List Document) (doc : DocId) (queries : List (Query α)) :
    eachPlacesIn documents doc queries = queries.map (placesIn documents doc) := by
  induction queries with
  | nil => rfl
  | cons query rest ih => rw [eachPlacesIn, ih, List.map_cons]

theorem placesIn_proximity (documents : List Document) (doc : DocId) (kind : ProximityOp)
    (span : UInt32) (args : List (Query α)) :
    placesIn documents doc (proximity kind span args) =
      Proximity.hits kind span (args.map (placesIn documents doc)) := by
  rw [placesIn, eachPlacesIn_eq_map]
  by_cases hany : (args.map (placesIn documents doc)).any (·.isEmpty) = true
  · obtain ⟨places, hp, hnil⟩ := List.any_eq_true.mp hany
    rw [List.isEmpty_iff] at hnil
    subst hnil
    rw [if_pos hany, Proximity.hits_eq_nil hp]
  · exact if_neg hany

theorem placesIn_of_le {documents : List Document} {doc : DocId}
    (hle : documents.length ≤ doc.toNat) (query : Query α) : query.placesIn documents doc = [] := by
  induction query using inductionOn with
  | term field word =>
    rw [placesIn, positionsOf_eq_nil_iff, Document.tokensOf, List.getElem?_eq_none hle]
    simp
  | proximity kind span args ih =>
    rw [placesIn_proximity]
    cases args with
    | nil => exact Proximity.hits_nil kind span
    | cons arg rest =>
      rw [List.forall_mem_cons] at ih
      exact Proximity.hits_eq_nil (by simp [ih.1]) kind span
  | score arg _ => rw [placesIn]
  | combine op weights args _ => rw [placesIn]

end Query

/-- The frequency of a faithful list counts the places in the document. -/
theorem PostingList.Faithful.toNat_frequencyOf {list : PostingList} (hf : list.Faithful)
    (doc : DocId) : (ScorePlan.frequencyOf list doc).toNat = (list.places doc).length := by
  rw [ScorePlan.frequencyOf, places]
  cases hlist : list.posting? doc with
  | none => rfl
  | some posting =>
    exact hf.counted posting (hf.ascending.posting_eq_some.mp hlist).1

namespace Source

variable [Scalar α] [DecimalText α] {index : Index}

theorem ofQueries_eq_mapM (queries : List (Query α)) :
    ofQueries index queries = queries.mapM (ofQuery index) := by
  induction queries with
  | nil => rfl
  | cons query rest ih => rw [ofQueries, ih, List.mapM_cons]

theorem ofQuery_proximity {kind : ProximityOp} {span : UInt32} {args : List (Query α)}
    {source : Source} (h : ofQuery index (.proximity kind span args) = .ok source) :
    ∃ sources list,
      List.Forall₂ (fun query source => ofQuery index query = .ok source) args sources ∧
      Proximity.merge kind span sources = .ok list ∧
      source = ofList (kind.name ++ "/" ++ toString span.toNat) list := by
  simp only [ofQuery, bind_eq_ok, pure_eq_ok, ofQueries_eq_mapM, mapM_eq_ok] at h
  obtain ⟨_, -, sources, hsources, list, hmerge, rfl⟩ := h
  exact ⟨sources, list, hsources, hmerge, rfl⟩

/-- What was just built stands at the start of a faithful list. -/
theorem faithful_of_built (hl : index.Listed) {query : Query α} {source : Source}
    (h : ofQuery index query = .ok source) :
    source.list.Faithful ∧ source = ofList source.label source.list := by
  refine ⟨?_, (built hl.ordered h).2⟩
  induction query using Query.inductionOn generalizing source with
  | term field word =>
    cases h
    exact hl.faithful field word
  | proximity kind span args ih =>
    obtain ⟨sources, list, hsources, hmerge, rfl⟩ := ofQuery_proximity h
    refine (Proximity.places_merge (fun source hm => ?_) hmerge).1
    obtain ⟨arg, harg, hbuilt⟩ := exists_of_forall₂ hsources hm
    exact ⟨ih arg harg hbuilt, (built hl.ordered hbuilt).2⟩
  | score arg _ => cases h
  | combine op weights args _ => cases h

theorem starts_of_args (hl : index.Listed) {args : List (Query α)} {sources : List Source}
    (h : List.Forall₂ (fun query source => ofQuery index query = .ok source) args sources) :
    ∀ source ∈ sources,
      source.list.Faithful ∧ source = ofList source.label source.list := fun source hs => by
  obtain ⟨arg, -, hbuilt⟩ := exists_of_forall₂ h hs
  exact faithful_of_built hl hbuilt

/-- The source of a query has a faithful list, which occurs where the query does. -/
theorem places_of_built {documents : List Document} (hr : index.Reflects documents)
    {query : Query α} {source : Source} (h : ofQuery index query = .ok source) :
    source.list.Faithful ∧ ∀ doc, source.list.places doc = query.placesIn documents doc := by
  refine ⟨(faithful_of_built hr.listed h).1, ?_⟩
  induction query using Query.inductionOn generalizing source with
  | term field word =>
    cases h
    exact hr.places_eq field word
  | proximity kind span args ih =>
    obtain ⟨sources, list, hsources, hmerge, rfl⟩ := ofQuery_proximity h
    obtain ⟨-, -, -, hplaces⟩ := Proximity.places_merge (starts_of_args hr.listed hsources) hmerge
    refine fun doc => (hplaces doc).trans ?_
    rw [Proximity.matchesIn, Query.placesIn_proximity, List.map_map]
    congr 1
    have hstep : List.Forall₂ (fun arg source =>
        arg.placesIn documents doc = source.list.places doc) args sources :=
      forall₂_imp_of_mem hsources fun arg harg _ hbuilt => (ih arg harg hbuilt doc).symm
    exact (map_eq_map_of_forall₂ hstep).symm
  | score arg _ => cases h
  | combine op weights args _ => cases h

end Source

end Retrieval
