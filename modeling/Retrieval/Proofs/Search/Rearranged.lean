import Retrieval.Proofs.Index.Accepted
import Retrieval.Proofs.Proximity.Permuted
import Retrieval.Proofs.Query.Rearranged
import Retrieval.Proofs.Search.Faults

/-!
# The order of arguments

Under a Boolean model a search gives one ranking for a query and for what it is rearranged to, or
refuses both (`Search.run_rearranged`). A rearranged query has the same strength in every document,
because it occurs at the same positions: windows do not depend on the order of their arguments, so
an operator around them is given the same positions as before.

Strengths decide a ranking entirely, since there is only one order in which all hits can be listed
(`Complete.unique`).
-/

set_option autoImplicit false

namespace Retrieval

variable {α : Type}

/-! ## Positions and strengths -/

theorem Operator.gather_perm (op : Operator) {strengths others : List Nat}
    (h : strengths.Perm others) : op.gather strengths = op.gather others := by
  cases op with
  | and =>
    have hmin : strengths.min? = others.min? := by
      apply Option.ext
      intro least
      rw [List.min?_eq_some_iff, List.min?_eq_some_iff]
      simp only [h.mem_iff]
    rw [gather, gather, hmin]
  | or =>
    have hmax : strengths.max? = others.max? := by
      apply Option.ext
      intro greatest
      rw [List.max?_eq_some_iff, List.max?_eq_some_iff]
      simp only [h.mem_iff]
    rw [gather, gather, hmax]
  | sum => rfl
  | weightedAnd => rfl
  | weightedSum => rfl

namespace Query

variable {documents : List Document} {doc : DocId}

theorem placesIn_increasing
    (hterms : ∀ field word,
      (positionsOf word (Document.tokensOf documents field doc)).Pairwise (· < ·))
    (query : Query α) : (query.placesIn documents doc).Pairwise (· < ·) := by
  induction query using inductionOn with
  | term field word => exact hterms field word
  | proximity kind span args ih =>
    rw [placesIn_proximity]
    exact Proximity.hits_increasing (List.forall_mem_map.mpr ih) kind span
  | score arg _ =>
    rw [placesIn]
    exact .nil
  | combine op weights args _ =>
    rw [placesIn]
    exact .nil

variable {query query' : Query α}

theorem Rearranged.placesIn_eq
    (hterms : ∀ field word,
      (positionsOf word (Document.tokensOf documents field doc)).Pairwise (· < ·))
    (h : query.Rearranged query') :
    query.placesIn documents doc = query'.placesIn documents doc := by
  induction h with
  | refl query => rfl
  | trans _ _ ih ih' => exact ih.trans ih'
  | @window span args args' h =>
    rw [placesIn_proximity, placesIn_proximity]
    apply Proximity.window_perm _ (h.map _)
    exact List.forall_mem_map.mpr fun arg _ => placesIn_increasing hterms arg
  | inProximity kind span before after _ ih =>
    rw [placesIn_proximity, placesIn_proximity]
    simp only [List.map_append, List.map_cons, ih]
  | combine => rw [placesIn, placesIn]
  | inScore => rw [placesIn, placesIn]
  | inCombine => rw [placesIn, placesIn]

theorem Rearranged.strength_eq
    (hterms : ∀ field word,
      (positionsOf word (Document.tokensOf documents field doc)).Pairwise (· < ·))
    (h : query.Rearranged query') :
    query.strength documents doc = query'.strength documents doc := by
  induction h with
  | refl query => rfl
  | trans _ _ ih ih' => exact ih.trans ih'
  | window span h =>
    rw [strength, strength, (Rearranged.window span h).placesIn_eq hterms]
  | combine _ weights h =>
    rw [strength, strength, eachStrength_eq_map, eachStrength_eq_map]
    exact Operator.gather_perm _ (h.map _)
  | inProximity kind span before after h _ =>
    rw [strength, strength, (Rearranged.inProximity kind span before after h).placesIn_eq hterms]
  | inScore _ ih => rw [strength, strength, ih]
  | inCombine op weights before after _ ih =>
    rw [strength, strength, eachStrength_eq_map, eachStrength_eq_map]
    simp only [List.map_append, List.map_cons, ih]

end Query

theorem Index.Reflects.positions_increasing {index : Index} {documents : List Document}
    (hr : index.Reflects documents) (field word : String) (doc : DocId) :
    (positionsOf word (Document.tokensOf documents field doc)).Pairwise (· < ·) := by
  rw [← hr.places_eq]
  exact ((hr.faithful field word).placed.places doc).1

/-! ## Searches -/

namespace Query

theorem Rearranged.operator_eq {query query' : Query α} (h : query.Rearranged query') :
    query.operator? = query'.operator? := by
  induction h with
  | trans _ _ ih ih' => exact ih.trans ih'
  | refl | window | combine | inProximity | inScore | inCombine => rfl

end Query

namespace Search

theorem rearranged_wrapped {search : Search α} {query query' : Query α}
    (h : query.Rearranged query') :
    (search.wrapped query).Rearranged (search.wrapped query') := by
  unfold wrapped
  split
  · rw [wrap_eq, wrap_eq, h.operator_eq]
    split
    · exact h
    · exact .inCombine _ [] [] [] h
  · exact h

variable {documents : List Document}

/-- What a Boolean search makes of a query, by the strengths of the query that it evaluates. -/
theorem run_cases {index : Index} (hb : index.BuiltOf documents)
    (hn : documents.length < UInt32.size) {settings : SearchSettings Float} {search : Search Float}
    (hsearch : create index settings = .ok search) {grade : Nat → Nat}
    (hmodel : settings.model.grade? = some grade) (query : Query Float) :
    ((search.wrapped query).WellFormed settings.model ∧ ∃ hits,
        Complete hits (fun doc => 0 < (search.wrapped query).strength documents doc)
          (fun doc => .ok (Float.ofNat (grade ((search.wrapped query).strength documents doc)))) ∧
        search.run query = .ok { hits := settings.limit.elim hits (hits.take ·) }) ∨
      (¬ (search.wrapped query).WellFormed settings.model ∧
        ∃ cause, search.run query = .error (.config cause)) := by
  have hr := hb.reflects hn
  obtain ⟨hscorer, hindex, -⟩ := create_eq_ok hsearch
  have hg := Model.grades hscorer hmodel
  rw [← hindex] at hr
  refine (run_built_cases hb hn hsearch query).imp_left ?_
  rintro ⟨hok, hits, ⟨tree, hbuilt, hcomplete⟩, hrun⟩
  have hhas : ∀ doc, tree.plan.has doc = true ↔
      0 < (search.wrapped query).strength documents doc :=
    fun doc => ScoreTree.has_iff_strength hr hbuilt doc hg
  refine ⟨hok, hits, hcomplete.congr hhas fun doc hd => ?_, hrun⟩
  exact ScoreTree.score_eq_strength hr hbuilt doc hg ((hhas doc).mp hd)

/-- Under a Boolean model a search gives a rearranged query the same ranking, or refuses both. -/
theorem run_rearranged {index : Index} (hb : index.BuiltOf documents)
    (hn : documents.length < UInt32.size) {settings : SearchSettings Float} {search : Search Float}
    (hsearch : create index settings = .ok search)
    (hmodel : settings.model = .unrankedBoolean ∨ settings.model = .rankedBoolean)
    {query query' : Query Float} (h : query.Rearranged query') :
    (∃ ranking, search.run query = .ok ranking ∧ search.run query' = .ok ranking) ∨
      ∃ cause cause', search.run query = .error (.config cause) ∧
        search.run query' = .error (.config cause') := by
  obtain ⟨grade, hgrade⟩ : ∃ grade, settings.model.grade? = some grade := by
    rcases hmodel with hmodel | hmodel
    · exact ⟨_, by rw [hmodel]; rfl⟩
    · exact ⟨_, by rw [hmodel]; rfl⟩
  have hw : (search.wrapped query).Rearranged (search.wrapped query') := rearranged_wrapped h
  have hformed := hw.wellFormed_iff settings.model
  rcases run_cases hb hn hsearch hgrade query with ⟨hok, hits, hcomplete, hrun⟩ | ⟨hnot, hfault⟩
  · rcases run_cases hb hn hsearch hgrade query' with ⟨-, hits', hcomplete', hrun'⟩ | ⟨hnot', -⟩
    · left
      have hstrength : ∀ doc, (search.wrapped query).strength documents doc =
          (search.wrapped query').strength documents doc := by
        intro doc
        exact hw.strength_eq fun field word => (hb.reflects hn).positions_increasing field word doc
      simp only [← hstrength] at hcomplete'
      obtain rfl : hits = hits' := hcomplete.unique hcomplete'
      exact ⟨_, hrun, hrun'⟩
    · exact absurd (hformed.mp hok) hnot'
  · rcases run_cases hb hn hsearch hgrade query' with ⟨hok', -⟩ | ⟨-, hfault'⟩
    · exact absurd (hformed.mpr hok') hnot
    · right
      obtain ⟨cause, hrun⟩ := hfault
      obtain ⟨cause', hrun'⟩ := hfault'
      exact ⟨cause, cause', hrun, hrun'⟩

def crossingDocument : Document :=
  { id := "crossing", fields := [("body", ["a", "b", "a", "c"])] }

def crossingSearch : Search Float :=
  { basis := { scorer := Boolean.ranked, index := Index.empty.offered [crossingDocument] }
    settings := .ofModel .rankedBoolean }

/-- A window with an argument twice, in front of a term. -/
def crossingQuery (window : List (Query Float)) : Query Float :=
  .proximity .near 2 [.proximity .window 3 window, .term "body" "c"]

def tiedArgs : List (Query Float) := [.term "body" "a", .term "body" "b", .term "body" "a"]

def tiedArgs' : List (Query Float) := [.term "body" "b", .term "body" "a", .term "body" "a"]

theorem run_rearranged_crossing :
    ∃ ranking,
      crossingSearch.run (.or [crossingQuery tiedArgs, .term "body" "d"]) = .ok ranking ∧
        crossingSearch.run (.or [.term "body" "d", crossingQuery tiedArgs']) = .ok ranking ∧
        ∃ hit ∈ ranking.hits, hit.doc = 0 := by
  have hb : (Index.empty.offered [crossingDocument]).BuiltOf [crossingDocument] := by
    have hcountable : ∀ document ∈ [crossingDocument], document.Countable := by decide
    exact Index.builtOf_offered hcountable (by decide)
  have hn : [crossingDocument].length < UInt32.size := by decide
  have hcreate : create (Index.empty.offered [crossingDocument]) (.ofModel .rankedBoolean) =
      .ok crossingSearch := rfl
  have hwindow : (crossingQuery tiedArgs).Rearranged (crossingQuery tiedArgs') :=
    .inProximity .near 2 [] _ (.window 3 (List.Perm.swap ..))
  have hquery : (Query.or [crossingQuery tiedArgs, .term "body" "d"]).Rearranged
      (.or [.term "body" "d", crossingQuery tiedArgs']) :=
    .trans (.inCombine .or [] [] _ hwindow) (.combine (.inr rfl) [] (List.Perm.swap ..))
  have hterm : ∀ field word, (Query.term field word : Query Float).PostingsFormed :=
    fun field word => .term
  have hcrossing : (crossingQuery tiedArgs).PostingsFormed := by
    simp [crossingQuery, tiedArgs, Query.postingsFormed_proximity_iff, hterm,
      Query.resultField, Query.resultFields]
  have hformed : (Query.or [crossingQuery tiedArgs, .term "body" "d"]).WellFormed
      (.rankedBoolean : Model Float) := by
    refine .combine (.inr rfl) rfl (List.forall_mem_cons.mpr ⟨.leaf hcrossing, ?_⟩)
    exact List.forall_mem_singleton.mpr (.leaf (hterm "body" "d"))
  have hcases := run_cases hb hn hcreate rfl (.or [crossingQuery tiedArgs, .term "body" "d"])
  obtain ⟨-, hits, hcomplete, hrun⟩ := hcases.resolve_right fun hrefused => hrefused.1 hformed
  have hsame := run_rearranged hb hn hcreate (.inr rfl) hquery
  rw [hrun] at hsame
  rcases hsame with ⟨ranking, hfirst, hsecond⟩ | ⟨cause, -, hfault, -⟩
  · cases hfirst
    refine ⟨_, hrun, hsecond, (hcomplete.has_iff 0).mpr ?_⟩
    decide +kernel
  · cases hfault

end Search

end Retrieval
