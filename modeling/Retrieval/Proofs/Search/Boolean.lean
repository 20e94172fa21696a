import Retrieval.Decimal.Text
import Retrieval.Proofs.Double.Naturals
import Retrieval.Proofs.Index.Accepted
import Retrieval.Proofs.Search.Total

/-!
# Boolean search on documents

Under a Boolean model a query has a strength in every document that can be told from the document's
tokens alone (`Query.strength`): leaves count matches, conjunctions take the least and disjunctions
the greatest strength of their arguments. A search ranks exactly the documents where the query has
any strength (`Search.run_boolean`).

What matches is decided by cursors and what it scores by arithmetic on doubles; both follow the
strength, since it is positive where a node matches and a natural number that a double holds.
-/

set_option autoImplicit false

namespace Retrieval

/-! ## Strength -/

namespace Operator

/-- The strength of a combinator, given those of its arguments. -/
def gather : Operator → List Nat → Nat
  | and, strengths => strengths.min?.getD 0
  | or, strengths => strengths.max?.getD 0
  | _, _ => 0

theorem gather_mem (op : Operator) (strengths : List Nat) :
    gather op strengths = 0 ∨ gather op strengths ∈ strengths := by
  cases op with
  | and =>
    rw [gather]
    cases h : strengths.min? with
    | none => exact .inl rfl
    | some least => exact .inr (List.min?_mem h)
  | or =>
    rw [gather]
    cases h : strengths.max? with
    | none => exact .inl rfl
    | some greatest => exact .inr (List.max?_mem h)
  | sum => exact .inl rfl
  | weightedAnd => exact .inl rfl
  | weightedSum => exact .inl rfl

theorem gather_lt {op : Operator} {strengths : List Nat} {bound : Nat} (hpos : 0 < bound)
    (h : ∀ strength ∈ strengths, strength < bound) : gather op strengths < bound := by
  rcases gather_mem op strengths with hzero | hmem
  · rwa [hzero]
  · exact h _ hmem

theorem gather_and_pos {strengths : List Nat} :
    0 < gather and strengths ↔ strengths ≠ [] ∧ ∀ strength ∈ strengths, 0 < strength := by
  rw [gather]
  cases h : strengths.min? with
  | none =>
    rw [List.min?_eq_none_iff] at h
    simp [h]
  | some least =>
    obtain ⟨hmem, hle⟩ := List.min?_eq_some_iff.mp h
    rw [Option.getD_some]
    constructor
    · intro hpos
      exact ⟨List.ne_nil_of_mem hmem, fun strength hs => Nat.lt_of_lt_of_le hpos (hle strength hs)⟩
    · rintro ⟨-, hall⟩
      exact hall least hmem

theorem gather_or_pos {strengths : List Nat} :
    0 < gather or strengths ↔ ∃ strength ∈ strengths, 0 < strength := by
  rw [gather]
  cases h : strengths.max? with
  | none =>
    rw [List.max?_eq_none_iff] at h
    simp [h]
  | some greatest =>
    obtain ⟨hmem, hle⟩ := List.max?_eq_some_iff.mp h
    rw [Option.getD_some]
    constructor
    · intro hpos
      exact ⟨greatest, hmem, hpos⟩
    · rintro ⟨strength, hs, hpos⟩
      exact Nat.lt_of_lt_of_le hpos (hle strength hs)

end Operator

variable {α : Type}

namespace Query

mutual

/-- How strongly a document matches a query, by the tokens of the document. -/
def strength (documents : List Document) (doc : DocId) : Query α → Nat
  | term field word => (Document.tokensOf documents field doc).count word
  | proximity kind span args => (placesIn documents doc (proximity kind span args)).length
  | score arg => strength documents doc arg
  | combine op _ args => op.gather (eachStrength documents doc args)

def eachStrength (documents : List Document) (doc : DocId) : List (Query α) → List Nat
  | [] => []
  | query :: rest => strength documents doc query :: eachStrength documents doc rest

end

theorem eachStrength_eq_map (documents : List Document) (doc : DocId) (queries : List (Query α)) :
    eachStrength documents doc queries = queries.map (strength documents doc) := by
  induction queries with
  | nil => rfl
  | cons query rest ih => rw [eachStrength, ih, List.map_cons]

theorem strength_of_le {documents : List Document} {doc : DocId}
    (hle : documents.length ≤ doc.toNat) (query : Query α) : query.strength documents doc = 0 := by
  induction query using inductionOn with
  | term field word =>
    have hnone := placesIn_of_le hle (term field word : Query α)
    rw [placesIn] at hnone
    rw [strength, ← length_positionsOf, hnone, List.length_nil]
  | proximity kind span args _ => rw [strength, placesIn_of_le hle, List.length_nil]
  | score arg ih => rw [strength, ih]
  | combine op weights args ih =>
    rw [strength, eachStrength_eq_map]
    rcases op.gather_mem (args.map (strength documents doc)) with hzero | hmem
    · exact hzero
    · obtain ⟨arg, harg, he⟩ := List.mem_map.mp hmem
      rw [← he, ih arg harg]

/-- A leaf has the strength of the places that its postings are at. -/
theorem strength_leaf [Scalar α] [DecimalText α] {index : Index} {query : Query α}
    (hq : query.IsLeaf) {source : Source} (hs : Source.ofQuery index query.posted = .ok source)
    (documents : List Document) (doc : DocId) :
    query.strength documents doc = (query.posted.placesIn documents doc).length := by
  have hterm : ∀ field word, (term field word : Query α).strength documents doc =
      ((term field word : Query α).placesIn documents doc).length := fun field word => by
    rw [strength, placesIn, length_positionsOf]
  cases query with
  | combine op weights args => exact hq.elim
  | term field word => exact hterm field word
  | proximity kind span args => exact strength.eq_2 ..
  | score arg =>
    rw [strength]
    cases arg with
    | term field word => exact hterm field word
    | proximity kind span args => exact strength.eq_2 ..
    | score arg => cases hs
    | combine op weights args => cases hs

end Query

/-! ## Strengths as scores -/

theorem smaller_ofNat {m n : Nat} (hm : m < 2 ^ 53) (hn : n < 2 ^ 53) :
    Scalar.smaller (Float.ofNat m) (Float.ofNat n) = Float.ofNat (min m n) := by
  rw [Scalar.smaller, Scalar.isNumber, Double.le_ofNat hm hm, Double.lt_ofNat hn hm]
  by_cases hlt : n < m
  · simp [hlt, Nat.min_eq_right (Nat.le_of_lt hlt)]
  · simp [hlt, Nat.min_eq_left (Nat.not_lt.mp hlt)]

theorem larger_ofNat {m n : Nat} (hm : m < 2 ^ 53) (hn : n < 2 ^ 53) :
    Scalar.larger (Float.ofNat m) (Float.ofNat n) = Float.ofNat (max m n) := by
  rw [Scalar.larger, Scalar.isNumber, Double.le_ofNat hm hm, Double.lt_ofNat hm hn]
  by_cases hlt : m < n
  · simp [hlt, Nat.max_eq_right (Nat.le_of_lt hlt)]
  · simp [hlt, Nat.max_eq_left (Nat.not_lt.mp hlt)]

theorem foldl_smaller_ofNat {start : Nat} {strengths : List Nat} (hstart : start < 2 ^ 53)
    (h : ∀ strength ∈ strengths, strength < 2 ^ 53) :
    (strengths.map Float.ofNat).foldl Scalar.smaller (Float.ofNat start) =
      Float.ofNat (strengths.foldl min start) := by
  induction strengths generalizing start with
  | nil => rfl
  | cons strength rest ih =>
    rw [List.forall_mem_cons] at h
    rw [List.map_cons, List.foldl_cons, List.foldl_cons, smaller_ofNat hstart h.1]
    exact ih (Nat.lt_of_le_of_lt (Nat.min_le_left ..) hstart) h.2

theorem foldl_larger_ofNat {start : Nat} {strengths : List Nat} (hstart : start < 2 ^ 53)
    (h : ∀ strength ∈ strengths, strength < 2 ^ 53) :
    (strengths.map Float.ofNat).foldl Scalar.larger (Float.ofNat start) =
      Float.ofNat (strengths.foldl max start) := by
  induction strengths generalizing start with
  | nil => rfl
  | cons strength rest ih =>
    rw [List.forall_mem_cons] at h
    rw [List.map_cons, List.foldl_cons, List.foldl_cons, larger_ofNat hstart h.1]
    exact ih (Nat.max_lt.mpr ⟨hstart, h.1⟩) h.2

namespace Boolean

theorem rankedCombine_ofNat {model : String} {op : Operator} {rule : MatchRule}
    (hrule : Boolean.rule model op = .ok rule) {strengths : List Nat}
    (h : ∀ strength ∈ strengths, strength < 2 ^ 53) :
    rankedCombine model op (strengths.map Float.ofNat) =
      .ok (Float.ofNat (op.gather strengths)) := by
  cases op with
  | and =>
    cases strengths with
    | nil => rfl
    | cons strength rest =>
      rw [List.forall_mem_cons] at h
      rw [List.map_cons, rankedCombine, conjunction, foldl_smaller_ofNat h.1 h.2]
      rfl
  | or =>
    have hstart : 0 < 2 ^ 53 := by decide
    have hfold := foldl_larger_ofNat hstart h
    have hmax : strengths.foldl max 0 = strengths.max?.getD 0 := by
      rw [List.foldl_max, Nat.zero_max]
    rw [rankedCombine, disjunction, Operator.gather, ← hmax, ← hfold]
    rfl
  | sum => cases hrule
  | weightedAnd => cases hrule
  | weightedSum => cases hrule

/-- What is common to the Boolean scorers: a node that matches scores a grade of its strength, and
one that does not scores zero. -/
structure Grades (scorer : Scorer Float) (grade : Nat → Nat) : Prop where
  grade_lt : ∀ strength, strength < 2 ^ 53 → grade strength < 2 ^ 53
  defaultOp_eq : scorer.defaultOp = .or
  rule_eq : ∃ model, scorer.rule = Boolean.rule model
  leaf_eq : ∀ index stats frequency doc,
    scorer.leaf index stats frequency doc = .ok (Float.ofNat (grade frequency.toNat))
  defaultLeaf_eq : ∀ index stats doc, scorer.defaultLeaf index stats doc = .ok (Float.ofNat 0)
  combine_eq : ∀ op rule weights strengths, scorer.rule op = .ok rule →
    (∀ strength ∈ strengths, strength < 2 ^ 53) →
    scorer.combine op weights (strengths.map fun s => Float.ofNat (if s = 0 then 0 else grade s)) =
      .ok (Float.ofNat (grade (op.gather strengths)))
  combineDefault_eq : ∀ op rule weights scores, scorer.rule op = .ok rule →
    scorer.combineDefault op weights scores = .ok (Float.ofNat 0)

theorem ranked_grades : Grades ranked id where
  grade_lt _ := id
  defaultOp_eq := rfl
  rule_eq := ⟨_, rfl⟩
  leaf_eq _ _ _ _ := rfl
  defaultLeaf_eq _ _ _ := rfl
  combine_eq op rule weights strengths hrule h := by
    have hid : (fun s : Nat => Float.ofNat (if s = 0 then 0 else id s)) = Float.ofNat := by
      funext s
      by_cases hs : s = 0 <;> simp [hs]
    rw [hid]
    exact rankedCombine_ofNat hrule h
  combineDefault_eq op rule weights scores hrule := map_eq_ok.mpr ⟨rule, hrule, rfl⟩

theorem unranked_grades : Grades unranked fun _ => 1 where
  grade_lt _ _ := by decide
  defaultOp_eq := rfl
  rule_eq := ⟨_, rfl⟩
  leaf_eq _ _ _ _ := rfl
  defaultLeaf_eq _ _ _ := rfl
  combine_eq _ rule _ _ hrule _ := map_eq_ok.mpr ⟨rule, hrule, rfl⟩
  combineDefault_eq _ rule _ _ hrule := map_eq_ok.mpr ⟨rule, hrule, rfl⟩

theorem ranked_total [Scalar α] (index : Index) : (ranked : Scorer α).Total index where
  rule_ne_first op rule h := by cases op <;> cases h <;> decide
  leaf _ _ _ _ := ⟨_, rfl⟩
  defaultLeaf _ _ _ := ⟨_, rfl⟩
  combine op rule weights scores h := by cases op <;> cases h <;> exact ⟨_, rfl⟩
  combineDefault op rule weights scores h := ⟨_, map_eq_ok.mpr ⟨rule, h, rfl⟩⟩

theorem unranked_total [Scalar α] (index : Index) : (unranked : Scorer α).Total index where
  rule_ne_first op rule h := by cases op <;> cases h <;> decide
  leaf _ _ _ _ := ⟨_, rfl⟩
  defaultLeaf _ _ _ := ⟨_, rfl⟩
  combine op rule weights scores h := ⟨_, map_eq_ok.mpr ⟨rule, h, rfl⟩⟩
  combineDefault op rule weights scores h := ⟨_, map_eq_ok.mpr ⟨rule, h, rfl⟩⟩

/-- A combinator matches under its rule exactly where it has any strength. -/
theorem gather_pos_iff {model : String} {op : Operator} {rule : MatchRule}
    (hrule : Boolean.rule model op = .ok rule) (strengths : List Nat) :
    0 < op.gather strengths ↔ rule.Admits (0 < ·) strengths := by
  cases op <;> cases hrule
  · exact Operator.gather_and_pos
  · exact Operator.gather_or_pos

end Boolean

/-! ## Trees -/

namespace ScoreTree

variable {basis : ScoreBasis Float} {documents : List Document}

section Built

variable (hr : basis.index.Reflects documents) {query : Query Float} {tree : ScoreTree Float}
  (hbuilt : ofQuery basis.scorer basis.index query = .ok tree) (doc : DocId)

include hr hbuilt

theorem strength_lt : query.strength documents doc < 2 ^ 32 := by
  induction query using Query.leafInduction generalizing tree with
  | leaf query hq =>
    obtain ⟨source, hs, rfl⟩ := ofQuery_leaf hq hbuilt
    obtain ⟨hf, hplaces⟩ := Source.places_of_built hr hs
    rw [Query.strength_leaf hq hs, ← hplaces, ← hf.toNat_frequencyOf]
    exact UInt32.toNat_lt _
  | combine op weights args ih =>
    obtain ⟨rule, children, -, hchildren, rfl⟩ := ofQuery_combine hbuilt
    rw [Query.strength, Query.eachStrength_eq_map]
    refine Operator.gather_lt (by decide) (List.forall_mem_map.mpr fun arg harg => ?_)
    obtain ⟨child, -, hchild⟩ := exists_of_forall₂ hchildren.flip harg
    exact ih arg harg hchild

theorem has_iff_strength {grade : Nat → Nat} (hg : Boolean.Grades basis.scorer grade) :
    tree.plan.has doc = true ↔ 0 < query.strength documents doc := by
  induction query using Query.leafInduction generalizing tree with
  | leaf query hq =>
    obtain ⟨source, hs, rfl⟩ := ofQuery_leaf hq hbuilt
    obtain ⟨hf, hplaces⟩ := Source.places_of_built hr hs
    rw [ofSource, plan, ScorePlan.has, List.contains_iff_mem, hf.mem_docs_iff,
      Query.strength_leaf hq hs, hplaces, List.length_pos_iff]
  | combine op weights args ih =>
    obtain ⟨rule, children, hrule, hchildren, rfl⟩ := ofQuery_combine hbuilt
    obtain ⟨model, hmodel⟩ := hg.rule_eq
    have hmarks : (children.map plan).map (fun child => child.has doc = true) =
        (args.map (Query.strength documents doc)).map (0 < ·) := by
      have hstep : List.Forall₂ (fun arg child =>
          (0 < arg.strength documents doc) = (child.plan.has doc = true)) args children :=
        forall₂_imp_of_mem hchildren fun arg harg _ hquery => propext (ih arg harg hquery).symm
      rw [List.map_map, List.map_map]
      exact (map_eq_map_of_forall₂ hstep).symm
    rw [plan_ofChildren, ScorePlan.has_combine, Query.strength, Query.eachStrength_eq_map,
      Boolean.gather_pos_iff (hmodel ▸ hrule)]
    exact rule.admits_congr hmarks

omit hr in
theorem defaultScore_eq_zero {grade : Nat → Nat} (hg : Boolean.Grades basis.scorer grade) :
    tree.plan.defaultScore basis doc = .ok (Float.ofNat 0) := by
  induction query using Query.leafInduction generalizing tree with
  | leaf query hq =>
    obtain ⟨source, -, rfl⟩ := ofQuery_leaf hq hbuilt
    exact hg.defaultLeaf_eq ..
  | combine op weights args ih =>
    obtain ⟨rule, children, hrule, hchildren, rfl⟩ := ofQuery_combine hbuilt
    obtain ⟨scores, hscores⟩ :
        ∃ scores, ScorePlan.defaultScores basis doc (children.map plan) = .ok scores := by
      rw [ScorePlan.defaultScores_eq_mapM]
      refine exists_mapM (List.forall_mem_map.mpr fun child hc => ?_)
      obtain ⟨arg, harg, hquery⟩ := exists_of_forall₂ hchildren hc
      exact ⟨_, ih arg harg hquery⟩
    rw [plan_ofChildren, ScorePlan.defaultScore, hscores]
    split
    · rfl
    · exact hg.combineDefault_eq op rule weights scores hrule

theorem share_of_score {grade : Nat → Nat} (hg : Boolean.Grades basis.scorer grade)
    (hscore : 0 < query.strength documents doc →
      tree.plan.score basis doc = .ok (Float.ofNat (grade (query.strength documents doc)))) :
    tree.plan.share basis doc = .ok (Float.ofNat
      (if query.strength documents doc = 0 then 0 else grade (query.strength documents doc))) := by
  have hhas := has_iff_strength hr hbuilt doc hg
  rw [ScorePlan.share]
  by_cases hzero : query.strength documents doc = 0
  · rw [if_neg (by rw [hhas]; omega), if_pos hzero, defaultScore_eq_zero hbuilt doc hg]
  · have hpos : 0 < query.strength documents doc := Nat.pos_of_ne_zero hzero
    rw [if_pos (hhas.mpr hpos), if_neg hzero, hscore hpos]

/-- A tree scores the grade of its query's strength, in every document that it has. -/
theorem score_eq_strength {grade : Nat → Nat} (hg : Boolean.Grades basis.scorer grade)
    (hpos : 0 < query.strength documents doc) :
    tree.plan.score basis doc = .ok (Float.ofNat (grade (query.strength documents doc))) := by
  induction query using Query.leafInduction generalizing tree with
  | leaf query hq =>
    obtain ⟨source, hs, rfl⟩ := ofQuery_leaf hq hbuilt
    obtain ⟨hf, hplaces⟩ := Source.places_of_built hr hs
    rw [Query.strength_leaf hq hs, ← hplaces, ← hf.toNat_frequencyOf]
    exact hg.leaf_eq ..
  | combine op weights args ih =>
    have hlt : ∀ strength ∈ args.map (Query.strength documents doc), strength < 2 ^ 53 := by
      obtain ⟨rule, children, -, hchildren, -⟩ := ofQuery_combine hbuilt
      refine List.forall_mem_map.mpr fun arg harg => ?_
      obtain ⟨child, -, hchild⟩ := exists_of_forall₂ hchildren.flip harg
      exact Nat.lt_trans (strength_lt hr hchild doc) (by decide)
    obtain ⟨rule, children, hrule, hchildren, rfl⟩ := ofQuery_combine hbuilt
    have hshares : ScorePlan.sharesOf basis doc (children.map plan) =
        .ok ((args.map (Query.strength documents doc)).map fun s =>
          Float.ofNat (if s = 0 then 0 else grade s)) := by
      have hstep : List.Forall₂ (fun arg child =>
          .ok (Float.ofNat (if arg.strength documents doc = 0 then 0
            else grade (arg.strength documents doc))) = child.plan.share basis doc) args children :=
        forall₂_imp_of_mem hchildren fun arg harg _ hquery =>
          (share_of_score hr hquery doc hg (ih arg harg hquery)).symm
      rw [ScorePlan.sharesOf_eq_mapM, List.mapM_map, List.map_map]
      exact (mapM_eq_mapM_of_forall₂ hstep).symm.trans List.mapM_pure
    rw [plan_ofChildren, ScorePlan.score, hshares, Query.strength,
      Query.eachStrength_eq_map]
    exact hg.combine_eq op rule weights _ hrule hlt

end Built

end ScoreTree

/-! ## Searches -/

/-- What a Boolean model makes of a positive strength; the other models have no such grades. -/
def Model.grade? : Model α → Option (Nat → Nat)
  | unrankedBoolean => some fun _ => 1
  | rankedBoolean => some id
  | bm25 _ | indri _ => none

theorem Model.grades {model : Model Float} {scorer : Scorer Float} {grade : Nat → Nat}
    (hs : model.scorer = .ok scorer) (hgrade : model.grade? = some grade) :
    Boolean.Grades scorer grade := by
  cases model with
  | unrankedBoolean =>
    cases hs
    cases hgrade
    exact Boolean.unranked_grades
  | rankedBoolean =>
    cases hs
    cases hgrade
    exact Boolean.ranked_grades
  | bm25 params => cases hgrade
  | indri params => cases hgrade

/-- Hits for exactly the documents with any strength, each once, by descending grade and ascending
document. -/
structure ByStrength (hits : List (Hit Float)) (size : Nat) (strength : DocId → Nat)
    (grade : Nat → Nat) : Prop where
  has_iff : ∀ doc, (∃ hit ∈ hits, hit.doc = doc) ↔ doc.toNat < size ∧ 0 < strength doc
  score_eq : ∀ hit ∈ hits, hit.score = Float.ofNat (grade (strength hit.doc))
  once : hits.Pairwise (·.doc ≠ ·.doc)
  sorted : hits.Pairwise fun a b => grade (strength b.doc) < grade (strength a.doc) ∨
    grade (strength a.doc) = grade (strength b.doc) ∧ a.doc < b.doc

namespace Search

variable {documents : List Document}

theorem strength_wrap (query : Query Float) (doc : DocId) :
    (wrap .or query).strength documents doc = query.strength documents doc := by
  have hwrap : ∀ inner : Query Float, (Query.combine .or [] [inner]).strength documents doc =
      inner.strength documents doc := fun inner => rfl
  cases query with
  | combine own weights args =>
    rw [wrap]
    split
    · rfl
    · exact hwrap _
  | term field word => exact hwrap _
  | proximity kind span args => exact hwrap _
  | score arg => exact hwrap _

theorem strength_wrapped {search : Search Float} (hor : search.basis.scorer.defaultOp = .or)
    (query : Query Float) (doc : DocId) :
    (search.wrapped query).strength documents doc = query.strength documents doc := by
  rw [wrapped, hor]
  split
  · exact strength_wrap query doc
  · rfl

theorem rule_ne_first {search : Search Float} {grade : Nat → Nat}
    (hg : Boolean.Grades search.basis.scorer grade) :
    ∀ op rule, search.basis.scorer.rule op = .ok rule → rule ≠ .first := fun op rule h => by
  obtain ⟨model, hmodel⟩ := hg.rule_eq
  rw [hmodel] at h
  cases op <;> cases h <;> decide

/-- Under a Boolean model a search ranks exactly the documents where the query has any strength, by
the grades that the model gives to it. With a limit the ranking is that many of the first hits. -/
theorem run_boolean {index : Index} (hb : index.BuiltOf documents)
    (hn : documents.length < UInt32.size) {settings : SearchSettings Float} {search : Search Float}
    (hsearch : create index settings = .ok search) {grade : Nat → Nat}
    (hmodel : settings.model.grade? = some grade) {query : Query Float} {ranking : Ranking Float}
    (hrun : search.run query = .ok ranking) :
    ∃ hits, ByStrength hits documents.length (query.strength documents ·) grade ∧
      ranking = { hits := settings.limit.elim hits (hits.take ·) } := by
  have hr := hb.reflects hn
  obtain ⟨hscorer, hindex, hsettings⟩ := create_eq_ok hsearch
  have hg := Model.grades hscorer hmodel
  rw [← hindex] at hr
  obtain ⟨tree, hits, hbuilt, hcomplete, hranking⟩ := run_eq_ok hr.ordered (rule_ne_first hg) hrun
  have hstrength : ∀ doc,
      (search.wrapped query).strength documents doc = query.strength documents doc :=
    strength_wrapped hg.defaultOp_eq query
  have hhas : ∀ doc, tree.plan.has doc = true ↔ 0 < query.strength documents doc := fun doc => by
    rw [ScoreTree.has_iff_strength hr hbuilt doc hg, hstrength]
  have hscore : ∀ hit ∈ hits, hit.score = Float.ofNat (grade (query.strength documents hit.doc)) :=
    fun hit hm => by
      have hpos := (ScoreTree.has_iff_strength hr hbuilt hit.doc hg).mp
        ((hcomplete.has_iff hit.doc).mp ⟨hit, hm, rfl⟩)
      have hok := hcomplete.scored hit hm
      rw [ScoreTree.score_eq_strength hr hbuilt hit.doc hg hpos, hstrength] at hok
      exact (Except.ok.inj hok).symm
  have hlt : ∀ doc, grade (query.strength documents doc) < 2 ^ 53 := fun doc => by
    have hdoc := ScoreTree.strength_lt hr hbuilt doc
    rw [hstrength] at hdoc
    exact hg.grade_lt _ (Nat.lt_trans hdoc (by decide))
  refine ⟨hits, ⟨fun doc => ?_, hscore, hcomplete.once, ?_⟩, hsettings ▸ hranking⟩
  · rw [hcomplete.has_iff, hhas]
    refine ⟨fun hpos => ⟨?_, hpos⟩, And.right⟩
    by_contra hge
    rw [Query.strength_of_le (Nat.not_lt.mp hge)] at hpos
    omega
  · refine hcomplete.sorted.imp_of_mem fun {a b} ha hb hab => ?_
    rw [Hit.byScore, hscore a ha, hscore b hb, Double.compare_ofNat (hlt _) (hlt _),
      Ordering.then_eq_lt, Nat.compare_eq_lt, Nat.compare_eq_eq] at hab
    rcases hab with hlt | ⟨heq, hdoc⟩
    · exact .inl hlt
    · exact .inr ⟨heq.symm, compareOfLessAndEq_eq_lt.mp hdoc⟩

/-- A search for the best document only. -/
def firstSearch : Search Float :=
  { basis := { scorer := Boolean.ranked, index := Index.empty.offered Index.mixedOffers }
    settings := { model := .rankedBoolean, limit := some 1, wraps := true } }

/-- The strength is 1 in the first document and 2 in the second one. -/
def booleanSample : Query Float :=
  .or [.and [.term "body" "red", .term "body" "blue"], .term "title" "red"]

theorem run_boolean_sample : ∃ ranking, firstSearch.run booleanSample = .ok ranking ∧
    ∃ hits, ByStrength hits 2
        (booleanSample.strength [Index.sampleDocument, Index.laterDocument] ·) id ∧
      ranking = { hits := hits.take 1 } ∧ (∃ hit ∈ hits, hit.doc = 0) ∧
      ranking.hits.map (·.doc) = [1] := by
  have hb := Index.builtOf_mixed
  have hbuilt : ScoreTree.ofQuery firstSearch.basis.scorer firstSearch.basis.index
      (firstSearch.wrapped booleanSample) =
        .ok (.ofChildren .or [] .min [.ofChildren .and [] .all
            [.ofSource firstSearch.basis.index
                (Source.ofTerm firstSearch.basis.index "body" "red"),
              .ofSource firstSearch.basis.index
                (Source.ofTerm firstSearch.basis.index "body" "blue")],
          .ofSource firstSearch.basis.index
            (Source.ofTerm firstSearch.basis.index "title" "red")]) := rfl
  obtain ⟨ranking, hrun⟩ :=
    exists_run_built (Boolean.ranked_total _) (hb.reflects (by decide)) hbuilt
  have hcreate : create (Index.empty.offered Index.mixedOffers) firstSearch.settings =
      .ok firstSearch := rfl
  obtain ⟨hits, hstrength, hranking⟩ := run_boolean hb (by decide) hcreate rfl hrun
  have hfirst := (hstrength.has_iff 0).mpr ⟨by decide, by decide⟩
  obtain ⟨best, hbest, hdoc⟩ := (hstrength.has_iff 1).mpr ⟨by decide, by decide⟩
  refine ⟨ranking, hrun, hits, hstrength, hranking, hfirst, ?_⟩
  rw [hranking]
  cases hits with
  | nil => cases hbest
  | cons head rest =>
    have hplace : head.doc.toNat = 0 ∨ head.doc.toNat = 1 := by
      have hlt : head.doc.toNat < 2 :=
        ((hstrength.has_iff head.doc).mp ⟨head, List.mem_cons_self .., rfl⟩).1
      omega
    have hhead : head.doc = 1 := by
      refine UInt32.toNat_inj.mp (hplace.resolve_left fun hzero => ?_)
      replace hzero : head.doc = 0 := UInt32.toNat_inj.mp hzero
      -- The first document is not as good as the second one, so it cannot come before it.
      rcases List.mem_cons.mp hbest with rfl | hrest
      · cases hdoc.symm.trans hzero
      · have hless := (List.pairwise_cons.mp hstrength.sorted).1 best hrest
        rw [hzero, hdoc] at hless
        exact absurd hless (by decide)
    exact congrArg (fun doc => [doc]) hhead

end Search

end Retrieval
