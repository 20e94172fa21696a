import Retrieval.Proofs.Proximity.Closed
import Retrieval.Proofs.Query.WellFormed
import Retrieval.Proofs.Source.OfQuery

/-!
# Queries that have postings

On an index of accepted documents the form of a query decides whether it is evaluated to a posting
list (`Source.ofQuery_eq_ok_iff`). The terms and proximity operators in it are checked one by one,
and lists take what merging gives them, so nothing but a fault of configuration is possible
(`Source.ofQuery_onlyConfig`).
-/

set_option autoImplicit false

namespace Retrieval

variable {α : Type} [Scalar α] [DecimalText α]

/-! ## Single nodes -/

namespace Query

theorem validate_onlyConfig (query : Query α) : OnlyConfig query.validate := by
  cases query with
  | term field word => exact onlyConfig_ok ()
  | proximity kind span args =>
    rw [validate]
    split
    · exact onlyConfig_config _
    · split
      · exact onlyConfig_config _
      · exact onlyConfig_ok ()
  | score arg =>
    rw [validate]
    split
    · exact onlyConfig_ok ()
    · exact onlyConfig_config _
  | combine op weights args =>
    rw [validate, validateWeights]
    repeat' split
    all_goals first | exact onlyConfig_ok () | exact onlyConfig_config _

theorem validate_proximity_eq_ok {kind : ProximityOp} {span : UInt32} {args : List (Query α)} :
    (proximity kind span args).validate = .ok () ↔
      span ≠ 0 ∧ ∀ arg ∈ args, arg.isPostings = true := by
  rw [validate]
  by_cases hspan : span = 0
  · simp [hspan]
  · rw [if_neg hspan, and_iff_right hspan]
    cases hfind : args.find? (!·.isPostings) with
    | none => simpa using hfind
    | some arg =>
      have hmem := List.mem_of_find?_eq_some hfind
      have hnot := List.find?_some hfind
      simp only [reduceCtorEq, false_iff, not_forall]
      exact ⟨arg, hmem, by simpa using hnot⟩

end Query

/-! ## Sources -/

namespace Source

variable {index : Index}

/-- What was just built can be merged. -/
theorem ready_of_built (hl : index.Listed) {query : Query α} {source : Source}
    (h : ofQuery index query = .ok source) : source.Ready := by
  obtain ⟨hf, hstart⟩ := faithful_of_built hl h
  exact ⟨hstart ▸ sound_ofList _ hf.ascending, hf.placed⟩

theorem validate_of_built {kind : ProximityOp} {span : UInt32} {args : List (Query α)}
    {source : Source} (h : ofQuery index (.proximity kind span args) = .ok source) :
    span ≠ 0 ∧ ∀ arg ∈ args, arg.isPostings = true := by
  rw [ofQuery, bind_eq_ok] at h
  obtain ⟨_, hvalid, -⟩ := h
  exact Query.validate_proximity_eq_ok.mp hvalid

theorem ready_of_args (hl : index.Listed) {args : List (Query α)}
    {sources : List Source}
    (h : List.Forall₂ (fun query source => ofQuery index query = .ok source) args sources) :
    ∀ source ∈ sources, source.Ready := fun source hs => by
  obtain ⟨arg, -, hbuilt⟩ := exists_of_forall₂ h hs
  exact ready_of_built hl hbuilt

theorem field_of_built (hl : index.Listed) {query : Query α} {source : Source}
    (h : ofQuery index query = .ok source) : source.field = query.resultField := by
  induction query using Query.inductionOn generalizing source with
  | term field word =>
    cases h
    exact hl.field_eq field word
  | proximity kind span args ih =>
    obtain ⟨sources, list, hsources, hmerge, rfl⟩ := ofQuery_proximity h
    obtain ⟨-, -, hfield, -⟩ :=
      Proximity.merge_spec (fun source hs => (ready_of_args hl hsources source hs).sound) hmerge
    have hfields : args.map Query.resultField = sources.map field :=
      map_eq_map_of_forall₂
        (forall₂_imp_of_mem hsources fun arg harg _ hbuilt => (ih arg harg hbuilt).symm)
    rw [field, ofList, hfield, Query.resultField, Query.resultFields_eq_map, hfields]
    rfl
  | score arg _ => cases h
  | combine op weights args _ => cases h

theorem agree_iff (hl : index.Listed) {args : List (Query α)} {sources : List Source}
    (h : List.Forall₂ (fun query source => ofQuery index query = .ok source) args sources) :
    Agree sources ↔ ∀ arg ∈ args, ∀ other ∈ args, arg.resultField ≠ "" →
      other.resultField ≠ "" → arg.resultField = other.resultField := by
  constructor
  · intro ha arg harg other hother
    obtain ⟨source, hs, hbuilt⟩ := exists_of_forall₂ h.flip harg
    obtain ⟨source', hs', hbuilt'⟩ := exists_of_forall₂ h.flip hother
    rw [← field_of_built hl hbuilt, ← field_of_built hl hbuilt']
    exact ha source hs source' hs'
  · intro hfields source hs source' hs'
    obtain ⟨arg, harg, hbuilt⟩ := exists_of_forall₂ h hs
    obtain ⟨other, hother, hbuilt'⟩ := exists_of_forall₂ h hs'
    rw [field_of_built hl hbuilt, field_of_built hl hbuilt']
    exact hfields arg harg other hother

/-- Sources are built of the queries that are formed to have postings. -/
theorem ofQuery_eq_ok_iff (hl : index.Listed) (query : Query α) :
    (∃ source, ofQuery index query = .ok source) ↔ query.PostingsFormed := by
  induction query using Query.inductionOn with
  | term field word => exact ⟨fun _ => .term, fun _ => ⟨_, rfl⟩⟩
  | proximity kind span args ih =>
    constructor
    · rintro ⟨source, h⟩
      obtain ⟨hspan, -⟩ := validate_of_built h
      obtain ⟨sources, list, hsources, hmerge, -⟩ := ofQuery_proximity h
      refine .proximity hspan (fun arg harg => ?_)
        ((agree_iff hl hsources).mp (Proximity.agree_of_merge hmerge))
      obtain ⟨source, -, hbuilt⟩ := exists_of_forall₂ hsources.flip harg
      exact (ih arg harg).mp ⟨source, hbuilt⟩
    · intro h
      cases h with
      | proximity hspan hargs hfields =>
        obtain ⟨sources, hmapM⟩ : ∃ sources, args.mapM (ofQuery index) = .ok sources :=
          exists_mapM fun arg harg => (ih arg harg).mpr (hargs arg harg)
        have hsources := mapM_eq_ok.mp hmapM
        obtain ⟨list, hmerge⟩ : ∃ list, Proximity.merge kind span sources = .ok list :=
          Proximity.exists_merge hspan (ready_of_args hl hsources)
            ((agree_iff hl hsources).mpr hfields)
        have hvalid : (Query.proximity kind span args).validate = .ok () :=
          Query.validate_proximity_eq_ok.mpr ⟨hspan, fun arg harg => (hargs arg harg).isPostings⟩
        simp only [ofQuery, ofQueries_eq_mapM, bind_eq_ok, pure_eq_ok]
        exact ⟨_, (), hvalid, sources, hmapM, list, hmerge, rfl⟩
  | score arg _ =>
    constructor
    · rintro ⟨source, h⟩
      cases h
    · intro h
      cases h
  | combine op weights args _ =>
    constructor
    · rintro ⟨source, h⟩
      cases h
    · intro h
      cases h

theorem ofQuery_onlyConfig (hl : index.Listed) (query : Query α) :
    OnlyConfig (ofQuery index query) := by
  induction query using Query.inductionOn with
  | term field word => exact onlyConfig_ok _
  | proximity kind span args ih =>
    rw [ofQuery, ofQueries_eq_mapM]
    refine (Query.validate_onlyConfig _).bind fun _ _ => ?_
    refine (OnlyConfig.mapM ih).bind fun sources hsources => ?_
    have hready := ready_of_args hl (mapM_eq_ok.mp hsources)
    exact (Proximity.merge_onlyConfig kind span hready).bind fun list _ => onlyConfig_ok _
  | score arg _ => exact onlyConfig_config _
  | combine op weights args _ => exact onlyConfig_config _

end Source

end Retrieval
