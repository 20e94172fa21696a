import Retrieval.Decimal.Text
import Retrieval.Proofs.Index.Accepted
import Retrieval.Proofs.Source.Formed

/-!
# Fields below a proximity operator

The check for mixed fields looks at one operator and the lists of its arguments. Along a nest of
operators it makes all terms that name a field name the same one
(`Source.named_of_built`), however deep they stand.

A field may also be called by the empty name, which is what operators without arguments have for a
field. Terms of that field pass every check, and their positions are matched with those of another
field (`Source.mixed_of_unnamed`).
-/

set_option autoImplicit false

namespace Retrieval

variable {α : Type}

namespace Query

mutual

/-- The fields that the terms of a query name, from left to right. -/
def termFields : Query α → List String
  | term field _ => [field]
  | proximity _ _ args | combine _ _ args => eachTermFields args
  | score arg => termFields arg

def eachTermFields : List (Query α) → List String
  | [] => []
  | query :: rest => termFields query ++ eachTermFields rest

end

theorem eachTermFields_eq_flatMap (queries : List (Query α)) :
    eachTermFields queries = queries.flatMap termFields := by
  induction queries with
  | nil => rfl
  | cons query rest ih => rw [eachTermFields, ih, List.flatMap_cons]

/-- A name that any term below has is the name of the result: the operator whose argument brings it
in can have no other. -/
theorem PostingsFormed.resultField_eq {query : Query α} (h : query.PostingsFormed) {field : String}
    (hf : field ∈ query.termFields) (hne : field ≠ "") : query.resultField = field := by
  induction h with
  | term => exact (List.mem_singleton.mp hf).symm
  | @proximity kind span args hspan hargs hfields ih =>
    rw [termFields, eachTermFields_eq_flatMap, List.mem_flatMap] at hf
    obtain ⟨arg, harg, hbelow⟩ := hf
    have hresult : arg.resultField = field := ih arg harg hbelow
    rw [resultField, resultFields_eq_map]
    rw [← hresult] at hne ⊢
    apply Proximity.firstNamed_eq _ (List.mem_map_of_mem harg) hne
    rw [List.forall_mem_map]
    intro arg harg
    rw [List.forall_mem_map]
    intro other hother
    exact hfields arg harg other hother

end Query

namespace Source

variable [Scalar α] [DecimalText α]

/-- A query comes out with the one field that its terms name, or is at fault for its
configuration. -/
theorem named_of_built {index : Index} {documents : List Document}
    (hbuilt : index.BuiltOf documents) (query : Query α) :
    (∃ source, ofQuery index query = .ok source ∧
        ∀ field ∈ query.termFields, field ≠ "" → field = source.field) ∨
      ∃ cause, ofQuery index query = .error (.config cause) := by
  have hl := hbuilt.listed
  by_cases hok : ∃ source, ofQuery index query = .ok source
  · left
    obtain ⟨source, hsource⟩ := hok
    refine ⟨source, hsource, ?_⟩
    intro field hf hne
    have hformed := (ofQuery_eq_ok_iff hl query).mp ⟨source, hsource⟩
    rw [field_of_built hl hsource, hformed.resultField_eq hf hne]
  · right
    exact (ofQuery_onlyConfig hl query).of_not_ok hok

/-- The names differ below different operators. -/
def apartQuery : Query Float :=
  .proximity .near 1
    [.proximity .window 2 [.term "title" "red", .proximity .near 1 []], .term "body" "blue"]

theorem named_of_built_apart :
    Index.sample.BuiltOf [Index.sampleDocument] ∧
      ∃ cause, ofQuery Index.sample apartQuery = .error (.config cause) := by
  refine ⟨Index.builtOf_sample, ?_⟩
  rcases named_of_built Index.builtOf_sample apartQuery with ⟨source, -, hfields⟩ | hfault
  · have htitle : "title" = source.field := hfields "title" (by decide) (by decide)
    have hbody : "body" = source.field := hfields "body" (by decide) (by decide)
    exact absurd (htitle.trans hbody.symm) (by decide)
  · exact hfault

end Source

/-! ## A field without a name -/

def unnamedDocument : Document :=
  { id := "unnamed", fields := [("", ["a"]), ("body", ["x", "b"])] }

def Index.unnamed : Index := Index.empty.offered [unnamedDocument]

theorem Index.builtOf_unnamed : Index.unnamed.BuiltOf [unnamedDocument] := by
  have hcountable : ∀ document ∈ [unnamedDocument], document.Countable := by decide
  exact builtOf_offered hcountable (by decide)

/-- A term of the field without a name beside one of a field with a name. -/
def mixedQuery : Query Float :=
  .proximity .window 2 [.term "body" "b", .term "" "a"]

theorem Source.mixed_of_unnamed :
    Index.unnamed.BuiltOf [unnamedDocument] ∧ mixedQuery.termFields = ["body", ""] ∧
      ∃ source, Source.ofQuery Index.unnamed mixedQuery = .ok source ∧
        source.list.places 0 = [1] := by
  have hr := Index.builtOf_unnamed.reflects (by decide)
  have hformed : mixedQuery.PostingsFormed := by
    apply Query.PostingsFormed.proximity (by decide)
    · intro arg harg
      simp only [List.mem_cons, List.not_mem_nil, or_false] at harg
      rcases harg with rfl | rfl <;> exact .term
    · intro arg harg other hother
      simp only [List.mem_cons, List.not_mem_nil, or_false] at harg hother
      rcases harg with rfl | rfl <;> rcases hother with rfl | rfl <;> decide
  obtain ⟨source, hsource⟩ := (Source.ofQuery_eq_ok_iff hr.listed mixedQuery).mpr hformed
  refine ⟨Index.builtOf_unnamed, rfl, source, hsource, ?_⟩
  rw [(Source.places_of_built hr hsource).2]
  decide +kernel

end Retrieval
