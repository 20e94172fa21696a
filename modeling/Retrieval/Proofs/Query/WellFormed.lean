import Mathlib.Tactic.Common
import Retrieval.Proofs.Outcome
import Retrieval.Query
import Retrieval.Scoring.Model

/-!
# Well-formed queries

Whether a model can answer a query is a matter of the query alone (`Query.WellFormed`). The rules
are stated here for whole trees, without an index; `Query.validate` checks one node of a tree, and
only the part that no model is needed for.
-/

set_option autoImplicit false

namespace Retrieval

variable {α : Type}

namespace Query

mutual

/-- The field of a query's postings: a term's own, and of a proximity operator the first one among
its arguments that has a name. -/
def resultField : Query α → String
  | term field _ => field
  | proximity _ _ args => ((resultFields args).find? (!·.isEmpty)).getD ""
  | score _ | combine .. => ""

def resultFields : List (Query α) → List String
  | [] => []
  | query :: rest => resultField query :: resultFields rest

end

theorem resultFields_eq_map (queries : List (Query α)) :
    resultFields queries = queries.map resultField := by
  induction queries with
  | nil => rfl
  | cons query rest ih => rw [resultFields, ih, List.map_cons]

/-- Terms, and proximity operators with a span over such queries, whose fields do not differ unless
they have no name. -/
inductive PostingsFormed : Query α → Prop
  | term {field word : String} : PostingsFormed (.term field word)
  | proximity {kind : ProximityOp} {span : UInt32} {args : List (Query α)} (hspan : span ≠ 0)
      (hargs : ∀ arg ∈ args, PostingsFormed arg)
      (hfields : ∀ arg ∈ args, ∀ other ∈ args, arg.resultField ≠ "" → other.resultField ≠ "" →
        arg.resultField = other.resultField) :
      PostingsFormed (.proximity kind span args)

theorem PostingsFormed.isPostings {query : Query α} (h : query.PostingsFormed) :
    query.isPostings = true := by
  cases h <;> rfl

variable [Scalar α]

/-- A weighted combinator has a weight for each argument, finite and not negative, and a sum above
zero if there are any. Other combinators have no weights. -/
def WeightsFormed (op : Operator) (weights : List α) (args : Nat) : Prop :=
  if op.isWeighted then
    weights.length = args ∧
      (∀ weight ∈ weights,
        Scalar.isFinite weight = true ∧ Scalar.lt weight Scalar.zero = false) ∧
      (args ≠ 0 → Scalar.le (Scalar.sum weights) Scalar.zero = false)
  else weights = []

theorem WeightsFormed.sizes {op : Operator} {weights : List α} {args : Nat}
    (h : WeightsFormed op weights args) (hop : op.isWeighted = true) (hargs : args ≠ 0) :
    (∀ weight ∈ weights, Scalar.isSize weight = true) ∧
      Scalar.le (Scalar.sum weights) Scalar.zero = false := by
  rw [WeightsFormed, if_pos hop] at h
  obtain ⟨-, hsizes, hsum⟩ := h
  refine ⟨fun weight hw => ?_, hsum hargs⟩
  rw [Scalar.isSize, (hsizes weight hw).1, (hsizes weight hw).2]
  rfl

theorem validateWeights_eq_ok {op : Operator} {weights : List α} {args : Nat} :
    validateWeights op weights args = .ok () ↔ WeightsFormed op weights args := by
  have hsizes : weights.all Scalar.isSize = true ↔ ∀ weight ∈ weights,
      Scalar.isFinite weight = true ∧ Scalar.lt weight Scalar.zero = false := by
    simp [Scalar.isSize]
  rw [validateWeights, WeightsFormed]
  split
  · by_cases hlength : weights.length = args
    · by_cases hall : weights.all Scalar.isSize = true
      · simp [hlength, hall, ← hsizes]
      · simp [hlength, hall, ← hsizes]
    · simp [hlength]
  · cases weights <;> simp

end Query

/-! ## Models -/

/-- The operators that a model can score. -/
def Model.Supports : Model α → Operator → Prop
  | unrankedBoolean, op | rankedBoolean, op => op = .and ∨ op = .or
  | bm25 _, op => op = .sum ∨ op = .weightedSum
  | indri _, op => op ≠ .sum

variable [Scalar α]

/-- Leaves that have postings, under combinators that the model supports. -/
inductive Query.WellFormed (model : Model α) : Query α → Prop
  | leaf {query : Query α} (h : query.PostingsFormed) : WellFormed model query
  | score {arg : Query α} (h : arg.PostingsFormed) : WellFormed model (.score arg)
  | combine {op : Operator} {weights : List α} {args : List (Query α)} (hop : model.Supports op)
      (hweights : WeightsFormed op weights args.length)
      (hargs : ∀ arg ∈ args, WellFormed model arg) : WellFormed model (.combine op weights args)

namespace Query

theorem wellFormed_score_iff {model : Model α} {arg : Query α} :
    WellFormed model (.score arg) ↔ arg.PostingsFormed := by
  constructor
  · intro h
    cases h with
    | leaf hleaf => cases hleaf
    | score harg => exact harg
  · exact .score

theorem wellFormed_combine_iff {model : Model α} {op : Operator} {weights : List α}
    {args : List (Query α)} :
    WellFormed model (.combine op weights args) ↔
      model.Supports op ∧ WeightsFormed op weights args.length ∧
        ∀ arg ∈ args, WellFormed model arg := by
  constructor
  · intro h
    cases h with
    | leaf hleaf => cases hleaf
    | combine hop hweights hargs => exact ⟨hop, hweights, hargs⟩
  · rintro ⟨hop, hweights, hargs⟩
    exact .combine hop hweights hargs

theorem WellFormed.replace {model : Model α} {op : Operator} {weights : List α}
    {before after : List (Query α)} {arg arg' : Query α}
    (h : WellFormed model (.combine op weights (before ++ arg :: after)))
    (harg : WellFormed model arg → WellFormed model arg') :
    WellFormed model (.combine op weights (before ++ arg' :: after)) := by
  obtain ⟨hop, hweights, hargs⟩ := wellFormed_combine_iff.mp h
  rw [List.forall_mem_append, List.forall_mem_cons] at hargs
  refine .combine hop ?_ ?_
  · simpa using hweights
  · rw [List.forall_mem_append, List.forall_mem_cons]
    exact ⟨hargs.1, harg hargs.2.1, hargs.2.2⟩

theorem wellFormed_iff_of_isPostings {model : Model α} {query : Query α}
    (h : query.isPostings = true) : WellFormed model query ↔ query.PostingsFormed := by
  constructor
  · intro hformed
    cases hformed with
    | leaf hleaf => exact hleaf
    | score => cases h
    | combine => cases h
  · exact .leaf

end Query

end Retrieval
