import Mathlib.Data.List.Perm.Basic
import Retrieval.Proofs.Proximity.Closed
import Retrieval.Proofs.Query.WellFormed

/-!
# Rearranged queries

A query is rearranged by permuting the arguments of conjunctions, disjunctions and windows, as many
of them as one likes and at any depth, also within operators that keep their own order
(`Query.Rearranged`). The relation is generated by one permutation at one node, so what it preserves
is shown for a single node and for a query that stands in a larger one.

A rearranged query is well-formed for the same models, and its postings have the same field.
-/

set_option autoImplicit false

namespace Retrieval

variable {α : Type}

namespace Query

inductive Rearranged : Query α → Query α → Prop
  | refl (query : Query α) : Rearranged query query
  | trans {first second third : Query α} (h : Rearranged first second)
      (h' : Rearranged second third) : Rearranged first third
  | window (span : UInt32) {args args' : List (Query α)} (h : args.Perm args') :
      Rearranged (.proximity .window span args) (.proximity .window span args')
  | combine {op : Operator} (hop : op = .and ∨ op = .or) (weights : List α)
      {args args' : List (Query α)} (h : args.Perm args') :
      Rearranged (.combine op weights args) (.combine op weights args')
  | inProximity (kind : ProximityOp) (span : UInt32) (before after : List (Query α))
      {arg arg' : Query α} (h : Rearranged arg arg') :
      Rearranged (.proximity kind span (before ++ arg :: after))
        (.proximity kind span (before ++ arg' :: after))
  | inScore {arg arg' : Query α} (h : Rearranged arg arg') :
      Rearranged (.score arg) (.score arg')
  | inCombine (op : Operator) (weights : List α) (before after : List (Query α))
      {arg arg' : Query α} (h : Rearranged arg arg') :
      Rearranged (.combine op weights (before ++ arg :: after))
        (.combine op weights (before ++ arg' :: after))

namespace Rearranged

variable {query query' : Query α}

theorem symm (h : query.Rearranged query') : query'.Rearranged query := by
  induction h with
  | refl query => exact .refl query
  | trans _ _ ih ih' => exact .trans ih' ih
  | window span h => exact .window span h.symm
  | combine hop weights h => exact .combine hop weights h.symm
  | inProximity kind span before after _ ih => exact .inProximity kind span before after ih
  | inScore _ ih => exact .inScore ih
  | inCombine op weights before after _ ih => exact .inCombine op weights before after ih

end Rearranged

/-! ## Form -/

theorem postingsFormed_proximity_iff {kind : ProximityOp} {span : UInt32}
    {args : List (Query α)} :
    (proximity kind span args).PostingsFormed ↔
      span ≠ 0 ∧ (∀ arg ∈ args, arg.PostingsFormed) ∧
        ∀ name ∈ args.map resultField, ∀ other ∈ args.map resultField,
          name ≠ "" → other ≠ "" → name = other := by
  simp only [List.forall_mem_map]
  constructor
  · intro h
    cases h with
    | proximity hspan hargs hfields => exact ⟨hspan, hargs, hfields⟩
  · rintro ⟨hspan, hargs, hfields⟩
    exact .proximity hspan hargs hfields

theorem resultField_proximity (kind : ProximityOp) (span : UInt32) (args : List (Query α)) :
    (proximity kind span args).resultField =
      ((args.map resultField).find? (!·.isEmpty)).getD "" := by
  rw [resultField, resultFields_eq_map]

theorem firstNamed_perm {names others : List String} (h : names.Perm others)
    (hagree : ∀ name ∈ names, ∀ other ∈ names, name ≠ "" → other ≠ "" → name = other) :
    (names.find? (!·.isEmpty)).getD "" = (others.find? (!·.isEmpty)).getD "" := by
  cases hfind : others.find? (!·.isEmpty) with
  | none =>
    have hnone : names.find? (!·.isEmpty) = none := by
      rw [List.find?_eq_none] at hfind ⊢
      simpa only [h.mem_iff] using hfind
    rw [hnone]
  | some name =>
    have hmem := h.mem_iff.mpr (List.mem_of_find?_eq_some hfind)
    have hnamed := List.find?_some hfind
    exact Proximity.firstNamed_eq hagree hmem (by simpa using hnamed)

theorem Rearranged.postingsFormed {query query' : Query α} (h : query.Rearranged query')
    (hquery : query.PostingsFormed) :
    query'.PostingsFormed ∧ query'.resultField = query.resultField := by
  induction h with
  | refl query => exact ⟨hquery, rfl⟩
  | trans _ _ ih ih' =>
    obtain ⟨hsecond, hfield⟩ := ih hquery
    obtain ⟨hthird, hfield'⟩ := ih' hsecond
    exact ⟨hthird, hfield'.trans hfield⟩
  | @window span args args' h =>
    obtain ⟨hspan, hargs, hfields⟩ := postingsFormed_proximity_iff.mp hquery
    have hnames := h.map resultField
    rw [resultField_proximity, resultField_proximity]
    refine ⟨postingsFormed_proximity_iff.mpr ⟨hspan, ?_, ?_⟩, (firstNamed_perm hnames hfields).symm⟩
    · simpa only [h.mem_iff] using hargs
    · simpa only [hnames.mem_iff] using hfields
  | @inProximity kind span before after arg arg' _ ih =>
    obtain ⟨hspan, hargs, hfields⟩ := postingsFormed_proximity_iff.mp hquery
    obtain ⟨harg', hfield⟩ := ih (hargs arg List.mem_append_cons_self)
    have hnames : (before ++ arg' :: after).map resultField =
        (before ++ arg :: after).map resultField := by
      simp only [List.map_append, List.map_cons, hfield]
    rw [resultField_proximity, resultField_proximity, hnames, postingsFormed_proximity_iff, hnames]
    refine ⟨⟨hspan, ?_, hfields⟩, rfl⟩
    rw [List.forall_mem_append, List.forall_mem_cons] at hargs ⊢
    exact ⟨hargs.1, harg', hargs.2.2⟩
  | combine => cases hquery
  | inScore => cases hquery
  | inCombine => cases hquery

variable [Scalar α]

theorem Rearranged.wellFormed {query query' : Query α} (h : query.Rearranged query')
    {model : Model α} (hquery : query.WellFormed model) : query'.WellFormed model := by
  induction h with
  | refl query => exact hquery
  | trans _ _ ih ih' => exact ih' (ih hquery)
  | window span h =>
    rw [wellFormed_iff_of_isPostings rfl] at hquery ⊢
    exact ((Rearranged.window span h).postingsFormed hquery).1
  | combine _ weights h =>
    obtain ⟨hop, hweights, hargs⟩ := wellFormed_combine_iff.mp hquery
    rw [h.length_eq] at hweights
    refine .combine hop hweights ?_
    simpa only [h.mem_iff] using hargs
  | inProximity kind span before after h _ =>
    rw [wellFormed_iff_of_isPostings rfl] at hquery ⊢
    exact ((Rearranged.inProximity kind span before after h).postingsFormed hquery).1
  | inScore h _ =>
    rw [wellFormed_score_iff] at hquery ⊢
    exact (h.postingsFormed hquery).1
  | inCombine op weights before after _ ih => exact hquery.replace ih

theorem Rearranged.wellFormed_iff {query query' : Query α} (h : query.Rearranged query')
    (model : Model α) : query.WellFormed model ↔ query'.WellFormed model :=
  ⟨h.wellFormed, h.symm.wellFormed⟩

end Query

end Retrieval
