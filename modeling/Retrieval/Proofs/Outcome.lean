import Mathlib.Data.List.Forall2
import Retrieval.Fault

/-!
# Outcomes of steps in sequence

What it takes for a sequence of steps to come out well, each of which may end in a fault. The
functions that go over a list up to the first fault are all `List.mapM`, and two such runs are
compared item by item.
-/

set_option autoImplicit false

namespace Retrieval

variable {α β γ : Type}

theorem bind_eq_ok {x : Except Fault α} {f : α → Except Fault β} {b : β} :
    (x >>= f) = .ok b ↔ ∃ a, x = .ok a ∧ f a = .ok b := by
  cases x <;> simp [bind, Except.bind]

theorem bind_congr_ok {x : Except Fault α} {f g : α → Except Fault β}
    (h : ∀ a, x = .ok a → f a = g a) : (x >>= f) = (x >>= g) := by
  cases x with
  | error fault => rfl
  | ok a => exact h a rfl

theorem pure_eq_ok {a b : α} : (pure a : Except Fault α) = .ok b ↔ a = b := by
  simp [pure, Except.pure]

theorem map_eq_ok {x : Except Fault α} {f : α → β} {b : β} :
    x.map f = .ok b ↔ ∃ a, x = .ok a ∧ f a = b := by
  cases x <;> simp [Except.map]

/-! ## Lists in step -/

theorem exists_of_forall₂ {r : α → β → Prop} {items : List α} {others : List β}
    (h : List.Forall₂ r items others) {other : β} (ho : other ∈ others) :
    ∃ item ∈ items, r item other := by
  induction h with
  | nil => cases ho
  | cons hab _ ih =>
    rcases List.mem_cons.mp ho with rfl | hrest
    · exact ⟨_, List.mem_cons_self .., hab⟩
    · obtain ⟨item, hi, hr⟩ := ih hrest
      exact ⟨item, List.mem_cons_of_mem _ hi, hr⟩

theorem forall₂_imp_of_mem {r s : α → β → Prop} {items : List α} {others : List β}
    (h : List.Forall₂ r items others)
    (himp : ∀ item ∈ items, ∀ {other}, r item other → s item other) :
    List.Forall₂ s items others := by
  induction h with
  | nil => exact .nil
  | cons hab _ ih =>
    refine .cons (himp _ (List.mem_cons_self ..) hab) (ih fun item hi => ?_)
    exact himp item (List.mem_cons_of_mem _ hi)

theorem forall₂_zipWith {r : β → β → Prop} {f : α → β → β} {marks : List α} {items others : List β}
    (h : List.Forall₂ r items others)
    (hf : ∀ mark ∈ marks, ∀ {item other}, r item other → r (f mark item) (f mark other)) :
    List.Forall₂ r (List.zipWith f marks items) (List.zipWith f marks others) := by
  induction h generalizing marks with
  | nil => rw [List.zipWith_nil_right]; exact .nil
  | cons hab _ ih =>
    cases marks with
    | nil => exact .nil
    | cons mark rest =>
      rw [List.forall_mem_cons] at hf
      exact .cons (hf.1 hab) (ih hf.2)

/-- Where one item gives way to another, so may what is in step with it. -/
theorem forall₂_replace {r : α → β → Prop} {s : β → β → Prop} (hrefl : ∀ other, s other other)
    {before after : List α} {item item' : α} {others : List β}
    (h : List.Forall₂ r (before ++ item :: after) others)
    (hitem : ∀ {other}, r item other → ∃ other', r item' other' ∧ s other other') :
    ∃ others', List.Forall₂ r (before ++ item' :: after) others' ∧
      List.Forall₂ s others others' := by
  induction before generalizing others with
  | nil =>
    obtain ⟨other, rest, hother, hrest, rfl⟩ := List.forall₂_cons_left_iff.mp h
    obtain ⟨other', hother', hs⟩ := hitem hother
    exact ⟨other' :: rest, .cons hother' hrest, .cons hs (List.forall₂_same.mpr fun _ _ => hrefl _)⟩
  | cons first before ih =>
    obtain ⟨other, rest, hother, hrest, rfl⟩ := List.forall₂_cons_left_iff.mp h
    obtain ⟨rest', hrest', hs⟩ := ih hrest
    exact ⟨other :: rest', .cons hother hrest', .cons (hrefl other) hs⟩

theorem map_eq_map_of_forall₂ {f : α → γ} {g : β → γ} {items : List α} {others : List β}
    (h : List.Forall₂ (fun item other => f item = g other) items others) :
    items.map f = others.map g := by
  induction h with
  | nil => rfl
  | cons hab _ ih => rw [List.map_cons, List.map_cons, hab, ih]

theorem mapM_eq_mapM_of_forall₂ {f : α → Except Fault γ} {g : β → Except Fault γ} {items : List α}
    {others : List β} (h : List.Forall₂ (fun item other => f item = g other) items others) :
    items.mapM f = others.mapM g := by
  induction h with
  | nil => rfl
  | cons hab _ ih => rw [List.mapM_cons, List.mapM_cons, hab, ih]

theorem mapM_congr_of_mem {f g : α → Except Fault β} {items : List α}
    (h : ∀ item ∈ items, f item = g item) : items.mapM f = items.mapM g :=
  mapM_eq_mapM_of_forall₂ (List.forall₂_same.mpr h)

theorem mapM_eq_ok {f : α → Except Fault β} {items : List α} {results : List β} :
    items.mapM f = .ok results ↔
      List.Forall₂ (fun item result => f item = .ok result) items results := by
  induction items generalizing results with
  | nil => rw [List.mapM_nil, pure_eq_ok, List.forall₂_nil_left_iff, eq_comm]
  | cons item rest ih =>
    simp only [List.mapM_cons, bind_eq_ok, pure_eq_ok, List.forall₂_cons_left_iff, ih]
    constructor
    · rintro ⟨result, hresult, results, hrest, rfl⟩
      exact ⟨result, results, hresult, hrest, rfl⟩
    · rintro ⟨result, results, hresult, hrest, rfl⟩
      exact ⟨result, hresult, results, hrest, rfl⟩

theorem exists_mapM {f : α → Except Fault β} {items : List α}
    (h : ∀ item ∈ items, ∃ result, f item = .ok result) :
    ∃ results, items.mapM f = .ok results := by
  induction items with
  | nil => exact ⟨[], rfl⟩
  | cons item rest ih =>
    rw [List.forall_mem_cons] at h
    obtain ⟨result, hresult⟩ := h.1
    obtain ⟨results, hresults⟩ := ih h.2
    rw [List.mapM_cons, hresult, hresults]
    exact ⟨result :: results, rfl⟩

/-- Results that all have a property, one for each item. -/
theorem exists_mapM_of_forall {f : α → Except Fault β} {p : β → Prop} {items : List α}
    (h : ∀ item ∈ items, ∃ result, f item = .ok result ∧ p result) :
    ∃ results, items.mapM f = .ok results ∧ results.length = items.length ∧
      ∀ result ∈ results, p result := by
  obtain ⟨results, hresults⟩ := exists_mapM fun item hi => (h item hi).imp fun _ hr => hr.1
  have hstep := mapM_eq_ok.mp hresults
  refine ⟨results, hresults, hstep.length_eq.symm, fun result hr => ?_⟩
  obtain ⟨item, hi, he⟩ := exists_of_forall₂ hstep hr
  obtain ⟨other, hother, hp⟩ := h item hi
  rw [he] at hother
  cases hother
  exact hp

/-- Two runs over the same items, with results that stay in step. -/
theorem exists_mapM_forall₂ {f g : α → Except Fault β} {r : β → β → Prop} {items : List α}
    (h : ∀ item ∈ items, ∃ x y, f item = .ok x ∧ g item = .ok y ∧ r x y) :
    ∃ xs ys, items.mapM f = .ok xs ∧ items.mapM g = .ok ys ∧ ys.length = items.length ∧
      List.Forall₂ r xs ys := by
  induction items with
  | nil => exact ⟨[], [], rfl, rfl, rfl, .nil⟩
  | cons item rest ih =>
    rw [List.forall_mem_cons] at h
    obtain ⟨x, y, hx, hy, hxy⟩ := h.1
    obtain ⟨xs, ys, hxs, hys, hlength, hall⟩ := ih h.2
    rw [List.mapM_cons, List.mapM_cons, hx, hy, hxs, hys]
    exact ⟨x :: xs, y :: ys, rfl, rfl, congrArg (· + 1) hlength, .cons hxy hall⟩

/-! ## Faults of configuration -/

/-- If anything is at fault, then the query or the model is. -/
def OnlyConfig (outcome : Except Fault α) : Prop :=
  ∀ fault, outcome = .error fault → ∃ cause, fault = .config cause

theorem onlyConfig_ok (a : α) : OnlyConfig (.ok a) := by
  intro fault h
  cases h

theorem onlyConfig_config (cause : ConfigFault) :
    OnlyConfig (.error (.config cause) : Except Fault α) := by
  intro fault h
  cases h
  exact ⟨cause, rfl⟩

theorem OnlyConfig.bind {x : Except Fault α} {f : α → Except Fault β} (hx : OnlyConfig x)
    (hf : ∀ a, x = .ok a → OnlyConfig (f a)) : OnlyConfig (x >>= f) := by
  cases x with
  | error fault => exact fun other h => hx other (by simpa [Bind.bind, Except.bind] using h)
  | ok a => exact hf a rfl

theorem OnlyConfig.mapM {f : α → Except Fault β} {items : List α}
    (h : ∀ item ∈ items, OnlyConfig (f item)) : OnlyConfig (items.mapM f) := by
  induction items with
  | nil => exact onlyConfig_ok []
  | cons item rest ih =>
    rw [List.forall_mem_cons] at h
    rw [List.mapM_cons]
    exact h.1.bind fun result _ => (ih h.2).bind fun results _ => onlyConfig_ok _

theorem OnlyConfig.of_not_ok {outcome : Except Fault α} (h : OnlyConfig outcome)
    (hnone : ¬ ∃ a, outcome = .ok a) : ∃ cause, outcome = .error (.config cause) := by
  cases outcome with
  | ok a => exact absurd ⟨a, rfl⟩ hnone
  | error fault =>
    obtain ⟨cause, rfl⟩ := h fault rfl
    exact ⟨cause, rfl⟩

end Retrieval
