import Retrieval.Proofs.Cursor.Laws

/-!
# What searches with cursors find

The searches over several lawful cursors find what their names say:

* `Lawful.common_first`: the least document that is ahead of all items.
* `Lawful.least_first`: the least document that is ahead of some item.
* `Lawful.find_first`: the least document that a match rule admits.

A search may move items, but no document that the rule admits is lost (`Lawful.admits_find`), and
the items that have the found document ahead of them stand on it (`Lawful.doc_of_find`).
-/

set_option autoImplicit false

namespace Retrieval

theorem forall₂_trans {α β γ : Type} {r : α → β → Prop} {s : β → γ → Prop} {t : α → γ → Prop}
    {as : List α} {bs : List β} {cs : List γ} (hr : List.Forall₂ r as bs)
    (hs : List.Forall₂ s bs cs) (ht : ∀ a b c, r a b → s b c → t a c) : List.Forall₂ t as cs := by
  induction hr generalizing cs with
  | nil => cases hs; exact .nil
  | cons hab _ ih =>
    cases hs with
    | cons hbc hrest => exact .cons (ht _ _ _ hab hbc) (ih hrest)

namespace Cursor

variable {σ : Type} {cursor : Cursor σ}

/-! ## Searches respect what moves respect -/

namespace Keeps

variable {r : σ → σ → Prop} (h : cursor.Keeps r)

include h

theorem refl_all (items : List σ) : List.Forall₂ r items items :=
  List.forall₂_same.mpr fun item _ => h.refl item

theorem trans_all {items middle last : List σ} (h1 : List.Forall₂ r items middle)
    (h2 : List.Forall₂ r middle last) : List.Forall₂ r items last :=
  forall₂_trans h1 h2 fun _ _ _ => h.trans

theorem sweep (candidate : DocId) (items : List σ) :
    List.Forall₂ r items (cursor.sweep candidate items).2 := by
  induction items generalizing candidate with
  | nil => exact .nil
  | cons item rest ih =>
    have hmove : r item (cursor.settled (cursor.moveTo candidate item)).2 :=
      h.trans (h.moveTo candidate item) (h.settle _)
    unfold Cursor.sweep
    split
    · rename_i moved he
      rw [he] at hmove
      exact .cons hmove (h.refl_all rest)
    · rename_i doc moved he
      rw [he] at hmove
      exact .cons hmove (ih _)

theorem commonFrom (candidate : DocId) (items : List σ) :
    List.Forall₂ r items (cursor.commonFrom candidate items).2 := by
  fun_induction cursor.commonFrom candidate items with
  | case1 candidate items moved he =>
    have hs := h.sweep candidate items
    rwa [he] at hs
  | case2 candidate items reached moved he =>
    have hs := h.sweep candidate items
    rwa [he] at hs
  | case3 candidate items reached moved he _ _ ih =>
    have hs := h.sweep candidate items
    rw [he] at hs
    exact h.trans_all hs ih
  | case4 candidate items reached moved he =>
    have hs := h.sweep candidate items
    rwa [he] at hs

theorem common (items : List σ) : List.Forall₂ r items (cursor.common items).2 := by
  unfold Cursor.common
  split
  · exact h.refl_all items
  · exact h.commonFrom 0 items

theorem least (items : List σ) : List.Forall₂ r items (cursor.least items).2 := by
  induction items with
  | nil => exact .nil
  | cons item rest ih => exact .cons (h.settle item) ih

theorem first (items : List σ) : List.Forall₂ r items (cursor.first items).2 := by
  cases items with
  | nil => exact .nil
  | cons item rest => exact .cons (h.settle item) (h.refl_all rest)

theorem find (rule : MatchRule) (items : List σ) :
    List.Forall₂ r items (cursor.find rule items).2 := by
  cases rule with
  | all => exact h.common items
  | min => exact h.least items
  | first => exact h.first items

omit h in
theorem map_find {τ : Type} {f : σ → τ} (h : cursor.Keeps fun a b => f b = f a)
    (rule : MatchRule) (items : List σ) : (cursor.find rule items).2.map f = items.map f := by
  have hfind := h.find rule items
  generalize (cursor.find rule items).2 = moved at hfind
  induction hfind with
  | nil => rfl
  | cons hab _ ih => rw [List.map_cons, List.map_cons, hab, ih]

end Keeps

/-! ## Searches with lawful cursors -/

namespace Lawful

variable {sound : σ → Prop} {ahead : σ → DocId → Prop} (h : cursor.Lawful sound ahead)

include h

theorem sound_find (rule : MatchRule) {items : List σ} (hs : ∀ item ∈ items, sound item) :
    ∀ item ∈ (cursor.find rule items).2, sound item :=
  sound_of_trails (h.keeps_trails.find rule items) hs

theorem settled_eq {item : σ} (hs : sound item) :
    cursor.settled item = (cursor.doc? (cursor.settle item).2, (cursor.settle item).2) := by
  have hf := h.found_iff item hs
  unfold settled
  cases hd : cursor.doc? (cursor.settle item).2 with
  | none =>
    rw [hd] at hf
    simp [hf]
  | some doc =>
    rw [hd] at hf
    simp [hf, hd]

theorem first_moveTo (candidate : DocId) {item : σ} (hs : sound item) :
    FirstOf (fun doc => ahead item doc ∧ candidate ≤ doc)
      (cursor.doc? (cursor.settle (cursor.moveTo candidate item)).2) :=
  (h.first_doc _ (h.sound_moveTo candidate item hs)).congr (h.ahead_moveTo candidate item hs)

theorem sweep_cons_none {candidate : DocId} {item : σ} (hs : sound item)
    (hd : cursor.doc? (cursor.settle (cursor.moveTo candidate item)).2 = none) (rest : List σ) :
    cursor.sweep candidate (item :: rest) =
      (none, (cursor.settle (cursor.moveTo candidate item)).2 :: rest) := by
  rw [sweep, h.settled_eq (h.sound_moveTo candidate item hs), hd]

/-- The place where the item settled is not before the candidate, so the sweep goes on with it. -/
theorem sweep_cons_some {candidate place : DocId} {item : σ} (hs : sound item)
    (hd : cursor.doc? (cursor.settle (cursor.moveTo candidate item)).2 = some place)
    (rest : List σ) :
    cursor.sweep candidate (item :: rest) =
      ((cursor.sweep place rest).1,
        (cursor.settle (cursor.moveTo candidate item)).2 :: (cursor.sweep place rest).2) := by
  have hfirst := h.first_moveTo candidate hs
  rw [hd] at hfirst
  have hmax : max candidate place = place := if_pos hfirst.1.2
  rw [sweep, h.settled_eq (h.sound_moveTo candidate item hs), hd]
  simp only [hmax]

/-- A sweep up to a document that all items have ahead of them ends there or before it. -/
theorem sweep_le {doc : DocId} {items : List σ} (hs : ∀ item ∈ items, sound item)
    (ha : ∀ item ∈ items, ahead item doc) {candidate : DocId} (hc : candidate ≤ doc) :
    ∃ reached, (cursor.sweep candidate items).1 = some reached ∧ reached ≤ doc ∧
      ∀ item ∈ (cursor.sweep candidate items).2, ahead item doc := by
  induction items generalizing candidate with
  | nil => exact ⟨candidate, rfl, hc, by simp [sweep]⟩
  | cons item rest ih =>
    simp only [List.forall_mem_cons] at hs ha
    have hfirst := h.first_moveTo candidate hs.1
    have hmoved : ahead (cursor.settle (cursor.moveTo candidate item)).2 doc :=
      (h.ahead_settle _ (h.sound_moveTo candidate item hs.1) doc).mpr
        ((h.ahead_moveTo candidate item hs.1 doc).mpr ⟨ha.1, hc⟩)
    cases hd : cursor.doc? (cursor.settle (cursor.moveTo candidate item)).2 with
    | none =>
      rw [hd] at hfirst
      exact absurd ⟨ha.1, hc⟩ (hfirst doc)
    | some place =>
      rw [hd] at hfirst
      have hplace : place ≤ doc := hfirst.2 doc ⟨ha.1, hc⟩
      rw [h.sweep_cons_some hs.1 hd]
      obtain ⟨reached, he, hle, hrest⟩ := ih hs.2 ha.2 hplace
      exact ⟨reached, he, hle, List.forall_mem_cons.mpr ⟨hmoved, hrest⟩⟩

/-- After a full sweep every item stands between the first candidate and the last. -/
theorem sweep_bounds {items : List σ} (hs : ∀ item ∈ items, sound item)
    {candidate reached : DocId} (he : (cursor.sweep candidate items).1 = some reached) :
    candidate ≤ reached ∧ ∀ item ∈ (cursor.sweep candidate items).2,
      ∃ doc, cursor.doc? item = some doc ∧ candidate ≤ doc ∧ doc ≤ reached := by
  induction items generalizing candidate with
  | nil =>
    simp only [sweep, Option.some.injEq] at he
    subst he
    exact ⟨UInt32.le_refl _, by simp [sweep]⟩
  | cons item rest ih =>
    simp only [List.forall_mem_cons] at hs
    have hfirst := h.first_moveTo candidate hs.1
    cases hd : cursor.doc? (cursor.settle (cursor.moveTo candidate item)).2 with
    | none => simp [h.sweep_cons_none hs.1 hd] at he
    | some place =>
      rw [hd] at hfirst
      have hplace : candidate ≤ place := hfirst.1.2
      rw [h.sweep_cons_some hs.1 hd] at he ⊢
      obtain ⟨hle, hrest⟩ := ih hs.2 he
      refine ⟨UInt32.le_trans hplace hle, List.forall_mem_cons.mpr ⟨⟨place, hd, hplace, hle⟩, ?_⟩⟩
      intro other hother
      obtain ⟨doc, hdoc, h1, h2⟩ := hrest other hother
      exact ⟨doc, hdoc, UInt32.le_trans hplace h1, h2⟩

/-- A full sweep that has not brought all items onto one document has raised the candidate. -/
theorem sweep_raises {items : List σ} (hs : ∀ item ∈ items, sound item) {candidate reached : DocId}
    {moved : List σ} (he : cursor.sweep candidate items = (some reached, moved))
    (hnot : ¬ ∀ item ∈ moved, cursor.doc? item = some reached) : candidate < reached := by
  have hb := h.sweep_bounds hs (congrArg Prod.fst he)
  rw [he] at hb
  refine (UInt32.lt_or_eq_of_le hb.1).resolve_right fun heq => hnot fun item hitem => ?_
  obtain ⟨place, hplace, hle, hge⟩ := hb.2 item hitem
  rw [heq] at hle
  rw [hplace, UInt32.le_antisymm hge hle]

/-- The search for a common document ends at or before any document that all items have ahead of
them, and leaves it ahead of them. -/
theorem commonFrom_le {doc : DocId} (candidate : DocId) (items : List σ)
    (hs : ∀ item ∈ items, sound item) (ha : ∀ item ∈ items, ahead item doc)
    (hc : candidate ≤ doc) :
    ∃ found, (cursor.commonFrom candidate items).1 = some found ∧ found ≤ doc ∧
      ∀ item ∈ (cursor.commonFrom candidate items).2, ahead item doc := by
  fun_induction cursor.commonFrom candidate items with
  | case1 candidate items moved he =>
    obtain ⟨reached, hr, _⟩ := h.sweep_le hs ha hc
    simp [he] at hr
  | case2 candidate items reached moved he _ =>
    obtain ⟨found, hr, hle, hrest⟩ := h.sweep_le hs ha hc
    rw [he] at hr hrest
    simp only [Option.some.injEq] at hr
    exact ⟨reached, rfl, hr ▸ hle, hrest⟩
  | case3 candidate items reached moved he _ _ ih =>
    obtain ⟨found, hr, hle, hrest⟩ := h.sweep_le hs ha hc
    rw [he] at hr hrest
    simp only [Option.some.injEq] at hr
    have hsound := sound_of_trails (h.keeps_trails.sweep candidate items) hs
    rw [he] at hsound
    exact ih hsound hrest (hr ▸ hle)
  | case4 candidate items reached moved he hall hlt =>
    have hnot : ¬ ∀ item ∈ moved, cursor.doc? item = some reached := by simpa using hall
    exact absurd (h.sweep_raises hs he hnot) hlt

omit h in
theorem doc_of_commonFrom (candidate : DocId) (items : List σ) {found : DocId}
    (he : (cursor.commonFrom candidate items).1 = some found) :
    ∀ item ∈ (cursor.commonFrom candidate items).2, cursor.doc? item = some found := by
  fun_induction cursor.commonFrom candidate items with
  | case1 => simp at he
  | case2 candidate items reached moved hsweep hall =>
    simp only [Option.some.injEq] at he
    subst he
    simpa using hall
  | case3 candidate items reached moved hsweep _ _ ih => exact ih he
  | case4 => simp at he

theorem common_first {items : List σ} (hs : ∀ item ∈ items, sound item) :
    FirstOf (fun doc => MatchRule.all.Admits (ahead · doc) items) (cursor.common items).1 := by
  by_cases hempty : items = []
  · subst hempty
    exact fun doc hd => hd.1 rfl
  have hstart : cursor.common items = cursor.commonFrom 0 items := by
    simp [common, hempty]
  rw [hstart]
  have hle : ∀ doc, MatchRule.all.Admits (ahead · doc) items →
      ∃ found, (cursor.commonFrom 0 items).1 = some found ∧ found ≤ doc := by
    intro doc hd
    obtain ⟨found, hf, hfd, _⟩ := h.commonFrom_le 0 items hs hd.2 (UInt32.zero_le)
    exact ⟨found, hf, hfd⟩
  cases hfound : (cursor.commonFrom 0 items).1 with
  | none =>
    intro doc hd
    obtain ⟨found, hf, _⟩ := hle doc hd
    simp [hfound] at hf
  | some place =>
    have hstand := doc_of_commonFrom 0 items hfound
    have htrail := h.keeps_trails.commonFrom 0 items
    have hsound := sound_of_trails htrail hs
    refine ⟨⟨hempty, ahead_of_trails htrail hs fun item hi => ?_⟩, fun doc hd => ?_⟩
    · exact (h.least_doc item place (hsound item hi) (hstand item hi)).1
    · obtain ⟨found, hf, hfd⟩ := hle doc hd
      rw [hfound, Option.some.injEq] at hf
      exact hf ▸ hfd

theorem least_first {items : List σ} (hs : ∀ item ∈ items, sound item) :
    FirstOf (fun doc => MatchRule.min.Admits (ahead · doc) items) (cursor.least items).1 := by
  induction items with
  | nil => simp [least, FirstOf, MatchRule.Admits]
  | cons item rest ih =>
    simp only [List.forall_mem_cons] at hs
    have hmerge := (h.first_doc item hs.1).merge (ih hs.2)
    simp only [least, h.settled_eq hs.1]
    exact hmerge.congr fun doc => by simp [MatchRule.Admits]

omit h in
theorem least_items (items : List σ) :
    (cursor.least items).2 = items.map fun item => (cursor.settle item).2 := by
  induction items with
  | nil => rfl
  | cons item rest ih => simp only [least, List.map_cons, ← ih, settled_snd]

theorem find_first (rule : MatchRule) {items : List σ} (hs : ∀ item ∈ items, sound item) :
    FirstOf (fun doc => rule.Admits (ahead · doc) items) (cursor.find rule items).1 := by
  cases rule with
  | all => exact h.common_first hs
  | min => exact h.least_first hs
  | first =>
    cases items with
    | nil => simp [find, first, FirstOf, MatchRule.Admits]
    | cons item rest =>
      simp only [List.forall_mem_cons] at hs
      simp only [find, first, h.settled_eq hs.1]
      exact (h.first_doc item hs.1).congr fun doc => by simp [MatchRule.Admits]

omit h in
/-- Only the search for a common document does more than to settle items. -/
theorem map_find_of_ne_all {τ : Type} {f : σ → τ} {rule : MatchRule} (hr : rule ≠ .all)
    {items : List σ} (hf : ∀ item ∈ items, f (cursor.settle item).2 = f item) :
    (cursor.find rule items).2.map f = items.map f := by
  cases rule with
  | all => exact absurd rfl hr
  | min =>
    rw [find, least_items, List.map_map]
    exact List.map_congr_left hf
  | first =>
    cases items with
    | nil => rfl
    | cons item rest =>
      rw [find, first, List.map_cons, List.map_cons]
      exact congrArg (· :: rest.map f) (hf item (List.mem_cons_self ..))

/-- A search changes nothing about the documents that the rule still admits. -/
theorem admits_find (rule : MatchRule) {items : List σ} (hs : ∀ item ∈ items, sound item)
    (doc : DocId) :
    rule.Admits (ahead · doc) (cursor.find rule items).2 ↔ rule.Admits (ahead · doc) items := by
  by_cases hr : rule = .all
  · subst hr
    have htrail := h.keeps_trails.common items
    constructor
    · rintro ⟨hne, hall⟩
      refine ⟨fun he => hne ?_, ahead_of_trails htrail hs hall⟩
      subst he
      exact List.forall₂_nil_left_iff.mp htrail
    · rintro ⟨hne, hall⟩
      have hstart : cursor.common items = cursor.commonFrom 0 items := by simp [common, hne]
      obtain ⟨_, _, _, hrest⟩ := h.commonFrom_le 0 items hs hall (UInt32.zero_le)
      rw [← hstart] at hrest
      refine ⟨fun he => hne ?_, hrest⟩
      rw [find] at he
      rw [he] at htrail
      exact List.forall₂_nil_right_iff.mp htrail
  · refine rule.admits_congr (map_find_of_ne_all hr fun item hi => ?_)
    exact propext (h.ahead_settle item (hs item hi) doc)

/-- Where a search has found a document, every item that has it ahead stands on it. Under `first`
only one item is looked at. -/
theorem doc_of_find {rule : MatchRule} (hr : rule ≠ .first) {items : List σ}
    (hs : ∀ item ∈ items, sound item) {found : DocId}
    (he : (cursor.find rule items).1 = some found) :
    ∀ item ∈ (cursor.find rule items).2, ahead item found → cursor.doc? item = some found := by
  have hfirst := h.find_first rule hs
  rw [he] at hfirst
  cases rule with
  | first => exact absurd rfl hr
  | all =>
    have hne : items ≠ [] := hfirst.1.1
    have hstart : cursor.find .all items = cursor.commonFrom 0 items := by
      simp [find, common, hne]
    rw [hstart] at he ⊢
    exact fun item hi _ => doc_of_commonFrom 0 items he item hi
  | min =>
    rw [find, least_items]
    intro item hi ha
    obtain ⟨before, hb, rfl⟩ := List.mem_map.mp hi
    have hsettled := h.first_doc before (hs before hb)
    refine hsettled.eq_some_iff.mpr ⟨(h.ahead_settle before (hs before hb) found).mp ha, ?_⟩
    exact fun other ho => hfirst.2 other ⟨before, hb, ho⟩

end Lawful

end Cursor

end Retrieval
