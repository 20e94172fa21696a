import Retrieval.Proofs.Cursor.Searches
import Retrieval.Proofs.Postings

/-!
# The search for a common document

`Cursor.common` sweeps until all cursors stand on one document, and stops when a sweep does not
raise the candidate. Lawful cursors never make it stop that way: `Cursor.Synchronizes` is the loop
without that bound, and it comes to the same end (`Lawful.synchronizes_commonFrom`), since a sweep
after which the cursors disagree has raised the candidate.

A document that is found is the least common one, and no cursor has lost a document from there on
(`Lawful.commonFrom_spares`). So a caller that moves every cursor beyond the document it got, and
asks again until there is none (`Cursor.Enumerates`), gets the common documents in ascending order.
-/

set_option autoImplicit false

namespace Retrieval.Cursor

variable {σ : Type} {cursor : Cursor σ}

/-- Sweep after sweep from a candidate on, until an item runs out or all stand on one document, with
what that ends with. -/
inductive Synchronizes (cursor : Cursor σ) : DocId → List σ → Option DocId × List σ → Prop
  | exhausted {candidate : DocId} {items moved : List σ}
      (hsweep : cursor.sweep candidate items = (none, moved)) :
      Synchronizes cursor candidate items (none, moved)
  | agreed {candidate reached : DocId} {items moved : List σ}
      (hsweep : cursor.sweep candidate items = (some reached, moved))
      (hall : ∀ item ∈ moved, cursor.doc? item = some reached) :
      Synchronizes cursor candidate items (some reached, moved)
  | again {candidate reached : DocId} {items moved : List σ} {last : Option DocId × List σ}
      (hsweep : cursor.sweep candidate items = (some reached, moved))
      (hnot : ¬ ∀ item ∈ moved, cursor.doc? item = some reached)
      (hrest : Synchronizes cursor reached moved last) :
      Synchronizes cursor candidate items last

/-- The documents that a caller gets who asks for the common document, moves every item beyond it
and asks again, until there is none. -/
inductive Enumerates (cursor : Cursor σ) : List σ → List DocId → Prop
  | done {items : List σ} (hnone : (cursor.common items).1 = none) : Enumerates cursor items []
  | next {items found : List σ} {doc : DocId} {docs : List DocId}
      (hsome : cursor.common items = (some doc, found))
      (hrest : Enumerates cursor (found.map (cursor.moveBeyond doc)) docs) :
      Enumerates cursor items (doc :: docs)

/-- The loop comes to one end at most, since every sweep has one outcome. -/
theorem Synchronizes.unique {candidate : DocId} {items : List σ}
    {last other : Option DocId × List σ} (h : cursor.Synchronizes candidate items last)
    (h' : cursor.Synchronizes candidate items other) : last = other := by
  induction h with
  | exhausted hsweep => cases h' <;> grind
  | agreed hsweep hall => cases h' <;> grind
  | again hsweep hnot _ ih =>
    cases h' with
    | exhausted hsweep' => cases hsweep.symm.trans hsweep'
    | agreed hsweep' hall =>
      cases hsweep.symm.trans hsweep'
      exact absurd hall hnot
    | again hsweep' _ hrest =>
      cases hsweep.symm.trans hsweep'
      exact ih hrest

namespace Lawful

variable {sound : σ → Prop} {ahead : σ → DocId → Prop} (h : cursor.Lawful sound ahead)

include h

theorem synchronizes_commonFrom (candidate : DocId) (items : List σ)
    (hs : ∀ item ∈ items, sound item) :
    cursor.Synchronizes candidate items (cursor.commonFrom candidate items) := by
  fun_induction cursor.commonFrom candidate items with
  | case1 candidate items moved he => exact .exhausted he
  | case2 candidate items reached moved he hall => exact .agreed he (by simpa using hall)
  | case3 candidate items reached moved he hall _ ih =>
    have hsound := sound_of_trails (h.keeps_trails.sweep candidate items) hs
    rw [he] at hsound
    exact .again he (by simpa using hall) (ih hsound)
  | case4 candidate items reached moved he hall hlt =>
    have hnot : ¬ ∀ item ∈ moved, cursor.doc? item = some reached := by simpa using hall
    exact absurd (h.sweep_raises hs he hnot) hlt

/-- A full sweep leaves out only documents below the place it has reached. -/
theorem sweep_spares {items : List σ} (hs : ∀ item ∈ items, sound item)
    {candidate reached : DocId} (he : (cursor.sweep candidate items).1 = some reached) :
    List.Forall₂ (fun before after => ∀ doc, reached ≤ doc → (ahead after doc ↔ ahead before doc))
      items (cursor.sweep candidate items).2 := by
  induction items generalizing candidate with
  | nil => exact .nil
  | cons item rest ih =>
    simp only [List.forall_mem_cons] at hs
    have hmoved := h.sound_moveTo candidate item hs.1
    cases hd : cursor.doc? (cursor.settle (cursor.moveTo candidate item)).2 with
    | none => simp [h.sweep_cons_none hs.1 hd] at he
    | some place =>
      have hfirst := h.first_moveTo candidate hs.1
      rw [hd] at hfirst
      rw [h.sweep_cons_some hs.1 hd] at he ⊢
      have hreached : candidate ≤ reached :=
        UInt32.le_trans hfirst.1.2 (h.sweep_bounds hs.2 he).1
      refine .cons (fun doc hdoc => ?_) (ih hs.2 he)
      rw [h.ahead_settle _ hmoved, h.ahead_moveTo candidate item hs.1]
      exact and_iff_left (UInt32.le_trans hreached hdoc)

theorem commonFrom_spares {candidate found : DocId} {items : List σ}
    (hs : ∀ item ∈ items, sound item)
    (he : (cursor.commonFrom candidate items).1 = some found) :
    candidate ≤ found ∧ List.Forall₂
      (fun before after => ∀ doc, found ≤ doc → (ahead after doc ↔ ahead before doc))
      items (cursor.commonFrom candidate items).2 := by
  fun_induction cursor.commonFrom candidate items with
  | case1 => simp at he
  | case2 candidate items reached moved hsweep _ =>
    have hreached : (cursor.sweep candidate items).1 = some found := by rw [hsweep]; exact he
    have hspared := h.sweep_spares hs hreached
    rw [hsweep] at hspared
    exact ⟨(h.sweep_bounds hs hreached).1, hspared⟩
  | case3 candidate items reached moved hsweep _ hlt ih =>
    have hreached : (cursor.sweep candidate items).1 = some reached := by rw [hsweep]
    have hsound := sound_of_trails (h.keeps_trails.sweep candidate items) hs
    have hspared := h.sweep_spares hs hreached
    rw [hsweep] at hsound hspared
    obtain ⟨hle, hlater⟩ := ih hsound he
    -- The later sweeps leave out nothing from the found document on, and the first one nothing from
    -- the place it reached, which is not beyond that document.
    refine ⟨UInt32.le_trans (UInt32.le_of_lt hlt) hle, forall₂_trans hspared hlater ?_⟩
    intro before between after hfirst hrest doc hdoc
    rw [hrest doc hdoc, hfirst doc (UInt32.le_trans hle hdoc)]
  | case4 => simp at he

/-- Every item stands on the common document that was found, and has left out the documents below
it and no others. -/
theorem common_stands {items : List σ} (hs : ∀ item ∈ items, sound item) {found : DocId}
    (he : (cursor.common items).1 = some found) :
    List.Forall₂ (fun before after => (cursor.settled after).1 = some found ∧
        cursor.doc? after = some found ∧ ∀ doc, ahead after doc ↔ ahead before doc ∧ found ≤ doc)
      items (cursor.common items).2 := by
  have hne : items ≠ [] := by
    rintro rfl
    simp [common] at he
  have hstart : cursor.common items = cursor.commonFrom 0 items := by simp [common, hne]
  have hsound := h.sound_find .all hs
  rw [find] at hsound
  rw [hstart] at he hsound ⊢
  have hstand := doc_of_commonFrom 0 items he
  obtain ⟨-, hspared⟩ := h.commonFrom_spares hs he
  refine List.forall₂_iff_zip.mpr ⟨hspared.length_eq, fun {before after} hpair => ?_⟩
  have hafter := (List.of_mem_zip hpair).2
  have hleast := h.least_doc after found (hsound after hafter) (hstand after hafter)
  have hspare := List.forall₂_zip hspared hpair
  refine ⟨?_, hstand after hafter, fun doc => ?_⟩
  · rw [h.settled_eq (hsound after hafter)]
    exact (h.first_doc after (hsound after hafter)).eq_some_iff.mpr hleast
  · constructor
    · intro hdoc
      have hle := hleast.2 doc hdoc
      exact ⟨(hspare doc hle).mp hdoc, hle⟩
    · rintro ⟨hdoc, hle⟩
      exact (hspare doc hle).mpr hdoc

/-- Once the items have been moved beyond a document, they have the later ones in common. -/
theorem admits_beyond {items : List σ} (hs : ∀ item ∈ items, sound item) (bound doc : DocId) :
    MatchRule.all.Admits (ahead · doc) ((cursor.common items).2.map (cursor.moveBeyond bound)) ↔
      MatchRule.all.Admits (ahead · doc) items ∧ bound < doc := by
  have hsound := h.sound_find .all hs
  have hmoved := MatchRule.all.admits_map_and (p := (ahead · doc)) fun item hi =>
    h.ahead_moveBeyond bound item (hsound item hi) doc
  rwa [h.admits_find .all hs doc] at hmoved

/-- The documents that are left lie among the last `left` numbers, and with each of them that is
found there are fewer. -/
theorem exists_enumerates_within (left : Nat) {items : List σ} (hs : ∀ item ∈ items, sound item)
    (hleft : ∀ doc : DocId,
      MatchRule.all.Admits (ahead · doc) items → UInt32.size ≤ doc.toNat + left) :
    ∃ docs, cursor.Enumerates items docs ∧ docs.Pairwise (· < ·) ∧
      ∀ doc, doc ∈ docs ↔ MatchRule.all.Admits (ahead · doc) items := by
  have hfirst := h.common_first hs
  cases hc : (cursor.common items).1 with
  | none =>
    rw [hc] at hfirst
    exact ⟨[], .done hc, .nil, fun doc => by simp [hfirst doc]⟩
  | some doc =>
    rw [hc] at hfirst
    cases left with
    | zero => exact absurd doc.toNat_lt (Nat.not_lt.mpr (hleft doc hfirst.1))
    | succ left =>
      have hbeyond := h.admits_beyond hs doc
      have hsound : ∀ item ∈ (cursor.common items).2.map (cursor.moveBeyond doc), sound item :=
        List.forall_mem_map.mpr fun item hi =>
          h.sound_moveBeyond doc item (h.sound_find .all hs item hi)
      obtain ⟨docs, hrun, hasc, hmem⟩ := exists_enumerates_within left hsound fun other ho => by
        obtain ⟨ho, hlt⟩ := (hbeyond other).mp ho
        have hstart := hleft doc hfirst.1
        have := UInt32.lt_iff_toNat_lt.mp hlt
        omega
      have hlater := hfirst.cons_ascending hasc fun other => (hmem other).trans (hbeyond other)
      exact ⟨doc :: docs, .next (Prod.ext hc rfl) hrun, hlater⟩

/-- The search for a common document of lawful cursors ends. It finds the least document that all
of them have ahead, if there is one, and leaves every cursor standing on it with nothing lost from
there on. Asked again beyond each document that it found, it goes through all common documents in
ascending order. -/
theorem common_synchronizes {items : List σ} (hne : items ≠ [])
    (hs : ∀ item ∈ items, sound item) :
    cursor.Synchronizes 0 items (cursor.common items) ∧
      (∀ doc, (cursor.common items).1 = some doc ↔
        (∀ item ∈ items, ahead item doc) ∧
          ∀ other, (∀ item ∈ items, ahead item other) → doc ≤ other) ∧
      (∀ doc, (cursor.common items).1 = some doc →
        List.Forall₂ (fun before after => (cursor.settled after).1 = some doc ∧
            cursor.doc? after = some doc ∧
            ∀ other, ahead after other ↔ ahead before other ∧ doc ≤ other)
          items (cursor.common items).2) ∧
      ((cursor.common items).1 = none ↔ ∀ doc, ¬ ∀ item ∈ items, ahead item doc) ∧
      ∃ docs, cursor.Enumerates items docs ∧ docs.Pairwise (· < ·) ∧
        ∀ doc, doc ∈ docs ↔ ∀ item ∈ items, ahead item doc := by
  have hadmits : ∀ doc, MatchRule.all.Admits (ahead · doc) items ↔ ∀ item ∈ items, ahead item doc :=
    fun _ => and_iff_right hne
  have hfirst := (h.common_first hs).congr hadmits
  obtain ⟨docs, hrun, hasc, hmem⟩ := h.exists_enumerates_within UInt32.size hs fun doc _ =>
    Nat.le_add_left UInt32.size doc.toNat
  have hstart : cursor.common items = cursor.commonFrom 0 items := by simp [common, hne]
  refine ⟨hstart ▸ h.synchronizes_commonFrom 0 items hs, fun doc => hfirst.eq_some_iff,
    fun doc => h.common_stands hs, ?_, docs, hrun, hasc, fun doc => (hmem doc).trans (hadmits doc)⟩
  rw [← Option.not_isSome_iff_eq_none, hfirst.isSome_iff, not_exists]

end Lawful

/-- A source with one posting for each document. -/
def sourceOf (docs : List DocId) : Source :=
  let postings := docs.map fun doc => { doc, frequency := 1, positions := [0] }
  .ofList "" { field := "body", postings := postings.toArray, ctf := docs.length.toUInt64 }

/-- Three sources, the last of which has passed document 0 already. -/
def abreast : List Source :=
  [sourceOf [0, 2, 5, 4294967295], sourceOf [0, 1, 5, 9, 4294967295],
    (sourceOf [0, 5, 8, 4294967295]).moveBeyond 0]

theorem common_synchronizes_abreast :
    (abreast ≠ [] ∧ ∀ source ∈ abreast, source.Sound) ∧
      Source.cursor.Synchronizes 0 abreast (Source.cursor.common abreast) ∧
      (Source.cursor.common abreast).1 = some 5 ∧
      ∃ docs, Source.cursor.Enumerates abreast docs ∧ docs.Pairwise (· < ·) ∧
        ∀ doc, doc ∈ docs ↔ doc = 5 ∨ doc = 4294967295 := by
  have hne : abreast ≠ [] := List.cons_ne_nil _ _
  have hs : ∀ source ∈ abreast, source.Sound := by
    simp only [abreast, List.forall_mem_cons]
    refine ⟨Source.sound_ofList _ (by decide), Source.sound_ofList _ (by decide),
      (Source.sound_ofList _ (by decide)).moveBeyond 0, by simp⟩
  have hleft : abreast.map (fun source => source.rest.map (·.doc)) =
      [[0, 2, 5, 4294967295], [0, 1, 5, 9, 4294967295], [5, 8, 4294967295]] := by decide
  have hshared : ∀ doc, (∀ source ∈ abreast, source.expects doc = true) ↔
      doc = 5 ∨ doc = 4294967295 := by
    intro doc
    have hdocs : (∀ source ∈ abreast, source.expects doc = true) ↔
        ∀ docs ∈ abreast.map (fun source => source.rest.map (·.doc)), doc ∈ docs := by
      rw [List.forall_mem_map]
      simp only [List.mem_map, Source.expects_iff]
    rw [hdocs, hleft]
    rw [List.forall_mem_cons, List.forall_mem_cons, List.forall_mem_singleton]
    grind
  obtain ⟨hloop, hleast, -, -, docs, hrun, hasc, hmem⟩ :=
    Source.cursor_lawful.common_synchronizes hne hs
  refine ⟨⟨hne, hs⟩, hloop, (hleast 5).mpr ?_, docs, hrun, hasc, fun doc =>
    (hmem doc).trans (hshared doc)⟩
  simp only [hshared]
  refine ⟨.inl trivial, ?_⟩
  rintro other (rfl | rfl) <;> decide

end Retrieval.Cursor
