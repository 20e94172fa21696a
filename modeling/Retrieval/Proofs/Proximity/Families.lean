import Mathlib.Data.List.Sort
import Retrieval.Proofs.Proximity.Permuted

/-!
# Families of matches

A match takes one position from each argument, and a family of matches takes no position of an
argument twice. Of two matches of a family one can be ahead in one argument and behind in another;
they then cross. If the lesser positions of both make a match, and the greater ones do, the two can
be replaced by these, which do not cross any more. Insertion sort with this exchange makes a ladder
of every family, where each match lies above the one before it in all arguments
(`Proximity.ladder_uncross`), and ends no later than the family (`Proximity.greatest_uncross`).

So a list of positions that is ahead of all ladders is ahead of all families
(`Proximity.best_of_ladders`).
-/

set_option autoImplicit false

namespace Retrieval.Proximity

/-- The greatest position of a match. -/
def greatest (row : List Position) : Position := row.foldl max 0

theorem greatest_le_iff {row : List Position} {bound : Position} :
    greatest row ≤ bound ↔ ∀ p ∈ row, p ≤ bound := by
  rw [greatest, foldl_max_le_iff]
  exact and_iff_right UInt32.zero_le

theorem le_greatest {row : List Position} {p : Position} (h : p ∈ row) : p ≤ greatest row :=
  le_foldl_max 0 h

/-- No two of the matches take the same position of the same argument. -/
structure Family (isMatch : List Position → Prop) (rows : List (List Position)) : Prop where
  all : ∀ row ∈ rows, isMatch row
  disjoint : rows.Pairwise (List.Forall₂ (· ≠ ·))

/-- Each match lies above those before it, in every argument. -/
structure Ladder (isMatch : List Position → Prop) (rows : List (List Position)) : Prop where
  all : ∀ row ∈ rows, isMatch row
  rising : rows.Pairwise (List.Forall₂ (· < ·))

/-- `hits` are the marks of a family, and there is no family with more matches, or with one whose
mark comes before the hit of the same rank. -/
structure Best (isMatch : List Position → Prop) (mark : List Position → Position)
    (hits : List Position) : Prop where
  increasing : hits.Pairwise (· < ·)
  attained : ∃ rows, Family isMatch rows ∧ rows.map mark = hits
  enough : ∀ rows, Family isMatch rows → rows.length ≤ hits.length
  early : ∀ rows, Family isMatch rows → ∀ (j : Nat) (hit reached : Position),
    hits[j]? = some hit → ((rows.map mark).insertionSort (· ≤ ·))[j]? = some reached →
      hit ≤ reached

variable {isMatch : List Position → Prop} {rows : List (List Position)}

theorem Ladder.family (h : Ladder isMatch rows) : Family isMatch rows where
  all := h.all
  disjoint := h.rising.imp fun hlt => hlt.imp fun _ _ => UInt32.ne_of_lt

theorem Ladder.nil : Ladder isMatch [] := ⟨List.forall_mem_nil _, .nil⟩

theorem Ladder.cons_iff {row : List Position} : Ladder isMatch (row :: rows) ↔
    isMatch row ∧ (∀ other ∈ rows, List.Forall₂ (· < ·) row other) ∧ Ladder isMatch rows := by
  constructor
  · rintro ⟨hall, hrising⟩
    rw [List.forall_mem_cons] at hall
    rw [List.pairwise_cons] at hrising
    exact ⟨hall.1, hrising.1, hall.2, hrising.2⟩
  · rintro ⟨hrow, habove, hall, hrising⟩
    exact ⟨List.forall_mem_cons.mpr ⟨hrow, hall⟩, List.pairwise_cons.mpr ⟨habove, hrising⟩⟩

/-- If there are hits at all then there is a match, and conversely. -/
theorem Best.ne_nil_iff {mark : List Position → Position} {hits : List Position}
    (h : Best isMatch mark hits) : hits ≠ [] ↔ ∃ row, isMatch row := by
  constructor
  · intro hne
    obtain ⟨rows, hfamily, rfl⟩ := h.attained
    obtain ⟨row, rest, rfl⟩ := List.exists_cons_of_ne_nil (mt List.map_eq_nil_iff.mpr hne)
    exact ⟨row, hfamily.all row (List.mem_cons_self ..)⟩
  · rintro ⟨row, hrow⟩ rfl
    have hsingle : Family isMatch [row] :=
      ⟨List.forall_mem_singleton.mpr hrow, List.pairwise_singleton ..⟩
    exact Nat.not_succ_le_zero 0 (h.enough [row] hsingle)

/-! ## Exchanges -/

theorem toNat_min (a b : Position) : (min a b).toNat = min a.toNat b.toNat := by
  rw [show min a b = if a ≤ b then a else b from rfl, Nat.min_def]
  simp only [UInt32.le_iff_toNat_le]
  split <;> rfl

theorem toNat_max (a b : Position) : (max a b).toNat = max a.toNat b.toNat := by
  rw [show max a b = if a ≤ b then b else a from rfl, Nat.max_def]
  simp only [UInt32.le_iff_toNat_le]
  split <;> rfl

/-- From two matches come the match of their lesser and that of their greater positions. -/
structure Exchanges (isMatch : List Position → Prop) : Prop where
  lesser : ∀ {row other}, isMatch row → isMatch other → isMatch (List.zipWith min row other)
  greater : ∀ {row other}, isMatch row → isMatch other → isMatch (List.zipWith max row other)

theorem forall₂_zipWith_left {γ : Type} {r s t : Position → γ → Prop}
    {op : Position → Position → Position} (hop : ∀ a b c, r a c → s b c → t (op a b) c)
    {row other : List Position} {marks : List γ} (hrow : List.Forall₂ r row marks)
    (hother : List.Forall₂ s other marks) : List.Forall₂ t (List.zipWith op row other) marks := by
  induction hrow generalizing other with
  | nil => exact .nil
  | cons hac _ ih =>
    cases hother with
    | cons hbc hrest => exact .cons (hop _ _ _ hac hbc) (ih hrest)

/-- A property that holds of each position by itself, given its argument, is kept by exchanges. -/
theorem exchanges_forall₂ {γ : Type} (r : Position → γ → Prop) (marks : List γ) :
    Exchanges fun row => List.Forall₂ r row marks where
  lesser := forall₂_zipWith_left fun a b c ha hb => by
    rcases (Std.min_eq_or : min a b = a ∨ min a b = b) with h | h <;> rwa [h]
  greater := forall₂_zipWith_left fun a b c ha hb => by
    rcases (Std.max_eq_or : max a b = a ∨ max a b = b) with h | h <;> rwa [h]

theorem forall₂_min_max {row other : List Position} (h : List.Forall₂ (· ≠ ·) row other) :
    List.Forall₂ (· < ·) (List.zipWith min row other) (List.zipWith max row other) := by
  induction h with
  | nil => exact .nil
  | cons hne _ ih =>
    refine .cons ?_ ih
    rw [Ne, ← UInt32.toNat_inj] at hne
    rw [UInt32.lt_iff_toNat_lt, toNat_min, toNat_max]
    omega

theorem mem_zipWith {op : Position → Position → Position} {row other : List Position}
    {p : Position} (h : p ∈ List.zipWith op row other) :
    ∃ a ∈ row, ∃ b ∈ other, p = op a b := by
  rw [← List.map_uncurry_zip_eq_zipWith] at h
  obtain ⟨pair, hpair, rfl⟩ := List.mem_map.mp h
  obtain ⟨ha, hb⟩ := List.of_mem_zip hpair
  exact ⟨pair.1, ha, pair.2, hb, rfl⟩

theorem greatest_zipWith_min_le (row other : List Position) :
    greatest (List.zipWith min row other) ≤ greatest row ∧
      greatest (List.zipWith min row other) ≤ greatest other := by
  have hall : ∀ p ∈ List.zipWith min row other, p ≤ greatest row ∧ p ≤ greatest other := by
    intro p hp
    obtain ⟨a, ha, b, hb, rfl⟩ := mem_zipWith hp
    exact ⟨UInt32.le_trans Std.min_le_left (le_greatest ha),
      UInt32.le_trans Std.min_le_right (le_greatest hb)⟩
  exact ⟨greatest_le_iff.mpr fun p hp => (hall p hp).1,
    greatest_le_iff.mpr fun p hp => (hall p hp).2⟩

theorem greatest_zipWith_max_le {row other : List Position} {bound : Position}
    (hrow : greatest row ≤ bound) (hother : greatest other ≤ bound) :
    greatest (List.zipWith max row other) ≤ bound := by
  rw [greatest_le_iff] at hrow hother ⊢
  intro p hp
  obtain ⟨a, ha, b, hb, rfl⟩ := mem_zipWith hp
  exact Std.max_le_iff.mpr ⟨hrow a ha, hother b hb⟩

theorem Exchanges.and {isMatch' : List Position → Prop} (h : Exchanges isMatch)
    (h' : Exchanges isMatch') : Exchanges fun row => isMatch row ∧ isMatch' row where
  lesser hrow hother := ⟨h.lesser hrow.1 hother.1, h'.lesser hrow.2 hother.2⟩
  greater hrow hother := ⟨h.greater hrow.1 hother.1, h'.greater hrow.2 hother.2⟩

/-- No two positions of a match are farther apart than `width`. -/
def Narrow (width : Nat) (row : List Position) : Prop :=
  ∀ p ∈ row, ∀ q ∈ row, q.toNat ≤ p.toNat + width

theorem narrow_zipWith {op : Position → Position → Position} {width : Nat}
    (hop : ∀ a b c d, c.toNat ≤ a.toNat + width → d.toNat ≤ b.toNat + width →
      (op c d).toNat ≤ (op a b).toNat + width) {row other : List Position}
    (hrow : Narrow width row) (hother : Narrow width other) :
    Narrow width (List.zipWith op row other) := by
  intro p hp q hq
  obtain ⟨a, ha, b, hb, rfl⟩ := mem_zipWith hp
  obtain ⟨c, hc, d, hd, rfl⟩ := mem_zipWith hq
  exact hop a b c d (hrow a ha c hc) (hother b hb d hd)

theorem exchanges_narrow (width : Nat) : Exchanges (Narrow width) where
  lesser := narrow_zipWith fun a b c d hac hbd => by
    rw [toNat_min, toNat_min]
    omega
  greater := narrow_zipWith fun a b c d hac hbd => by
    rw [toNat_max, toNat_max]
    omega

/-! ## Uncrossing -/

/-- Adds a match to a ladder, by exchanges with every match on the way. -/
def insertRow (row : List Position) : List (List Position) → List (List Position)
  | [] => [row]
  | first :: rest => List.zipWith min row first :: insertRow (List.zipWith max row first) rest

def uncross (rows : List (List Position)) : List (List Position) := rows.foldr insertRow []

theorem Exchanges.insertRow (h : Exchanges isMatch) {row : List Position} (hrow : isMatch row)
    (hrows : ∀ other ∈ rows, isMatch other) : ∀ other ∈ insertRow row rows, isMatch other := by
  induction rows generalizing row with
  | nil => exact List.forall_mem_singleton.mpr hrow
  | cons first rest ih =>
    rw [List.forall_mem_cons] at hrows
    rw [Proximity.insertRow, List.forall_mem_cons]
    exact ⟨h.lesser hrow hrows.1, ih (h.greater hrow hrows.1) hrows.2⟩

theorem Exchanges.uncross (h : Exchanges isMatch) (hrows : ∀ row ∈ rows, isMatch row) :
    ∀ row ∈ uncross rows, isMatch row := by
  induction rows with
  | nil => exact List.forall_mem_nil _
  | cons row rest ih =>
    rw [List.forall_mem_cons] at hrows
    exact h.insertRow hrows.1 (ih hrows.2)

theorem rising_insertRow {row : List Position} (hrising : rows.Pairwise (List.Forall₂ (· < ·)))
    (hnew : ∀ other ∈ rows, List.Forall₂ (· ≠ ·) row other) :
    (insertRow row rows).Pairwise (List.Forall₂ (· < ·)) := by
  induction rows generalizing row with
  | nil => exact List.pairwise_singleton ..
  | cons first rest ih =>
    rw [List.pairwise_cons] at hrising
    rw [List.forall_mem_cons] at hnew
    have hlow : ∀ other ∈ rest, List.Forall₂ (· < ·) (List.zipWith min row first) other := by
      intro other ho
      refine forall₂_zipWith_left (fun a b c _ hbc => ?_) (hnew.2 other ho) (hrising.1 other ho)
      exact UInt32.lt_of_le_of_lt Std.min_le_right hbc
    refine .cons ?_ (ih hrising.2 ?_)
    · intro other ho
      have habove := exchanges_forall₂ (· > ·) (List.zipWith min row first)
      have hfirst := (forall₂_min_max hnew.1).flip
      exact (habove.insertRow hfirst (fun o h => (hlow o h).flip) other ho).flip
    · intro other ho
      refine forall₂_zipWith_left (fun a b c hac hbc => ?_) (hnew.2 other ho) (hrising.1 other ho)
      rcases (Std.max_eq_or : max a b = a ∨ max a b = b) with hmax | hmax
      · rwa [hmax]
      · rw [hmax]
        exact UInt32.ne_of_lt hbc

/-- A family of matches that can be exchanged becomes a ladder. -/
theorem ladder_uncross (h : Exchanges isMatch) (hf : Family isMatch rows) :
    Ladder isMatch (uncross rows) := by
  refine ⟨h.uncross hf.all, ?_⟩
  obtain ⟨-, hdisjoint⟩ := hf
  induction hdisjoint with
  | nil => exact .nil
  | @cons row rest hnew _ ih =>
    refine rising_insertRow ih fun other ho => ?_
    have hapart := exchanges_forall₂ (fun p q : Position => q ≠ p) row
    exact (hapart.uncross (fun o h => (hnew o h).flip) other ho).flip

/-- Marks that no exchange moves beyond those of a sorted list. -/
theorem greatest_insertRow {row : List Position} {bound : Position} {marks : List Position}
    (hrow : greatest row ≤ bound) (hsorted : marks.Pairwise (· ≤ ·))
    (hrows : List.Forall₂ (· ≤ ·) (rows.map greatest) marks) :
    List.Forall₂ (· ≤ ·) ((insertRow row rows).map greatest)
      (marks.orderedInsert (· ≤ ·) bound) := by
  induction rows generalizing row bound marks with
  | nil =>
    cases hrows
    exact .cons hrow .nil
  | cons first rest ih =>
    cases hrows with
    | @cons _ mark _ later hfirst hrest =>
      obtain ⟨hmin, hmin'⟩ := greatest_zipWith_min_le row first
      rw [List.pairwise_cons] at hsorted
      rw [insertRow, List.map_cons, List.orderedInsert]
      split
      · rename_i hle
        have hnext : later.orderedInsert (· ≤ ·) mark = mark :: later := by
          cases later with
          | nil => rfl
          | cons next _ =>
            exact List.orderedInsert_cons_of_le _ _ (hsorted.1 next (List.mem_cons_self ..))
        rw [← hnext]
        refine .cons (UInt32.le_trans hmin hrow) (ih ?_ hsorted.2 hrest)
        exact greatest_zipWith_max_le (UInt32.le_trans hrow hle) hfirst
      · rename_i hgt
        have hle : mark ≤ bound := UInt32.le_of_lt (UInt32.not_le.mp hgt)
        refine .cons (UInt32.le_trans hmin' hfirst) (ih ?_ hsorted.2 hrest)
        exact greatest_zipWith_max_le hrow (UInt32.le_trans hfirst hle)

theorem greatest_uncross (rows : List (List Position)) :
    List.Forall₂ (· ≤ ·) ((uncross rows).map greatest)
      ((rows.map greatest).insertionSort (· ≤ ·)) := by
  induction rows with
  | nil => exact .nil
  | cons row rest ih =>
    rw [List.map_cons, List.insertionSort_cons]
    exact greatest_insertRow (UInt32.le_refl _) (List.pairwise_insertionSort ..) ih

/-! ## Matches of lists -/

/-- One position from each list, with a shape that does not depend on the lists. -/
structure Choice (shape : List Position → Prop) (lists : List Locations) (row : List Position) :
    Prop where
  chosen : List.Forall₂ (· ∈ ·) row lists
  shaped : shape row

section Choice

variable {shape : List Position → Prop} {after before : List Locations}

theorem Exchanges.choice (h : Exchanges shape) (lists : List Locations) :
    Exchanges (Choice shape lists) where
  lesser hrow hother :=
    ⟨(exchanges_forall₂ _ _).lesser hrow.chosen hother.chosen, h.lesser hrow.shaped hother.shaped⟩
  greater hrow hother :=
    ⟨(exchanges_forall₂ _ _).greater hrow.chosen hother.chosen, h.greater hrow.shaped hother.shaped⟩

variable (hsuffix : List.Forall₂ (fun a b => a <:+ b) after before)

include hsuffix

/-- Lists that moved on have no new matches. -/
theorem Choice.of_suffix {row : List Position} (h : Choice shape after row) :
    Choice shape before row := by
  refine ⟨?_, h.shaped⟩
  have hchosen := h.chosen
  clear h
  induction hchosen generalizing before with
  | nil =>
    cases hsuffix
    exact .nil
  | cons hp _ ih =>
    cases hsuffix with
    | cons hs hrest => exact .cons (hs.subset hp) (ih hrest)

theorem Ladder.of_suffix (h : Ladder (Choice shape after) rows) :
    Ladder (Choice shape before) rows where
  all row hrow := (h.all row hrow).of_suffix hsuffix
  rising := h.rising

theorem increasing_of_suffix (h : ∀ list ∈ before, list.Pairwise (· < ·)) :
    ∀ list ∈ after, list.Pairwise (· < ·) := by
  intro list hlist
  obtain ⟨other, hother, hs⟩ := exists_of_forall₂ hsuffix.flip hlist
  exact (h other hother).sublist (List.IsSuffix.sublist hs)

end Choice

theorem nextAll_suffix (lists : List Locations) :
    List.Forall₂ (fun a b => a <:+ b) (nextAll lists) lists :=
  List.forall₂_map_left_iff.mpr (List.forall₂_same.mpr fun list _ => List.tail_suffix list)

theorem forall₂_le_lt {low row other : List Position} (h : List.Forall₂ (· ≤ ·) low row)
    (hlt : List.Forall₂ (· < ·) row other) : List.Forall₂ (· < ·) low other := by
  induction h generalizing other with
  | nil => exact hlt
  | cons hle _ ih =>
    cases hlt with
    | cons hfirst hrest => exact .cons (UInt32.lt_of_le_of_lt hle hfirst) (ih hrest)

/-! ## Heads and what comes after them -/

section Heads

variable {lists : List Locations} {heads row : List Position}

theorem chosen_heads (hheads : heads? lists = some heads) :
    List.Forall₂ (· ∈ ·) heads lists := by
  induction lists generalizing heads with
  | nil =>
    cases hheads
    exact .nil
  | cons list rest ih =>
    cases list with
    | nil => cases hheads
    | cons head later =>
      obtain ⟨others, hothers, rfl⟩ := Option.map_eq_some_iff.mp hheads
      exact .cons (List.mem_cons_self ..) (ih hothers)

variable (hlists : ∀ list ∈ lists, list.Pairwise (· < ·)) (hheads : heads? lists = some heads)

include hlists hheads

theorem heads_le (hrow : List.Forall₂ (· ∈ ·) row lists) : List.Forall₂ (· ≤ ·) heads row := by
  induction hrow generalizing heads with
  | nil =>
    cases hheads
    exact .nil
  | @cons p list _ _ hp _ ih =>
    rw [List.forall_mem_cons] at hlists
    cases list with
    | nil => cases hp
    | cons head later =>
      obtain ⟨others, hothers, rfl⟩ := Option.map_eq_some_iff.mp hheads
      exact .cons (head_le hlists.1 hp) (ih hlists.2 hothers)

/-- The positions above the heads are those that are left when all lists move on. -/
theorem chosen_nextAll_iff : List.Forall₂ (· ∈ ·) row (nextAll lists) ↔
    List.Forall₂ (· ∈ ·) row lists ∧ List.Forall₂ (· < ·) heads row := by
  induction lists generalizing heads row with
  | nil =>
    cases hheads
    simp [nextAll]
  | cons list rest ih =>
    rw [List.forall_mem_cons] at hlists
    cases list with
    | nil => cases hheads
    | cons head later =>
      obtain ⟨others, hothers, rfl⟩ := Option.map_eq_some_iff.mp hheads
      have habove := (List.pairwise_cons.mp hlists.1).1
      cases row with
      | nil => simp [nextAll]
      | cons p ps =>
        have hrest : List.Forall₂ (· ∈ ·) ps (nextAll rest) ↔ _ := ih hlists.2 hothers
        rw [nextAll] at hrest
        rw [nextAll, List.map_cons, List.forall₂_cons, List.forall₂_cons, List.forall₂_cons, hrest,
          Locations.next, List.tail_cons, List.mem_cons]
        constructor
        · rintro ⟨hp, hps, hlt⟩
          exact ⟨⟨.inr hp, hps⟩, habove p hp, hlt⟩
        · rintro ⟨⟨hp, hps⟩, hhead, hlt⟩
          exact ⟨hp.resolve_left (UInt32.ne_of_lt hhead).symm, hps, hlt⟩

theorem Ladder.heads_cons {shape : List Position → Prop} (hshaped : shape heads)
    (h : Ladder (Choice shape (nextAll lists)) rows) :
    Ladder (Choice shape lists) (heads :: rows) := by
  have habove : ∀ row ∈ rows, List.Forall₂ (· ∈ ·) row lists ∧ List.Forall₂ (· < ·) heads row :=
    fun row hrow => (chosen_nextAll_iff hlists hheads).mp (h.all row hrow).chosen
  refine ⟨List.forall_mem_cons.mpr ⟨⟨chosen_heads hheads, hshaped⟩, fun row hrow => ?_⟩, ?_⟩
  · exact ⟨(habove row hrow).1, (h.all row hrow).shaped⟩
  · exact List.pairwise_cons.mpr ⟨fun row hrow => (habove row hrow).2, h.rising⟩

/-- The matches after the first one lie above the heads, since the first one does not lie below. -/
theorem Ladder.tail_nextAll {shape : List Position → Prop}
    (h : Ladder (Choice shape lists) (row :: rows)) :
    Ladder (Choice shape (nextAll lists)) rows := by
  obtain ⟨hrow, hrows⟩ := List.forall_mem_cons.mp h.all
  obtain ⟨habove, hrising⟩ := List.pairwise_cons.mp h.rising
  refine ⟨fun other ho => ⟨?_, (hrows other ho).shaped⟩, hrising⟩
  refine (chosen_nextAll_iff hlists hheads).mpr ⟨(hrows other ho).chosen, ?_⟩
  exact forall₂_le_lt (heads_le hlists hheads hrow.chosen) (habove other ho)

end Heads

/-! ## Ahead of all families -/

/-- The hits are no fewer than the marks, and none comes after the mark of its rank. -/
inductive Ahead : List Position → List Position → Prop
  | done {hits : List Position} : Ahead hits []
  | step {hit mark : Position} {hits marks : List Position} (hle : hit ≤ mark)
      (hrest : Ahead hits marks) : Ahead (hit :: hits) (mark :: marks)

theorem Ahead.trans {hits marks later : List Position} (h : Ahead hits marks)
    (hle : List.Forall₂ (· ≤ ·) marks later) : Ahead hits later := by
  induction h generalizing later with
  | done =>
    cases hle
    exact .done
  | step hfirst _ ih =>
    cases hle with
    | cons hmark hrest => exact .step (UInt32.le_trans hfirst hmark) (ih hrest)

theorem Ahead.length_le {hits marks : List Position} (h : Ahead hits marks) :
    marks.length ≤ hits.length := by
  induction h with
  | done => exact Nat.zero_le _
  | step _ _ ih => exact Nat.succ_le_succ ih

theorem Ahead.getElem_le {hits marks : List Position} (h : Ahead hits marks) {j : Nat}
    {hit mark : Position} (hhit : hits[j]? = some hit) (hmark : marks[j]? = some mark) :
    hit ≤ mark := by
  induction h generalizing j with
  | done => cases hmark
  | step hle _ ih =>
    cases j with
    | zero =>
      cases hhit
      cases hmark
      exact hle
    | succ j => exact ih hhit hmark

/-- Hits that are the marks of one ladder and ahead of all ladders are ahead of all families. -/
theorem best_of_ladders {shape : List Position → Prop} {lists : List Locations}
    {mark : List Position → Position} {hits : List Position} (hshape : Exchanges shape)
    (hmatch : ∀ row, isMatch row ↔ Choice shape lists row)
    (hmark : ∀ row, isMatch row → mark row = greatest row) (hincreasing : hits.Pairwise (· < ·))
    (hattained : ∃ ladder, Ladder (Choice shape lists) ladder ∧ ladder.map greatest = hits)
    (hahead : ∀ ladder, Ladder (Choice shape lists) ladder → Ahead hits (ladder.map greatest)) :
    Best isMatch mark hits := by
  obtain rfl : isMatch = Choice shape lists := funext fun row => propext (hmatch row)
  have hmarks {rows : List (List Position)} (hall : ∀ row ∈ rows, Choice shape lists row) :
      rows.map mark = rows.map greatest :=
    List.map_congr_left fun row hrow => hmark row (hall row hrow)
  have hfamily {rows : List (List Position)} (hf : Family (Choice shape lists) rows) :
      Ahead hits ((rows.map greatest).insertionSort (· ≤ ·)) :=
    (hahead _ (ladder_uncross (hshape.choice lists) hf)).trans (greatest_uncross rows)
  refine ⟨hincreasing, ?_, fun rows hf => ?_, fun rows hf j hit reached hhit hreached => ?_⟩
  · obtain ⟨ladder, hladder, hhits⟩ := hattained
    exact ⟨ladder, hladder.family, (hmarks hladder.all).trans hhits⟩
  · simpa using (hfamily hf).length_le
  · rw [hmarks hf.all] at hreached
    exact (hfamily hf).getElem_le hhit hreached

end Retrieval.Proximity
