import Mathlib.Data.List.Perm.Basic
import Retrieval.Proofs.Proximity.Hits

/-!
# Windows in any order of the arguments

The matches of a window do not depend on the order of its arguments (`Proximity.window_perm`),
although a tie at the least position goes to the first argument. When a window is too wide it stays
so until every list that stands on its least position has moved on: the positions met so far are
kept, and the least one stays where it is. So whichever of two tied lists moves first, the other
one follows (`Proximity.windowFrom_tied`), and the runs meet again.
-/

set_option autoImplicit false

namespace Retrieval.Proximity

/-! ## Heads -/

theorem heads_eq_some_iff {lists : List Locations} {heads : List Position} :
    heads? lists = some heads ↔
      (∀ list ∈ lists, list ≠ []) ∧ lists.filterMap List.head? = heads := by
  induction lists generalizing heads with
  | nil => simp [heads?]
  | cons list rest ih =>
    cases list with
    | nil => simp [heads?]
    | cons head later =>
      rw [heads?, Option.map_eq_some_iff]
      simp only [ih]
      simp

theorem heads_perm {lists others : List Locations} (h : lists.Perm others)
    {heads : List Position} (hheads : heads? lists = some heads) :
    ∃ heads', heads? others = some heads' ∧ heads.Perm heads' := by
  obtain ⟨hne, rfl⟩ := heads_eq_some_iff.mp hheads
  refine ⟨others.filterMap List.head?, heads_eq_some_iff.mpr ⟨?_, rfl⟩, h.filterMap _⟩
  intro list hlist
  exact hne list (h.mem_iff.mpr hlist)

theorem exists_heads {lists : List Locations} (h : [] ∉ lists) :
    ∃ heads, heads? lists = some heads := by
  refine ⟨_, heads_eq_some_iff.mpr ⟨?_, rfl⟩⟩
  rintro list hlist rfl
  exact h hlist

theorem foldl_max_le_iff {heads : List Position} {reach bound : Position} :
    heads.foldl max reach ≤ bound ↔ reach ≤ bound ∧ ∀ head ∈ heads, head ≤ bound := by
  induction heads generalizing reach with
  | nil => simp
  | cons head rest ih =>
    rw [List.foldl_cons, ih, lawfulOrderMax.max_le_iff, List.forall_mem_cons, and_assoc]

theorem le_foldl_max_start {reach : Position} (heads : List Position) :
    reach ≤ heads.foldl max reach :=
  (foldl_max_le_iff.mp (UInt32.le_refl _)).1

theorem width_le {least reach reach' : Position} (hleast : least ≤ reach) (h : reach ≤ reach') :
    reach - least ≤ reach' - least := by
  have hleast' : least ≤ reach' := UInt32.le_trans hleast h
  rw [UInt32.le_iff_toNat_le] at h ⊢
  rw [UInt32.toNat_sub_of_le _ _ hleast, UInt32.toNat_sub_of_le _ _ hleast']
  omega

/-- The greatest position is known by its upper bounds. -/
theorem foldl_max_congr {heads others : List Position} {reach reach' : Position}
    (h : ∀ bound, (reach ≤ bound ∧ ∀ head ∈ heads, head ≤ bound) ↔
      (reach' ≤ bound ∧ ∀ head ∈ others, head ≤ bound)) :
    heads.foldl max reach = others.foldl max reach' := by
  apply UInt32.le_antisymm
  · rw [foldl_max_le_iff, h, ← foldl_max_le_iff]
    exact UInt32.le_refl _
  · rw [foldl_max_le_iff, ← h, ← foldl_max_le_iff]
    exact UInt32.le_refl _

/-- Positions below the reach, or met again later, need not be counted. -/
theorem foldl_max_absorbed {heads after : List Position} {reach : Position}
    (h : ∀ head ∈ heads, head ∈ after ∨ head ≤ reach) :
    after.foldl max (heads.foldl max reach) = after.foldl max reach := by
  apply foldl_max_congr
  intro bound
  rw [foldl_max_le_iff]
  constructor
  · rintro ⟨⟨hr, -⟩, hall⟩
    exact ⟨hr, hall⟩
  · rintro ⟨hr, hall⟩
    refine ⟨⟨hr, ?_⟩, hall⟩
    intro head hh
    rcases h head hh with hafter | hle
    · exact hall head hafter
    · exact UInt32.le_trans hle hr

theorem remaining_perm {lists others : List Locations} (h : lists.Perm others) :
    remaining lists = remaining others :=
  h.flatten.length_eq

theorem remaining_cons_lt (position : Position) (later : Locations) (rest : List Locations) :
    remaining (later :: rest) < remaining ((position :: later) :: rest) := by
  simp [remaining]

/-- Two different items, each first in a list of the same items, are each among the rest of the
other list. -/
theorem exists_common {first second : Locations} {rest rest' : List Locations}
    (hne : first ≠ second) (h : (first :: rest).Perm (second :: rest')) :
    ∃ common, rest.Perm (second :: common) ∧ rest'.Perm (first :: common) := by
  have hsecond : second ∈ rest := by
    rcases List.mem_cons.mp (h.mem_iff.mpr (List.mem_cons_self ..)) with heq | hmem
    · exact absurd heq.symm hne
    · exact hmem
  have hrest := List.perm_cons_erase hsecond
  refine ⟨_, hrest, ?_⟩
  have hswap : (second :: first :: rest.erase second).Perm (first :: second :: rest.erase second) :=
    List.Perm.swap ..
  exact (hswap.trans ((hrest.symm.cons first).trans h)).cons_inv.symm

/-- Once the first list has moved on, it lies above the position that it stood on. -/
theorem increasing_rest {position : Position} {later : Locations} {rest : List Locations}
    (h : ∀ list ∈ (position :: later) :: rest, list.Pairwise (· < ·)) :
    (∀ p ∈ later, position < p) ∧ ∀ list ∈ later :: rest, list.Pairwise (· < ·) := by
  rw [List.forall_mem_cons, List.pairwise_cons] at h
  rw [List.forall_mem_cons]
  exact ⟨h.1.1, h.1.2, h.2⟩

/-! ## Steps -/

theorem nextAt_perm {position : Position} {lists : List Locations}
    (h : ∃ list ∈ lists, list.head? = some position) :
    ∃ later rest, lists.Perm ((position :: later) :: rest) ∧
      (nextAt position lists).Perm (later :: rest) := by
  induction lists with
  | nil => simp at h
  | cons list more ih =>
    by_cases hhead : list.head? = some position
    · obtain ⟨later, rfl⟩ := List.head?_eq_some_iff.mp hhead
      refine ⟨later, more, List.Perm.refl _, ?_⟩
      simp [nextAt, Locations.current?, Locations.next]
    · have hmore : ∃ list ∈ more, list.head? = some position := by
        obtain ⟨other, ho, hother⟩ := h
        rcases List.mem_cons.mp ho with rfl | hin
        · exact absurd hother hhead
        · exact ⟨other, hin, hother⟩
      obtain ⟨later, rest, hlists, hnext⟩ := ih hmore
      refine ⟨later, list :: rest, ?_, ?_⟩
      · exact (hlists.cons list).trans (List.Perm.swap ..)
      · rw [nextAt, Locations.current?, if_neg hhead]
        exact (hnext.cons list).trans (List.Perm.swap ..)

variable {span reach : Position} {lists : List Locations}

theorem windowFrom_none (h : heads? lists = none) : windowFrom span reach lists = [] := by
  unfold windowFrom
  split
  · rfl
  · rename_i heads hheads
    rw [h] at hheads
    cases hheads

theorem windowFrom_eq {heads : List Position} {least : Position}
    (hheads : heads? lists = some heads) (hleast : heads.min? = some least) :
    windowFrom span reach lists =
      if heads.foldl max reach - least < span then
        heads.foldl max reach :: windowFrom span 0 (nextAll lists)
      else windowFrom span (heads.foldl max reach) (nextAt least lists) := by
  rw [windowFrom]
  split
  · rename_i hnone
    rw [hheads] at hnone
    cases hnone
  · rename_i heads' hheads'
    obtain rfl : heads = heads' := Option.some.inj (hheads.symm.trans hheads')
    split
    · rename_i hnone
      rw [hleast] at hnone
      cases hnone
    · rename_i least' hleast'
      obtain rfl : least = least' := Option.some.inj (hleast.symm.trans hleast')
      rfl

theorem windowFrom_of_min_none {heads : List Position} (hheads : heads? lists = some heads)
    (hleast : heads.min? = none) : windowFrom span reach lists = [] := by
  rw [windowFrom]
  split
  · rfl
  · rename_i heads' hheads'
    obtain rfl : heads = heads' := Option.some.inj (hheads.symm.trans hheads')
    split
    · rfl
    · rename_i least hsome
      rw [hleast] at hsome
      cases hsome

/-- Of the positions met before, only those count that lie above all heads. -/
theorem windowFrom_congr {reach' : Position}
    (h : ∀ heads, heads? lists = some heads →
      heads.foldl max reach = heads.foldl max reach') :
    windowFrom span reach lists = windowFrom span reach' lists := by
  cases hheads : heads? lists with
  | none => rw [windowFrom_none hheads, windowFrom_none hheads]
  | some heads =>
    cases hleast : heads.min? with
    | none => rw [windowFrom_of_min_none hheads hleast, windowFrom_of_min_none hheads hleast]
    | some least => rw [windowFrom_eq hheads hleast, windowFrom_eq hheads hleast, h heads hheads]

/-! ## Ties -/

/-- While a window is too wide, a list that stands on its least position moves on. -/
theorem windowFrom_tied {least : Position} {moved later : Locations} {rest : List Locations}
    (hmoved : ∀ p ∈ moved, least < p) (hrest : ∀ list ∈ rest, ∀ p ∈ list, least ≤ p)
    (hreach : least ≤ reach) (hwide : span ≤ reach - least) :
    windowFrom span reach (moved :: (least :: later) :: rest) =
      windowFrom span reach (moved :: later :: rest) := by
  by_cases hnil : [] ∈ moved :: rest
  · have hbetween : ∀ list, [] ∈ moved :: list :: rest := by
      intro list
      rw [List.mem_cons] at hnil ⊢
      exact hnil.imp id (List.mem_cons_of_mem _)
    rw [windowFrom_none (heads_eq_none (hbetween _)), windowFrom_none (heads_eq_none (hbetween _))]
  · obtain ⟨heads, hheads⟩ := exists_heads hnil
    cases moved with
    | nil => cases hheads
    | cons head tail =>
      obtain ⟨others, hothers, rfl⟩ := Option.map_eq_some_iff.mp hheads
      have hhead : least < head := hmoved head (List.mem_cons_self ..)
      have hstand : heads? ((head :: tail) :: (least :: later) :: rest) =
          some (head :: least :: others) := by
        simp [heads?, hothers]
      have hleast : (head :: least :: others).min? = some least := by
        rw [List.min?_eq_some_iff, List.forall_mem_cons, List.forall_mem_cons]
        refine ⟨by simp, UInt32.le_of_lt hhead, UInt32.le_refl _, ?_⟩
        intro other ho
        obtain ⟨list, hlist, hother⟩ := (mem_heads_iff hothers).mp ho
        exact hrest list hlist other (List.mem_of_head? hother)
      have hstill := width_le hreach (le_foldl_max_start (head :: least :: others))
      have hge : ¬ (head :: least :: others).foldl max reach - least < span :=
        UInt32.not_lt.mpr (UInt32.le_trans hwide hstill)
      have hnext : nextAt least ((head :: tail) :: (least :: later) :: rest) =
          (head :: tail) :: later :: rest := by
        have hne : head ≠ least := (UInt32.ne_of_lt hhead).symm
        simp [nextAt, Locations.current?, Locations.next, hne]
      rw [windowFrom_eq hstand hleast, if_neg hge, hnext]
      apply windowFrom_congr
      intro after hafter
      -- The list that moved on was the only one on a position that is not a head any more.
      have hhead' : head ∈ after := (mem_heads_iff hafter).mpr ⟨_, List.mem_cons_self .., rfl⟩
      have hothers' : ∀ other ∈ others, other ∈ after := by
        intro other ho
        obtain ⟨list, hlist, hother⟩ := (mem_heads_iff hothers).mp ho
        refine (mem_heads_iff hafter).mpr ⟨list, ?_, hother⟩
        exact List.mem_cons_of_mem _ (List.mem_cons_of_mem _ hlist)
      apply foldl_max_absorbed
      rw [List.forall_mem_cons, List.forall_mem_cons]
      exact ⟨.inl hhead', .inr hreach, fun other ho => .inl (hothers' other ho)⟩

/-! ## Any order -/

theorem least_le_of_heads {heads : List Position} {least : Position}
    (hlists : ∀ list ∈ lists, list.Pairwise (· < ·)) (hheads : heads? lists = some heads)
    (hleast : heads.min? = some least) : ∀ list ∈ lists, ∀ p ∈ list, least ≤ p := by
  intro list hlist p hp
  obtain ⟨head, later, rfl⟩ := List.exists_cons_of_ne_nil (ne_nil_of_heads hheads list hlist)
  have hhead : least ≤ head :=
    (List.min?_eq_some_iff.mp hleast).2 head ((mem_heads_iff hheads).mpr ⟨_, hlist, rfl⟩)
  exact UInt32.le_trans hhead (head_le (hlists _ hlist) hp)

/-- Two tied lists move on one after the other, so it does not matter which is first, provided that
the order makes no difference to shorter runs. -/
theorem windowFrom_nextAt_perm {least : Position} {others : List Locations}
    (hlists : ∀ list ∈ lists, list.Pairwise (· < ·)) (h : lists.Perm others)
    (hhead : ∃ list ∈ lists, list.head? = some least)
    (hleast : ∀ list ∈ lists, ∀ p ∈ list, least ≤ p)
    (hreach : least ≤ reach) (hwide : span ≤ reach - least)
    (ih : ∀ before after, remaining before < remaining lists →
      (∀ list ∈ before, list.Pairwise (· < ·)) → before.Perm after →
      windowFrom span reach before = windowFrom span reach after) :
    windowFrom span reach (nextAt least lists) = windowFrom span reach (nextAt least others) := by
  have hhead' : ∃ list ∈ others, list.head? = some least := by
    simpa only [h.mem_iff] using hhead
  obtain ⟨later, rest, hfirst, hnext⟩ := nextAt_perm hhead
  obtain ⟨later', rest', hfirst', hnext'⟩ := nextAt_perm hhead'
  have hin : ∀ list ∈ (least :: later) :: rest, list ∈ lists := fun list => hfirst.mem_iff.mpr
  have hin' : ∀ list ∈ (least :: later') :: rest', list ∈ lists :=
    fun list hlist => h.mem_iff.mpr (hfirst'.mem_iff.mpr hlist)
  obtain ⟨hlater, hsorted⟩ := increasing_rest fun list hlist => hlists list (hin list hlist)
  obtain ⟨hlater', hsorted'⟩ := increasing_rest fun list hlist => hlists list (hin' list hlist)
  have hshort : remaining (later :: rest) < remaining lists := by
    rw [remaining_perm hfirst]
    exact remaining_cons_lt ..
  have hshort' : remaining (later' :: rest') < remaining lists := by
    rw [remaining_perm (h.trans hfirst')]
    exact remaining_cons_lt ..
  have hsame : ((least :: later) :: rest).Perm ((least :: later') :: rest') :=
    hfirst.symm.trans (h.trans hfirst')
  rw [← ih _ _ hshort hsorted hnext.symm, ← ih _ _ hshort' hsorted' hnext'.symm]
  by_cases htie : later = later'
  · subst htie
    exact ih _ _ hshort hsorted (hsame.cons_inv.cons later)
  · -- Each run has moved another of the two lists: the other one is still among the rest.
    have hne : (least :: later) ≠ (least :: later') := by simpa using htie
    obtain ⟨common, hrest, hrest'⟩ := exists_common hne hsame
    have hcommon : ∀ list ∈ common, ∀ p ∈ list, least ≤ p := by
      intro list hlist
      apply hleast list (hin list (List.mem_cons_of_mem _ _))
      exact hrest.mem_iff.mpr (List.mem_cons_of_mem _ hlist)
    rw [List.forall_mem_cons] at hsorted hsorted'
    have hboth : ∀ list ∈ later :: later' :: common, list.Pairwise (· < ·) := by
      rw [List.forall_mem_cons, List.forall_mem_cons]
      refine ⟨hsorted.1, hsorted'.1, ?_⟩
      intro list hlist
      exact hsorted.2 list (hrest.mem_iff.mpr (List.mem_cons_of_mem _ hlist))
    have hshorter : remaining (later :: later' :: common) < remaining lists := by
      have hswap : (later :: later' :: common).Perm (later' :: later :: common) :=
        List.Perm.swap ..
      have hbetween : (later :: rest).Perm ((least :: later') :: later :: common) :=
        (hrest.cons later).trans (List.Perm.swap ..)
      rw [remaining_perm hbetween] at hshort
      rw [remaining_perm hswap]
      exact Nat.lt_trans (remaining_cons_lt ..) hshort
    calc windowFrom span reach (later :: rest)
        = windowFrom span reach (later :: (least :: later') :: common) :=
          ih _ _ hshort (List.forall_mem_cons.mpr hsorted) (hrest.cons later)
      _ = windowFrom span reach (later :: later' :: common) :=
          windowFrom_tied hlater hcommon hreach hwide
      _ = windowFrom span reach (later' :: later :: common) :=
          ih _ _ hshorter hboth (List.Perm.swap ..)
      _ = windowFrom span reach (later' :: (least :: later) :: common) :=
          (windowFrom_tied hlater' hcommon hreach hwide).symm
      _ = windowFrom span reach (later' :: rest') :=
          (ih _ _ hshort' (List.forall_mem_cons.mpr hsorted') (hrest'.cons later')).symm

theorem windowFrom_perm {others : List Locations}
    (hlists : ∀ list ∈ lists, list.Pairwise (· < ·)) (h : lists.Perm others) :
    windowFrom span reach lists = windowFrom span reach others := by
  induction hn : remaining lists using Nat.strongRecOn generalizing reach lists others with
  | ind n ih =>
    subst hn
    cases hheads : heads? lists with
    | none =>
      have hnone : heads? others = none := by
        by_contra hsome
        obtain ⟨heads, hothers⟩ := Option.ne_none_iff_exists'.mp hsome
        obtain ⟨heads', hlists', -⟩ := heads_perm h.symm hothers
        rw [hheads] at hlists'
        cases hlists'
      rw [windowFrom_none hheads, windowFrom_none hnone]
    | some heads =>
      obtain ⟨heads', hheads', hperm⟩ := heads_perm h hheads
      have hmax : heads.foldl max reach = heads'.foldl max reach := by
        apply foldl_max_congr
        intro bound
        simp only [hperm.mem_iff]
      cases hleast : heads.min? with
      | none =>
        rw [List.min?_eq_none_iff] at hleast
        subst hleast
        rw [List.nil_perm.mp hperm] at hheads'
        rw [windowFrom_of_min_none hheads rfl, windowFrom_of_min_none hheads' rfl]
      | some least =>
        have hleast' : heads'.min? = some least := by
          rw [List.min?_eq_some_iff] at hleast ⊢
          simpa only [hperm.mem_iff] using hleast
        rw [windowFrom_eq hheads hleast, windowFrom_eq hheads' hleast', ← hmax]
        by_cases hlt : heads.foldl max reach - least < span
        · rw [if_pos hlt, if_pos hlt]
          congr 1
          refine ih _ (remaining_nextAll_lt hheads (List.min?_mem hleast)) ?_ (h.map _) rfl
          exact List.forall_mem_map.mpr fun list hlist => (hlists list hlist).tail
        · rw [if_neg hlt, if_neg hlt]
          obtain ⟨hmem, -⟩ := List.min?_eq_some_iff.mp hleast
          apply windowFrom_nextAt_perm hlists h ((mem_heads_iff hheads).mp hmem)
            (least_le_of_heads hlists hheads hleast) (le_foldl_max reach hmem)
            (UInt32.not_lt.mp hlt)
          intro before after hremaining hbefore hafter
          exact ih _ hremaining hbefore hafter rfl

/-- Where arguments occur at increasing positions, their order makes no difference to a window. -/
theorem window_perm {others : List Locations} (hlists : ∀ list ∈ lists, list.Pairwise (· < ·))
    (h : lists.Perm others) : window span lists = window span others :=
  windowFrom_perm hlists h

end Retrieval.Proximity
