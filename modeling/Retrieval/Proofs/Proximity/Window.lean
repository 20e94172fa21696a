import Retrieval.Proofs.Proximity.Families

/-!
# Windows in any order

The matcher for arguments in any order gives the greatest positions of a family of windows, and no
family has more windows or ends earlier at any rank (`Proximity.window_best`). As with chains it is
enough to compare it with ladders. The heads of the lists are the least choice there is. While they
are too far apart, a window with the least of them is too wide as well, whatever it takes from the
list that stands on the greatest one, so the list at the least head may move on.

The greatest position met so far is always the greatest head, because the list that had it has not
moved since then.
-/

set_option autoImplicit false

namespace Retrieval.Proximity

/-- One position from each list, in any order and less than the span apart. -/
structure IsWindow (span : UInt32) (lists : List Locations) (row : List Position) : Prop where
  chosen : List.Forall₂ (· ∈ ·) row lists
  within : ∀ p ∈ row, ∀ q ∈ row, q.toNat - p.toNat < span.toNat

variable {span reach : Position} {lists : List Locations} {row : List Position} {width : Nat}

theorem isWindow_iff (hspan : span ≠ 0) :
    IsWindow span lists row ↔ Choice (Narrow (span.toNat - 1)) lists row := by
  have hpos : span.toNat ≠ 0 := fun h => hspan (UInt32.toNat_inj.mp h)
  constructor
  · rintro ⟨hchosen, hwithin⟩
    refine ⟨hchosen, fun p hp q hq => ?_⟩
    have := hwithin p hp q hq
    omega
  · rintro ⟨hchosen, hnarrow⟩
    refine ⟨hchosen, fun p hp q hq => ?_⟩
    have := hnarrow p hp q hq
    omega

/-! ## Heads -/

section Heads

variable {heads : List Position} {least : Position}
variable (hlists : ∀ list ∈ lists, list.Pairwise (· < ·)) (hheads : heads? lists = some heads)

include hlists hheads

theorem exists_ge_of_head (hrow : List.Forall₂ (· ∈ ·) row lists) {head : Position}
    (hhead : head ∈ heads) : ∃ p ∈ row, head ≤ p :=
  exists_of_forall₂ (heads_le hlists hheads hrow).flip hhead

/-- A window takes a position not below the greatest head, so a head too far from it is in none. -/
theorem least_notMem {reached : Position} (hreached : reached ∈ heads)
    (hwide : ¬ reached.toNat - least.toNat ≤ width) (hrow : Choice (Narrow width) lists row) :
    least ∉ row := by
  intro hmem
  obtain ⟨p, hp, hle⟩ := exists_ge_of_head hlists hheads hrow.chosen hreached
  have hnarrow := hrow.shaped least hmem p hp
  rw [UInt32.le_iff_toNat_le] at hle
  omega

end Heads

theorem chosen_nextAt {least : Position} (h : List.Forall₂ (· ∈ ·) row lists)
    (hleast : least ∉ row) : List.Forall₂ (· ∈ ·) row (nextAt least lists) := by
  induction h with
  | nil => exact .nil
  | @cons p list _ _ hp hrest ih =>
    rw [List.mem_cons, not_or] at hleast
    rw [nextAt]
    split
    · rename_i hhead
      obtain ⟨later, rfl⟩ := List.head?_eq_some_iff.mp hhead
      exact .cons ((List.mem_cons.mp hp).resolve_left (Ne.symm hleast.1)) hrest
    · exact .cons hp (ih hleast.2)

/-! ## The run -/

/-- Comparing the width with the span is the same for naturals. -/
theorem sub_lt_span_iff {least reached : Position} (hspan : span ≠ 0) (hle : least ≤ reached) :
    reached - least < span ↔ reached.toNat - least.toNat ≤ span.toNat - 1 := by
  have hpos : span.toNat ≠ 0 := fun h => hspan (UInt32.toNat_inj.mp h)
  rw [UInt32.lt_iff_toNat_lt, UInt32.toNat_sub_of_le _ _ hle]
  omega

section Step

variable {heads : List Position} {least : Position} (hheads : heads? lists = some heads)
  (hleast : heads.min? = some least) (hreach : ∃ list ∈ lists, ∀ p ∈ list, reach ≤ p)

include hheads hreach

theorem greatest_heads : greatest heads = heads.foldl max reach :=
  UInt32.le_antisymm (greatest_le_iff.mpr fun _ hp => le_foldl_max reach hp)
    (le_greatest (foldl_max_mem hheads hreach))

/-- The list that stands on the greatest head is not behind it after the step, either. -/
theorem reach_nextAt (hlists : ∀ list ∈ lists, list.Pairwise (· < ·)) :
    ∃ list ∈ nextAt least lists, ∀ p ∈ list, heads.foldl max reach ≤ p := by
  obtain ⟨list, hlist, hhead⟩ := (mem_heads_iff hheads).mp (foldl_max_mem hheads hreach)
  obtain ⟨later, rfl⟩ := List.head?_eq_some_iff.mp hhead
  obtain ⟨after, hafter, hsuffix⟩ := exists_of_forall₂ (nextAt_suffix least lists) hlist
  exact ⟨after, hafter, fun p hp => head_le (hlists _ hlist) (hsuffix.subset hp)⟩

omit hheads in
theorem reach_nextAll : ∃ list ∈ nextAll lists, ∀ p ∈ list, 0 ≤ p := by
  obtain ⟨list, hlist, -⟩ := hreach
  exact ⟨list.next, List.mem_map_of_mem hlist, fun p _ => UInt32.zero_le⟩

include hleast

theorem least_le_reached : least ≤ heads.foldl max reach :=
  (List.min?_eq_some_iff.mp hleast).2 _ (foldl_max_mem hheads hreach)

theorem narrow_heads (hspan : span ≠ 0) (hlt : heads.foldl max reach - least < span) :
    Narrow (span.toNat - 1) heads := by
  rw [sub_lt_span_iff hspan (least_le_reached hheads hleast hreach)] at hlt
  intro p hp q hq
  have hp := (List.min?_eq_some_iff.mp hleast).2 p hp
  have hq := le_foldl_max reach hq
  rw [UInt32.le_iff_toNat_le] at hp hq
  omega

end Step

section Run

variable (hspan : span ≠ 0) (hlists : ∀ list ∈ lists, list.Pairwise (· < ·))
  (hreach : ∃ list ∈ lists, ∀ p ∈ list, reach ≤ p)

include hspan hlists hreach

theorem windowFrom_ladder :
    ∃ ladder, Ladder (Choice (Narrow (span.toNat - 1)) lists) ladder ∧
      ladder.map greatest = windowFrom span reach lists := by
  fun_induction windowFrom span reach lists with
  | case1 => exact ⟨[], .nil, rfl⟩
  | case2 => exact ⟨[], .nil, rfl⟩
  | case3 reach lists heads hheads least hleast reached hlt ih =>
    obtain ⟨ladder, hladder, hmarks⟩ :=
      ih (increasing_of_suffix (nextAll_suffix lists) hlists) (reach_nextAll hreach)
    have hnarrow := narrow_heads hheads hleast hreach hspan hlt
    refine ⟨heads :: ladder, hladder.heads_cons hlists hheads hnarrow, ?_⟩
    rw [List.map_cons, greatest_heads hheads hreach, hmarks]
  | case4 reach lists heads hheads least hleast reached hge ih =>
    have hsuffix := nextAt_suffix least lists
    obtain ⟨ladder, hladder, hmarks⟩ :=
      ih (increasing_of_suffix hsuffix hlists) (reach_nextAt hheads hreach hlists)
    exact ⟨ladder, hladder.of_suffix hsuffix, hmarks⟩

theorem windowFrom_ahead {ladder : List (List Position)}
    (hladder : Ladder (Choice (Narrow (span.toNat - 1)) lists) ladder) :
    Ahead (windowFrom span reach lists) (ladder.map greatest) := by
  fun_induction windowFrom span reach lists generalizing ladder with
  | case1 reach lists hheads =>
    cases ladder with
    | nil => exact .done
    | cons row _ =>
      have hchosen := (Ladder.cons_iff.mp hladder).1.chosen
      have hmem : [] ∉ lists := by
        intro hnil
        obtain ⟨_, _, hp⟩ := exists_of_forall₂ hchosen hnil
        cases hp
      obtain ⟨heads, hsome⟩ := exists_heads hmem
      cases hheads.symm.trans hsome
  | case2 reach lists heads hheads hleast =>
    have hmem := foldl_max_mem hheads hreach
    rw [List.min?_eq_none_iff.mp hleast] at hmem
    cases hmem
  | case3 reach lists heads hheads least hleast reached hlt ih =>
    cases ladder with
    | nil => exact .done
    | cons row rows =>
      have hrow := (Ladder.cons_iff.mp hladder).1
      obtain ⟨p, hp, hle⟩ :=
        exists_ge_of_head hlists hheads hrow.chosen (foldl_max_mem hheads hreach)
      refine .step (UInt32.le_trans hle (le_greatest hp)) (ih ?_ (reach_nextAll hreach) ?_)
      · exact increasing_of_suffix (nextAll_suffix lists) hlists
      · exact hladder.tail_nextAll hlists hheads
  | case4 reach lists heads hheads least hleast reached hge ih =>
    -- No window has the least head, so they are all still there when its list has moved on.
    have hsuffix := nextAt_suffix least lists
    rw [sub_lt_span_iff hspan (least_le_reached hheads hleast hreach)] at hge
    refine ih (increasing_of_suffix hsuffix hlists) (reach_nextAt hheads hreach hlists)
      ⟨fun row hrow => ?_, hladder.rising⟩
    have hchoice := hladder.all row hrow
    have hnot := least_notMem hlists hheads (foldl_max_mem hheads hreach) hge hchoice
    exact ⟨chosen_nextAt hchoice.chosen hnot, hchoice.shaped⟩

end Run

/-- Where arguments occur at increasing positions, `window` gives the greatest positions of disjoint
windows, as many as there can be and each as early as can be. -/
theorem window_best (hspan : span ≠ 0) (hne : lists ≠ [])
    (hlists : ∀ list ∈ lists, list.Pairwise (· < ·)) :
    Best (IsWindow span lists) greatest (window span lists) := by
  obtain ⟨list, hlist⟩ := List.exists_mem_of_ne_nil lists hne
  have hreach : ∃ list ∈ lists, ∀ p ∈ list, (0 : Position) ≤ p :=
    ⟨list, hlist, fun _ _ => UInt32.zero_le⟩
  exact best_of_ladders (exchanges_narrow (span.toNat - 1)) (fun row => isWindow_iff hspan)
    (fun row _ => rfl) (hits_increasing hlists .window span)
    (windowFrom_ladder hspan hlists hreach)
    (fun ladder hladder => windowFrom_ahead hspan hlists hreach hladder)

/-- The windows 1, 4 and 3, 2 cross; those that are found are 1, 2 and 3, 4. -/
theorem window_best_crossing :
    window 4 [[1, 3, 9], [2, 4, 20]] = [2, 4] ∧
      Best (IsWindow 4 [[1, 3, 9], [2, 4, 20]]) greatest (window 4 [[1, 3, 9], [2, 4, 20]]) :=
  ⟨by decide +kernel, window_best (by decide) (by decide) (by decide)⟩

end Retrieval.Proximity
