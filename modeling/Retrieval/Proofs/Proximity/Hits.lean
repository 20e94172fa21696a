import Mathlib.Data.List.Forall2
import Retrieval.Posting
import Retrieval.Proofs.Outcome
import Retrieval.Proximity.Locations

/-!
# Matches within a document, in order and in number

Where the arguments of a proximity operator occur at increasing positions, so does the operator
(`Proximity.hits_increasing`), and it never occurs more often than one of its arguments
(`Proximity.length_hits_le`): every match takes one position from each of them.

In order, the matches are some of the positions of the last argument. In any order, a match lies
above all positions that were taken before it.
-/

set_option autoImplicit false

namespace Retrieval

theorem strictlyIncreasing_iff {positions : List Position} :
    strictlyIncreasing positions = true ↔ positions.Pairwise (· < ·) := by
  induction positions with
  | nil => simp [strictlyIncreasing]
  | cons first rest ih =>
    cases rest with
    | nil => simp [strictlyIncreasing]
    | cons second later =>
      simp only [strictlyIncreasing, Bool.and_eq_true, decide_eq_true_eq, ih]
      constructor
      · rintro ⟨hlt, hrest⟩
        refine .cons (fun p hp => ?_) hrest
        rcases List.mem_cons.mp hp with rfl | hlater
        · exact hlt
        · exact UInt32.lt_trans hlt ((List.pairwise_cons.mp hrest).1 p hlater)
      · intro h
        obtain ⟨hall, hrest⟩ := List.pairwise_cons.mp h
        exact ⟨hall second (List.mem_cons_self ..), hrest⟩

namespace Proximity

/-! ## Lists that have run out -/

theorem align_eq_none {lists : List Locations} (h : [] ∈ lists) (previous : Position) :
    align previous lists = none := by
  induction lists generalizing previous with
  | nil => cases h
  | cons locations rest ih =>
    rw [align]
    rcases List.mem_cons.mp h with rfl | hrest
    · rfl
    · split
      · rfl
      · rw [ih hrest]

theorem heads_eq_none {lists : List Locations} (h : [] ∈ lists) : heads? lists = none := by
  induction lists with
  | nil => cases h
  | cons locations rest ih =>
    cases locations with
    | nil => rfl
    | cons position later =>
      have hrest : [] ∈ rest := by simpa using h
      rw [heads?, ih hrest, Option.map_none]

theorem hits_eq_nil {lists : List Locations} (h : [] ∈ lists) (kind : ProximityOp)
    (span : UInt32) : hits kind span lists = [] := by
  cases kind with
  | near =>
    cases lists with
    | nil => cases h
    | cons first rest =>
      cases first with
      | nil => simp [hits, near, nearFrom]
      | cons position later =>
        have hrest : [] ∈ rest := by simpa using h
        rw [hits, near, nearFrom, align_eq_none hrest]
  | window =>
    rw [hits, window, windowFrom]
    split
    · rfl
    · rename_i heads hheads
      rw [heads_eq_none h] at hheads
      cases hheads

theorem hits_nil (kind : ProximityOp) (span : UInt32) : hits kind span [] = [] := by
  cases kind with
  | near => rfl
  | window => simp [hits, window, windowFrom, heads?]

/-! ## In order -/

theorem align_suffix {previous last : Position} {lists moved : List Locations}
    (h : align previous lists = some (last, moved)) :
    List.Forall₂ (fun after before => after ≠ [] ∧ after <:+ before) moved lists := by
  induction lists generalizing previous moved with
  | nil =>
    cases h
    exact .nil
  | cons locations rest ih =>
    rw [align] at h
    split at h
    · cases h
    · rename_i position later hmove
      split at h
      · cases h
      · rename_i reached others hrest
        cases h
        refine .cons ⟨List.cons_ne_nil _ _, ?_⟩ (ih hrest)
        rw [← hmove]
        exact List.dropWhile_suffix _

theorem lt_of_moveBeyond {list later : Locations} {previous position : Position}
    (h : list.moveBeyond previous = position :: later) : previous < position := by
  have hhead := List.head?_dropWhile_not (· ≤ previous) list
  rw [← Locations.moveBeyond, h] at hhead
  exact UInt32.not_le.mp (of_decide_eq_false hhead)

/-- Whatever the order of their positions, lists that are aligned end no lower than they begin. -/
theorem le_align {previous last : Position} {lists moved : List Locations}
    (h : align previous lists = some (last, moved)) : previous ≤ last := by
  induction lists generalizing previous moved with
  | nil =>
    cases h
    exact UInt32.le_refl _
  | cons locations rest ih =>
    rw [align] at h
    split at h
    · cases h
    · rename_i position later hmove
      split at h
      · cases h
      · rename_i reached others hrest
        cases h
        exact UInt32.le_trans (UInt32.le_of_lt (lt_of_moveBeyond hmove)) (ih hrest)

theorem getLastD_sublist {after before : List Locations} {first other : Locations}
    (h : List.Forall₂ List.Sublist after before) (hfirst : first.Sublist other) :
    (after.getLastD first).Sublist (before.getLastD other) := by
  induction h generalizing first other with
  | nil => exact hfirst
  | cons hab _ ih =>
    rw [List.getLastD_cons, List.getLastD_cons]
    exact ih hab

theorem getLastD_moved_sublist {previous last : Position} {lists moved : List Locations}
    (h : align previous lists = some (last, moved)) {first other : Locations}
    (hfirst : first.Sublist other) : (moved.getLastD first).Sublist (lists.getLastD other) :=
  getLastD_sublist ((align_suffix h).imp fun _ _ hs => hs.2.sublist) hfirst

/-- A chain ends where the last list then stands, and leaves that list's later positions. -/
theorem align_last {previous last : Position} {lists moved : List Locations}
    (h : align previous lists = some (last, moved)) (later : Locations) :
    (last :: (nextAll moved).getLastD later).Sublist (lists.getLastD (previous :: later)) := by
  induction lists generalizing previous moved later with
  | nil =>
    cases h
    exact List.Sublist.refl _
  | cons locations rest ih =>
    rw [align] at h
    split at h
    · cases h
    · rename_i position tail hmove
      split at h
      · cases h
      · rename_i reached others hrest
        cases h
        have hsuffix : (position :: tail) <:+ locations := hmove ▸ List.dropWhile_suffix _
        have hsame : List.Forall₂ List.Sublist rest rest :=
          List.forall₂_same.mpr fun list _ => List.Sublist.refl list
        rw [nextAll, List.map_cons, List.getLastD_cons, List.getLastD_cons]
        exact (ih hrest tail).trans (getLastD_sublist hsame hsuffix.sublist)

theorem nearFrom_sublist (span : UInt32) (first : Locations) (rest : List Locations) :
    (nearFrom span first rest).Sublist (rest.getLastD first) := by
  fun_induction nearFrom span first rest with
  | case1 => exact List.nil_sublist _
  | case2 => exact List.nil_sublist _
  | case3 position later rest last moved halign hle ih =>
    exact (ih.cons_cons last).trans (align_last halign later)
  | case4 position later rest last moved halign hgt ih =>
    exact ih.trans (getLastD_moved_sublist halign (List.sublist_cons_self position later))

theorem length_nearFrom_le (span : UInt32) (first : Locations) (rest : List Locations) :
    ∀ list ∈ first :: rest, (nearFrom span first rest).length ≤ list.length := by
  fun_induction nearFrom span first rest with
  | case1 => simp
  | case2 => simp
  | case3 position later rest last moved halign hle ih =>
    rw [List.forall_mem_cons] at ih ⊢
    obtain ⟨hfirst, hrest⟩ := ih
    refine ⟨Nat.succ_le_succ hfirst, fun list hlist => ?_⟩
    obtain ⟨after, hafter, hne, hsuffix⟩ := exists_of_forall₂ (align_suffix halign) hlist
    have htaken := hrest after.tail (List.mem_map_of_mem (f := Locations.next) hafter)
    have hpos : 0 < after.length := List.length_pos_iff.mpr hne
    have hle := hsuffix.length_le
    simp only [List.length_tail, List.length_cons] at htaken ⊢
    omega
  | case4 position later rest last moved halign hgt ih =>
    rw [List.forall_mem_cons] at ih ⊢
    obtain ⟨hfirst, hrest⟩ := ih
    refine ⟨Nat.le_succ_of_le hfirst, fun list hlist => ?_⟩
    obtain ⟨after, hafter, -, hsuffix⟩ := exists_of_forall₂ (align_suffix halign) hlist
    exact Nat.le_trans (hrest after hafter) hsuffix.length_le

/-! ## In any order -/

theorem head_le {first p : Position} {rest : List Position}
    (h : (first :: rest).Pairwise (· < ·)) (hp : p ∈ first :: rest) : first ≤ p := by
  rcases List.mem_cons.mp hp with rfl | hrest
  · exact UInt32.le_refl _
  · exact UInt32.le_of_lt ((List.pairwise_cons.mp h).1 p hrest)

theorem mem_heads_iff {lists : List Locations} {heads : List Position}
    (h : heads? lists = some heads) {position : Position} :
    position ∈ heads ↔ ∃ list ∈ lists, list.head? = some position := by
  induction lists generalizing heads with
  | nil =>
    cases h
    simp
  | cons list rest ih =>
    cases list with
    | nil => cases h
    | cons head later =>
      obtain ⟨others, hothers, rfl⟩ := Option.map_eq_some_iff.mp h
      rw [List.mem_cons, ih hothers]
      simp [eq_comm]

theorem ne_nil_of_heads {lists : List Locations} {heads : List Position}
    (h : heads? lists = some heads) : ∀ list ∈ lists, list ≠ [] := by
  rintro list hlist rfl
  rw [heads_eq_none hlist] at h
  cases h

theorem nextAt_suffix (position : Position) (lists : List Locations) :
    List.Forall₂ (fun after before => after <:+ before) (nextAt position lists) lists := by
  induction lists with
  | nil => exact .nil
  | cons list rest ih =>
    rw [nextAt]
    split
    · refine .cons (List.tail_suffix list) (List.forall₂_same.mpr fun other _ => ?_)
      exact List.suffix_refl other
    · exact .cons (List.suffix_refl list) ih

instance lawfulOrderMax : Std.LawfulOrderMax UInt32 where
  max_eq_or a b := by
    rw [show max a b = if a ≤ b then b else a from rfl]
    split
    · exact .inr rfl
    · exact .inl rfl
  max_le_iff a b c := by
    rw [show max a b = if a ≤ b then b else a from rfl]
    simp only [UInt32.le_iff_toNat_le]
    split <;> omega

/-- The greatest head is the greatest position met so far, if some list has only such positions
left as are not below it. -/
theorem foldl_max_mem {lists : List Locations} {heads : List Position} {reach : Position}
    (hheads : heads? lists = some heads) (hreach : ∃ list ∈ lists, ∀ p ∈ list, reach ≤ p) :
    heads.foldl max reach ∈ heads := by
  have hmax : (reach :: heads).max? = some (heads.foldl max reach) := rfl
  obtain ⟨hmem, hle⟩ := List.max?_eq_some_iff.mp hmax
  obtain ⟨list, hlist, hall⟩ := hreach
  obtain ⟨head, later, rfl⟩ := List.exists_cons_of_ne_nil (ne_nil_of_heads hheads list hlist)
  have hhead : head ∈ heads := (mem_heads_iff hheads).mpr ⟨_, hlist, rfl⟩
  rcases List.mem_cons.mp hmem with heq | hin
  · have h1 := hall head (List.mem_cons_self ..)
    have h2 := hle head (List.mem_cons_of_mem _ hhead)
    rw [heq] at h2 ⊢
    rwa [UInt32.le_antisymm h1 h2]
  · exact hin

theorem le_foldl_max {heads : List Position} (reach : Position) {head : Position}
    (h : head ∈ heads) : head ≤ heads.foldl max reach := by
  have hmax : (reach :: heads).max? = some (heads.foldl max reach) := rfl
  exact (List.max?_eq_some_iff.mp hmax).2 head (List.mem_cons_of_mem _ h)

theorem windowFrom_above {span reach floor : Position} {lists : List Locations}
    (h : ∃ list ∈ lists, ∀ p ∈ list, floor < p) :
    ∀ hit ∈ windowFrom span reach lists, floor < hit := by
  fun_induction windowFrom span reach lists with
  | case1 => simp
  | case2 => simp
  | case3 reach lists heads hheads least hleast reached hlt ih =>
    obtain ⟨list, hlist, habove⟩ := h
    obtain ⟨head, later, rfl⟩ := List.exists_cons_of_ne_nil (ne_nil_of_heads hheads list hlist)
    have hhead : head ∈ heads := (mem_heads_iff hheads).mpr ⟨_, hlist, rfl⟩
    rw [List.forall_mem_cons]
    constructor
    · exact UInt32.lt_of_lt_of_le (habove head (List.mem_cons_self ..)) (le_foldl_max reach hhead)
    · refine ih ⟨later, List.mem_map_of_mem (f := Locations.next) hlist, fun p hp => ?_⟩
      exact habove p (List.mem_cons_of_mem _ hp)
  | case4 reach lists heads hheads least hleast reached hge ih =>
    obtain ⟨list, hlist, habove⟩ := h
    obtain ⟨after, hafter, hsuffix⟩ := exists_of_forall₂ (nextAt_suffix least lists) hlist
    exact ih ⟨after, hafter, fun p hp => habove p (hsuffix.subset hp)⟩

theorem windowFrom_increasing {span reach : Position} {lists : List Locations}
    (hlists : ∀ list ∈ lists, list.Pairwise (· < ·))
    (hreach : ∃ list ∈ lists, ∀ p ∈ list, reach ≤ p) :
    (windowFrom span reach lists).Pairwise (· < ·) := by
  fun_induction windowFrom span reach lists with
  | case1 => exact .nil
  | case2 => exact .nil
  | case3 reach lists heads hheads least hleast reached hlt ih =>
    -- What is recorded is the head of some list, and that list's later positions lie above it.
    obtain ⟨list, hlist, hhead⟩ := (mem_heads_iff hheads).mp (foldl_max_mem hheads hreach)
    obtain ⟨later, rfl⟩ := List.head?_eq_some_iff.mp hhead
    have hlater : later ∈ nextAll lists := List.mem_map_of_mem (f := Locations.next) hlist
    refine .cons (windowFrom_above ⟨later, hlater, ?_⟩) (ih ?_ ⟨later, hlater, ?_⟩)
    · exact (List.pairwise_cons.mp (hlists _ hlist)).1
    · exact List.forall_mem_map.mpr fun other ho => (hlists other ho).tail
    · exact fun p _ => UInt32.zero_le
  | case4 reach lists heads hheads least hleast reached hge ih =>
    have hsuffix := nextAt_suffix least lists
    obtain ⟨list, hlist, hhead⟩ := (mem_heads_iff hheads).mp (foldl_max_mem hheads hreach)
    obtain ⟨later, rfl⟩ := List.head?_eq_some_iff.mp hhead
    obtain ⟨after, hafter, hs⟩ := exists_of_forall₂ hsuffix hlist
    refine ih (fun other ho => ?_) ⟨after, hafter, fun p hp => ?_⟩
    · obtain ⟨before, hb, hs'⟩ := exists_of_forall₂ hsuffix.flip ho
      exact (hlists before hb).sublist (List.IsSuffix.sublist hs')
    · exact head_le (hlists _ hlist) (hs.subset hp)

theorem length_windowFrom_le (span reach : Position) (lists : List Locations) :
    ∀ list ∈ lists, (windowFrom span reach lists).length ≤ list.length := by
  fun_induction windowFrom span reach lists with
  | case1 => simp
  | case2 => simp
  | case3 reach lists heads hheads least hleast reached hlt ih =>
    intro list hlist
    have hpos : 0 < list.length := List.length_pos_iff.mpr (ne_nil_of_heads hheads list hlist)
    have htaken := ih list.tail (List.mem_map_of_mem (f := Locations.next) hlist)
    simp only [List.length_tail, List.length_cons] at htaken ⊢
    omega
  | case4 reach lists heads hheads least hleast reached hge ih =>
    intro list hlist
    obtain ⟨after, hafter, hsuffix⟩ := exists_of_forall₂ (nextAt_suffix least lists) hlist
    exact Nat.le_trans (ih after hafter) hsuffix.length_le

/-! ## Both operators -/

theorem hits_increasing {lists : List Locations} (h : ∀ list ∈ lists, list.Pairwise (· < ·))
    (kind : ProximityOp) (span : UInt32) : (hits kind span lists).Pairwise (· < ·) := by
  cases lists with
  | nil =>
    rw [hits_nil]
    exact .nil
  | cons first rest =>
    cases kind with
    | near =>
      have hlast : rest.getLastD first ∈ first :: rest := by
        rw [← List.getLast_eq_getLastD (List.cons_ne_nil first rest)]
        exact List.getLast_mem _
      exact (h _ hlast).sublist (nearFrom_sublist span first rest)
    | window =>
      exact windowFrom_increasing h ⟨first, List.mem_cons_self .., fun p _ => UInt32.zero_le⟩

theorem length_hits_le {lists : List Locations} {list : Locations} (h : list ∈ lists)
    (kind : ProximityOp) (span : UInt32) : (hits kind span lists).length ≤ list.length := by
  cases kind with
  | near =>
    cases lists with
    | nil => cases h
    | cons first rest => exact length_nearFrom_le span first rest list h
  | window => exact length_windowFrom_le span 0 lists list h

end Proximity

end Retrieval
