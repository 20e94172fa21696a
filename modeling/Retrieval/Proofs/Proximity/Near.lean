import Retrieval.Proofs.Proximity.Families

/-!
# Chains in order

The matcher for arguments in order gives the last positions of a family of chains, and no family has
more chains or ends earlier at any rank (`Proximity.near_best`). It is enough to compare it with
ladders. Aligning the lists finds the least chain there is, so whatever it passes over belongs to no
chain (`Proximity.align_least`). If that chain is too long then its first position belongs to none;
otherwise the first chain of a ladder lies at or above it, and the others lie above all its
positions.
-/

set_option autoImplicit false

namespace Retrieval.Proximity

/-! ## Chains -/

/-- One position from each list, in the order of the lists and no farther apart than the span. -/
structure IsChain (span : UInt32) (lists : List Locations) (row : List Position) : Prop where
  chosen : List.Forall₂ (· ∈ ·) row lists
  ordered : row.Pairwise (· < ·)
  near : ∀ first ∈ row.head?, ∀ last ∈ row.getLast?, last.toNat - first.toNat ≤ span.toNat

/-- The last position of a chain. -/
def last (row : List Position) : Position := row.getLastD 0

theorem last_eq_greatest {row : List Position} (h : row.Pairwise (· < ·)) :
    last row = greatest row := by
  rcases List.eq_nil_or_concat row with rfl | ⟨front, p, rfl⟩
  · rfl
  · rw [List.concat_eq_append] at h ⊢
    have hbelow := (List.pairwise_append.mp h).2.2
    have hlast : last (front ++ [p]) = p := List.getLastD_concat ..
    rw [hlast]
    apply UInt32.le_antisymm (le_greatest List.mem_concat_self)
    rw [greatest_le_iff, List.forall_mem_append, List.forall_mem_singleton]
    exact ⟨fun q hq => UInt32.le_of_lt (hbelow q hq p (List.mem_singleton_self p)),
      UInt32.le_refl p⟩

variable {span : UInt32} {lists : List Locations} {row : List Position}

/-- What makes a choice of positions a chain. -/
def Chained (span : UInt32) (row : List Position) : Prop :=
  row.Pairwise (· < ·) ∧ Narrow span.toNat row

theorem isChain_iff : IsChain span lists row ↔ Choice (Chained span) lists row := by
  constructor
  · rintro ⟨hchosen, hordered, hnear⟩
    refine ⟨hchosen, hordered, fun p hp q hq => ?_⟩
    cases row with
    | nil => cases hp
    | cons first rest =>
      have hlast : last (first :: rest) ∈ (first :: rest).getLast? := by
        rw [last, List.getLastD_cons, List.getLast?_cons, List.getLastD_eq_getLast?]
        rfl
      have hspan := hnear first rfl _ hlast
      have hle : q ≤ last (first :: rest) := last_eq_greatest hordered ▸ le_greatest hq
      have hfirst : first ≤ p := head_le hordered hp
      rw [UInt32.le_iff_toNat_le] at hle hfirst
      omega
  · rintro ⟨hchosen, hordered, hnarrow⟩
    refine ⟨hchosen, hordered, fun first hfirst last hlast => ?_⟩
    have := hnarrow first (List.mem_of_mem_head? hfirst) last (List.mem_of_getLast? hlast)
    omega

theorem ordered_zipWith {op : Position → Position → Position}
    (hop : ∀ a b c d, a < c → b < d → op a b < op c d) {row other : List Position}
    (hrow : row.Pairwise (· < ·)) (hother : other.Pairwise (· < ·)) :
    (List.zipWith op row other).Pairwise (· < ·) := by
  induction hrow generalizing other with
  | nil => exact .nil
  | @cons a _ ha _ ih =>
    cases hother with
    | nil => exact .nil
    | @cons b _ hb hrest =>
      refine .cons (fun p hp => ?_) (ih hrest)
      obtain ⟨c, hc, d, hd, rfl⟩ := mem_zipWith hp
      exact hop a b c d (ha c hc) (hb d hd)

theorem exchanges_ordered : Exchanges fun row => row.Pairwise (· < ·) where
  lesser := ordered_zipWith fun a b c d hac hbd => by
    rw [UInt32.lt_iff_toNat_lt] at hac hbd
    rw [UInt32.lt_iff_toNat_lt, toNat_min, toNat_min]
    omega
  greater := ordered_zipWith fun a b c d hac hbd => by
    rw [UInt32.lt_iff_toNat_lt] at hac hbd
    rw [UInt32.lt_iff_toNat_lt, toNat_max, toNat_max]
    omega

/-! ## Alignment -/

theorem mem_moveBeyond_iff {list : Locations} (hlist : list.Pairwise (· < ·))
    {p previous : Position} : p ∈ list.moveBeyond previous ↔ p ∈ list ∧ previous < p := by
  induction list with
  | nil => simp [Locations.moveBeyond]
  | cons head later ih =>
    rw [List.pairwise_cons] at hlist
    have hrest := ih hlist.2
    rw [Locations.moveBeyond] at hrest
    rw [Locations.moveBeyond, List.dropWhile_cons, List.mem_cons]
    by_cases hle : head ≤ previous
    · have hne : previous < p → p ≠ head := by
        rintro hlt rfl
        exact UInt32.not_le.mpr hlt hle
      rw [if_pos (decide_eq_true hle), hrest]
      exact and_congr_left fun hlt => (or_iff_right (hne hlt)).symm
    · have hlt : previous < head := UInt32.not_le.mp hle
      rw [if_neg (by simpa using hle), List.mem_cons]
      refine (and_iff_left_of_imp ?_).symm
      rintro (rfl | hlater)
      · exact hlt
      · exact UInt32.lt_trans hlt (hlist.1 p hlater)

/-- The lists are aligned with a chain that rises from `previous`. -/
theorem align_heads {previous reached : Position} {moved : List Locations}
    (hlists : ∀ list ∈ lists, list.Pairwise (· < ·))
    (h : align previous lists = some (reached, moved)) :
    ∃ heads, heads? moved = some heads ∧ (previous :: heads).Pairwise (· < ·) ∧
      last (previous :: heads) = reached := by
  induction lists generalizing previous moved with
  | nil =>
    cases h
    exact ⟨[], rfl, List.pairwise_singleton .., rfl⟩
  | cons list rest ih =>
    rw [List.forall_mem_cons] at hlists
    rw [align] at h
    split at h
    · cases h
    · rename_i position later hmove
      split at h
      · cases h
      · rename_i reached others hrest
        cases h
        obtain ⟨heads, hheads, hrising, hlast⟩ := ih hlists.2 hrest
        have hposition : position ∈ list.moveBeyond previous := hmove ▸ List.mem_cons_self ..
        have hlt := ((mem_moveBeyond_iff hlists.1).mp hposition).2
        refine ⟨position :: heads, by rw [heads?, hheads]; rfl, .cons ?_ hrising, hlast⟩
        rw [List.forall_mem_cons]
        exact ⟨hlt, fun q hq => UInt32.lt_trans hlt ((List.pairwise_cons.mp hrising).1 q hq)⟩

theorem aligned_suffix {previous reached : Position} {moved : List Locations}
    (h : align previous lists = some (reached, moved)) {after before : Locations}
    (hsuffix : after <:+ before) :
    List.Forall₂ (fun a b => a <:+ b) (after :: moved) (before :: lists) :=
  .cons hsuffix ((align_suffix h).imp fun _ _ h => h.2)

/-- Whatever chain goes on from `previous` or above is still there after the alignment, and does not
end before it. -/
theorem align_least {previous p : Position} {row : List Position}
    (hlists : ∀ list ∈ lists, list.Pairwise (· < ·)) (hle : previous ≤ p)
    (hordered : (p :: row).Pairwise (· < ·)) (hchosen : List.Forall₂ (· ∈ ·) row lists) :
    ∃ reached moved, align previous lists = some (reached, moved) ∧
      List.Forall₂ (· ∈ ·) row moved ∧ ∃ q ∈ p :: row, reached ≤ q := by
  induction hchosen generalizing previous p with
  | nil => exact ⟨previous, [], rfl, .nil, p, List.mem_cons_self .., hle⟩
  | @cons c list cs rest hc _ ih =>
    rw [List.forall_mem_cons] at hlists
    rw [List.pairwise_cons] at hordered
    have hlt : previous < c := UInt32.lt_of_le_of_lt hle (hordered.1 c (List.mem_cons_self ..))
    have hmem := (mem_moveBeyond_iff hlists.1).mpr ⟨hc, hlt⟩
    obtain ⟨position, later, hmove⟩ := List.exists_cons_of_ne_nil (List.ne_nil_of_mem hmem)
    have hsuffix : (position :: later) <:+ list := hmove ▸ List.dropWhile_suffix _
    have hsorted : (position :: later).Pairwise (· < ·) := hlists.1.sublist hsuffix.sublist
    rw [hmove] at hmem
    obtain ⟨reached, moved, halign, hrest, q, hq, hreached⟩ :=
      ih hlists.2 (head_le hsorted hmem) hordered.2
    refine ⟨reached, (position :: later) :: moved, ?_, .cons hmem hrest, q,
      List.mem_cons_of_mem _ hq, hreached⟩
    rw [align, hmove]
    simp only [halign]

/-! ## The run -/

section Run

variable {position reached : Position} {later : Locations} {rest moved : List Locations}
variable (hlists : ∀ list ∈ (position :: later) :: rest, list.Pairwise (· < ·))

include hlists

theorem exists_aligned (h : Choice (Chained span) ((position :: later) :: rest) row) :
    ∃ reached moved, align position rest = some (reached, moved) ∧
      Choice (Chained span) ((position :: later) :: moved) row ∧ ∃ q ∈ row, reached ≤ q := by
  rw [List.forall_mem_cons] at hlists
  obtain ⟨p, ps, hp, hps, rfl⟩ := List.forall₂_cons_right_iff.mp h.chosen
  obtain ⟨reached, moved, halign, hchosen, hreached⟩ :=
    align_least hlists.2 (head_le hlists.1 hp) h.shaped.1 hps
  exact ⟨reached, moved, halign, ⟨.cons hp hchosen, h.shaped⟩, hreached⟩

variable (halign : align position rest = some (reached, moved))

include halign

/-- Aligning takes no chain away, and none ends before the lists do then. -/
theorem choice_aligned (h : Choice (Chained span) ((position :: later) :: rest) row) :
    Choice (Chained span) ((position :: later) :: moved) row ∧ ∃ q ∈ row, reached ≤ q := by
  obtain ⟨_, _, halign', haligned⟩ := exists_aligned hlists h
  cases halign.symm.trans halign'
  exact haligned

/-- The lists as they stand after the alignment make a chain if it is short enough. -/
theorem chained_heads (hle : reached - position ≤ span) :
    ∃ heads, heads? ((position :: later) :: moved) = some heads ∧ Chained span heads ∧
      greatest heads = reached := by
  rw [List.forall_mem_cons] at hlists
  obtain ⟨others, hothers, hrising, hlast⟩ := align_heads hlists.2 halign
  rw [last_eq_greatest hrising] at hlast
  refine ⟨position :: others, by rw [heads?, hothers, Option.map_some], ⟨hrising, ?_⟩, hlast⟩
  intro p hp q hq
  have hfirst : position ≤ p := head_le hrising hp
  have hlast : q ≤ reached := hlast ▸ le_greatest hq
  rw [UInt32.le_iff_toNat_le, UInt32.toNat_sub_of_le _ _ (le_align halign)] at hle
  rw [UInt32.le_iff_toNat_le] at hfirst hlast
  omega

/-- A first position from which the chain is too long belongs to no chain. -/
theorem choice_later (hgt : ¬ reached - position ≤ span)
    (h : Choice (Chained span) ((position :: later) :: rest) row) :
    Choice (Chained span) (later :: moved) row := by
  obtain ⟨⟨hchosen, hshaped⟩, q, hq, hreached⟩ := choice_aligned hlists halign h
  obtain ⟨p, ps, hp, hps, rfl⟩ := List.forall₂_cons_right_iff.mp hchosen
  refine ⟨.cons ((List.mem_cons.mp hp).resolve_left ?_) hps, hshaped⟩
  rintro rfl
  have hbefore := le_align halign
  have hnarrow := hshaped.2 p (List.mem_cons_self ..) q hq
  rw [UInt32.le_iff_toNat_le, UInt32.toNat_sub_of_le _ _ hbefore] at hgt
  rw [UInt32.le_iff_toNat_le] at hreached
  omega

end Run

theorem nearFrom_ladder {first : Locations} {rest : List Locations}
    (hlists : ∀ list ∈ first :: rest, list.Pairwise (· < ·)) :
    ∃ ladder, Ladder (Choice (Chained span) (first :: rest)) ladder ∧
      ladder.map greatest = nearFrom span first rest := by
  fun_induction nearFrom span first rest with
  | case1 => exact ⟨[], .nil, rfl⟩
  | case2 => exact ⟨[], .nil, rfl⟩
  | case3 position later rest reached moved halign hle ih =>
    obtain ⟨heads, hheads, hchained, hreached⟩ := chained_heads hlists halign hle
    have hmoved := aligned_suffix halign (List.suffix_refl (position :: later))
    have hincreasing := increasing_of_suffix hmoved hlists
    obtain ⟨ladder, hladder, hmarks⟩ :=
      ih (increasing_of_suffix (nextAll_suffix ((position :: later) :: moved)) hincreasing)
    refine ⟨heads :: ladder, (hladder.heads_cons hincreasing hheads hchained).of_suffix hmoved, ?_⟩
    rw [List.map_cons, hreached, hmarks]
  | case4 position later rest reached moved halign hgt ih =>
    have hmoved := aligned_suffix halign (List.suffix_cons position later)
    obtain ⟨ladder, hladder, hmarks⟩ := ih (increasing_of_suffix hmoved hlists)
    exact ⟨ladder, hladder.of_suffix hmoved, hmarks⟩

theorem nearFrom_ahead {first : Locations} {rest : List Locations} {ladder : List (List Position)}
    (hlists : ∀ list ∈ first :: rest, list.Pairwise (· < ·))
    (hladder : Ladder (Choice (Chained span) (first :: rest)) ladder) :
    Ahead (nearFrom span first rest) (ladder.map greatest) := by
  fun_induction nearFrom span first rest generalizing ladder with
  | case1 rest =>
    cases ladder with
    | nil => exact .done
    | cons row _ =>
      obtain ⟨_, _, hp, -⟩ := List.forall₂_cons_right_iff.mp (Ladder.cons_iff.mp hladder).1.chosen
      cases hp
  | case2 position later rest halign =>
    cases ladder with
    | nil => exact .done
    | cons row _ =>
      obtain ⟨_, _, hsome, -⟩ := exists_aligned hlists (Ladder.cons_iff.mp hladder).1
      cases halign.symm.trans hsome
  | case3 position later rest reached moved halign hle ih =>
    obtain ⟨heads, hheads, -, -⟩ := chained_heads hlists halign hle
    have hmoved := aligned_suffix halign (List.suffix_refl (position :: later))
    have hincreasing := increasing_of_suffix hmoved hlists
    have haligned := fun row hrow => choice_aligned hlists halign (hladder.all row hrow)
    cases ladder with
    | nil => exact .done
    | cons row rows =>
      -- The first chain of the ladder is not below the heads, so the others are above them.
      obtain ⟨q, hq, hreached⟩ := (haligned row (List.mem_cons_self ..)).2
      have hafter : Ladder (Choice (Chained span) ((position :: later) :: moved)) (row :: rows) :=
        ⟨fun other ho => (haligned other ho).1, hladder.rising⟩
      refine .step (UInt32.le_trans hreached (le_greatest hq)) (ih ?_ ?_)
      · exact increasing_of_suffix (nextAll_suffix ((position :: later) :: moved)) hincreasing
      · exact hafter.tail_nextAll hincreasing hheads
  | case4 position later rest reached moved halign hgt ih =>
    have hmoved := aligned_suffix halign (List.suffix_cons position later)
    refine ih (increasing_of_suffix hmoved hlists) ⟨fun row hrow => ?_, hladder.rising⟩
    exact choice_later hlists halign hgt (hladder.all row hrow)

/-- Where arguments occur at increasing positions, `near` gives the last positions of disjoint
chains, as many as there can be and each as early as can be. -/
theorem near_best (hne : lists ≠ []) (hlists : ∀ list ∈ lists, list.Pairwise (· < ·)) :
    Best (IsChain span lists) last (near span lists) ∧
      (near span lists ≠ [] ↔ ∃ row, IsChain span lists row) := by
  have hbest : Best (IsChain span lists) last (near span lists) := by
    obtain ⟨first, rest, rfl⟩ := List.exists_cons_of_ne_nil hne
    exact best_of_ladders (exchanges_ordered.and (exchanges_narrow span.toNat))
      (fun row => isChain_iff) (fun row hrow => last_eq_greatest hrow.ordered)
      (hits_increasing hlists .near span) (nearFrom_ladder hlists)
      (fun ladder hladder => nearFrom_ahead hlists hladder)
  exact ⟨hbest, hbest.ne_nil_iff⟩

/-- The chains 1, 4 and 2, 3 cross; those that are found do not, and end at the same positions. -/
theorem near_best_crossing :
    near 3 [[1, 2, 8], [3, 4, 20]] = [3, 4] ∧
      Best (IsChain 3 [[1, 2, 8], [3, 4, 20]]) last (near 3 [[1, 2, 8], [3, 4, 20]]) ∧
      (near 3 [[1, 2, 8], [3, 4, 20]] ≠ [] ↔ ∃ row, IsChain 3 [[1, 2, 8], [3, 4, 20]] row) :=
  ⟨by decide, near_best (by decide) (by decide)⟩

end Retrieval.Proximity
