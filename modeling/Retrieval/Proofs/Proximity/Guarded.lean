import Mathlib.Data.List.Perm.Basic
import Mathlib.Data.List.Sort
import Mathlib.Data.Prod.Lex
import Retrieval.Proofs.Proximity.Permuted

/-!
# Matchers on any positions

Both matchers subtract positions, which is only safe where the result is not negative, and move on
lists by their places. Here each of them is written down once more as a loop that ends without a
result where it runs out of rounds, would go below zero or misses a list (`Proximity.guarded`). The
window keeps its lists in a queue by position and place there, as opposed to looking for the least
head in every round.

The loops always end with the matches of `Proximity.hits`, after one round more than there are
positions at most, and this needs no order of the positions (`Proximity.guarded_eq_hits`). A chain
ends above its first position because every list is moved beyond the one before it, and a window is
not wider than what was met since the last match because every head is a part of that.
-/

set_option autoImplicit false

namespace Retrieval.Proximity

/-! ## Steps that can fail -/

/-- How far one position lies above another, which it must not lie below. -/
def width? (low high : Position) : Option UInt32 :=
  if low ≤ high then some (high - low) else none

/-- Moves on the list at a place, which must be there. -/
def nextSlot? (slot : Nat) (lists : List Locations) : Option (List Locations) :=
  if slot < lists.length then some (lists.modify slot Locations.next) else none

theorem width_eq {low high : Position} (h : low ≤ high) : width? low high = some (high - low) :=
  if_pos h

theorem nextSlot_eq {slot : Nat} {lists : List Locations} (h : slot < lists.length) :
    nextSlot? slot lists = some (lists.modify slot Locations.next) :=
  if_pos h

/-! ## In order -/

/-- The lists as they stand once each lies beyond the one before it, with the positions of the first
and the last of them. -/
def order? : List Locations → Option (Position × Position × List Locations)
  | (position :: later) :: rest =>
    (align position rest).map fun (last, moved) => (position, last, (position :: later) :: moved)
  | [] | [] :: _ => none

/-- `near`, round by round. -/
def guardedNear (span : UInt32) : Nat → List Locations → Option (List Position)
  | 0, _ => none
  | rounds + 1, lists =>
    match order? lists with
    | none => some []
    | some (first, last, lists) => do
      if (← width? first last) ≤ span then
        return last :: (← guardedNear span rounds (nextAll lists))
      else
        guardedNear span rounds (← nextSlot? 0 lists)

variable {span : UInt32} {rounds : Nat} {lists : List Locations}

theorem remaining_cons (list : Locations) (rest : List Locations) :
    remaining (list :: rest) = list.length + remaining rest := by
  rw [remaining, List.flatten_cons, List.length_append, remaining]

theorem remaining_align_le {previous last : Position} {moved : List Locations}
    (h : align previous lists = some (last, moved)) : remaining moved ≤ remaining lists := by
  have hsuffix := align_suffix h
  clear h
  induction hsuffix with
  | nil => exact Nat.le_refl _
  | cons hfirst _ ih =>
    have hle := hfirst.2.length_le
    rw [remaining_cons, remaining_cons]
    omega

theorem guardedNear_eq_near (h : remaining lists < rounds) :
    guardedNear span rounds lists = some (near span lists) := by
  induction rounds generalizing lists with
  | zero => omega
  | succ rounds ih =>
    match lists with
    | [] => rfl
    | [] :: rest => simp [guardedNear, order?, near, nearFrom]
    | (position :: later) :: rest =>
      cases halign : align position rest with
      | none => rw [guardedNear, order?, near, nearFrom, halign, Option.map_none]
      | some aligned =>
        obtain ⟨last, moved⟩ := aligned
        have hmoved := remaining_align_le halign
        have hall := remaining_nextAll_le moved
        rw [remaining_cons, List.length_cons] at h
        have hnarrow : guardedNear span rounds (nextAll ((position :: later) :: moved)) =
            some (nearFrom span later (nextAll moved)) := by
          apply ih
          change remaining (later :: nextAll moved) < rounds
          rw [remaining_cons]
          omega
        have hwide : guardedNear span rounds (later :: moved) = some (nearFrom span later moved) := by
          apply ih
          rw [remaining_cons]
          omega
        have hnext : nextSlot? 0 ((position :: later) :: moved) = some (later :: moved) :=
          nextSlot_eq (Nat.succ_pos _)
        rw [guardedNear, order?, near, nearFrom, halign, Option.map_some]
        simp only [width_eq (le_align halign), hnarrow, hnext, hwide, Option.bind_eq_bind,
          Option.bind_some, Option.pure_def]
        split <;> rfl

/-! ## In any order -/

/-- A list in the queue: where it stands, and its place among the lists. -/
abbrev Entry := Position × Nat

/-- Entries go by position, and by place where the positions are equal. -/
abbrev Entry.Before : Entry → Entry → Prop := Prod.Lex (· < ·) (· ≤ ·)

/-- A search for the next window: a queue with an entry for each list, and the greatest position met
since the last match. -/
structure Sweep where
  lists : List Locations
  queue : List Entry
  reach : Position

/-- A new search, unless a list has run out. -/
def Sweep.start? (lists : List Locations) : Option Sweep :=
  (heads? lists).map fun heads =>
    { lists, queue := heads.zipIdx.insertionSort Entry.Before, reach := heads.foldl max 0 }

/-- The search after the list at a place has been moved on to a position. -/
def Sweep.moved (lists : List Locations) (queue : List Entry) (reach : Position) (slot : Nat)
    (position : Position) : Sweep :=
  { lists, queue := queue.orderedInsert Entry.Before (position, slot), reach := max reach position }

/-- `window`, round by round. -/
def guardedWindow (span : UInt32) : Nat → Sweep → Option (List Position)
  | 0, _ => none
  | rounds + 1, sweep =>
    match sweep.queue with
    | [] => some []
    | (least, slot) :: queue => do
      if (← width? least sweep.reach) < span then
        match Sweep.start? (nextAll sweep.lists) with
        | none => return [sweep.reach]
        | some sweep' => return sweep.reach :: (← guardedWindow span rounds sweep')
      else
        let lists ← nextSlot? slot sweep.lists
        match (← lists[slot]?).current? with
        | none => return []
        | some position =>
          guardedWindow span rounds (.moved lists queue sweep.reach slot position)

theorem nextAt_eq_modify {heads : List Position} {least : Position} {slot : Nat}
    (hheads : heads? lists = some heads) (hslot : heads[slot]? = some least)
    (hfirst : ∀ i, heads[i]? = some least → slot ≤ i) :
    nextAt least lists = lists.modify slot Locations.next := by
  induction lists generalizing heads slot with
  | nil =>
    cases hheads
    cases hslot
  | cons list rest ih =>
    cases list with
    | nil => cases hheads
    | cons head later =>
      obtain ⟨others, hothers, rfl⟩ := Option.map_eq_some_iff.mp hheads
      by_cases hhead : head = least
      · obtain rfl : slot = 0 := Nat.le_zero.mp (hfirst 0 (by simp [hhead]))
        simp [nextAt, Locations.current?, hhead]
      · cases slot with
        | zero =>
          simp only [List.getElem?_cons_zero, Option.some.injEq] at hslot
          exact absurd hslot hhead
        | succ slot =>
          have hrest := ih hothers hslot fun i hi => Nat.le_of_succ_le_succ (hfirst (i + 1) hi)
          simp [nextAt, Locations.current?, hhead, hrest]

theorem length_heads {heads : List Position} (hheads : heads? lists = some heads) :
    heads.length = lists.length := by
  induction lists generalizing heads with
  | nil =>
    cases hheads
    rfl
  | cons list rest ih =>
    cases list with
    | nil => cases hheads
    | cons head later =>
      obtain ⟨others, hothers, rfl⟩ := Option.map_eq_some_iff.mp hheads
      exact congrArg (· + 1) (ih hothers)

theorem zipIdx_set (heads : List Position) (slot : Nat) (position : Position) :
    (heads.set slot position).zipIdx = heads.zipIdx.set slot (position, slot) := by
  refine List.ext_getElem? fun i => ?_
  simp only [List.getElem?_zipIdx, List.getElem?_set, List.length_zipIdx, Nat.zero_add]
  by_cases hi : slot = i
  · subst hi
    split <;> simp
  · simp [hi]

/-- Only the list that has moved on stands elsewhere. -/
theorem heads_modify {heads : List Position} {list : Locations} {slot : Nat}
    (hheads : heads? lists = some heads) (hlist : lists[slot]? = some list) :
    heads? (lists.modify slot Locations.next) = list.next.current?.map (heads.set slot) := by
  induction lists generalizing heads slot with
  | nil => cases hlist
  | cons first rest ih =>
    cases first with
    | nil => cases hheads
    | cons head later =>
      obtain ⟨others, hothers, rfl⟩ := Option.map_eq_some_iff.mp hheads
      cases slot with
      | zero =>
        obtain rfl : head :: later = list := by simpa using hlist
        cases later <;> simp [Locations.next, Locations.current?, heads?, hothers]
      | succ slot =>
        rw [List.modify_succ_cons, heads?, ih hothers hlist, Option.map_map]
        rfl

namespace Sweep

/-- What the queue and the reach say of the lists. -/
structure Follows (sweep : Sweep) (heads : List Position) : Prop where
  heads_eq : heads? sweep.lists = some heads
  perm : sweep.queue.Perm heads.zipIdx
  sorted : sweep.queue.Pairwise Entry.Before
  le_reach : ∀ head ∈ heads, head ≤ sweep.reach

theorem follows_start {sweep : Sweep} (h : start? lists = some sweep) :
    sweep.lists = lists ∧ ∃ heads, sweep.Follows heads ∧ sweep.reach = heads.foldl max 0 := by
  obtain ⟨heads, hheads, rfl⟩ := Option.map_eq_some_iff.mp h
  refine ⟨rfl, heads, ⟨hheads, ?_, ?_, fun head => le_foldl_max 0⟩, rfl⟩
  · exact List.perm_insertionSort ..
  · exact List.pairwise_insertionSort ..

variable {sweep : Sweep} {heads : List Position} {least : Position} {slot : Nat}
  {queue : List Entry}

theorem Follows.mem_iff (hf : sweep.Follows heads) {position : Position} {i : Nat} :
    (position, i) ∈ sweep.queue ↔ heads[i]? = some position :=
  hf.perm.mem_iff.trans List.mk_mem_zipIdx_iff_getElem?

/-- The first entry is that of the first list that stands on the least head. -/
theorem Follows.first (hf : sweep.Follows heads) (hqueue : sweep.queue = (least, slot) :: queue) :
    heads[slot]? = some least ∧ heads.min? = some least ∧
      ∀ i, heads[i]? = some least → slot ≤ i := by
  have hsorted := hf.sorted
  rw [hqueue, List.pairwise_cons] at hsorted
  have hslot : heads[slot]? = some least := by
    rw [← hf.mem_iff, hqueue]
    exact List.mem_cons_self ..
  have hbefore : ∀ position i, heads[i]? = some position →
      least < position ∨ least = position ∧ slot ≤ i := by
    intro position i hi
    rw [← hf.mem_iff, hqueue, List.mem_cons] at hi
    rcases hi with heq | hrest
    · cases heq
      exact .inr ⟨rfl, Nat.le_refl _⟩
    · exact Prod.lex_def.mp (hsorted.1 _ hrest)
  refine ⟨hslot, List.min?_eq_some_iff.mpr ⟨List.mem_of_getElem? hslot, fun head hhead => ?_⟩, ?_⟩
  · obtain ⟨i, hi⟩ := List.getElem?_of_mem hhead
    rcases hbefore head i hi with hlt | ⟨rfl, -⟩
    · exact UInt32.le_of_lt hlt
    · exact UInt32.le_refl _
  · intro i hi
    rcases hbefore least i hi with hlt | ⟨-, hle⟩
    · exact absurd rfl (UInt32.ne_of_lt hlt)
    · exact hle

/-- The first list moves on, and a new entry takes the place of its old one. -/
theorem Follows.moved (hf : sweep.Follows heads) (hqueue : sweep.queue = (least, slot) :: queue)
    {lists : List Locations} {position : Position}
    (hheads : heads? lists = some (heads.set slot position)) :
    (Sweep.moved lists queue sweep.reach slot position).Follows (heads.set slot position) where
  heads_eq := hheads
  perm := by
    have hperm := hf.perm
    obtain ⟨hlt, hslot⟩ := List.getElem?_eq_some_iff.mp (hf.first hqueue).1
    have hlt' : slot < heads.zipIdx.length := by rwa [List.length_zipIdx]
    have hold : heads.zipIdx[slot] = (least, slot) := by
      rw [List.getElem_zipIdx, hslot, Nat.zero_add]
    have hrest : queue.Perm (heads.zipIdx.eraseIdx slot) := by
      have herased := List.getElem_cons_eraseIdx_perm hlt'
      rw [hold] at herased
      rw [hqueue] at hperm
      exact (hperm.trans herased.symm).cons_inv
    rw [zipIdx_set]
    calc List.Perm (queue.orderedInsert Entry.Before (position, slot)) ((position, slot) :: queue) :=
          List.perm_orderedInsert ..
      List.Perm _ ((position, slot) :: heads.zipIdx.eraseIdx slot) := hrest.cons _
      List.Perm _ (heads.zipIdx.set slot (position, slot)) :=
          (List.set_perm_cons_eraseIdx hlt' _).symm
  sorted := by
    have hsorted := hf.sorted
    rw [hqueue] at hsorted
    exact hsorted.tail.orderedInsert ..
  le_reach := by
    have hmax := (lawfulOrderMax.max_le_iff sweep.reach position _).mp (UInt32.le_refl _)
    intro head hhead
    rcases List.mem_or_eq_of_mem_set hhead with hmem | rfl
    · exact UInt32.le_trans (hf.le_reach head hmem) hmax.1
    · exact hmax.2

theorem Follows.reach_moved (hf : sweep.Follows heads)
    (hqueue : sweep.queue = (least, slot) :: queue) {lists : List Locations} {position : Position}
    (hheads : heads? lists = some (heads.set slot position)) :
    max sweep.reach position = (heads.set slot position).foldl max sweep.reach := by
  have hbound := lawfulOrderMax.max_le_iff sweep.reach position
  have hlt := (List.getElem?_eq_some_iff.mp (hf.first hqueue).1).1
  apply UInt32.le_antisymm
  · exact (hbound _).mpr ⟨le_foldl_max_start _, le_foldl_max _ (List.mem_set hlt position)⟩
  · exact foldl_max_le_iff.mpr
      ⟨((hbound _).mp (UInt32.le_refl _)).1, (hf.moved hqueue hheads).le_reach⟩

end Sweep

theorem guardedWindow_eq_windowFrom {sweep : Sweep} {heads : List Position} {reach : Position}
    (hf : sweep.Follows heads) (hreach : sweep.reach = heads.foldl max reach)
    (h : remaining sweep.lists < rounds) :
    guardedWindow span rounds sweep = some (windowFrom span reach sweep.lists) := by
  induction rounds generalizing sweep heads reach with
  | zero => omega
  | succ rounds ih =>
    cases hqueue : sweep.queue with
    | nil =>
      have hnone : heads.zipIdx = [] := List.nil_perm.mp (hqueue ▸ hf.perm)
      obtain rfl := List.zipIdx_eq_nil_iff.mp hnone
      rw [guardedWindow, hqueue, windowFrom_of_min_none hf.heads_eq rfl]
    | cons entry queue =>
      obtain ⟨least, slot⟩ := entry
      obtain ⟨hslot, hleast, hfirst⟩ := hf.first hqueue
      have hmem := List.mem_of_getElem? hslot
      have hwidth := width_eq (hf.le_reach least hmem)
      rw [guardedWindow, hqueue, windowFrom_eq hf.heads_eq hleast, ← hreach]
      simp only [hwidth, Option.bind_eq_bind, Option.bind_some, Option.pure_def]
      by_cases hlt : sweep.reach - least < span
      · have hshort := remaining_nextAll_lt hf.heads_eq hmem
        rw [if_pos hlt, if_pos hlt]
        cases hstart : Sweep.start? (nextAll sweep.lists) with
        | none =>
          rw [windowFrom_none (Option.map_eq_none_iff.mp hstart)]
        | some sweep' =>
          obtain ⟨hlists, heads', hf', hreach'⟩ := Sweep.follows_start hstart
          have hrest := ih hf' hreach' (by rw [hlists]; omega)
          rw [hlists] at hrest
          simp only [hrest, Option.bind_some]
      · have hshort := remaining_nextAt_lt hf.heads_eq hmem
        have hplace : slot < sweep.lists.length := by
          rw [← length_heads hf.heads_eq]
          exact (List.getElem?_eq_some_iff.mp hslot).1
        have hlist := List.getElem?_eq_getElem hplace
        have hmoved : (sweep.lists.modify slot Locations.next)[slot]? =
            some sweep.lists[slot].next := by
          simp [hlist]
        have hheads := heads_modify hf.heads_eq hlist
        have hnext := nextAt_eq_modify hf.heads_eq hslot hfirst
        rw [hnext] at hshort ⊢
        rw [if_neg hlt, if_neg hlt]
        simp only [nextSlot_eq hplace, hmoved, Option.bind_some]
        cases hcurrent : sweep.lists[slot].next.current? with
        | none =>
          rw [hcurrent, Option.map_none] at hheads
          rw [windowFrom_none hheads]
        | some position =>
          rw [hcurrent, Option.map_some] at hheads
          exact ih (hf.moved hqueue hheads) (hf.reach_moved hqueue hheads)
            (Nat.lt_of_lt_of_le hshort (Nat.le_of_lt_succ h))

/-! ## Both operators -/

/-- The matches of an operator, found within a number of rounds and without a step that fails. -/
def guarded (kind : ProximityOp) (span : UInt32) (rounds : Nat) (lists : List Locations) :
    Option (List Position) :=
  match kind with
  | .near => guardedNear span rounds lists
  | .window =>
    match Sweep.start? lists with
    | none => some []
    | some sweep => guardedWindow span rounds sweep

/-- However the positions lie, a matcher comes to its end within one round more than there are
positions: it subtracts no greater position from a lesser one and moves on no list that is not
there. -/
theorem guarded_eq_hits (h : remaining lists < rounds) (kind : ProximityOp) :
    guarded kind span rounds lists = some (hits kind span lists) := by
  cases kind with
  | near => exact guardedNear_eq_near h
  | window =>
    rw [guarded, hits, window]
    cases hstart : Sweep.start? lists with
    | none => rw [windowFrom_none (Option.map_eq_none_iff.mp hstart)]
    | some sweep =>
      obtain ⟨rfl, heads, hf, hreach⟩ := Sweep.follows_start hstart
      exact guardedWindow_eq_windowFrom hf hreach h

/-- Six positions, of which two are out of order and two are equal, take seven rounds at most. -/
theorem guarded_eq_hits_unordered :
    guarded .near 4 7 [[1, 6, 3], [2, 5, 5]] = some [2] ∧
      guarded .window 4 7 [[1, 6, 3], [2, 5, 5]] = some [2, 6, 5] := by
  have hrounds : remaining [[1, 6, 3], [2, 5, 5]] < 7 := by decide
  have hnear : hits .near 4 [[1, 6, 3], [2, 5, 5]] = [2] := by decide +kernel
  have hwindow : hits .window 4 [[1, 6, 3], [2, 5, 5]] = [2, 6, 5] := by decide +kernel
  rw [guarded_eq_hits hrounds .near, guarded_eq_hits hrounds .window, hnear, hwindow]
  exact ⟨rfl, rfl⟩

end Retrieval.Proximity
