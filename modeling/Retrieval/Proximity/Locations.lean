import Retrieval.Operator

/-!
# Matches within one document

The arguments of a proximity operator occur in a document at lists of positions, and the operator
walks through all lists together. What is still to be read of a list stands for its cursor.

* `near`: the last positions of the chains that follow the arguments' order within the span.
* `window`: the greatest positions of the windows, in any order, that are narrower than the span.

Every position is used by one match at most: after a match, all lists move on by one.
-/

set_option autoImplicit false

namespace Retrieval

/-- The positions that are still to be read, in order. -/
abbrev Locations := List Position

namespace Locations

def current? (locations : Locations) : Option Position := locations.head?

def next (locations : Locations) : Locations := locations.tail

/-- Moves to the first position greater than `position`. -/
def moveBeyond (locations : Locations) (position : Position) : Locations :=
  locations.dropWhile (· ≤ position)

def isExhausted (locations : Locations) : Bool := locations.isEmpty

end Locations

namespace Proximity

/-- Moves every list on by one position. -/
def nextAll (lists : List Locations) : List Locations := lists.map Locations.next

/-! ## In order -/

/-- Moves each list past the position that the list before it stands on, from `previous` on; the
answer is where the last list stands. None once a list has run out. -/
def align (previous : Position) : List Locations → Option (Position × List Locations)
  | [] => some (previous, [])
  | locations :: rest =>
    match locations.moveBeyond previous with
    | [] => none
    | position :: later =>
      match align position rest with
      | none => none
      | some (last, rest) => some (last, (position :: later) :: rest)

/-- Chains `first < … < last` with `last - first ≤ span`. If the chain at hand is too long, only the
first list moves on. -/
def nearFrom (span : UInt32) : Locations → List Locations → List Position
  | [], _ => []
  | position :: later, rest =>
    match align position rest with
    | none => []
    | some (last, rest) =>
      if last - position ≤ span then last :: nearFrom span later (nextAll rest)
      else nearFrom span later rest

def near (span : UInt32) : List Locations → List Position
  | [] => []
  | first :: rest => nearFrom span first rest

/-! ## In any order -/

/-- Where the lists stand, if none has run out. -/
def heads? : List Locations → Option (List Position)
  | [] => some []
  | [] :: _ => none
  | (position :: _) :: rest => (heads? rest).map (position :: ·)

/-- Moves on the first list that stands on `position`. -/
def nextAt (position : Position) : List Locations → List Locations
  | [] => []
  | locations :: rest =>
    if locations.current? = some position then locations.next :: rest
    else locations :: nextAt position rest

def remaining (lists : List Locations) : Nat := lists.flatten.length

theorem remaining_nextAll_le (lists : List Locations) :
    remaining (nextAll lists) ≤ remaining lists := by
  induction lists with
  | nil => exact Nat.le_refl _
  | cons locations rest ih =>
    simp only [remaining, nextAll, List.map_cons, List.flatten_cons, List.length_append,
      Locations.next, List.length_tail] at ih ⊢
    omega

theorem remaining_nextAll_lt {lists : List Locations} {heads : List Position}
    (h : heads? lists = some heads) {least : Position} (hl : least ∈ heads) :
    remaining (nextAll lists) < remaining lists := by
  match lists, h with
  | [], h =>
    simp only [heads?, Option.some.injEq] at h
    simp [← h] at hl
  | (position :: later) :: rest, _ =>
    have hr := remaining_nextAll_le rest
    simp only [remaining, nextAll, List.map_cons, List.flatten_cons, List.length_append,
      Locations.next, List.tail_cons, List.length_cons] at hr ⊢
    omega

theorem remaining_nextAt_lt {lists : List Locations} {heads : List Position}
    (h : heads? lists = some heads) {position : Position} (hp : position ∈ heads) :
    remaining (nextAt position lists) < remaining lists := by
  induction lists generalizing heads with
  | nil =>
    simp only [heads?, Option.some.injEq] at h
    simp [← h] at hp
  | cons locations rest ih =>
    match locations, h with
    | head :: later, h =>
      obtain ⟨others, ho, rfl⟩ := Option.map_eq_some_iff.mp h
      by_cases he : head = position
      · simp [nextAt, Locations.current?, Locations.next, he, remaining]
      · have hm : position ∈ others := by
          rcases List.mem_cons.mp hp with h | h
          · exact absurd h.symm he
          · exact h
        have := ih ho hm
        simp only [nextAt, Locations.current?, List.head?_cons, Option.some.injEq, he,
          if_false, remaining, List.flatten_cons, List.length_append] at this ⊢
        omega

/-- Windows that end at `reach` or later, where `reach` is the greatest position met since the last
match. If the window at hand is too wide, the list at its least position moves on. -/
def windowFrom (span : UInt32) (reach : Position) (lists : List Locations) : List Position :=
  match _hh : heads? lists with
  | none => []
  | some heads =>
    match hl : heads.min? with
    | none => []
    | some least =>
      let reach := heads.foldl max reach
      if reach - least < span then reach :: windowFrom span 0 (nextAll lists)
      else windowFrom span reach (nextAt least lists)
termination_by remaining lists
decreasing_by
  · exact remaining_nextAll_lt _hh (List.min?_mem hl)
  · exact remaining_nextAt_lt _hh (List.min?_mem hl)

def window (span : UInt32) (lists : List Locations) : List Position := windowFrom span 0 lists

/-- The positions at which an operator matches, given where its arguments occur. -/
def hits : ProximityOp → UInt32 → List Locations → List Position
  | .near => near
  | .window => window

end Proximity

end Retrieval
