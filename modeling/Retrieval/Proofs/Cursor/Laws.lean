import Mathlib.Data.List.Forall2
import Retrieval.Cursor

/-!
# Laws of cursors

A cursor is lawful when it walks through the documents ahead of it in ascending order and passes
over none that it was not told to leave out (`Cursor.Lawful`). `Cursor.Keeps` is for what no move
changes.

A caller may settle, look and move in any order. `Cursor.run` makes a list of such calls, and
`CursorCall.reach` is the number up to which they have moved the cursor: of the documents that were
ahead at first, those from that number on are still ahead (`Lawful.ahead_run`).
-/

set_option autoImplicit false

namespace Retrieval

/-- The first of the documents with a property, or none if there is no such document. -/
def FirstOf (p : DocId → Prop) : Option DocId → Prop
  | none => ∀ doc, ¬ p doc
  | some doc => p doc ∧ ∀ other, p other → doc ≤ other

namespace FirstOf

variable {p q : DocId → Prop} {found : Option DocId}

theorem congr (hpq : ∀ doc, p doc ↔ q doc) (h : FirstOf p found) : FirstOf q found := by
  have e : p = q := funext fun doc => propext (hpq doc)
  rwa [← e]

theorem isSome_iff (h : FirstOf p found) : found.isSome = true ↔ ∃ doc, p doc := by
  cases found with
  | none => simpa using fun doc => h doc
  | some doc => simpa using ⟨doc, h.1⟩

theorem eq_some_iff (h : FirstOf p found) {doc : DocId} :
    found = some doc ↔ p doc ∧ ∀ other, p other → doc ≤ other := by
  constructor
  · rintro rfl
    exact h
  · rintro ⟨hp, hle⟩
    cases found with
    | none => exact absurd hp (h doc)
    | some first => rw [UInt32.le_antisymm (h.2 doc hp) (hle first h.1)]

theorem unique {other : Option DocId} (h : FirstOf p found) (h' : FirstOf p other) :
    found = other := by
  cases other with
  | some doc => exact h.eq_some_iff.mpr h'
  | none =>
    cases found with
    | none => rfl
    | some doc => exact absurd h.1 (h' doc)

theorem merge {other : Option DocId} (hp : FirstOf p found) (hq : FirstOf q other) :
    FirstOf (fun doc => p doc ∨ q doc) (found.merge min other) := by
  cases found with
  | none =>
    have e : (none : Option DocId).merge min other = other := by cases other <;> rfl
    rw [e]
    exact hq.congr fun doc => by simp [hp doc]
  | some first =>
    cases other with
    | none => exact congr (p := p) (fun doc => by simp [hq doc]) hp
    | some second =>
      have hmin : min first second = if first ≤ second then first else second := rfl
      simp only [Option.merge, hmin]
      split
      · rename_i hle
        exact ⟨.inl hp.1, fun doc hd => hd.elim (hp.2 doc) fun h =>
          UInt32.le_trans hle (hq.2 doc h)⟩
      · rename_i hle
        have hge : second ≤ first := (UInt32.le_total first second).resolve_left hle
        exact ⟨.inr hq.1, fun doc hd => hd.elim (fun h => UInt32.le_trans hge (hp.2 doc h))
          (hq.2 doc)⟩

/-- In front of the later documents with a property comes the first of them. -/
theorem cons_ascending {doc : DocId} (h : FirstOf p (some doc)) {docs : List DocId}
    (hasc : docs.Pairwise (· < ·)) (hmem : ∀ other, other ∈ docs ↔ p other ∧ doc < other) :
    (doc :: docs).Pairwise (· < ·) ∧ ∀ other, other ∈ doc :: docs ↔ p other := by
  refine ⟨List.pairwise_cons.mpr ⟨fun other ho => ((hmem other).mp ho).2, hasc⟩, fun other => ?_⟩
  rw [List.mem_cons, hmem]
  constructor
  · rintro (rfl | ⟨ho, -⟩)
    · exact h.1
    · exact ho
  · intro ho
    rcases UInt32.lt_or_eq_of_le (h.2 other ho) with hlt | rfl
    · exact .inr ⟨ho, hlt⟩
    · exact .inl rfl

end FirstOf

/-- There is one way only to list documents in ascending order. -/
theorem eq_of_ascending {docs others : List DocId} (hasc : docs.Pairwise (· < ·))
    (hasc' : others.Pairwise (· < ·)) (hmem : ∀ doc, doc ∈ docs ↔ doc ∈ others) :
    docs = others := by
  have hperm : docs.Perm others :=
    (List.perm_ext_iff_of_nodup (hasc.imp UInt32.ne_of_lt) (hasc'.imp UInt32.ne_of_lt)).mpr hmem
  exact hperm.eq_of_pairwise (fun a b _ _ hab hba => absurd hba (UInt32.lt_asymm hab)) hasc hasc'

/-- Whether items match together, given which of them match. -/
def MatchRule.Admits {σ : Type} (rule : MatchRule) (p : σ → Prop) (items : List σ) : Prop :=
  match rule with
  | .all => items ≠ [] ∧ ∀ item ∈ items, p item
  | .min => ∃ item ∈ items, p item
  | .first => ∃ item ∈ items.head?, p item

theorem MatchRule.Admits.mono {σ : Type} {rule : MatchRule} {p q : σ → Prop} {items : List σ}
    (h : rule.Admits p items) (hpq : ∀ item ∈ items, p item → q item) : rule.Admits q items := by
  cases rule with
  | all => exact ⟨h.1, fun item hi => hpq item hi (h.2 item hi)⟩
  | min =>
    obtain ⟨item, hi, hp⟩ := h
    exact ⟨item, hi, hpq item hi hp⟩
  | first =>
    obtain ⟨item, hi, hp⟩ := h
    exact ⟨item, hi, hpq item (List.mem_of_head? hi) hp⟩

theorem MatchRule.Admits.exists_mem {σ : Type} {rule : MatchRule} {p : σ → Prop} {items : List σ}
    (h : rule.Admits p items) : ∃ item ∈ items, p item := by
  cases rule with
  | all =>
    obtain ⟨item, hi⟩ := List.exists_mem_of_ne_nil items h.1
    exact ⟨item, hi, h.2 item hi⟩
  | min => exact h
  | first =>
    obtain ⟨item, hi, hp⟩ := h
    exact ⟨item, List.mem_of_head? hi, hp⟩

theorem MatchRule.admits_map_iff {σ τ : Type} (rule : MatchRule) (p : τ → Prop) (f : σ → τ)
    (items : List σ) : rule.Admits p (items.map f) ↔ rule.Admits (fun item => p (f item)) items := by
  cases rule with
  | all => simp [Admits]
  | min => simp [Admits]
  | first => cases items <;> simp [Admits]

theorem MatchRule.admits_congr {σ τ : Type} (rule : MatchRule) {p : σ → Prop} {q : τ → Prop}
    {items : List σ} {others : List τ} (h : others.map q = items.map p) :
    rule.Admits q others ↔ rule.Admits p items := by
  have hq := rule.admits_map_iff id q others
  rw [h, rule.admits_map_iff id p items] at hq
  exact hq.symm

/-- Moving all items by the same bound moves what they match together by that bound. -/
theorem MatchRule.admits_map_and {σ : Type} (rule : MatchRule) {p : σ → Prop} {move : σ → σ}
    {items : List σ} {within : Prop}
    (hmove : ∀ item ∈ items, (p (move item) ↔ p item ∧ within)) :
    rule.Admits p (items.map move) ↔ rule.Admits p items ∧ within := by
  cases rule with
  | all =>
    simp only [Admits, ne_eq, List.map_eq_nil_iff, List.forall_mem_map]
    constructor
    · rintro ⟨hne, hall⟩
      obtain ⟨item, hi⟩ := List.exists_mem_of_ne_nil items hne
      refine ⟨⟨hne, fun other ho => ((hmove other ho).mp (hall other ho)).1⟩, ?_⟩
      exact ((hmove item hi).mp (hall item hi)).2
    · rintro ⟨⟨hne, hall⟩, hw⟩
      exact ⟨hne, fun other ho => (hmove other ho).mpr ⟨hall other ho, hw⟩⟩
  | min =>
    simp only [Admits, List.mem_map]
    constructor
    · rintro ⟨_, ⟨item, hi, rfl⟩, hp⟩
      exact ⟨⟨item, hi, ((hmove item hi).mp hp).1⟩, ((hmove item hi).mp hp).2⟩
    · rintro ⟨⟨item, hi, hp⟩, hw⟩
      exact ⟨move item, ⟨item, hi, rfl⟩, (hmove item hi).mpr ⟨hp, hw⟩⟩
  | first =>
    cases items with
    | nil => simp [Admits]
    | cons item rest => simpa [Admits] using hmove item (List.mem_cons_self ..)

namespace Cursor

variable {σ : Type} {cursor : Cursor σ}

/-! ## Laws of one cursor -/

/-- The laws of a cursor whose items, while they are `sound`, have the documents `ahead` of them. -/
structure Lawful (cursor : Cursor σ) (sound : σ → Prop) (ahead : σ → DocId → Prop) : Prop where
  sound_settle : ∀ item, sound item → sound (cursor.settle item).2
  sound_moveTo : ∀ doc item, sound item → sound (cursor.moveTo doc item)
  sound_moveBeyond : ∀ doc item, sound item → sound (cursor.moveBeyond doc item)
  ahead_settle : ∀ item, sound item → ∀ doc, ahead (cursor.settle item).2 doc ↔ ahead item doc
  ahead_moveTo : ∀ doc item, sound item →
    ∀ other, ahead (cursor.moveTo doc item) other ↔ ahead item other ∧ doc ≤ other
  ahead_moveBeyond : ∀ doc item, sound item →
    ∀ other, ahead (cursor.moveBeyond doc item) other ↔ ahead item other ∧ doc < other
  first_doc : ∀ item, sound item → FirstOf (ahead item) (cursor.doc? (cursor.settle item).2)
  found_iff : ∀ item, sound item →
    (cursor.settle item).1 = (cursor.doc? (cursor.settle item).2).isSome
  least_doc : ∀ item doc, sound item → cursor.doc? item = some doc →
    ahead item doc ∧ ∀ other, ahead item other → doc ≤ other

/-- A relation between an item and what becomes of it that every move respects. -/
structure Keeps (cursor : Cursor σ) (r : σ → σ → Prop) : Prop where
  refl : ∀ item, r item item
  trans : ∀ {a b c}, r a b → r b c → r a c
  settle : ∀ item, r item (cursor.settle item).2
  moveTo : ∀ doc item, r item (cursor.moveTo doc item)
  moveBeyond : ∀ doc item, r item (cursor.moveBeyond doc item)

theorem settled_snd (item : σ) : (cursor.settled item).2 = (cursor.settle item).2 := rfl

/-- What becomes of a sound item is sound and has no new documents ahead of it. -/
def Trails (sound : σ → Prop) (ahead : σ → DocId → Prop) (before after : σ) : Prop :=
  sound before → sound after ∧ ∀ doc, ahead after doc → ahead before doc

section Trails

variable {sound : σ → Prop} {ahead : σ → DocId → Prop} {before after : List σ}

theorem sound_of_trails (ht : List.Forall₂ (Trails sound ahead) before after)
    (hs : ∀ item ∈ before, sound item) : ∀ item ∈ after, sound item := by
  induction ht with
  | nil => simp
  | cons hab _ ih =>
    simp only [List.forall_mem_cons] at hs ⊢
    exact ⟨(hab hs.1).1, ih hs.2⟩

theorem ahead_of_trails (ht : List.Forall₂ (Trails sound ahead) before after)
    (hs : ∀ item ∈ before, sound item) {doc : DocId} (ha : ∀ item ∈ after, ahead item doc) :
    ∀ item ∈ before, ahead item doc := by
  induction ht with
  | nil => simp
  | cons hab _ ih =>
    simp only [List.forall_mem_cons] at hs ha ⊢
    exact ⟨(hab hs.1).2 doc ha.1, ih hs.2 ha.2⟩

end Trails

theorem Lawful.keeps_trails {sound : σ → Prop} {ahead : σ → DocId → Prop}
    (h : cursor.Lawful sound ahead) : cursor.Keeps (Trails sound ahead) where
  refl _ hs := ⟨hs, fun _ => id⟩
  trans hab hbc hs :=
    have hb := hab hs
    have hc := hbc hb.1
    ⟨hc.1, fun doc hd => hb.2 doc (hc.2 doc hd)⟩
  settle item hs := ⟨h.sound_settle item hs, fun doc => (h.ahead_settle item hs doc).mp⟩
  moveTo bound item hs :=
    ⟨h.sound_moveTo bound item hs, fun doc hd => ((h.ahead_moveTo bound item hs doc).mp hd).1⟩
  moveBeyond bound item hs :=
    ⟨h.sound_moveBeyond bound item hs,
      fun doc hd => ((h.ahead_moveBeyond bound item hs doc).mp hd).1⟩

end Cursor

/-! ## Runs of calls -/

/-- A call on a cursor. To look at its document moves nothing. -/
inductive CursorCall where
  | settle
  | look
  | moveBeyond (doc : DocId)
  | moveTo (doc : DocId)

namespace CursorCall

/-- The number of the first document that the call does not leave out. -/
def bound : CursorCall → Nat
  | settle | look => 0
  | moveBeyond doc => doc.toNat + 1
  | moveTo doc => doc.toNat

def reach : List CursorCall → Nat
  | [] => 0
  | call :: calls => max call.bound (reach calls)

end CursorCall

namespace Cursor

variable {σ : Type} {cursor : Cursor σ}

def apply (cursor : Cursor σ) (item : σ) : CursorCall → σ
  | .settle => (cursor.settle item).2
  | .look => item
  | .moveBeyond doc => cursor.moveBeyond doc item
  | .moveTo doc => cursor.moveTo doc item

def run (cursor : Cursor σ) (calls : List CursorCall) (item : σ) : σ :=
  calls.foldl cursor.apply item

theorem Keeps.run {r : σ → σ → Prop} (h : cursor.Keeps r) (calls : List CursorCall) (item : σ) :
    r item (cursor.run calls item) := by
  induction calls generalizing item with
  | nil => exact h.refl item
  | cons call calls ih =>
    have hstep : r item (cursor.apply item call) := by
      cases call with
      | settle => exact h.settle item
      | look => exact h.refl item
      | moveBeyond doc => exact h.moveBeyond doc item
      | moveTo doc => exact h.moveTo doc item
    exact h.trans hstep (ih _)

namespace Lawful

variable {sound : σ → Prop} {ahead : σ → DocId → Prop} (h : cursor.Lawful sound ahead)

include h

theorem sound_run (calls : List CursorCall) {item : σ} (hs : sound item) :
    sound (cursor.run calls item) :=
  (h.keeps_trails.run calls item hs).1

theorem ahead_apply (call : CursorCall) {item : σ} (hs : sound item) (doc : DocId) :
    ahead (cursor.apply item call) doc ↔ ahead item doc ∧ call.bound ≤ doc.toNat := by
  cases call with
  | settle => simpa [apply, CursorCall.bound] using h.ahead_settle item hs doc
  | look => simp [apply, CursorCall.bound]
  | moveBeyond bound =>
    rw [apply, h.ahead_moveBeyond bound item hs, CursorCall.bound, UInt32.lt_iff_toNat_lt]
    rfl
  | moveTo bound =>
    rw [apply, h.ahead_moveTo bound item hs, CursorCall.bound, UInt32.le_iff_toNat_le]

theorem ahead_run (calls : List CursorCall) {item : σ} (hs : sound item) (doc : DocId) :
    ahead (cursor.run calls item) doc ↔
      ahead item doc ∧ CursorCall.reach calls ≤ doc.toNat := by
  induction calls generalizing item with
  | nil => simp [run, CursorCall.reach]
  | cons call calls ih =>
    have hstep : sound (cursor.apply item call) := h.sound_run [call] hs
    rw [run, List.foldl_cons, ← run, ih hstep, h.ahead_apply call hs, CursorCall.reach]
    rw [Nat.max_le, and_assoc]

end Lawful

end Cursor

end Retrieval
