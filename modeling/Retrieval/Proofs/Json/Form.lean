import Mathlib.Data.List.Basic
import Retrieval.Json.Form
import Retrieval.Proofs.Json.Value

/-!
# Parts of forms that are read back

What a form writes comes back with its strings spelled in another way at most. Decoding does not
see the difference: strings, numbers, lists, records and choices are read from what comes back as
they were written, as long as enough levels are left. A whole form is read back if its parts are
(`JsonForm.parse_write`).

A double is `Legible` if its own text is read as that double.
-/

set_option autoImplicit false

namespace Retrieval.Json

/-! ## Strings -/

namespace RawText

theorem decodeChars?_unit {u : UInt16} (h : u < 0xD800) (rest : RawText) :
    decodeChars? (.unit u :: rest) = rest.decodeChars?.map (Char.ofNat u.toNat :: ·) := by
  rw [decodeChars?.eq_def]
  simp [h]

theorem decodeChars?_reread (cs : List Char) :
    decodeChars? (RawText.reread (cs.map .char)) = some cs := by
  induction cs with
  | nil => rfl
  | cons c rest ih =>
    rw [reread] at ih
    rw [reread, List.map_cons, List.map_cons, Piece.reread]
    split
    · rename_i hcontrol
      have hvalue : c.toNat.toUInt16.toNat = c.toNat :=
        Nat.mod_eq_of_lt (Nat.lt_trans hcontrol.1 (by decide))
      have hlow : c.toNat.toUInt16 < 0xD800 := by
        rw [UInt16.lt_iff_toNat_lt, hvalue]
        exact Nat.lt_trans hcontrol.1 (by decide)
      rw [decodeChars?_unit hlow, hvalue, Char.ofNat_toNat, ih]
      rfl
    · rw [decodeChars?, ih]
      rfl

theorem decode?_reread (s : String) : (ofString s).reread.decode? = some s := by
  rw [decode?, ofString, decodeChars?_reread, Option.map_some, String.ofList_toList]

end RawText

@[simp]
theorem string?_reread (s : String) : string? (ofText s).reread = some s :=
  RawText.decode?_reread s

/-! ## Numbers -/

theorem nat?_reread {n : Nat} (h : n < UInt64.size) : (ofNat n).reread.nat? = some n :=
  Numeral.toNat?_ofNat h

@[simp]
theorem uint32?_reread (n : UInt32) : uint32? (ofNat n.toNat).reread = some n := by
  have hsize : n.toNat < UInt32.size := n.toNat_lt
  rw [uint32?, nat?_reread (Nat.lt_trans hsize (by decide)), Option.bind_some, if_pos hsize]
  exact congrArg some (UInt32.ofNat_toNat ..)

@[simp]
theorem uint64?_reread (n : UInt64) : uint64? (ofNat n.toNat).reread = some n := by
  rw [uint64?, nat?_reread n.toNat_lt, Option.map_some]
  exact congrArg some (UInt64.ofNat_toNat ..)

theorem formed_ofNat (n : Nat) : (ofNat n).Formed := .numeral (Numeral.isFormed_ofNat n)

/-- The double is finite, and its text is read as the same double. -/
def Legible (x : Float) : Prop :=
  ((Numeral.ofFloat? x).bind fun n => (Numeral.ofChars? n.toChars).bind Numeral.toFloat?) = some x

instance (x : Float) : Decidable (Legible x) := inferInstanceAs (Decidable (_ = _))

theorem Legible.exists_numeral {x : Float} (h : Legible x) :
    ∃ n : Numeral, ofFloat x = .numeral n ∧ n.isFormed = true ∧ n.toFloat? = some x := by
  obtain ⟨n, hn, hread⟩ := Option.bind_eq_some_iff.mp h
  rw [Numeral.ofChars?_toChars] at hread
  refine ⟨n, by rw [ofFloat, hn], ?_⟩
  cases hformed : n.isFormed with
  | false => simp [hformed] at hread
  | true => exact ⟨rfl, by simpa [hformed] using hread⟩

theorem Legible.formed {x : Float} (h : Legible x) : (ofFloat x).Formed := by
  obtain ⟨n, heq, hformed, -⟩ := h.exists_numeral
  rw [heq]
  exact .numeral hformed

theorem Legible.float?_reread {x : Float} (h : Legible x) : float? (ofFloat x).reread = some x := by
  obtain ⟨n, heq, -, hread⟩ := h.exists_numeral
  rw [heq]
  exact hread

/-! ## Lists -/

theorem rereadItems_eq_map (items : List Json) : rereadItems items = items.map reread := by
  induction items with
  | nil => rfl
  | cons item items ih => rw [rereadItems, ih, List.map_cons]

theorem rereadMembers_eq_map (members : List (RawText × Json)) :
    rereadMembers members = members.map fun member => (member.1.reread, member.2.reread) := by
  induction members with
  | nil => rfl
  | cons member members ih => rw [rereadMembers, ih, List.map_cons]

theorem list?_reread {τ : Type} {levels : Nat} (hlevels : levels ≠ 0) {read : Json → Option τ}
    {write : τ → Json} {items : List τ}
    (h : ∀ item ∈ items, read (write item).reread = some item) :
    list? levels read (array (items.map write)).reread = some items := by
  rw [reread, rereadItems_eq_map, list?, if_neg hlevels]
  induction items with
  | nil => rfl
  | cons item rest ih =>
    rw [List.forall_mem_cons] at h
    rw [List.map_cons, List.map_cons, List.mapM_cons, h.1, ih h.2]
    rfl

theorem formed_list {τ : Type} {write : τ → Json} {items : List τ}
    (h : ∀ item ∈ items, (write item).Formed) : (array (items.map write)).Formed :=
  .array (List.forall_mem_map.mpr h)

/-! ## Records and choices -/

/-- What comes back of the fields of a record. -/
def rereadFields (fields : List (String × Json)) : List (RawText × Json) :=
  fields.map fun field => ((RawText.ofString field.1).reread, field.2.reread)

theorem reread_ofFields (fields : List (String × Json)) :
    (ofFields fields).reread = .object (rereadFields fields) := by
  rw [ofFields, reread, rereadMembers_eq_map, List.map_map]
  rfl

theorem formed_ofFields {fields : List (String × Json)} (h : ∀ field ∈ fields, field.2.Formed) :
    (ofFields fields).Formed :=
  .object (List.forall_mem_map.mpr h)

theorem formed_ofChoice (name : String) {content : Json} (h : content.Formed) :
    (ofChoice name content).Formed :=
  formed_ofFields (List.forall_mem_singleton.mpr h)

theorem named?_reread (fields : List (String × Json)) :
    named? (rereadFields fields) = some (fields.map fun field => (field.1, field.2.reread)) := by
  induction fields with
  | nil => rfl
  | cons field rest ih =>
    rw [rereadFields] at ih
    rw [rereadFields, List.map_cons, named?, RawText.decode?_reread, ih]
    rfl

/-- A record is read as the fields that it was written with. -/
@[simp]
theorem record?_reread {names : List String} {fields : List (String × Json)}
    (hnames : fields.map (·.1) = names) (hnodup : names.Nodup) {levels : Nat}
    (hlevels : levels ≠ 0) :
    record? names levels (ofFields fields).reread =
      some (fields.map fun field => (field.1, field.2.reread)) := by
  have hkept : (fields.map fun field => (field.1, field.2.reread)).filter
      (names.contains ·.1) = fields.map fun field => (field.1, field.2.reread) := by
    refine List.filter_eq_self.mpr (List.forall_mem_map.mpr fun field hf => ?_)
    rw [List.contains_iff_mem, ← hnames]
    exact List.mem_map_of_mem (f := (·.1)) hf
  have hmap : (fields.map fun field => (field.1, field.2.reread)).map (·.1) = names := by
    rw [List.map_map, ← hnames]
    rfl
  rw [reread_ofFields, record?, if_neg hlevels]
  simp only [named?_reread, Option.bind_eq_bind, Option.bind_some, hkept, hmap, if_pos hnodup]

section Fields

variable {τ : Type} {name : String} (value : Json) (rest : List (String × Json)) (absent : τ)
  (read : Json → Option τ)

@[simp]
theorem required_self : required ((name, value) :: rest) name read = read value := by
  rw [required, List.lookup_cons_self, Option.bind_some]

@[simp]
theorem required_of_ne {other : String} (h : name ≠ other) :
    required ((other, value) :: rest) name read = required rest name read := by
  rw [required, List.lookup_cons, beq_false_of_ne h]
  rfl

@[simp]
theorem optional_self : optional ((name, value) :: rest) name absent read = read value := by
  rw [optional, List.lookup_cons_self]

@[simp]
theorem optional_of_ne {other : String} (h : name ≠ other) :
    optional ((other, value) :: rest) name absent read = optional rest name absent read := by
  rw [optional, List.lookup_cons, beq_false_of_ne h]
  rfl

end Fields

theorem choice?_reread (name : String) (content : Json) {levels : Nat} (hlevels : levels ≠ 0) :
    choice? levels (ofChoice name content).reread = some (name, content.reread) := by
  rw [ofChoice, reread_ofFields, rereadFields, List.map_cons, List.map_nil, choice?, if_neg hlevels,
    RawText.decode?_reread, Option.map_some]

theorem name?_reread (s : String) (levels : Nat) : name? levels (ofText s).reread = some s :=
  RawText.decode?_reread s

/-! ## Levels -/

mutual

/-- How many arrays and objects are open at once. -/
def depth : Json → Nat
  | null | bool _ | numeral _ | text _ => 0
  | array items => depthOfAll items + 1
  | object members => depthOfMembers members + 1

def depthOfAll : List Json → Nat
  | [] => 0
  | item :: items => max (depth item) (depthOfAll items)

def depthOfMembers : List (RawText × Json) → Nat
  | [] => 0
  | (_, value) :: members => max (depth value) (depthOfMembers members)

end

theorem depthOfAll_le_iff {items : List Json} {levels : Nat} :
    depthOfAll items ≤ levels ↔ ∀ item ∈ items, item.depth ≤ levels := by
  induction items with
  | nil => simp [depthOfAll]
  | cons item items ih => rw [depthOfAll, Nat.max_le, ih, List.forall_mem_cons]

theorem depthOfMembers_le_iff {members : List (RawText × Json)} {levels : Nat} :
    depthOfMembers members ≤ levels ↔ ∀ member ∈ members, member.2.depth ≤ levels := by
  induction members with
  | nil => simp [depthOfMembers]
  | cons member members ih => rw [depthOfMembers, Nat.max_le, ih, List.forall_mem_cons]

theorem depth_array_le_iff {items : List Json} {levels : Nat} :
    (array items).depth ≤ levels ↔
      levels ≠ 0 ∧ ∀ item ∈ items, item.depth ≤ levels - 1 := by
  rw [depth, ← depthOfAll_le_iff]
  omega

theorem depth_ofFields_le_iff {fields : List (String × Json)} {levels : Nat} :
    (ofFields fields).depth ≤ levels ↔
      levels ≠ 0 ∧ ∀ field ∈ fields, field.2.depth ≤ levels - 1 := by
  have hdepth : (ofFields fields).depth =
      depthOfMembers (fields.map fun field => (RawText.ofString field.1, field.2)) + 1 := rfl
  have hmembers : depthOfMembers (fields.map fun field => (RawText.ofString field.1, field.2)) ≤
      levels - 1 ↔ ∀ field ∈ fields, field.2.depth ≤ levels - 1 := by
    rw [depthOfMembers_le_iff, List.forall_mem_map]
  rw [hdepth, ← hmembers]
  omega

theorem depth_ofChoice_le_iff {name : String} {content : Json} {levels : Nat} :
    (ofChoice name content).depth ≤ levels ↔ levels ≠ 0 ∧ content.depth ≤ levels - 1 := by
  rw [ofChoice, depth_ofFields_le_iff, List.forall_mem_singleton]

/-! ## What is read at all -/

theorem isReadable_ofText (s : String) (levels : Nat) :
    (ofText s).reread.isReadable levels = true := by
  rw [ofText, reread, isReadable, RawText.decode?_reread]
  rfl

theorem Legible.isReadable {x : Float} (h : Legible x) (levels : Nat) :
    (ofFloat x).reread.isReadable levels = true := by
  obtain ⟨n, heq, -, hread⟩ := h.exists_numeral
  rw [heq, reread, Json.isReadable, hread]
  rfl

theorem isReadable_ofFields {fields : List (String × Json)} {levels : Nat} (hlevels : levels ≠ 0)
    (h : ∀ field ∈ fields, field.2.reread.isReadable (levels - 1) = true) :
    (ofFields fields).reread.isReadable levels = true := by
  rw [reread_ofFields, Json.isReadable, bne_iff_ne.mpr hlevels, Bool.true_and]
  induction fields with
  | nil => rfl
  | cons field rest ih =>
    rw [List.forall_mem_cons] at h
    rw [rereadFields] at ih
    rw [rereadFields, List.map_cons, membersAreReadable, RawText.decode?_reread, h.1, ih h.2]
    rfl

end Retrieval.Json

namespace Retrieval.JsonForm

/-- A form is read back if its parts are. -/
theorem parse_write {τ : Type} [JsonForm τ] {x : τ} (hformed : (toJson x).Formed)
    (hread : ofJson? Json.maxLevels (toJson x).reread = some x) : parse (write x) = .ok x := by
  rw [parse, parse?, write, Json.ofString?_toString hformed, Option.bind_some, hread]

end Retrieval.JsonForm
