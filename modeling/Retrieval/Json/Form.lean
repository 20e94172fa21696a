import Retrieval.Fault
import Retrieval.Json.Value

/-!
# Forms: values as JSON

`JsonForm τ` says how a value of `τ` is written as JSON and which JSON values are read as one.
Reading is more liberal than writing.

* A record is written as an object with its fields in a fixed order. It is read from an object in
  any order, where other members are ignored and a repeated field is refused, or from an array of
  its fields in order, which may break off early.
* A choice without content is written as its name, and also read from an object that has the name
  with `null`. A choice with content is an object with one member.
* What is read may nest arrays and objects only so deep: `levels` counts how many may still be
  entered. Ignored members do not count.
-/

set_option autoImplicit false

namespace Retrieval

class JsonForm (τ : Type) where
  toJson : τ → Json
  ofJson? : Nat → Json → Option τ

namespace Json

/-- How many arrays and objects may be open at once. -/
def maxLevels : Nat := 127

/-! ## Records -/

/-- The members of an object with their names decoded. -/
def named? : List (RawText × Json) → Option (List (String × Json))
  | [] => some []
  | (key, value) :: rest => do
    let name ← key.decode?
    let members ← named? rest
    return (name, value) :: members

/-- The given fields of a record, as far as they are present. -/
def record? (names : List String) (levels : Nat) (json : Json) : Option (List (String × Json)) :=
  if levels = 0 then none
  else
    match json with
    | .object members => do
      let members ← named? members
      let fields := members.filter (names.contains ·.1)
      if (fields.map (·.1)).Nodup then some fields else none
    | .array items => if items.length ≤ names.length then some (names.zip items) else none
    | _ => none

/-- A field that must be present. -/
def required {τ : Type} (fields : List (String × Json)) (name : String)
    (read : Json → Option τ) : Option τ :=
  (fields.lookup name).bind read

/-- A field that has a value when it is absent. -/
def optional {τ : Type} (fields : List (String × Json)) (name : String) (absent : τ)
    (read : Json → Option τ) : Option τ :=
  match fields.lookup name with
  | some value => read value
  | none => some absent

/-- An object with named members. -/
def ofFields (fields : List (String × Json)) : Json :=
  .object (fields.map fun (name, value) => (RawText.ofString name, value))

/-! ## Choices -/

/-- The name of a choice without content. -/
def name? (levels : Nat) : Json → Option String
  | .text t => t.decode?
  | .object [(key, .null)] => if levels = 0 then none else key.decode?
  | _ => none

/-- The name and the content of a choice. -/
def choice? (levels : Nat) : Json → Option (String × Json)
  | .object [(key, content)] => if levels = 0 then none else key.decode?.map (·, content)
  | _ => none

def ofChoice (name : String) (content : Json) : Json := ofFields [(name, content)]

/-! ## Strings, numbers and lists -/

def ofText (s : String) : Json := .text (RawText.ofString s)

def string? : Json → Option String
  | .text t => t.decode?
  | _ => none

def bool? : Json → Option Bool
  | .bool b => some b
  | _ => none

def ofNat (n : Nat) : Json := .numeral (Numeral.ofNat n)

/-- A whole number below `2 ^ 64`. -/
def nat? : Json → Option Nat
  | .numeral n => n.toNat?
  | _ => none

def uint64? (json : Json) : Option UInt64 := json.nat?.map Nat.toUInt64

/-- A whole number below `2 ^ 32`. -/
def uint32? (json : Json) : Option UInt32 :=
  json.nat?.bind fun n => if n < UInt32.size then some n.toUInt32 else none

/-- A double that is not finite has no numeral and is written as null. -/
def ofFloat (x : Float) : Json :=
  match Numeral.ofFloat? x with
  | some n => .numeral n
  | none => .null

def float? : Json → Option Float
  | .numeral n => n.toFloat?
  | _ => none

/-- An array whose items are read in order. -/
def list? {τ : Type} (levels : Nat) (read : Json → Option τ) : Json → Option (List τ)
  | .array items => if levels = 0 then none else items.mapM read
  | _ => none

mutual

/-- Whether all strings, numbers and levels of a value could be read. -/
def isReadable (levels : Nat) : Json → Bool
  | null | bool _ => true
  | numeral n => n.toFloat?.isSome
  | text t => t.decode?.isSome
  | array items => levels != 0 && areReadable (levels - 1) items
  | object members => levels != 0 && membersAreReadable (levels - 1) members

def areReadable (levels : Nat) : List Json → Bool
  | [] => true
  | item :: items => isReadable levels item && areReadable levels items

def membersAreReadable (levels : Nat) : List (RawText × Json) → Bool
  | [] => true
  | (key, value) :: members =>
    key.decode?.isSome && isReadable levels value && membersAreReadable levels members

end

end Json

namespace JsonForm

variable {τ : Type} [JsonForm τ]

def write (x : τ) : String := (toJson x).toString

def parse? (s : String) : Option τ := (Json.ofString? s).bind (ofJson? Json.maxLevels)

def parse (s : String) : Except Fault τ :=
  match parse? s with
  | some x => .ok x
  | none => .error .malformedText

end JsonForm

end Retrieval
