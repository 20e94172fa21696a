import Retrieval.Proofs.Json.Token

/-!
# Values that are read back

A value whose numerals could have been read is read from its text (`Json.ofString?_toString`), with
its strings as they come back from scanning (`Json.reread`). Scanning and reading meet at the tokens
of a value (`Json.tokens`): what is written is scanned as the tokens of the value that comes back
(`Json.ofChars?_toChars`), and any value is read from its tokens (`Json.ofTokens?_tokens`).
-/

set_option autoImplicit false

namespace Retrieval.Json

@[elab_as_elim]
theorem inductionOn {motive : Json → Prop} (json : Json) (null : motive .null)
    (bool : ∀ b, motive (.bool b)) (numeral : ∀ n, motive (.numeral n))
    (text : ∀ t, motive (.text t))
    (array : ∀ items, (∀ item ∈ items, motive item) → motive (.array items))
    (object : ∀ members, (∀ member ∈ members, motive member.2) → motive (.object members)) :
    motive json :=
  match json with
  | .null => null
  | .bool b => bool b
  | .numeral n => numeral n
  | .text t => text t
  | .array items => array items fun item _ =>
    inductionOn item null bool numeral text array object
  | .object members => object members fun member _ =>
    inductionOn member.2 null bool numeral text array object
decreasing_by
  · have hlt := List.sizeOf_lt_of_mem ‹item ∈ items›
    rw [Json.array.sizeOf_spec]
    omega
  · have hlt := List.sizeOf_lt_of_mem ‹member ∈ members›
    obtain ⟨key, value⟩ := member
    rw [Prod.mk.sizeOf_spec] at hlt
    rw [Json.object.sizeOf_spec]
    dsimp only
    omega

/-- Whether all numerals of a value could have been read. -/
inductive Formed : Json → Prop where
  | null : Formed .null
  | bool (b : Bool) : Formed (.bool b)
  | numeral {n : Numeral} (h : n.isFormed = true) : Formed (.numeral n)
  | text (t : RawText) : Formed (.text t)
  | array {items : List Json} (h : ∀ item ∈ items, Formed item) : Formed (.array items)
  | object {members : List (RawText × Json)} (h : ∀ member ∈ members, Formed member.2) :
      Formed (.object members)

mutual

/-- The value that comes back. -/
def reread : Json → Json
  | null => null
  | bool b => bool b
  | numeral n => numeral n
  | text t => text t.reread
  | array items => array (rereadItems items)
  | object members => object (rereadMembers members)

def rereadItems : List Json → List Json
  | [] => []
  | item :: items => reread item :: rereadItems items

def rereadMembers : List (RawText × Json) → List (RawText × Json)
  | [] => []
  | (key, value) :: members => (key.reread, reread value) :: rereadMembers members

end

mutual

/-- The tokens of a value. -/
def tokens : Json → List Token
  | null => [.null]
  | bool b => [.bool b]
  | numeral n => [.numeral n]
  | text t => [.text t]
  | array [] => [.openArray, .closeArray]
  | array (item :: items) => .openArray :: tokens item ++ itemsTokens items ++ [.closeArray]
  | object [] => [.openObject, .closeObject]
  | object (member :: members) =>
    .openObject :: memberTokens member ++ membersTokens members ++ [.closeObject]

def itemsTokens : List Json → List Token
  | [] => []
  | item :: items => .comma :: tokens item ++ itemsTokens items

def memberTokens : RawText × Json → List Token
  | (key, value) => .text key :: .colon :: tokens value

def membersTokens : List (RawText × Json) → List Token
  | [] => []
  | member :: members => .comma :: memberTokens member ++ membersTokens members

end

/-! ## Scanning -/

section Scanning

open Token

/-- The text of a value is scanned as the tokens of the value that comes back, whatever follows it
that closes a value. -/
def Scans (json : Json) : Prop :=
  ∀ (read : List Token) {rest : List Char}, Closes rest →
    after read (json.toChars ++ rest) = after (json.reread.tokens.reverse ++ read) rest

/-- A mark is a token of its own. -/
theorem after_mark {c : Char} (token : Token) {read : List Token}
    (hmark : step? (read, .between) c = some (token :: read, .between)) (cs : List Char) :
    after read (c :: cs) = after (token :: read) cs := by
  rw [after, List.foldlM_cons, hmark]
  rfl

theorem closes_items {items : List Json} {rest : List Char} (hrest : Closes rest) :
    Closes (itemsChars items ++ rest) := by
  cases items with
  | nil => exact hrest
  | cons item items => exact List.mem_cons_self ..

theorem closes_members {members : List (RawText × Json)} {rest : List Char} (hrest : Closes rest) :
    Closes (membersChars members ++ rest) := by
  cases members with
  | nil => exact hrest
  | cons member members => exact List.mem_cons_self ..

theorem after_items {items : List Json} (h : ∀ item ∈ items, Scans item) (read : List Token)
    {rest : List Char} (hrest : Closes rest) :
    after read (itemsChars items ++ rest) =
      after ((itemsTokens (rereadItems items)).reverse ++ read) rest := by
  induction items generalizing read with
  | nil => rfl
  | cons item items ih =>
    rw [List.forall_mem_cons] at h
    rw [itemsChars, List.append_assoc, List.cons_append, after_mark .comma rfl,
      h.1 _ (closes_items hrest), ih h.2]
    simp [rereadItems, itemsTokens]

theorem after_member {member : RawText × Json} (h : Scans member.2) (read : List Token)
    {rest : List Char} (hrest : Closes rest) :
    after read (memberChars member ++ rest) =
      after ((memberTokens (member.1.reread, member.2.reread)).reverse ++ read) rest := by
  obtain ⟨key, value⟩ := member
  rw [memberChars, List.append_assoc, after_text, List.cons_append, after_mark .colon rfl,
    h _ hrest]
  simp [memberTokens]

theorem after_members {members : List (RawText × Json)} (h : ∀ member ∈ members, Scans member.2)
    (read : List Token) {rest : List Char} (hrest : Closes rest) :
    after read (membersChars members ++ rest) =
      after ((membersTokens (rereadMembers members)).reverse ++ read) rest := by
  induction members generalizing read with
  | nil => rfl
  | cons member members ih =>
    rw [List.forall_mem_cons] at h
    rw [membersChars, List.append_assoc, List.cons_append, after_mark .comma rfl,
      after_member h.1 _ (closes_members hrest), ih h.2]
    simp [rereadMembers, membersTokens]

theorem scans (json : Json) (hformed : json.Formed) : json.Scans := by
  induction json using inductionOn with
  | null => exact fun read rest hrest => after_null hrest
  | bool b =>
    cases b with
    | false => exact fun read rest hrest => after_false hrest
    | true => exact fun read rest hrest => after_true hrest
  | numeral n =>
    obtain ⟨⟩ | ⟨⟩ | hn := hformed
    exact fun read rest hrest => after_numeral hn hrest
  | text t => exact fun read rest _ => after_text read t rest
  | array items ih =>
    cases hformed with
    | array hformed =>
      intro read rest hrest
      cases items with
      | nil => rfl
      | cons item items =>
        have hscans : ∀ item' ∈ item :: items, Scans item' := fun item' hi =>
          ih item' hi (hformed item' hi)
        rw [List.forall_mem_cons] at hscans
        have hclose : Closes (']' :: rest) := by simp [Closes]
        simp only [toChars, List.append_assoc, List.cons_append, List.nil_append]
        rw [after_mark .openArray rfl, hscans.1 _ (closes_items hclose),
          after_items hscans.2 _ hclose, after_mark .closeArray rfl]
        simp [reread, rereadItems, tokens]
  | object members ih =>
    cases hformed with
    | object hformed =>
      intro read rest hrest
      cases members with
      | nil => rfl
      | cons member members =>
        have hscans : ∀ member' ∈ member :: members, Scans member'.2 := fun member' hm =>
          ih member' hm (hformed member' hm)
        rw [List.forall_mem_cons] at hscans
        have hclose : Closes ('\x7d' :: rest) := by simp [Closes]
        simp only [toChars, List.append_assoc, List.cons_append, List.nil_append]
        rw [after_mark .openObject rfl, after_member hscans.1 _ (closes_members hclose),
          after_members hscans.2 _ hclose, after_mark .closeObject rfl]
        simp [reread, rereadMembers, tokens]

theorem ofChars?_toChars {json : Json} (hformed : json.Formed) :
    ofChars? json.toChars = some json.reread.tokens := by
  have hscan : after [] (json.toChars ++ []) = after (json.reread.tokens.reverse ++ []) [] :=
    scans json hformed [] trivial
  rw [List.append_nil, List.append_nil] at hscan
  rw [ofChars?_eq, hscan]
  exact congrArg some (List.reverse_reverse _)

end Scanning

/-! ## Reading -/

section Reading

open Expect

/-- Where a value may come, its tokens lead behind it, whatever follows. -/
def Parses (json : Json) : Prop :=
  ∀ (frames : List Frame) (rest : List Token),
    (json.tokens ++ rest).foldlM step? (.value frames) =
      rest.foldlM step? (.afterValue json frames)

theorem foldlM_token {expect : Expect} (next : Expect) {token : Token}
    (hstep : expect.step? token = some next) (rest : List Token) :
    (token :: rest).foldlM step? expect = rest.foldlM step? next := by
  rw [List.foldlM_cons, hstep]
  rfl

/-- Behind an item of an array come the others. Those that are read are kept last one first. -/
theorem foldlM_items {items : List Json} (h : ∀ item ∈ items, Parses item) (value : Json)
    (before : List Json) (frames : List Frame) (rest : List Token) :
    (itemsTokens items ++ .closeArray :: rest).foldlM step?
        (.afterValue value (.array before :: frames)) =
      rest.foldlM step? (.afterValue (.array ((value :: before).reverse ++ items)) frames) := by
  induction items generalizing value before with
  | nil =>
    rw [List.append_nil]
    exact foldlM_token _ rfl rest
  | cons item items ih =>
    rw [List.forall_mem_cons] at h
    rw [itemsTokens, List.append_assoc, List.cons_append,
      foldlM_token (.value (.array (value :: before) :: frames)) rfl, h.1, ih h.2,
      List.reverse_cons, List.append_assoc]
    rfl

theorem foldlM_members {members : List (RawText × Json)} (h : ∀ member ∈ members, Parses member.2)
    (key : RawText) (value : Json) (before : List (RawText × Json)) (frames : List Frame)
    (rest : List Token) :
    (membersTokens members ++ .closeObject :: rest).foldlM step?
        (.afterValue value (.object before key :: frames)) =
      rest.foldlM step?
        (.afterValue (.object (((key, value) :: before).reverse ++ members)) frames) := by
  induction members generalizing key value before with
  | nil =>
    rw [List.append_nil]
    exact foldlM_token _ rfl rest
  | cons member members ih =>
    obtain ⟨key', value'⟩ := member
    rw [List.forall_mem_cons] at h
    rw [membersTokens, memberTokens, List.append_assoc, List.cons_append, List.cons_append,
      List.cons_append, foldlM_token (.key ((key, value) :: before) frames) rfl,
      foldlM_token (.colon ((key, value) :: before) key' frames) rfl,
      foldlM_token (.value (.object ((key, value) :: before) key' :: frames)) rfl, h.1,
      ih h.2, List.reverse_cons, List.append_assoc]
    rfl

/-- The first item of an array is read as any other. -/
theorem foldlM_firstItem (json : Json) (frames : List Frame) (rest : List Token) :
    (json.tokens ++ rest).foldlM step? (.firstItem frames) =
      (json.tokens ++ rest).foldlM step? (.value (.array [] :: frames)) := by
  have hopen : ∃ token more, json.tokens = token :: more ∧ token ≠ .closeArray := by
    match json with
    | .null | .bool _ | .numeral _ | .text _ => exact ⟨_, _, rfl, nofun⟩
    | .array [] | .array (_ :: _) => exact ⟨_, _, rfl, nofun⟩
    | .object [] | .object (_ :: _) => exact ⟨_, _, rfl, nofun⟩
  obtain ⟨token, more, heq, hne⟩ := hopen
  rw [heq, List.cons_append, List.foldlM_cons, List.foldlM_cons]
  cases token with
  | closeArray => exact absurd rfl hne
  | _ => rfl

theorem parses (json : Json) : json.Parses := by
  induction json using inductionOn with
  | null => exact fun frames rest => rfl
  | bool b => exact fun frames rest => rfl
  | numeral n => exact fun frames rest => rfl
  | text t => exact fun frames rest => rfl
  | array items ih =>
    intro frames rest
    cases items with
    | nil => rfl
    | cons item items =>
      rw [List.forall_mem_cons] at ih
      simp only [tokens, List.append_assoc, List.cons_append, List.nil_append]
      rw [foldlM_token (.firstItem frames) rfl, foldlM_firstItem, ih.1, foldlM_items ih.2]
      rfl
  | object members ih =>
    intro frames rest
    cases members with
    | nil => rfl
    | cons member members =>
      obtain ⟨key, value⟩ := member
      rw [List.forall_mem_cons] at ih
      simp only [tokens, memberTokens, List.append_assoc, List.cons_append, List.nil_append]
      rw [foldlM_token (.firstKey frames) rfl,
        foldlM_token (.colon [] key frames) rfl,
        foldlM_token (.value (.object [] key :: frames)) rfl, ih.1, foldlM_members ih.2]
      rfl

theorem ofTokens?_tokens (json : Json) : ofTokens? json.tokens = some json := by
  have hparse := json.parses [] []
  rw [List.append_nil] at hparse
  rw [ofTokens?, hparse]
  rfl

end Reading

theorem ofString?_toString {json : Json} (hformed : json.Formed) :
    ofString? json.toString = some json.reread := by
  rw [ofString?, Json.toString, String.toList_ofList, ofChars?_toChars hformed, Option.bind_some,
    ofTokens?_tokens]

end Retrieval.Json
