import Mathlib.Data.List.Nodup
import Mathlib.Tactic.Common
import Retrieval.Index
import Retrieval.Proofs.Outcome
import Retrieval.Proofs.Records

/-!
# Indexes and the documents they were built of

An index that has accepted some documents, fewer than there are document numbers, keeps nothing of
them but what they say: a list occurs in a document where the tokens of its field are its term
(`Index.BuiltOf.reflects`).

Every accepted document is recorded once in every list, most often at no position at all. This is
the step (`Index.record_addTokens`) from which the history follows by induction.
-/

set_option autoImplicit false

namespace Retrieval

/-! ## Tokens -/

theorem positionsOf_eq_nil_iff {term : String} {tokens : List String} :
    positionsOf term tokens = [] ↔ term ∉ tokens := by
  rw [positionsOf, List.map_eq_nil_iff, List.filter_eq_nil_iff]
  constructor
  · intro h hmem
    obtain ⟨i, hi, he⟩ := List.getElem_of_mem hmem
    have hzip : (term, i) ∈ tokens.zipIdx := by
      rw [List.mk_mem_zipIdx_iff_getElem?, List.getElem?_eq_getElem hi, he]
    exact h (term, i) hzip (by simp)
  · intro h pair hpair he
    rw [decide_eq_true_eq] at he
    exact h (he ▸ List.fst_mem_of_mem_zipIdx hpair)

theorem length_positionsOf (term : String) (tokens : List String) :
    (positionsOf term tokens).length = tokens.count term := by
  have hmap : tokens.count term = (tokens.zipIdx.map (·.1)).count term := by
    rw [List.zipIdx_map_fst]
  rw [positionsOf, List.length_map, hmap, List.count_eq_countP, List.countP_map,
    List.countP_eq_length_filter]
  congr 2

theorem nodup_eraseDups {β : Type} [DecidableEq β] (items : List β) : items.eraseDups.Nodup := by
  match items with
  | [] => simp
  | item :: rest =>
    rw [List.eraseDups_cons, List.nodup_cons, List.mem_eraseDups]
    exact ⟨by simp, nodup_eraseDups _⟩
termination_by items.length
decreasing_by exact Nat.lt_succ_of_le (List.length_filter_le _ _)

theorem firstRepeated_eq_none_iff {seen names : List String} :
    firstRepeated? seen names = none ↔ names.Nodup ∧ ∀ name ∈ names, name ∉ seen := by
  induction names generalizing seen with
  | nil => simp [firstRepeated?]
  | cons name rest ih =>
    rw [firstRepeated?]
    by_cases hseen : name ∈ seen
    · simp [hseen]
    · rw [if_neg hseen, ih, List.nodup_cons]
      simp only [List.mem_cons, not_or]
      grind

theorem lookup_eq_none {β : Type} {entries : List (String × β)} {name : String}
    (h : name ∉ entries.map (·.1)) : entries.lookup name = none := by
  rw [List.lookup_eq_none_iff]
  intro entry hentry
  rw [bne_iff_ne]
  rintro rfl
  exact h (List.mem_map_of_mem hentry)

/-- A document as it is added, with its fields as tokens. -/
structure Document where
  id : String
  fields : List (String × List String)

namespace Document

/-- The tokens of a field; none where the document lacks it. -/
def tokens (document : Document) (field : String) : List String :=
  (document.fields.lookup field).getD []

/-- The tokens of a field of the document with a number. -/
def tokensOf (documents : List Document) (field : String) (doc : DocId) : List String :=
  (documents[doc.toNat]?.map (·.tokens field)).getD []

theorem tokensOf_of_getElem? {documents : List Document} {document : Document} {field : String}
    {doc : DocId} (h : documents[doc.toNat]? = some document) :
    tokensOf documents field doc = document.tokens field := by
  rw [tokensOf, h]
  rfl

theorem getElem?_concat (documents : List Document) (document : Document) (i : Nat) :
    (documents ++ [document])[i]? =
      if i = documents.length then some document else documents[i]? := by
  simpa using @Array.getElem?_push _ i documents.toArray document

theorem tokensOf_append (documents : List Document) (document : Document) (field : String)
    (doc : DocId) :
    tokensOf (documents ++ [document]) field doc =
      if doc.toNat = documents.length then document.tokens field
      else tokensOf documents field doc := by
  rw [tokensOf, getElem?_concat]
  split <;> rfl

end Document

namespace Index

/-! ## One document -/

theorem postings_insert (index : Index) (field term : String) (list : PostingList)
    (other word : String) :
    ({ index with lists := index.lists.insert (field, term) list } : Index).postings other word =
      if field = other ∧ term = word then list else index.postings other word := by
  rw [postings, Std.HashMap.getD_insert]
  simp [postings]

theorem postings_addLength (index : Index) (doc : DocId) (name : String) (length : Nat)
    (field term : String) :
    (index.addLength doc name length).postings field term = index.postings field term := rfl

theorem addTerms_eq_ok {index next : Index} {doc : DocId} {field : String}
    {tokens terms : List String} (hnodup : terms.Nodup)
    (h : index.addTerms doc field tokens terms = (next, .ok ())) :
    next.ids = index.ids ∧
      (∀ term ∈ terms, (index.postings field term).appendAt doc (positionsOf term tokens) =
        (next.postings field term, .ok ())) ∧
      ∀ other word, ¬ (other = field ∧ word ∈ terms) →
        next.postings other word = index.postings other word := by
  induction terms generalizing index with
  | nil =>
    rw [addTerms, Prod.mk.injEq] at h
    obtain ⟨rfl, -⟩ := h
    simp
  | cons term rest ih =>
    rw [List.nodup_cons] at hnodup
    rcases happend : (index.postings field term).appendAt doc (positionsOf term tokens) with
      ⟨list, fault | ⟨⟨⟩⟩⟩
    · rw [addTerms, happend] at h
      cases h
    · rw [addTerms, happend] at h
      obtain ⟨hids, hlisted, hother⟩ := ih hnodup.2 h
      refine ⟨hids, List.forall_mem_cons.mpr ⟨?_, fun word hw => ?_⟩, fun other word hne => ?_⟩
      · rw [hother field term (by simp [hnodup.1]), postings_insert, if_pos ⟨rfl, rfl⟩]
        exact happend
      · have hne : term ≠ word := by
          rintro rfl
          exact hnodup.1 hw
        have hlist := hlisted word hw
        rwa [postings_insert, if_neg (by simp [hne])] at hlist
      · rw [hother other word (by simp at hne ⊢; grind), postings_insert, if_neg (by grind)]

/-- Every list of the field records the places of its term, and no other list is touched. -/
theorem record_addTerms {index next : Index} {doc : DocId} {field : String} {tokens : List String}
    (h : index.addTerms doc field tokens tokens.eraseDups = (next, .ok ())) (other word : String) :
    Proximity.record (index.postings other word) doc
        (if other = field then positionsOf word tokens else []) =
      (next.postings other word, .ok ()) := by
  obtain ⟨-, hlisted, hother⟩ := addTerms_eq_ok (nodup_eraseDups tokens) h
  simp only [List.mem_eraseDups] at hlisted hother
  by_cases hin : other = field ∧ word ∈ tokens
  · obtain ⟨rfl, hw⟩ := hin
    have hne : positionsOf word tokens ≠ [] := by
      rw [Ne, positionsOf_eq_nil_iff, not_not]
      exact hw
    rw [if_pos rfl, Proximity.record, if_neg (by simpa using hne)]
    exact hlisted word hw
  · have hnil : (if other = field then positionsOf word tokens else []) = [] := by
      split
      · exact positionsOf_eq_nil_iff.mpr fun hw => hin ⟨‹_›, hw⟩
      · rfl
    rw [hnil, hother other word hin]
    rfl

theorem addFields_eq_ok {index next : Index} {doc : DocId}
    {fields : List (String × List String)} (hnodup : (fields.map (·.1)).Nodup)
    (h : index.addFields doc fields = (next, .ok ())) :
    next.ids = index.ids ∧ ∀ field term,
      Proximity.record (index.postings field term) doc
          (positionsOf term ((fields.lookup field).getD [])) =
        (next.postings field term, .ok ()) := by
  induction fields generalizing index with
  | nil =>
    rw [addFields, Prod.mk.injEq] at h
    obtain ⟨rfl, -⟩ := h
    exact ⟨rfl, fun field term => rfl⟩
  | cons entry rest ih =>
    obtain ⟨name, tokens⟩ := entry
    rw [List.map_cons, List.nodup_cons] at hnodup
    rw [addFields] at h
    split at h
    · simp at h
    · rename_i middle hterms
      obtain ⟨hids, hrest⟩ := ih hnodup.2 h
      have hmiddle := addTerms_eq_ok (nodup_eraseDups tokens) hterms
      refine ⟨hids.trans hmiddle.1, fun field term => ?_⟩
      have hfirst := record_addTerms hterms field term
      have hlast := hrest field term
      rw [List.lookup_cons]
      by_cases he : field = name
      · -- No later entry has this name, so its lists are not touched again.
        subst he
        have hnone : rest.lookup field = none := lookup_eq_none hnodup.1
        rw [hnone] at hlast
        rw [if_pos rfl, postings_addLength] at hfirst
        rw [Proximity.record_nil hlast, beq_self_eq_true]
        exact hfirst
      · rw [if_neg he] at hfirst
        rw [Proximity.record_nil hfirst] at hlast
        rw [beq_false_of_ne he]
        exact hlast

/-- An accepted document had a new identifier and no field twice. -/
theorem addTokens_eq_ok {index next : Index} {document : Document} {doc : DocId}
    (h : index.addTokens document.id document.fields = (next, .ok doc)) :
    index.numbers.contains document.id = false ∧ (document.fields.map (·.1)).Nodup ∧
      doc = index.size.toUInt32 ∧
      (index.register document.id).2.addFields doc document.fields = (next, .ok ()) := by
  rw [addTokens] at h
  split at h
  · simp at h
  · rename_i hnew
    split at h
    · simp at h
    · rename_i hnames
      obtain ⟨hnodup, -⟩ := firstRepeated_eq_none_iff.mp hnames
      rw [Prod.mk.injEq] at h
      obtain ⟨hnext, hdoc⟩ := h
      refine ⟨Bool.eq_false_iff.mpr hnew, hnodup, ?_⟩
      cases hfields : (index.register document.id).2.addFields (index.register document.id).1
          document.fields with
      | mk after outcome =>
        rw [hfields] at hnext hdoc
        obtain rfl : after = next := hnext
        obtain ⟨⟨⟩, rfl, rfl⟩ := map_eq_ok.mp hdoc
        exact ⟨rfl, hfields⟩

/-- An accepted document gets the next number and is recorded in every list where its field has the
term. -/
theorem record_addTokens {index next : Index} {document : Document} {doc : DocId}
    (h : index.addTokens document.id document.fields = (next, .ok doc)) :
    doc = index.size.toUInt32 ∧ next.size = index.size + 1 ∧ ∀ field term,
      Proximity.record (index.postings field term) doc
          (positionsOf term (document.tokens field)) =
        (next.postings field term, .ok ()) := by
  obtain ⟨-, hnodup, hdoc, hfields⟩ := addTokens_eq_ok h
  obtain ⟨hids, hrecord⟩ := addFields_eq_ok hnodup hfields
  refine ⟨hdoc, ?_, fun field term => hrecord field term⟩
  rw [size, hids, register, Array.size_push, size]

/-! ## All lists -/

section Lists

variable {p : PostingList → Prop} {index : Index} {doc : DocId}
  (hstep : ∀ {list next positions}, p list → list.appendAt doc positions = (next, .ok ()) → p next)

include hstep

/-- What a list keeps when a document is appended, all lists keep when its terms are added. -/
theorem postings_addTerms (field : String) (tokens terms : List String)
    (h : ∀ other word, p (index.postings other word)) :
    ∀ other word, p ((index.addTerms doc field tokens terms).1.postings other word) := by
  induction terms generalizing index with
  | nil => exact h
  | cons term rest ih =>
    rcases happend : (index.postings field term).appendAt doc (positionsOf term tokens) with
      ⟨list, outcome⟩
    have hlist : p list := by
      cases outcome with
      | error fault =>
        rw [PostingList.appendAt_eq_error happend]
        exact h field term
      | ok => exact hstep (h field term) happend
    have hentered : ∀ other word, p (({ index with
        lists := index.lists.insert (field, term) list } : Index).postings other word) := by
      intro other word
      rw [postings_insert]
      split
      · exact hlist
      · exact h other word
    rw [addTerms, happend]
    cases outcome with
    | error fault => exact hentered
    | ok => exact ih hentered

theorem postings_addFields (fields : List (String × List String))
    (h : ∀ other word, p (index.postings other word)) :
    ∀ other word, p ((index.addFields doc fields).1.postings other word) := by
  induction fields generalizing index with
  | nil => exact h
  | cons entry rest ih =>
    obtain ⟨field, tokens⟩ := entry
    have hlength : ∀ other word,
        p ((index.addLength doc field tokens.length).postings other word) := h
    have hterms := postings_addTerms hstep field tokens tokens.eraseDups hlength
    rw [addFields]
    split
    · rename_i after fault he
      rwa [he] at hterms
    · rename_i after he
      rw [he] at hterms
      exact ih hterms

end Lists

/-! ## Ascending lists -/

def Ordered (index : Index) : Prop := ∀ field word, (index.postings field word).Ascending

theorem ordered_empty : Ordered Index.empty := fun field word => by
  rw [postings, show Index.empty.lists = ∅ from rfl, Std.HashMap.getD_empty]
  exact PostingList.ascending_empty field

theorem Ordered.addTokens {index : Index} (ho : index.Ordered) (id : String)
    (fields : List (String × List String)) : (index.addTokens id fields).1.Ordered := by
  rw [Index.addTokens]
  split
  · exact ho
  · split
    · exact ho
    · have hregister : (index.register id).2.Ordered := ho
      exact postings_addFields
        (fun ha happend => ha.append (PostingList.appendAt_eq_ok happend).2) fields hregister

/-- The index after some documents were offered to it one after the other. -/
def offered (index : Index) (documents : List Document) : Index :=
  documents.foldl (fun index document => (index.addTokens document.id document.fields).1) index

/-- What an index keeps whenever a document is added, it keeps whatever it is offered. -/
theorem offered_keeps {p : Index → Prop}
    (hstep : ∀ {index : Index} (id : String) (fields : List (String × List String)),
      p index → p (index.addTokens id fields).1)
    {index : Index} (h : p index) (documents : List Document) : p (index.offered documents) := by
  induction documents generalizing index with
  | nil => exact h
  | cons document rest ih => exact ih (hstep document.id document.fields h)

/-- Every index of a program is ordered, whatever it refused. -/
theorem ordered_of_offered (documents : List Document) : (empty.offered documents).Ordered :=
  offered_keeps (fun id fields ho => ho.addTokens id fields) ordered_empty documents

/-! ## All documents -/

/-- The index that a new one has become after it accepted some documents. -/
inductive BuiltOf : List Document → Index → Prop
  | empty : BuiltOf [] Index.empty
  | add {documents : List Document} {index next : Index} {document : Document} {doc : DocId}
      (before : BuiltOf documents index)
      (accepted : index.addTokens document.id document.fields = (next, .ok doc)) :
      BuiltOf (documents ++ [document]) next

/-- What the lists of an index are, however many documents it has accepted. -/
structure Listed (index : Index) : Prop where
  field_eq : ∀ field term, (index.postings field term).field = field
  faithful : ∀ field term, (index.postings field term).Faithful

theorem Listed.ordered {index : Index} (hl : index.Listed) : index.Ordered :=
  fun field term => (hl.faithful field term).ascending

theorem postings_empty (field term : String) :
    Index.empty.postings field term = PostingList.empty field :=
  Std.HashMap.getD_empty

theorem listed_empty : Index.empty.Listed := by
  refine ⟨fun field term => ?_, fun field term => ?_⟩
  · rw [postings_empty, PostingList.empty]
  · rw [postings_empty]
    exact PostingList.faithful_empty field

theorem Listed.add {index next : Index} {document : Document} {doc : DocId} (hl : index.Listed)
    (h : index.addTokens document.id document.fields = (next, .ok doc)) : next.Listed := by
  obtain ⟨-, -, hrecord⟩ := record_addTokens h
  refine ⟨fun field term => ?_, fun field term => ?_⟩
  · rw [Proximity.field_record (hrecord field term), hl.field_eq]
  · exact Proximity.faithful_record (hl.faithful field term) (hrecord field term)

theorem BuiltOf.listed {documents : List Document} {index : Index} (h : BuiltOf documents index) :
    index.Listed := by
  induction h with
  | empty => exact listed_empty
  | add _ accepted ih => exact ih.add accepted

/-- What an index keeps of the documents that it was built of. -/
structure Reflects (index : Index) (documents : List Document) : Prop where
  size_eq : index.size = documents.length
  field_eq : ∀ field term, (index.postings field term).field = field
  faithful : ∀ field term, (index.postings field term).Faithful
  places_eq : ∀ field term doc, (index.postings field term).places doc =
    positionsOf term (Document.tokensOf documents field doc)

theorem Reflects.listed {documents : List Document} {index : Index}
    (hr : index.Reflects documents) : index.Listed := ⟨hr.field_eq, hr.faithful⟩

theorem Reflects.ordered {documents : List Document} {index : Index}
    (hr : index.Reflects documents) : index.Ordered := hr.listed.ordered

theorem reflects_empty : Index.empty.Reflects [] := by
  refine ⟨rfl, listed_empty.field_eq, listed_empty.faithful, fun field term doc => ?_⟩
  rw [postings_empty]
  rfl

theorem Reflects.add {documents : List Document} {index next : Index} {document : Document}
    {doc : DocId} (hr : index.Reflects documents) (hn : documents.length < UInt32.size)
    (h : index.addTokens document.id document.fields = (next, .ok doc)) :
    next.Reflects (documents ++ [document]) := by
  obtain ⟨hdoc, hsize, hrecord⟩ := record_addTokens h
  have hnumber : doc.toNat = documents.length := by
    rw [hdoc, hr.size_eq]
    exact UInt32.toNat_ofNat_of_lt' hn
  have hnew : ∀ field term, (index.postings field term).places doc = [] := fun field term => by
    rw [hr.places_eq, positionsOf_eq_nil_iff, Document.tokensOf, hnumber]
    simp
  have hlisted : next.Listed := hr.listed.add h
  refine ⟨?_, hlisted.field_eq, hlisted.faithful, fun field term other => ?_⟩
  · rw [hsize, hr.size_eq, List.length_append, List.length_singleton]
  · rw [Proximity.places_record (hnew field term) (hr.faithful field term) (hrecord field term),
      Document.tokensOf_append, ← hnumber]
    by_cases he : other = doc
    · subst he
      rw [Function.update_self, if_pos rfl]
    · rw [Function.update_of_ne he, if_neg fun hne => he (UInt32.toNat_inj.mp hne), hr.places_eq]

/-- Until it runs out of numbers, an index reflects the documents it has accepted. -/
theorem BuiltOf.reflects {documents : List Document} {index : Index}
    (h : BuiltOf documents index) (hn : documents.length < UInt32.size) :
    index.Reflects documents := by
  induction h with
  | empty => exact reflects_empty
  | @add documents _ _ document _ _ accepted ih =>
    rw [List.length_append, List.length_singleton] at hn
    exact (ih (by omega)).add (by omega) accepted

def sampleDocument : Document := { id := "first", fields := [("body", ["red", "blue"])] }

def sample : Index := (empty.addTokens sampleDocument.id sampleDocument.fields).1

theorem builtOf_sample : sample.BuiltOf [sampleDocument] := by
  have haccepted : empty.addTokens sampleDocument.id sampleDocument.fields = (sample, .ok 0) := by
    refine Prod.ext rfl ?_
    simp [sampleDocument, addTokens, empty, firstRepeated?, register, addFields, addTerms,
      addLength, size, postings, column, PostingList.appendAt, Posting.ofPositions,
      PostingList.append, PostingList.empty, positionsOf, strictlyIncreasing, List.eraseDups_cons,
      Except.map, Std.HashMap.getD_insert]
  exact .add .empty haccepted

end Index

end Retrieval
