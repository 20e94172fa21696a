import Mathlib.Algebra.BigOperators.Group.List.Basic
import Retrieval.Proofs.Index.History
import Retrieval.Proofs.Tally

/-!
# Identifiers, lengths and totals of an index

Beside its posting lists an index has identifiers and columns, which follow the accepted documents
as the lists do: every identifier has the number of its document and no other
(`Index.BuiltOf.registered`), and the column of a field has the lengths of the field in all
documents, from which its totals are counted (`Index.BuiltOf.measured`). With the lists of
`Index.BuiltOf.reflects` this is all that can be asked of an index.

However many documents an index was offered, and whatever became of them, no two of those that it
holds have the same identifier (`Index.distinct_of_offered`), and every column is as long as there
are documents, so that a length always has a place to go to (`Index.number_lt_column`).

Adding terms touches lists only, and adding fields touches no identifiers, so each table is followed
through one function. A column is the same whether it is kept or would be new (`Index.column`): the
lookups are functions of it, and a new document adds its length at the end.
-/

set_option autoImplicit false

namespace Retrieval

theorem modify_concat {β : Type} (earlier : List β) (last : β) (f : β → β) :
    (earlier ++ [last]).modify earlier.length f = earlier ++ [f last] := by
  rw [List.modify_eq_take_cons_drop (by simp)]
  simp

namespace Document

theorem id_eq_of_getElem? {documents : List Document} {document : Document} {i : Nat}
    (h : documents[i]? = some document) : document.id ∈ documents.map (·.id) :=
  List.mem_map_of_mem (List.mem_of_getElem? h)

/-- The totals of a field over some documents. -/
def totalsOf (documents : List Document) (field : String) : FieldTotals where
  tokens := (documents.map fun document => (document.tokens field).length).sum
  docs := documents.countP fun document => 0 < (document.tokens field).length

/-- How often a term occurs in a field, over some documents. -/
def countIn (documents : List Document) (field term : String) : Nat :=
  (documents.map fun document => (document.tokens field).count term).sum

end Document

namespace Index

/-! ## One document -/

theorem addTerms_statistics {index next : Index} {doc : DocId} {field : String}
    {tokens terms : List String} {outcome : Except Fault Unit}
    (h : index.addTerms doc field tokens terms = (next, outcome)) :
    next.ids = index.ids ∧ next.numbers = index.numbers ∧ next.lengths = index.lengths := by
  induction terms generalizing index with
  | nil =>
    rw [addTerms, Prod.mk.injEq] at h
    obtain ⟨rfl, -⟩ := h
    exact ⟨rfl, rfl, rfl⟩
  | cons term rest ih =>
    rcases happend : (index.postings field term).appendAt doc (positionsOf term tokens) with
      ⟨list, fault | ⟨⟨⟩⟩⟩
    · rw [addTerms, happend] at h
      cases h
      exact ⟨rfl, rfl, rfl⟩
    · rw [addTerms, happend] at h
      have hrest := ih h
      exact hrest

theorem column_addTerms {index next : Index} {doc : DocId} {field : String}
    {tokens terms : List String} {outcome : Except Fault Unit}
    (h : index.addTerms doc field tokens terms = (next, outcome)) (name : String) :
    next.column name = index.column name := by
  obtain ⟨hids, -, hlengths⟩ := addTerms_statistics h
  rw [column, column, size, size, hids, hlengths]

theorem column_addLength (index : Index) (doc : DocId) (name : String) (length : Nat)
    (field : String) :
    (index.addLength doc name length).column field =
      if name = field then (index.column field).modify doc.toNat (· + length)
      else index.column field := by
  have hinsert : (index.addLength doc name length).column field =
      if name = field then (index.column name).modify doc.toNat (· + length)
      else index.column field := by
    simp only [column, addLength, Std.HashMap.getD_insert, beq_iff_eq]
    rfl
  rw [hinsert]
  split
  · rename_i he
    rw [he]
  · rfl

/-- A new document has no tokens in a field that is known, and a new field has none in it either. -/
theorem column_register (index : Index) (id field : String) :
    (index.register id).2.column field = (index.column field).push 0 := by
  simp only [column, register, size, Std.HashMap.getD_eq_getD_getElem?, Std.HashMap.getElem?_map,
    Array.size_push]
  cases index.lengths[field]? with
  | none => exact Array.replicate_succ
  | some column => rfl

theorem addFields_statistics {index next : Index} {doc : DocId}
    {fields : List (String × List String)} (hnodup : (fields.map (·.1)).Nodup)
    (h : index.addFields doc fields = (next, .ok ())) :
    next.ids = index.ids ∧ next.numbers = index.numbers ∧
      ∀ field, next.column field =
        (index.column field).modify doc.toNat (· + ((fields.lookup field).getD []).length) := by
  have hzero : ∀ column : Array Nat, column.modify doc.toNat (· + 0) = column := fun column =>
    Array.ext (Array.size_modify ..) fun i hi hi' => by simp [Array.getElem_modify]
  induction fields generalizing index with
  | nil =>
    rw [addFields, Prod.mk.injEq] at h
    obtain ⟨rfl, -⟩ := h
    exact ⟨rfl, rfl, fun field => (hzero _).symm⟩
  | cons entry rest ih =>
    obtain ⟨name, tokens⟩ := entry
    rw [List.map_cons, List.nodup_cons] at hnodup
    rw [addFields] at h
    split at h
    · simp at h
    · rename_i middle hterms
      obtain ⟨hids, hnumbers, hcolumns⟩ := ih hnodup.2 h
      obtain ⟨hids', hnumbers', -⟩ := addTerms_statistics hterms
      refine ⟨hids.trans hids', hnumbers.trans hnumbers', fun field => ?_⟩
      rw [hcolumns, column_addTerms hterms, column_addLength, List.lookup_cons]
      by_cases he : name = field
      · -- No later entry has this name, so nothing is added to its column again.
        subst he
        rw [if_pos rfl, beq_self_eq_true, lookup_eq_none hnodup.1]
        exact hzero _
      · rw [if_neg he, beq_false_of_ne (Ne.symm he)]

/-! ## Identifiers -/

/-- Identifiers are those of the documents in their order, and no two are alike. -/
structure Registered (index : Index) (documents : List Document) : Prop where
  ids_eq : index.ids.toList = documents.map (·.id)
  nodup : (documents.map (·.id)).Nodup
  number_iff : ∀ (id : String) (doc : DocId),
    index.numbers[id]? = some doc ↔ documents[doc.toNat]?.map (·.id) = some id

theorem registered_empty : empty.Registered [] where
  ids_eq := rfl
  nodup := .nil
  number_iff id doc := by simp [empty]

theorem Registered.contains_iff {index : Index} {documents : List Document}
    (hr : index.Registered documents) (hn : documents.length ≤ UInt32.size) (id : String) :
    index.numbers.contains id = true ↔ id ∈ documents.map (·.id) := by
  rw [Std.HashMap.contains_eq_isSome_getElem?, Option.isSome_iff_exists]
  constructor
  · rintro ⟨doc, hdoc⟩
    obtain ⟨document, hd, rfl⟩ := Option.map_eq_some_iff.mp ((hr.number_iff id doc).mp hdoc)
    exact Document.id_eq_of_getElem? hd
  · intro hm
    obtain ⟨i, hi, he⟩ := List.getElem_of_mem hm
    rw [List.length_map] at hi
    refine ⟨i.toUInt32, (hr.number_iff id _).mpr ?_⟩
    rw [UInt32.toNat_ofNat_of_lt' (Nat.lt_of_lt_of_le hi hn), ← List.getElem?_map, ← he]
    exact List.getElem?_eq_getElem _

theorem Registered.add {documents : List Document} {index next : Index} {document : Document}
    {doc : DocId} (hr : index.Registered documents) (hn : documents.length < UInt32.size)
    (h : index.addTokens document.id document.fields = (next, .ok doc)) :
    next.Registered (documents ++ [document]) := by
  obtain ⟨hnew, hnodup, hdoc, hfields⟩ := addTokens_eq_ok h
  obtain ⟨hids, hnumbers, -⟩ := addFields_statistics hnodup hfields
  have hfresh : document.id ∉ documents.map (·.id) := fun hm => by
    rw [(hr.contains_iff (Nat.le_of_lt hn) _).mpr hm] at hnew
    cases hnew
  have hsize : index.size = documents.length := by
    rw [size, ← Array.length_toList, hr.ids_eq, List.length_map]
  have hnumber : doc.toNat = documents.length := by
    rw [hdoc, hsize]
    exact UInt32.toNat_ofNat_of_lt' hn
  refine ⟨?_, ?_, fun id other => ?_⟩
  · rw [hids, register, Array.toList_push, hr.ids_eq, List.map_append, List.map_singleton]
  · rw [List.map_append, List.map_singleton, List.nodup_append]
    refine ⟨hr.nodup, List.nodup_singleton _, fun id hid other ho => ?_⟩
    rw [List.mem_singleton] at ho
    rintro rfl
    exact hfresh (ho ▸ hid)
  · rw [hnumbers, register, Std.HashMap.getElem?_insert, ← hdoc]
    by_cases hlast : other = doc
    · subst hlast
      have hold : index.numbers[id]? ≠ some other := fun hid => by
        rw [hr.number_iff, hnumber, List.getElem?_eq_none (Nat.le_refl _)] at hid
        cases hid
      simp [hnumber, hold]
    · have hne : other.toNat ≠ documents.length := fun he =>
        hlast (UInt32.toNat_inj.mp (he.trans hnumber.symm))
      rw [Document.getElem?_concat, if_neg hne, ← hr.number_iff]
      by_cases hid : document.id = id
      · subst hid
        have hnone : index.numbers[document.id]? ≠ some other := fun hsome => by
          obtain ⟨earlier, he, heq⟩ := Option.map_eq_some_iff.mp ((hr.number_iff _ _).mp hsome)
          exact hfresh (heq ▸ Document.id_eq_of_getElem? he)
        simp [hnone, Ne.symm hlast]
      · simp [hid]

theorem BuiltOf.registered {documents : List Document} {index : Index}
    (h : BuiltOf documents index) (hn : documents.length < UInt32.size) :
    index.Registered documents := by
  induction h with
  | empty => exact registered_empty
  | add before accepted ih =>
    rw [List.length_append, List.length_singleton] at hn
    exact (ih (by omega)).add (by omega) accepted

theorem Registered.idOf_iff {documents : List Document} {index : Index}
    (hr : index.Registered documents) {doc : DocId} {id : String} :
    index.idOf doc = .ok id ↔ documents[doc.toNat]?.map (·.id) = some id := by
  rw [← List.getElem?_map, ← hr.ids_eq, Array.getElem?_toList, idOf]
  cases index.ids[doc.toNat]? <;> simp

theorem Registered.docOf_iff {documents : List Document} {index : Index}
    (hr : index.Registered documents) {doc : DocId} {id : String} :
    index.docOf id = .ok doc ↔ documents[doc.toNat]?.map (·.id) = some id := by
  rw [← hr.number_iff, docOf]
  cases index.numbers[id]? <;> simp

theorem addFields_identifiers (index : Index) (doc : DocId)
    (fields : List (String × List String)) :
    (index.addFields doc fields).1.ids = index.ids ∧
      (index.addFields doc fields).1.numbers = index.numbers := by
  induction fields generalizing index with
  | nil => exact ⟨rfl, rfl⟩
  | cons entry rest ih =>
    obtain ⟨name, tokens⟩ := entry
    rcases hterms : (index.addLength doc name tokens.length).addTerms doc name tokens
      tokens.eraseDups with ⟨next, outcome⟩
    obtain ⟨hids, hnumbers, -⟩ := addTerms_statistics hterms
    rw [addFields, hterms]
    cases outcome with
    | error fault => exact ⟨hids, hnumbers⟩
    | ok => exact ⟨(ih next).1.trans hids, (ih next).2.trans hnumbers⟩

/-- No two documents have the same identifier, since every identifier is known once it is there. -/
structure Distinct (index : Index) : Prop where
  nodup : index.ids.toList.Nodup
  known : ∀ id ∈ index.ids.toList, index.numbers.contains id = true

theorem Distinct.register {index : Index} (h : index.Distinct) {id : String}
    (hnew : ¬ index.numbers.contains id = true) : (index.register id).2.Distinct where
  nodup := by
    rw [Index.register, Array.toList_push, List.nodup_append]
    refine ⟨h.nodup, List.nodup_singleton id, fun earlier he other ho => ?_⟩
    rw [List.mem_singleton] at ho
    rintro rfl
    exact hnew (ho ▸ h.known earlier he)
  known other ho := by
    rw [Index.register, Array.toList_push, List.mem_append, List.mem_singleton] at ho
    rw [Index.register, Std.HashMap.contains_insert, Bool.or_eq_true, beq_iff_eq]
    exact ho.symm.imp Eq.symm (h.known other)

theorem Distinct.addTokens {index : Index} (h : index.Distinct) (id : String)
    (fields : List (String × List String)) : (index.addTokens id fields).1.Distinct := by
  rw [Index.addTokens]
  split
  · exact h
  · rename_i hnew
    split
    · exact h
    · have hregister := h.register hnew
      obtain ⟨hids, hnumbers⟩ :=
        addFields_identifiers (index.register id).2 (index.register id).1 fields
      exact ⟨hids ▸ hregister.nodup, hids ▸ hnumbers ▸ hregister.known⟩

/-- However many documents an index was offered, and whatever became of them, no two of those that
it holds have the same identifier. -/
theorem distinct_of_offered (documents : List Document) : (empty.offered documents).Distinct := by
  have hempty : empty.Distinct := ⟨List.nodup_nil, List.forall_mem_nil _⟩
  exact offered_keeps (fun id fields h => h.addTokens id fields) hempty documents

theorem Distinct.idOf_ne {index : Index} (h : index.Distinct) {doc other : DocId} {id id' : String}
    (hid : index.idOf doc = .ok id) (hid' : index.idOf other = .ok id') (hne : doc ≠ other) :
    id ≠ id' := by
  have hplace {doc : DocId} {id : String} (h : index.idOf doc = .ok id) :
      index.ids.toList[doc.toNat]? = some id := by
    rw [Array.getElem?_toList]
    rw [idOf] at h
    split at h
    · rename_i hsome
      cases h
      exact hsome
    · cases h
  rintro rfl
  obtain ⟨hlt, -⟩ := List.getElem?_eq_some_iff.mp (hplace hid)
  have hsame := (List.getElem?_inj hlt h.nodup).mp ((hplace hid).trans (hplace hid').symm)
  exact hne (UInt32.toNat_inj.mp hsame)

/-! ## Columns -/

theorem toNat_size_le (index : Index) : index.size.toUInt32.toNat ≤ index.size :=
  Nat.mod_le ..

theorem lengthOf_eq_column (index : Index) (field : String) {doc : DocId}
    (hdoc : doc.toNat < index.size) :
    index.lengthOf field doc = .ok ((index.column field)[doc.toNat]?.getD 0) := by
  rw [lengthOf, if_pos hdoc, column, Std.HashMap.getD_eq_getD_getElem?]
  cases index.lengths[field]? with
  | none =>
    rw [Option.getD_none, Array.getElem?_replicate, if_pos hdoc]
    rfl
  | some column => rfl

theorem fieldTotals_eq_column (index : Index) (field : String) :
    index.fieldTotals field =
      { tokens := (index.column field).toList.sum
        docs := (index.column field).toList.countP (0 < ·) } := by
  rw [fieldTotals, column, Std.HashMap.getD_eq_getD_getElem?]
  cases index.lengths[field]? with
  | none => simp [List.countP_replicate]
  | some column =>
    rw [Option.getD_some, List.sum_eq_foldl, Array.foldl_toList, Array.countP_toList]

/-- Every column has a length for every document. -/
def Padded (index : Index) : Prop := ∀ field, (index.column field).size = index.size

theorem padded_empty : Index.empty.Padded := fun field => by
  rw [column, show Index.empty.lengths = ∅ from rfl, Std.HashMap.getD_empty, Array.size_replicate]

theorem Padded.register {index : Index} (h : index.Padded) (id : String) :
    (index.register id).2.Padded := fun field => by
  rw [column_register, Array.size_push, h field, Index.register, size, size, Array.size_push]

theorem Padded.addFields {index : Index} (h : index.Padded) (doc : DocId)
    (fields : List (String × List String)) : (index.addFields doc fields).1.Padded := by
  induction fields generalizing index with
  | nil => exact h
  | cons entry rest ih =>
    obtain ⟨name, tokens⟩ := entry
    rcases hterms : (index.addLength doc name tokens.length).addTerms doc name tokens
      tokens.eraseDups with ⟨next, outcome⟩
    have hnext : next.Padded := fun field => by
      rw [column_addTerms hterms, column_addLength, size, (addTerms_statistics hterms).1]
      split
      · exact (Array.size_modify ..).trans (h field)
      · exact h field
    rw [Index.addFields, hterms]
    cases outcome with
    | error fault => exact hnext
    | ok => exact ih hnext

theorem Padded.addTokens {index : Index} (h : index.Padded) (id : String)
    (fields : List (String × List String)) : (index.addTokens id fields).1.Padded := by
  rw [Index.addTokens]
  split
  · exact h
  · split
    · exact h
    · exact (h.register id).addFields _ fields

theorem padded_of_offered (documents : List Document) : (empty.offered documents).Padded :=
  offered_keeps (fun id fields h => h.addTokens id fields) padded_empty documents

/-- Whatever an index was offered before, the columns have a place for a document that has been
registered. -/
theorem number_lt_column (documents : List Document) (id field : String) :
    let registered := (empty.offered documents).register id
    registered.1.toNat < (registered.2.column field).size := by
  intro registered
  rw [column_register, Array.size_push, padded_of_offered documents field]
  exact Nat.lt_succ_of_le (toNat_size_le _)

/-! ## Numbers of tokens -/

/-- Lengths and counts are those of the documents' tokens. -/
structure Measured (index : Index) (documents : List Document) : Prop where
  column_eq : ∀ field,
    (index.column field).toList = documents.map fun document => (document.tokens field).length
  tallied : ∀ field term, (index.postings field term).Tallied
  count_eq : ∀ field term,
    (index.postings field term).ctf.toNat = Document.countIn documents field term

theorem measured_empty : empty.Measured [] := by
  have hlist : ∀ field term, empty.postings field term = PostingList.empty field :=
    fun field term => Std.HashMap.getD_empty
  refine ⟨fun field => ?_, fun field term => ?_, fun field term => ?_⟩
  · exact List.eq_nil_of_length_eq_zero (padded_empty field)
  · rw [hlist]
    exact PostingList.tallied_empty field
  · rw [hlist]
    rfl

theorem Measured.add {documents : List Document} {index next : Index} {document : Document}
    {doc : DocId} (hm : index.Measured documents) (hr : index.Reflects documents)
    (hn : documents.length < UInt32.size)
    (h : index.addTokens document.id document.fields = (next, .ok doc)) :
    next.Measured (documents ++ [document]) := by
  obtain ⟨-, hnodup, hdoc, hfields⟩ := addTokens_eq_ok h
  obtain ⟨-, -, hcolumns⟩ := addFields_statistics hnodup hfields
  obtain ⟨-, -, hrecord⟩ := record_addTokens h
  have hnumber : doc.toNat = documents.length := by
    rw [hdoc, hr.size_eq]
    exact UInt32.toNat_ofNat_of_lt' hn
  refine ⟨fun field => ?_, fun field term => ?_, fun field term => ?_⟩
  · -- The zero of the new document comes last, and its length is added there.
    have hlast :
        doc.toNat = (documents.map fun earlier => (earlier.tokens field).length).length := by
      rw [List.length_map, hnumber]
    rw [hcolumns, column_register, Array.toList_modify, Array.toList_push, hm.column_eq, hlast,
      modify_concat, List.map_append, List.map_singleton, Nat.zero_add, Document.tokens]
  · exact (Proximity.tallied_record ⟨(hr.faithful field term).ascending, hm.tallied field term⟩
      (hrecord field term)).2
  · rw [Proximity.ctf_record ⟨(hr.faithful field term).ascending, hm.tallied field term⟩
      (hrecord field term), hm.count_eq, length_positionsOf, Document.countIn, Document.countIn,
      List.map_append, List.sum_append, List.map_singleton, List.sum_singleton]

theorem BuiltOf.measured {documents : List Document} {index : Index}
    (h : BuiltOf documents index) (hn : documents.length < UInt32.size) :
    index.Measured documents := by
  induction h with
  | empty => exact measured_empty
  | add before accepted ih =>
    rw [List.length_append, List.length_singleton] at hn
    exact (ih (by omega)).add (before.reflects (by omega)) (by omega) accepted

theorem Measured.lengthOf_eq {documents : List Document} {index : Index}
    (hm : index.Measured documents) {doc : DocId} (hdoc : doc.toNat < index.size)
    (field : String) :
    index.lengthOf field doc = .ok (Document.tokensOf documents field doc).length := by
  rw [lengthOf_eq_column index field hdoc, ← Array.getElem?_toList, hm.column_eq,
    List.getElem?_map, Document.tokensOf]
  cases documents[doc.toNat]? <;> rfl

theorem Measured.totals_eq {documents : List Document} {index : Index}
    (hm : index.Measured documents) (field : String) :
    index.fieldTotals field = Document.totalsOf documents field := by
  rw [fieldTotals_eq_column, hm.column_eq, List.countP_map, Document.totalsOf]
  rfl

end Index

end Retrieval
