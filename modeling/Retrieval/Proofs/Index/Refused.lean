import Retrieval.Proofs.Index.Accepted

/-!
# Documents that an index refuses

Of a document whose identifier is known or that names a field twice an index keeps nothing. A
document that passes these checks is registered before its terms are added, so it stays if one of
its lists refuses the places of a term, with its identifier taken and its fields half entered
(`Index.refused_alike_iff`).

Lists refuse places that are cut down to 32 bits: out of order or too many for a frequency. That
takes a field of 2 ^ 32 tokens, and one token more does it (`Index.refused_registered`). With fewer
tokens, and fewer documents than there are numbers, no refusal leaves a trace.
-/

set_option autoImplicit false

namespace Retrieval

namespace Index

/-! ## Numbers -/

/-- Lists have postings of the documents of the index only. -/
def Numbered (index : Index) : Prop :=
  ∀ field term, ∀ posting ∈ (index.postings field term).toList, posting.doc.toNat < index.size

theorem numbered_empty : Numbered Index.empty := by
  intro field term posting hp
  rw [postings_empty] at hp
  cases hp

theorem size_addFields_register (index : Index) (id : String) (doc : DocId)
    (fields : List (String × List String)) :
    ((index.register id).2.addFields doc fields).1.size = index.size + 1 := by
  rw [size, (addFields_identifiers _ doc fields).1, register, Array.size_push, size]

theorem Numbered.addTokens {index : Index} (hn : index.Numbered) (id : String)
    (fields : List (String × List String)) : (index.addTokens id fields).1.Numbered := by
  rw [Index.addTokens]
  split
  · exact hn
  · split
    · exact hn
    · have hnumber : index.size.toUInt32.toNat < index.size + 1 :=
        Nat.lt_succ_of_le (toNat_size_le index)
      have hbefore : ∀ field term, ∀ posting ∈ ((index.register id).2.postings field term).toList,
          posting.doc.toNat < index.size + 1 :=
        fun field term posting hp => Nat.lt_succ_of_lt (hn field term posting hp)
      have hstep : ∀ {list next : PostingList} {positions : List Position},
          (∀ posting ∈ list.toList, posting.doc.toNat < index.size + 1) →
          list.appendAt index.size.toUInt32 positions = (next, .ok ()) →
          ∀ posting ∈ next.toList, posting.doc.toNat < index.size + 1 := by
        intro list next positions hlist happend posting hp
        obtain ⟨-, -, -, hnext⟩ := PostingList.append_eq_ok (PostingList.appendAt_eq_ok happend).2
        rw [hnext, List.mem_append, List.mem_singleton] at hp
        rcases hp with hold | rfl
        · exact hlist posting hold
        · exact hnumber
      have hafter := postings_addFields hstep fields hbefore
      intro field term posting hp
      exact Nat.lt_of_lt_of_eq (hafter field term posting hp)
        (size_addFields_register index id _ fields).symm

theorem numbered_of_offered (documents : List Document) : (empty.offered documents).Numbered :=
  offered_keeps (fun id fields h => h.addTokens id fields) numbered_empty documents

/-! ## Refusals -/

/-- A document is refused by one of the two checks, before anything is entered, or by a list. -/
theorem addTokens_eq_error {index next : Index} {id : String}
    {fields : List (String × List String)} {fault : Fault}
    (h : index.addTokens id fields = (next, .error fault)) :
    (next = index ∧ (index.numbers.contains id = true ∨ ¬ (fields.map (·.1)).Nodup)) ∨
      (index.numbers.contains id = false ∧ (fields.map (·.1)).Nodup ∧
        (index.register id).2.addFields index.size.toUInt32 fields = (next, .error fault)) := by
  rw [addTokens] at h
  split at h
  · rename_i hknown
    cases h
    exact .inl ⟨rfl, .inl hknown⟩
  · rename_i hnew
    split at h
    · rename_i name hnames
      cases h
      refine .inl ⟨rfl, .inr fun hnodup => ?_⟩
      have hnone : firstRepeated? [] (fields.map (·.1)) = none :=
        firstRepeated_eq_none_iff.mpr ⟨hnodup, fun _ _ => List.not_mem_nil⟩
      rw [hnone] at hnames
      cases hnames
    · rename_i hnames
      refine .inr ⟨Bool.eq_false_iff.mpr hnew, (firstRepeated_eq_none_iff.mp hnames).1, ?_⟩
      rw [Prod.mk.injEq] at h
      obtain ⟨hnext, hfault⟩ := h
      cases hfields : (index.register id).2.addFields (index.register id).1 fields with
      | mk after outcome =>
        rw [hfields] at hnext hfault
        obtain rfl : after = next := hnext
        cases outcome with
        | ok _ => cases hfault
        | error other =>
          cases hfault
          exact hfields

/-- Until numbers run out, a list refuses a document only for a term whose places do not fit. -/
theorem Numbered.exists_not_fits {index next : Index} (hn : index.Numbered) {id : String}
    {fields : List (String × List String)} {fault : Fault} (hsize : index.size < UInt32.size)
    (hnodup : (fields.map (·.1)).Nodup)
    (h : (index.register id).2.addFields index.size.toUInt32 fields = (next, .error fault)) :
    ∃ entry ∈ fields, ∃ term ∈ entry.2, ¬ Fits term entry.2 := by
  by_contra hnone
  push Not at hnone
  have hnumber : index.size.toUInt32.toNat = index.size := UInt32.toNat_ofNat_of_lt' hsize
  have hlast : ∀ field ∈ fields.map (·.1), ∀ term,
      ∀ posting ∈ ((index.register id).2.postings field term).toList,
        posting.doc < index.size.toUInt32 := by
    intro field _ term posting hp
    rw [UInt32.lt_iff_toNat_lt, hnumber]
    exact hn field term posting hp
  obtain ⟨after, hok⟩ := exists_addFields hnodup hnone hlast
  rw [h] at hok
  cases hok

/-! ## Traces -/

/-- Every lookup has the same answer in both. -/
structure Alike (index other : Index) : Prop where
  size_eq : index.size = other.size
  docOf_eq : ∀ id, index.docOf id = other.docOf id
  idOf_eq : ∀ doc, index.idOf doc = other.idOf doc
  lengthOf_eq : ∀ field doc, index.lengthOf field doc = other.lengthOf field doc
  totals_eq : ∀ field, index.fieldTotals field = other.fieldTotals field
  postings_eq : ∀ field term, index.postings field term = other.postings field term

theorem Alike.refl (index : Index) : index.Alike index :=
  ⟨rfl, fun _ => rfl, fun _ => rfl, fun _ _ => rfl, fun _ => rfl, fun _ _ => rfl⟩

theorem contains_iff_docOf {index : Index} {id : String} :
    index.numbers.contains id = true ↔ ∃ doc, index.docOf id = .ok doc := by
  rw [Std.HashMap.contains_eq_isSome_getElem?, docOf]
  cases index.numbers[id]? <;> simp

/-- Once it is registered, an identifier stays, whatever comes of the fields. -/
theorem found_of_addFields {index next : Index} {id : String} {doc : DocId}
    {fields : List (String × List String)} {outcome : Except Fault Unit}
    (h : (index.register id).2.addFields doc fields = (next, outcome)) :
    next.docOf id = .ok index.size.toUInt32 ∧ next.size = index.size + 1 := by
  have hdoc : ((index.register id).2.addFields doc fields).1.docOf id =
      .ok index.size.toUInt32 := by
    rw [docOf, (addFields_identifiers _ doc fields).2, register, Std.HashMap.getElem?_insert_self]
  have hsize := size_addFields_register index id doc fields
  rw [h] at hdoc hsize
  exact ⟨hdoc, hsize⟩

theorem not_alike_of_size {index next : Index} (h : next.size = index.size + 1) :
    ¬ index.Alike next :=
  fun halike => Nat.succ_ne_self index.size (h.symm.trans halike.size_eq.symm)

/-- Whatever an index was offered before, a refused document leaves every answer as it was exactly
if its identifier was known or it names a field twice. Any other one has taken the next number, and
this happens only to a field of 2 ^ 32 tokens or after as many documents. -/
theorem refused_alike_iff (documents : List Document) {document : Document} {next : Index}
    {fault : Fault}
    (h : (empty.offered documents).addTokens document.id document.fields =
      (next, .error fault)) :
    let index := empty.offered documents
    let checked := (∃ doc, index.docOf document.id = .ok doc) ∨
      ¬ (document.fields.map (·.1)).Nodup
    (index.Alike next ↔ checked) ∧
      (¬ checked → next.docOf document.id = .ok index.size.toUInt32 ∧
        next.size = index.size + 1 ∧
        (index.size < UInt32.size → ∃ entry ∈ document.fields, ∃ term ∈ entry.2,
          ¬ Fits term entry.2)) ∧
      (index.size < UInt32.size → document.Countable → index.Alike next) := by
  intro index checked
  have hn : index.Numbered := numbered_of_offered documents
  have hchecked : checked ↔
      index.numbers.contains document.id = true ∨ ¬ (document.fields.map (·.1)).Nodup :=
    or_congr_left contains_iff_docOf.symm
  rcases addTokens_eq_error h with ⟨hsame, hearly⟩ | ⟨hnew, hnodup, hfields⟩
  · have halike : index.Alike next := hsame ▸ .refl index
    have hyes := hchecked.mpr hearly
    exact ⟨iff_of_true halike hyes, fun hno => absurd hyes hno, fun _ _ => halike⟩
  · obtain ⟨hdoc, hsize⟩ := found_of_addFields hfields
    have hno : ¬ checked := by
      rw [hchecked, hnew]
      simpa using hnodup
    have hfits := fun hlt => hn.exists_not_fits hlt hnodup hfields
    refine ⟨iff_of_false (not_alike_of_size hsize) hno, fun _ => ⟨hdoc, hsize, hfits⟩,
      fun hlt hcountable => ?_⟩
    obtain ⟨entry, he, term, -, hnot⟩ := hfits hlt
    exact absurd (fits_of_length term (hcountable entry he)) hnot

theorem refused_alike_iff_repeated :
    let document : Document := { id := "later", fields := [("body", ["red"]), ("body", [])] }
    (empty.offered [sampleDocument]).addTokens document.id document.fields =
        (empty.offered [sampleDocument], .error (.data (.repeatedField "body" "later"))) ∧
      (empty.offered [sampleDocument]).Alike (empty.offered [sampleDocument]) := by
  intro document
  have hbuilt := builtOf_sample
  have hnew : sample.numbers.contains "later" = false :=
    Bool.eq_false_iff.mpr fun hknown => by
      rw [(hbuilt.registered (by decide)).contains_iff (by decide)] at hknown
      simp [sampleDocument] at hknown
  have hrefused : (empty.offered [sampleDocument]).addTokens document.id document.fields =
      (empty.offered [sampleDocument], .error (.data (.repeatedField "body" "later"))) := by
    change sample.addTokens "later" [("body", ["red"]), ("body", [])] = (sample, _)
    rw [addTokens, hnew]
    rfl
  have hnames : ¬ (document.fields.map (·.1)).Nodup := by decide
  exact ⟨hrefused, (refused_alike_iff [sampleDocument] hrefused).1.mpr (.inr hnames)⟩

/-! ## A field with more tokens than places -/

theorem positionsOf_replicate (term : String) (length : Nat) :
    positionsOf term (List.replicate length term) =
      (List.range length).map (·.toUInt32) := by
  have hall : ∀ pair ∈ (List.replicate length term).zipIdx, decide (pair.1 = term) = true :=
    fun pair hpair => decide_eq_true (List.eq_of_mem_replicate (List.fst_mem_of_mem_zipIdx hpair))
  have hplaces : (List.replicate length term).zipIdx.map (·.2) = List.range length := by
    rw [List.zipIdx_map_snd, List.length_replicate, ← List.range_eq_range']
  rw [positionsOf, List.filter_eq_self.mpr hall, ← hplaces, List.map_map]
  rfl

/-- The places 0 and 2 ^ 32 are the same number of 32 bits. -/
theorem not_increasing_replicate (term : String) {length : Nat} (hlong : UInt32.size < length) :
    strictlyIncreasing (positionsOf term (List.replicate length term)) = false := by
  refine Bool.eq_false_iff.mpr fun hincreasing => ?_
  rw [strictlyIncreasing_iff, positionsOf_replicate, List.pairwise_map,
    List.pairwise_iff_getElem] at hincreasing
  have hfirst : 0 < length := Nat.lt_trans (by decide) hlong
  have hless := hincreasing 0 UInt32.size (by simpa using hfirst) (by simpa using hlong) (by decide)
  rw [List.getElem_range, List.getElem_range] at hless
  exact absurd hless (by decide)

/-- A document with one field, of equal tokens. -/
def uniform (length : Nat) : Document :=
  { id := "uniform", fields := [("body", List.replicate length "a")] }

theorem addTokens_uniform {length : Nat} (hlong : UInt32.size < length) :
    ∃ next, empty.addTokens (uniform length).id (uniform length).fields =
      (next, .error (.data (.unorderedPositions 0))) := by
  obtain ⟨more, hterms⟩ : ∃ more, (List.replicate length "a").eraseDups = "a" :: more := by
    obtain ⟨earlier, rfl⟩ := Nat.exists_eq_add_one_of_ne_zero (Nat.ne_zero_of_lt hlong)
    exact ⟨_, by rw [List.replicate_succ, List.eraseDups_cons]⟩
  have hrefused : ∀ list : PostingList,
      list.appendAt 0 (positionsOf "a" (List.replicate length "a")) =
        (list, .error (.data (.unorderedPositions 0))) := by
    intro list
    rw [PostingList.appendAt, Posting.ofPositions, not_increasing_replicate "a" hlong]
    rfl
  have hnew : empty.numbers.contains "uniform" = false := by simp [empty]
  have hnumber : (empty.register "uniform").1 = 0 := rfl
  simp only [uniform, addTokens, hnew, List.map_cons, List.map_nil, firstRepeated?,
    List.not_mem_nil, if_false, Bool.false_eq_true, hnumber, addFields, hterms, addTerms,
    hrefused]
  exact ⟨_, rfl⟩

/-- A document that is refused for its last token is found afterwards. -/
theorem refused_registered :
    let document := uniform (UInt32.size + 1)
    let next := (empty.addTokens document.id document.fields).1
    (empty.addTokens document.id document.fields).2 = .error (.data (.unorderedPositions 0)) ∧
      empty.docOf "uniform" = .error (.lookup (.unknownId "uniform")) ∧
      next.docOf "uniform" = .ok 0 ∧ next.size = 1 ∧ ¬ empty.Alike next := by
  intro document next
  obtain ⟨after, hrefused⟩ := addTokens_uniform (Nat.lt_succ_self UInt32.size)
  have hnext : next = after := congrArg Prod.fst hrefused
  have hunknown : empty.docOf "uniform" = .error (.lookup (.unknownId "uniform")) := by
    simp [docOf, empty]
  rcases addTokens_eq_error hrefused with ⟨-, hknown | hrepeated⟩ | ⟨-, -, hfields⟩
  · obtain ⟨doc, hdoc⟩ := contains_iff_docOf.mp hknown
    cases hunknown.symm.trans hdoc
  · exact absurd (List.nodup_singleton _) hrepeated
  · obtain ⟨hdoc, hsize⟩ := found_of_addFields hfields
    rw [hnext]
    exact ⟨congrArg Prod.snd hrefused, hunknown, hdoc, hsize, not_alike_of_size hsize⟩

end Index

end Retrieval
