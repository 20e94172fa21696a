import Mathlib.Data.List.Induction
import Retrieval.Proofs.Index.Statistics
import Retrieval.Proofs.Proximity.Hits

/-!
# Documents that an index accepts

Of the documents that it is offered an index accepts those with a new identifier that name no field
twice, and leaves no trace of any other (`Document.accepted`). What comes after these two checks
cannot fail: the new document lies behind all documents of every list, and the places of a term are
in order (`Index.Reflects.exists_addTokens`). So an index always answers as its accepted documents
say (`Index.offered_answers`).
-/

set_option autoImplicit false

namespace Retrieval

/-! ## Tokens of a text -/

theorem Text.pieces_eq_splitOnP (cs : List Char) : pieces cs = cs.splitOnP isBlank := by
  induction cs with
  | nil => rfl
  | cons c rest ih =>
    rw [pieces, List.splitOnP_cons_eq_if_modifyHead, ih]
    split
    · rfl
    · obtain ⟨piece, more, hsplit⟩ :=
        List.exists_cons_of_ne_nil (List.splitOnP_ne_nil isBlank rest)
      rw [hsplit]
      rfl

/-! ## Places of a term -/

theorem map_toNat_positionsOf (term : String) {tokens : List String}
    (hlen : tokens.length ≤ UInt32.size) :
    (positionsOf term tokens).map (·.toNat) =
      (List.range tokens.length).filter fun i => tokens[i]? = some term := by
  have hplaces : tokens.zipIdx.map (·.2) = List.range tokens.length := by
    rw [List.zipIdx_map_snd, List.range_eq_range']
  have hfilter : tokens.zipIdx.filter (·.1 = term) =
      tokens.zipIdx.filter ((fun i => decide (tokens[i]? = some term)) ∘ (·.2)) := by
    refine List.filter_congr fun pair hpair => ?_
    have htoken := List.mk_mem_zipIdx_iff_getElem?.mp hpair
    simp [htoken]
  rw [positionsOf, List.map_map, ← hplaces, List.filter_map, hfilter]
  refine List.map_congr_left fun pair hpair => ?_
  have htoken := List.mk_mem_zipIdx_iff_getElem?.mp (List.mem_filter.mp hpair).1
  obtain ⟨hlt, -⟩ := List.getElem?_eq_some_iff.mp htoken
  exact UInt32.toNat_ofNat_of_lt' (Nat.lt_of_lt_of_le hlt hlen)

theorem positionsOf_increasing (term : String) {tokens : List String}
    (hlen : tokens.length ≤ UInt32.size) :
    strictlyIncreasing (positionsOf term tokens) = true := by
  have hsorted : ((positionsOf term tokens).map (·.toNat)).Pairwise (· < ·) := by
    rw [map_toNat_positionsOf term hlen]
    exact List.pairwise_lt_range.filter _
  rw [strictlyIncreasing_iff]
  refine (List.pairwise_map.mp hsorted).imp fun {p q} hlt => ?_
  exact UInt32.lt_iff_toNat_lt.mpr hlt

/-- The places of a term are in order, and not too many to be counted, as numbers of 32 bits. -/
def Fits (term : String) (tokens : List String) : Prop :=
  strictlyIncreasing (positionsOf term tokens) = true ∧ tokens.count term < UInt32.size

theorem fits_of_length (term : String) {tokens : List String}
    (hlen : tokens.length < UInt32.size) : Fits term tokens :=
  ⟨positionsOf_increasing term (Nat.le_of_lt hlen), Nat.lt_of_le_of_lt List.count_le_length hlen⟩

theorem one_lt_count_of_firstRepeated {seen names : List String} {name : String}
    (h : firstRepeated? seen names = some name) : 1 < (seen ++ names).count name := by
  induction names generalizing seen with
  | nil => cases h
  | cons first rest ih =>
    rw [firstRepeated?] at h
    split at h
    · rename_i hseen
      cases h
      have hcount := List.count_pos_iff.mpr hseen
      rw [List.count_append, List.count_cons_self]
      omega
    · have hrest := ih h
      rwa [List.cons_append, ← List.perm_middle.count_eq name] at hrest

/-! ## Acceptance -/

namespace Document

/-- Every token of every field has a position of 32 bits. -/
def Countable (document : Document) : Prop :=
  ∀ entry ∈ document.fields, entry.2.length < UInt32.size

instance (document : Document) : Decidable document.Countable :=
  inferInstanceAs (Decidable (∀ entry ∈ document.fields, _))

/-- Whether a document is accepted after others. -/
def AcceptedAfter (kept : List Document) (document : Document) : Prop :=
  document.id ∉ kept.map (·.id) ∧ (document.fields.map (·.1)).Nodup

instance (kept : List Document) (document : Document) : Decidable (document.AcceptedAfter kept) :=
  inferInstanceAs (Decidable (_ ∧ _))

/-- The documents that are accepted when some are offered to a new index one after the other. -/
def accepted (offers : List Document) : List Document :=
  offers.foldl
    (fun kept document => if document.AcceptedAfter kept then kept ++ [document] else kept) []

theorem accepted_append (offers : List Document) (document : Document) :
    accepted (offers ++ [document]) =
      if document.AcceptedAfter (accepted offers) then accepted offers ++ [document]
      else accepted offers := by
  rw [accepted, List.foldl_append, ← accepted]
  rfl

theorem accepted_subset (offers : List Document) : accepted offers ⊆ offers := by
  induction offers using List.reverseRecOn with
  | nil => exact List.Subset.refl _
  | append_singleton offers document ih =>
    rw [accepted_append]
    split
    · have hleft := List.Subset.trans ih (List.subset_append_left offers [document])
      exact List.append_subset.mpr ⟨hleft, List.subset_append_right _ _⟩
    · exact List.Subset.trans ih (List.subset_append_left _ _)

theorem Countable.length_tokens {document : Document} (hc : document.Countable) (field : String) :
    (document.tokens field).length < UInt32.size := by
  rw [tokens]
  cases hfield : document.fields.lookup field with
  | none => decide
  | some found =>
    obtain ⟨before, after, hfields, -⟩ := List.lookup_eq_some_iff.mp hfield
    exact hc (field, found) (hfields ▸ List.mem_append_cons_self)

end Document

namespace Index

theorem exists_addTerms {index : Index} {doc : DocId} {field : String} {tokens terms : List String}
    (hnodup : terms.Nodup) (hfits : ∀ term ∈ terms, Fits term tokens)
    (hlast : ∀ term ∈ terms, ∀ posting ∈ (index.postings field term).toList, posting.doc < doc) :
    ∃ next, index.addTerms doc field tokens terms = (next, .ok ()) := by
  induction terms generalizing index with
  | nil => exact ⟨index, rfl⟩
  | cons term rest ih =>
    rw [List.nodup_cons] at hnodup
    rw [List.forall_mem_cons] at hfits hlast
    obtain ⟨⟨hincreasing, hcount⟩, hrest⟩ := hfits
    rw [← length_positionsOf] at hcount
    obtain ⟨list, happend⟩ := PostingList.exists_appendAt hlast.1 hincreasing hcount
    rw [addTerms, happend]
    refine ih hnodup.2 hrest fun word hw => ?_
    have hne : term ≠ word := by
      rintro rfl
      exact hnodup.1 hw
    rw [postings_insert, if_neg fun hsame => hne hsame.2]
    exact hlast.2 word hw

theorem exists_addFields {index : Index} {doc : DocId} {fields : List (String × List String)}
    (hnodup : (fields.map (·.1)).Nodup)
    (hfits : ∀ entry ∈ fields, ∀ term ∈ entry.2, Fits term entry.2)
    (hlast : ∀ field ∈ fields.map (·.1), ∀ term, ∀ posting ∈ (index.postings field term).toList,
      posting.doc < doc) :
    ∃ next, index.addFields doc fields = (next, .ok ()) := by
  induction fields generalizing index with
  | nil => exact ⟨index, rfl⟩
  | cons entry rest ih =>
    obtain ⟨name, tokens⟩ := entry
    rw [List.map_cons, List.nodup_cons] at hnodup
    rw [List.map_cons, List.forall_mem_cons] at hlast
    rw [List.forall_mem_cons] at hfits
    obtain ⟨middle, hterms⟩ : ∃ middle, (index.addLength doc name tokens.length).addTerms doc name
        tokens tokens.eraseDups = (middle, .ok ()) :=
      exists_addTerms (nodup_eraseDups tokens)
        (fun term hterm => hfits.1 term (List.mem_eraseDups.mp hterm)) fun term _ => hlast.1 term
    rw [addFields, hterms]
    refine ih hnodup.2 hfits.2 fun field hf term => ?_
    have hne : field ≠ name := by
      rintro rfl
      exact hnodup.1 hf
    rw [(addTerms_eq_ok (nodup_eraseDups tokens) hterms).2.2 field term fun hsame => hne hsame.1]
    exact hlast.2 field hf term

theorem Reflects.mem_docs_iff {index : Index} {documents : List Document}
    (hr : index.Reflects documents) {field term : String} {doc : DocId} :
    doc ∈ (index.postings field term).docs ↔
      ∃ document, documents[doc.toNat]? = some document ∧ term ∈ document.tokens field := by
  rw [(hr.faithful field term).mem_docs_iff, hr.places_eq, Ne, positionsOf_eq_nil_iff, not_not,
    Document.tokensOf]
  cases documents[doc.toNat]? <;> simp

/-- A document that passes both checks is accepted. -/
theorem Reflects.exists_addTokens {index : Index} {documents : List Document}
    (hr : index.Reflects documents) (hn : documents.length < UInt32.size) {document : Document}
    (hnew : index.numbers.contains document.id = false)
    (hnodup : (document.fields.map (·.1)).Nodup) (hlen : document.Countable) :
    ∃ next, index.addTokens document.id document.fields =
      (next, .ok documents.length.toUInt32) := by
  have hnumber : documents.length.toUInt32.toNat = documents.length :=
    UInt32.toNat_ofNat_of_lt' hn
  have hlast : ∀ field ∈ document.fields.map (·.1), ∀ term,
      ∀ posting ∈ ((index.register document.id).2.postings field term).toList,
        posting.doc < documents.length.toUInt32 := by
    intro field _ term posting hp
    obtain ⟨earlier, hd, -⟩ := hr.mem_docs_iff.mp (List.mem_map_of_mem hp)
    rw [UInt32.lt_iff_toNat_lt, hnumber]
    exact (List.getElem?_eq_some_iff.mp hd).1
  have hfits : ∀ entry ∈ document.fields, ∀ term ∈ entry.2, Fits term entry.2 :=
    fun entry he term _ => fits_of_length term (hlen entry he)
  obtain ⟨next, hfields⟩ := exists_addFields hnodup hfits hlast
  have hnames : firstRepeated? [] (document.fields.map (·.1)) = none :=
    firstRepeated_eq_none_iff.mpr ⟨hnodup, fun name _ => List.not_mem_nil⟩
  refine ⟨next, ?_⟩
  rw [addTokens, hnew, hnames]
  simp only [register, hr.size_eq] at hfields ⊢
  rw [hfields]
  rfl

/-! ## Offers -/

/-- The answer to an offer. An identifier that is known is refused before the fields are looked at,
and what is refused changes nothing. -/
theorem addTokens_outcome {index : Index} {documents : List Document}
    (hreg : index.Registered documents) (hr : index.Reflects documents)
    (hn : documents.length < UInt32.size) (document : Document) :
    (document.id ∈ documents.map (·.id) →
      index.addTokens document.id document.fields =
        (index, .error (.lookup (.alreadyIndexed document.id)))) ∧
      (document.id ∉ documents.map (·.id) → ¬ (document.fields.map (·.1)).Nodup →
        ∃ field, 1 < (document.fields.map (·.1)).count field ∧
          index.addTokens document.id document.fields =
            (index, .error (.data (.repeatedField field document.id)))) ∧
      (document.AcceptedAfter documents → document.Countable → ∃ next,
        index.addTokens document.id document.fields =
          (next, .ok documents.length.toUInt32)) := by
  have hknown := hreg.contains_iff (Nat.le_of_lt hn) document.id
  refine ⟨fun hid => ?_, fun hid hrepeated => ?_, fun haccepted hlen => ?_⟩
  · rw [addTokens, if_pos (hknown.mpr hid)]
  · rw [addTokens, if_neg fun hcontains => hid (hknown.mp hcontains)]
    cases hnames : firstRepeated? [] (document.fields.map (·.1)) with
    | none => exact absurd (firstRepeated_eq_none_iff.mp hnames).1 hrepeated
    | some field => exact ⟨field, one_lt_count_of_firstRepeated hnames, rfl⟩
  · obtain ⟨hid, hnodup⟩ := haccepted
    have hnew : index.numbers.contains document.id = false :=
      Bool.eq_false_iff.mpr fun hcontains => hid (hknown.mp hcontains)
    exact hr.exists_addTokens hn hnew hnodup hlen

theorem builtOf_offered {offers : List Document} (hlen : ∀ document ∈ offers, document.Countable)
    (hn : (Document.accepted offers).length < UInt32.size) :
    BuiltOf (Document.accepted offers) (empty.offered offers) := by
  induction offers using List.reverseRecOn with
  | nil => exact .empty
  | append_singleton offers document ih =>
    rw [List.forall_mem_append, List.forall_mem_singleton] at hlen
    have hbefore : (Document.accepted offers).length < UInt32.size := by
      refine Nat.lt_of_le_of_lt ?_ hn
      rw [Document.accepted_append]
      split <;> simp
    have hbuilt := ih hlen.1 hbefore
    have hoffered : empty.offered (offers ++ [document]) =
        ((empty.offered offers).addTokens document.id document.fields).1 := by
      rw [offered, List.foldl_append, ← offered]
      rfl
    obtain ⟨hknown, hrepeated, haccepted⟩ := addTokens_outcome (hbuilt.registered hbefore)
      (hbuilt.reflects hbefore) hbefore document
    rw [hoffered, Document.accepted_append]
    by_cases hid : document.id ∈ (Document.accepted offers).map (·.id)
    · rw [if_neg fun ha => ha.1 hid, hknown hid]
      exact hbuilt
    · by_cases hnodup : (document.fields.map (·.1)).Nodup
      · obtain ⟨next, hadd⟩ := haccepted ⟨hid, hnodup⟩ hlen.2
        rw [if_pos ⟨hid, hnodup⟩, hadd]
        exact .add hbuilt hadd
      · obtain ⟨field, -, hadd⟩ := hrepeated hid hnodup
        rw [if_neg fun ha => hnodup ha.2, hadd]
        exact hbuilt

/-! ## Answers -/

/-- All that can be asked of an index, answered from the documents' tokens. -/
structure Answers (index : Index) (documents : List Document) : Prop where
  size_eq : index.size = documents.length
  known : ∀ (doc : DocId) (document : Document), documents[doc.toNat]? = some document →
    index.idOf doc = .ok document.id ∧ index.docOf document.id = .ok doc ∧
      ∀ field, index.lengthOf field doc = .ok (document.tokens field).length
  inverse : ∀ id doc, index.docOf id = .ok doc ↔ index.idOf doc = .ok id
  unknownDoc : ∀ doc : DocId, documents.length ≤ doc.toNat →
    index.idOf doc = .error (.lookup (.unknownDocument doc)) ∧
      ∀ field, index.lengthOf field doc = .error (.lookup (.unknownDocument doc))
  unknownId : ∀ id, id ∉ documents.map (·.id) →
    index.docOf id = .error (.lookup (.unknownId id))
  totals : ∀ field, index.fieldTotals field = Document.totalsOf documents field
  field_eq : ∀ field term, (index.postings field term).field = field
  ascending : ∀ field term, (index.postings field term).Ascending
  mem_docs_iff : ∀ field term doc, doc ∈ (index.postings field term).docs ↔
    ∃ document, documents[doc.toNat]? = some document ∧ term ∈ document.tokens field
  positions : ∀ field term, ∀ posting ∈ (index.postings field term).toList,
    ∃ document, documents[posting.doc.toNat]? = some document ∧
      posting.positions.map (·.toNat) =
        (List.range (document.tokens field).length).filter
          (fun i => (document.tokens field)[i]? = some term) ∧
      posting.frequency.toNat = (document.tokens field).count term
  occurrences : ∀ field term,
    (index.postings field term).ctf = index.occurrences field term ∧
      (index.occurrences field term).toNat = Document.countIn documents field term

theorem Reflects.positions_eq {index : Index} {documents : List Document}
    (hr : index.Reflects documents) (hlen : ∀ document ∈ documents, document.Countable)
    {field term : String} {posting : Posting}
    (hp : posting ∈ (index.postings field term).toList) :
    ∃ document, documents[posting.doc.toNat]? = some document ∧
      posting.positions.map (·.toNat) =
        (List.range (document.tokens field).length).filter
          (fun i => (document.tokens field)[i]? = some term) ∧
      posting.frequency.toNat = (document.tokens field).count term := by
  obtain ⟨document, hd, -⟩ := hr.mem_docs_iff.mp (List.mem_map_of_mem hp)
  have hf := hr.faithful field term
  have hcountable := (hlen document (List.mem_of_getElem? hd)).length_tokens field
  have hpositions : posting.positions = positionsOf term (document.tokens field) := by
    rw [← hf.places_eq hp, hr.places_eq, Document.tokensOf_of_getElem? hd]
  refine ⟨document, hd, ?_, ?_⟩
  · rw [hpositions, map_toNat_positionsOf term (Nat.le_of_lt hcountable)]
  · rw [hf.counted posting hp, hpositions, length_positionsOf]

/-- Numbers and identifiers that no document has are refused, by their own faults. -/
theorem Registered.unknown {index : Index} {documents : List Document}
    (hreg : index.Registered documents) :
    (∀ doc : DocId, documents.length ≤ doc.toNat →
      index.idOf doc = .error (.lookup (.unknownDocument doc))) ∧
      ∀ id, id ∉ documents.map (·.id) → index.docOf id = .error (.lookup (.unknownId id)) := by
  constructor
  · intro doc hge
    rw [idOf, ← Array.getElem?_toList, hreg.ids_eq, List.getElem?_map, List.getElem?_eq_none hge]
    rfl
  · intro id hid
    have hnone : index.numbers[id]? = none := by
      rw [Option.eq_none_iff_forall_ne_some]
      intro doc hsome
      obtain ⟨document, hd, rfl⟩ := Option.map_eq_some_iff.mp ((hreg.number_iff id doc).mp hsome)
      exact hid (Document.id_eq_of_getElem? hd)
    rw [docOf, hnone]

theorem BuiltOf.answers {documents : List Document} {index : Index}
    (h : BuiltOf documents index) (hn : documents.length < UInt32.size)
    (hlen : ∀ document ∈ documents, document.Countable) : index.Answers documents where
  size_eq := (h.reflects hn).size_eq
  known doc document hd := by
    have hid : documents[doc.toNat]?.map (·.id) = some document.id := by rw [hd, Option.map_some]
    have hlt : doc.toNat < index.size := by
      rw [(h.reflects hn).size_eq]
      exact (List.getElem?_eq_some_iff.mp hd).1
    refine ⟨(h.registered hn).idOf_iff.mpr hid, (h.registered hn).docOf_iff.mpr hid,
      fun field => ?_⟩
    rw [(h.measured hn).lengthOf_eq hlt, Document.tokensOf_of_getElem? hd]
  inverse id doc := by rw [(h.registered hn).docOf_iff, (h.registered hn).idOf_iff]
  unknownDoc doc hge := by
    refine ⟨(h.registered hn).unknown.1 doc hge, fun field => ?_⟩
    rw [lengthOf, if_neg (by rw [(h.reflects hn).size_eq]; omega)]
  unknownId := (h.registered hn).unknown.2
  totals := (h.measured hn).totals_eq
  field_eq := (h.reflects hn).field_eq
  ascending := (h.reflects hn).ordered
  mem_docs_iff field term doc := (h.reflects hn).mem_docs_iff
  positions field term posting hp := (h.reflects hn).positions_eq hlen hp
  occurrences field term := ⟨rfl, (h.measured hn).count_eq field term⟩

/-- An index that was offered documents one after the other, of which it accepted fewer than there
are numbers, answers as the accepted ones say. The next offer is refused for its identifier or for
its fields, without a trace, or gets the next number. -/
theorem offered_answers {offers : List Document}
    (hlen : ∀ document ∈ offers, document.Countable)
    (hn : (Document.accepted offers).length < UInt32.size) :
    let kept := Document.accepted offers
    let index := empty.offered offers
    index.Answers kept ∧
      (∀ document : Document,
        (document.id ∈ kept.map (·.id) →
          index.addTokens document.id document.fields =
            (index, .error (.lookup (.alreadyIndexed document.id)))) ∧
        (document.id ∉ kept.map (·.id) → ¬ (document.fields.map (·.1)).Nodup →
          ∃ field, 1 < (document.fields.map (·.1)).count field ∧
            index.addTokens document.id document.fields =
              (index, .error (.data (.repeatedField field document.id)))) ∧
        (document.AcceptedAfter kept → document.Countable → ∃ next,
          index.addTokens document.id document.fields = (next, .ok kept.length.toUInt32))) ∧
      kept.length.toUInt32.toNat = kept.length ∧
      ∀ id texts, index.addTexts id texts =
        index.addTokens id (texts.map fun (field, text) =>
          (field, ((text.toList.splitOnP Text.isBlank).filter (!·.isEmpty)).map
            fun word => String.ofList (Text.LowerCase.ofWord word))) := by
  intro kept index
  have hbuilt : BuiltOf kept index := builtOf_offered hlen hn
  refine ⟨hbuilt.answers hn fun document hd => hlen document (Document.accepted_subset offers hd),
    addTokens_outcome (hbuilt.registered hn) (hbuilt.reflects hn) hn,
    UInt32.toNat_ofNat_of_lt' hn, fun id texts => ?_⟩
  simp only [addTexts, Text.tokens, Text.words, Text.pieces_eq_splitOnP]

def laterDocument : Document := { id := "later", fields := [("title", ["red", "blue", "red"])] }

/-- Between two documents that are accepted stand a known identifier and a repeated field. -/
def mixedOffers : List Document :=
  [sampleDocument, { id := "first", fields := [] },
    { id := "later", fields := [("body", ["red"]), ("body", [])] }, laterDocument]

theorem builtOf_mixed : (empty.offered mixedOffers).BuiltOf [sampleDocument, laterDocument] := by
  have hcountable : ∀ document ∈ mixedOffers, document.Countable := by decide
  exact builtOf_offered hcountable (by decide)

theorem offered_answers_mixed :
    (∀ document ∈ mixedOffers, document.Countable) ∧
      Document.accepted mixedOffers = [sampleDocument, laterDocument] ∧
      (empty.offered mixedOffers).idOf 1 = .ok "later" ∧
      (empty.offered mixedOffers).docOf "later" = .ok 1 ∧
      (empty.offered mixedOffers).lengthOf "title" 0 = .ok 0 ∧
      (∀ posting ∈ ((empty.offered mixedOffers).postings "title" "red").toList,
        posting.doc = 1 → posting.positions.map (·.toNat) = [0, 2]) ∧
      ((empty.offered mixedOffers).occurrences "title" "red").toNat = 2 ∧
      (empty.offered mixedOffers).addTokens "later" [] =
        (empty.offered mixedOffers, .error (.lookup (.alreadyIndexed "later"))) := by
  have hlen : ∀ document ∈ mixedOffers, document.Countable := by decide
  have hkept : Document.accepted mixedOffers = [sampleDocument, laterDocument] := rfl
  obtain ⟨answers, hnext, -, -⟩ := offered_answers hlen (by rw [hkept]; decide)
  rw [hkept] at answers hnext
  obtain ⟨hid, hnumber, -⟩ := answers.known 1 laterDocument rfl
  obtain ⟨-, -, hlength⟩ := answers.known 0 sampleDocument rfl
  refine ⟨hlen, hkept, hid, hnumber, hlength "title", fun posting hp hdoc => ?_, ?_,
    (hnext { id := "later", fields := [] }).1 (by decide)⟩
  · obtain ⟨document, hd, hpositions, -⟩ := answers.positions "title" "red" posting hp
    rw [hdoc] at hd
    cases hd
    rw [hpositions]
    decide
  · rw [(answers.occurrences "title" "red").2]
    decide

end Index

end Retrieval
