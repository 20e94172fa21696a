import Retrieval.Proofs.Double.Values
import Retrieval.Proofs.Index.Accepted
import Retrieval.Proofs.Query.Rearranged
import Retrieval.Proofs.Scoring.Probability
import Retrieval.Proofs.Search.Faults
import Retrieval.Proofs.Source.Bounds

/-!
# Statistics of leaves

The numbers that a leaf is scored with fit together, whatever the query it comes from
(`ScoreTree.leaves_consistent`): a list has at most the documents that have its field, each of them
with at least one occurrence and with no more than the field is long there. Hence two numbers that
are computed of them are in range, and rounding to doubles does not change that.
-/

set_option autoImplicit false

namespace Retrieval

/-- Places of items that pass a test are no more than the items that pass it. -/
theorem length_le_countP {β : Type} {items : List β} {p : β → Bool} {places : List Nat}
    (hnodup : places.Nodup) (h : ∀ i ∈ places, ∃ item, items[i]? = some item ∧ p item = true) :
    places.length ≤ items.countP p := by
  have hsub : places ⊆ (items.zipIdx.filter (p ·.1)).map (·.2) := by
    intro i hi
    obtain ⟨item, hitem, hp⟩ := h i hi
    refine List.mem_map.mpr ⟨(item, i), List.mem_filter.mpr ⟨?_, hp⟩, rfl⟩
    exact List.mk_mem_zipIdx_iff_getElem?.mpr hitem
  calc places.length
      ≤ ((items.zipIdx.filter (p ·.1)).map (·.2)).length :=
        (List.subperm_of_subset hnodup hsub).length_le
    _ = items.zipIdx.countP (p ∘ Prod.fst) := by
        rw [List.length_map, ← List.countP_eq_length_filter]
        rfl
    _ = items.countP p := by rw [← List.countP_map, List.zipIdx_map_fst]

/-- The numbers of a scored list fit together, and fit the index. -/
structure ListStats.Consistent {α : Type} (index : Index) (list : PostingList)
    (stats : ListStats α) : Prop where
  df_le_docs : stats.df ≤ (index.fieldTotals stats.field).docs
  docs_le : (index.fieldTotals stats.field).docs ≤ stats.docs
  df_le_ctf : stats.df ≤ stats.ctf
  ctf_le : stats.ctf ≤ (index.fieldTotals stats.field).tokens
  frequencies : ∀ posting ∈ list.toList, 1 ≤ posting.frequency.toNat ∧
    ∃ length, index.lengthOf stats.field posting.doc = .ok length ∧
      posting.frequency.toNat ≤ length

namespace Source

variable {α : Type} [Scalar α] [DecimalText α] {index : Index} {documents : List Document}

theorem tokens_of_posting (hr : index.Reflects documents) (hm : index.Measured documents)
    {query : Query α} {source : Source} (h : ofQuery index query = .ok source) {posting : Posting}
    (hp : posting ∈ source.list.toList) :
    1 ≤ posting.frequency.toNat ∧ posting.frequency.toNat ≤
      (Document.tokensOf documents source.field posting.doc).length := by
  obtain ⟨hf, -⟩ := faithful_of_built hr.listed h
  obtain ⟨-, hplaces, -⟩ := bounds_of_built hr hm h
  rw [hf.counted posting hp, ← hf.places_eq hp]
  refine ⟨List.length_pos_iff.mpr ?_, hplaces posting.doc⟩
  rw [hf.places_eq hp]
  exact hf.occurring posting hp

/-- The documents of a list are some of those that have tokens in its field. -/
theorem df_le_docs (hr : index.Reflects documents) (hm : index.Measured documents)
    {query : Query α} {source : Source} (h : ofQuery index query = .ok source) :
    source.list.df ≤ (index.fieldTotals source.field).docs := by
  obtain ⟨hf, -⟩ := faithful_of_built hr.listed h
  have hnodup : (source.list.docs.map (·.toNat)).Nodup :=
    hf.ascending.nodup_docs.map fun _ _ => UInt32.toNat_inj.mp
  have hlength : (source.list.docs.map (·.toNat)).length = source.list.df := by
    rw [List.length_map, PostingList.docs, List.length_map, PostingList.toList,
      Array.length_toList, PostingList.df]
  rw [hm.totals_eq, ← hlength]
  refine length_le_countP hnodup (List.forall_mem_map.mpr fun doc hdoc => ?_)
  obtain ⟨posting, hp, rfl⟩ := List.mem_map.mp hdoc
  obtain ⟨hone, hle⟩ := tokens_of_posting hr hm h hp
  have hpos := Nat.lt_of_lt_of_le hone hle
  cases hdocument : documents[posting.doc.toNat]? with
  | none => simp [Document.tokensOf, hdocument] at hpos
  | some document =>
    rw [Document.tokensOf_of_getElem? hdocument] at hpos
    exact ⟨document, rfl, decide_eq_true hpos⟩

theorem consistent_of_built (hr : index.Reflects documents) (hm : index.Measured documents)
    {query : Query α} {source : Source} (h : ofQuery index query = .ok source) :
    (ListStats.ofList index source.list : ListStats α).Consistent index source.list := by
  obtain ⟨ht, -, hctf⟩ := bounds_of_built hr hm h
  refine ⟨df_le_docs hr hm h, ?_, ?_, hctf, fun posting hp => ?_⟩
  · rw [hm.totals_eq, ListStats.ofList, hr.size_eq]
    exact List.countP_le_length
  · have hones : ∀ frequency ∈ source.list.toList.map (·.frequency.toNat), 1 ≤ frequency :=
      List.forall_mem_map.mpr fun posting hp => (tokens_of_posting hr hm h hp).1
    have hle := List.length_le_sum_of_one_le _ hones
    rwa [← ht, List.length_map] at hle
  · obtain ⟨hone, hle⟩ := tokens_of_posting hr hm h hp
    have hdoc := lt_size_of_posted hr h (List.mem_map_of_mem hp)
    exact ⟨hone, _, hm.lengthOf_eq hdoc source.field, hle⟩

end Source

namespace ScoreTree

variable {α : Type}

mutual

/-- The leaves, from left to right, each with its posting list and its statistics. -/
def leaves : ScoreTree α → List (PostingList × ListStats α)
  | leaf source stats => [(source.list, stats)]
  | combine _ _ _ children _ _ => leavesOfAll children

def leavesOfAll : List (ScoreTree α) → List (PostingList × ListStats α)
  | [] => []
  | tree :: rest => leaves tree ++ leavesOfAll rest

end

theorem leavesOfAll_eq_flatMap (trees : List (ScoreTree α)) :
    leavesOfAll trees = trees.flatMap leaves := by
  induction trees with
  | nil => rfl
  | cons tree rest ih => rw [leavesOfAll, ih, List.flatMap_cons]

variable [Scalar α] [DecimalText α] {scorer : Scorer α} {index : Index}

theorem leaves_of_built {query : Query α} {tree : ScoreTree α}
    (hbuilt : ofQuery scorer index query = .ok tree) :
    ∀ leaf ∈ tree.leaves, ∃ (posted : Query α) (source : Source),
      Source.ofQuery index posted = .ok source ∧
        leaf = (source.list, ListStats.ofList index source.list) := by
  induction query using Query.leafInduction generalizing tree with
  | leaf query hq =>
    obtain ⟨source, hs, rfl⟩ := ofQuery_leaf hq hbuilt
    rw [ofSource, leaves, List.forall_mem_singleton]
    exact ⟨query.posted, source, hs, rfl⟩
  | combine op weights args ih =>
    obtain ⟨rule, children, -, hchildren, rfl⟩ := ofQuery_combine hbuilt
    rw [ofChildren, leaves, leavesOfAll_eq_flatMap]
    intro leaf hleaf
    obtain ⟨child, hc, hm⟩ := List.mem_flatMap.mp hleaf
    obtain ⟨arg, harg, hquery⟩ := exists_of_forall₂ hchildren hc
    exact ih arg harg hquery leaf hm

end ScoreTree

/-! ## What is computed of them -/

/-- The argument of the logarithm in the weight of a term: the odds against having it. -/
def Bm25.odds {α : Type} [Scalar α] (docs df : Nat) : α :=
  (Scalar.ofNat docs - Scalar.ofNat df + Scalar.half) / (Scalar.ofNat df + Scalar.half)

theorem Bm25.rarity_eq {α : Type} [Scalar α] (docs df : Nat) :
    (rarity docs df : α) = Scalar.larger (Scalar.log (odds docs df)) Scalar.zero := rfl

theorem Bm25.odds_pos {docs df : Nat} (hle : df ≤ docs) (hdocs : docs < UInt32.size) :
    Scalar.lt Scalar.zero (odds docs df : Float) = true := by
  have hsize : UInt32.size = 2 ^ 32 := rfl
  have hwithout : docs - df < 2 ^ 52 := by omega
  have hwith : df < 2 ^ 52 := by omega
  have hmoderate := Double.moderate_add_half hwithout
  obtain ⟨q, hq, hpos, -⟩ := ((Double.denotes_sub hle (by omega)).add_half hwithout).exists_div
    ((Double.denotes_ofNat (by omega)).add_half hwith) (.inr hmoderate)
    (Double.moderate_add_half hwith)
  exact hq.pos (hpos (by positivity))

theorem ListStats.likelihood_le_one {stats : ListStats Float} (hle : stats.ctf ≤ stats.fieldTokens)
    (htokens : stats.fieldTokens < 2 ^ 64) : Scalar.le stats.likelihood Scalar.one = true := by
  rw [likelihood]
  split
  · exact Double.denotes_zero.le_one zero_le_one
  · rename_i hne
    exact Double.ofNat_div_le_one (Nat.pos_of_ne_zero hne) hle htokens

/-- Fewer documents than there are numbers, with fewer tokens each than there are positions. -/
theorem Document.tokens_lt {documents : List Document} (hn : documents.length < UInt32.size)
    (hcount : ∀ document ∈ documents, document.Countable) (field : String) :
    (totalsOf documents field).tokens < 2 ^ 64 := by
  have hlengths : ∀ length ∈ documents.map fun document => (document.tokens field).length,
      length ≤ 2 ^ 32 :=
    List.forall_mem_map.mpr fun document hd => ((hcount document hd).length_tokens field).le
  calc (totalsOf documents field).tokens
      ≤ documents.length * 2 ^ 32 := by
        simpa [totalsOf] using List.sum_le_card_nsmul _ _ hlengths
    _ < 2 ^ 32 * 2 ^ 32 := Nat.mul_lt_mul_of_pos_right hn (Nat.two_pow_pos 32)
    _ = 2 ^ 64 := (Nat.pow_add 2 32 32).symm

namespace ScoreTree

/-- On an index that was built of fewer than two to the power of 32 documents, with fields of fewer
tokens than that: the statistics of every leaf of a tree fit together, so that in double precision
the argument of the logarithm is positive and the likelihood is at most one. -/
theorem leaves_consistent {scorer : Scorer Float} {index : Index} {documents : List Document}
    (hb : index.BuiltOf documents) (hn : documents.length < UInt32.size)
    (hcount : ∀ document ∈ documents, document.Countable) {query : Query Float}
    {tree : ScoreTree Float} (hbuilt : ofQuery scorer index query = .ok tree) :
    ∀ leaf ∈ tree.leaves, leaf.2 = ListStats.ofList index leaf.1 ∧
      leaf.2.Consistent index leaf.1 ∧
      Scalar.lt Scalar.zero (Bm25.odds leaf.2.docs leaf.2.df : Float) = true ∧
      Scalar.le leaf.2.likelihood Scalar.one = true := by
  have hr := hb.reflects hn
  have hm := hb.measured hn
  intro leaf hleaf
  obtain ⟨posted, source, hs, rfl⟩ := leaves_of_built hbuilt leaf hleaf
  have hconsistent := Source.consistent_of_built hr hm hs
  refine ⟨rfl, hconsistent, Bm25.odds_pos ?_ ?_, ListStats.likelihood_le_one ?_ ?_⟩
  · exact hconsistent.df_le_docs.trans hconsistent.docs_le
  · exact hr.size_eq.trans_lt hn
  · exact hconsistent.ctf_le
  · have htokens := Document.tokens_lt hn hcount source.field
    rwa [← hm.totals_eq] at htokens

/-- A chain within a window, beside a term. -/
def nestedQuery : Query Float :=
  .or [.proximity .window 2
      [.proximity .near 1 [.term "body" "red", .term "body" "blue"], .term "body" "blue"],
    .term "body" "red"]

theorem nestedQuery_wellFormed : nestedQuery.WellFormed (.rankedBoolean : Model Float) := by
  have hterm : ∀ field word, (Query.term field word : Query Float).PostingsFormed :=
    fun field word => .term
  refine .combine (.inr rfl) rfl (List.forall_mem_cons.mpr ⟨.leaf ?_, ?_⟩)
  · simp [Query.postingsFormed_proximity_iff, hterm, Query.resultField, Query.resultFields]
  · exact List.forall_mem_singleton.mpr (.leaf (hterm "body" "red"))

theorem leaves_consistent_nested :
    ∃ tree, ofQuery Boolean.ranked Index.sample nestedQuery = .ok tree ∧ tree.leaves ≠ [] ∧
      ∀ leaf ∈ tree.leaves, leaf.2.Consistent Index.sample leaf.1 ∧
        Scalar.lt Scalar.zero (Bm25.odds leaf.2.docs leaf.2.df : Float) = true ∧
        Scalar.le leaf.2.likelihood Scalar.one = true := by
  have hr := Index.builtOf_sample.reflects (by decide)
  obtain ⟨tree, hbuilt⟩ := (ofQuery_eq_ok_iff hr rfl nestedQuery).mpr nestedQuery_wellFormed
  have hsome : tree.leaves ≠ [] := by
    obtain ⟨rule, children, -, hchildren, rfl⟩ := ofQuery_combine hbuilt
    obtain ⟨child, rest, hchild, -, rfl⟩ := List.forall₂_cons_left_iff.mp hchildren
    obtain ⟨source, -, rfl⟩ := ofQuery_leaf (by trivial) hchild
    exact List.cons_ne_nil _ _
  have hconsistent := leaves_consistent Index.builtOf_sample (by decide) (by decide) hbuilt
  exact ⟨tree, hbuilt, hsome, fun leaf hleaf => (hconsistent leaf hleaf).2⟩

end ScoreTree

end Retrieval
