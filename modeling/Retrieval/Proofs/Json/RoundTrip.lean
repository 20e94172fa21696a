import Retrieval.Json.Postings
import Retrieval.Json.Queries
import Retrieval.Json.Rankings
import Retrieval.Json.Settings
import Retrieval.Proofs.Json.Form

/-!
# Forms that are read back

Queries, posting lists, rankings and search settings are read from the text that they are written
as (`JsonForm.forms_read_back`).

For each form there are two facts: what it writes is formed, and it is read from what comes back of
that. A query is read with as many levels as its value has arrays and objects open at once, by
induction on the query; the other forms take a fixed number of levels. The parameters of a model
share their record with its algorithm, so that the record comes apart into two.
-/

set_option autoImplicit false

namespace Retrieval

open Json

/-! ## Queries -/

@[simp]
theorem ProximityOp.ofJson?_reread (kind : ProximityOp) (levels : Nat) :
    JsonForm.ofJson? levels (JsonForm.toJson kind).reread = some kind := by
  have hname := name?_reread kind.label levels
  simp only [JsonForm.toJson, JsonForm.ofJson?, hname, Option.bind_some]
  cases kind <;> rfl

@[simp]
theorem Operator.ofJson?_reread (op : Operator) (levels : Nat) :
    JsonForm.ofJson? levels (JsonForm.toJson op).reread = some op := by
  have hname := name?_reread op.label levels
  simp only [JsonForm.toJson, JsonForm.ofJson?, hname, Option.bind_some]
  cases op <;> rfl

namespace Query

/-- All weights can be read back, those of arguments included. -/
inductive Legible : Query Float → Prop where
  | term (field word : String) : Legible (.term field word)
  | proximity {kind : ProximityOp} {span : UInt32} {args : List (Query Float)}
      (hargs : ∀ arg ∈ args, Legible arg) : Legible (.proximity kind span args)
  | score {arg : Query Float} (harg : Legible arg) : Legible (.score arg)
  | combine {op : Operator} {weights : List Float} {args : List (Query Float)}
      (hweights : ∀ weight ∈ weights, Json.Legible weight) (hargs : ∀ arg ∈ args, Legible arg) :
      Legible (.combine op weights args)

theorem toJsons_eq_map (queries : List (Query Float)) : toJsons queries = queries.map toJson := by
  induction queries with
  | nil => rfl
  | cons query rest ih => rw [toJsons, ih, List.map_cons]

theorem formed_toJson {query : Query Float} (hlegible : query.Legible) : query.toJson.Formed := by
  induction hlegible with
  | term field word =>
    refine formed_ofChoice _ (formed_ofFields ?_)
    simp only [List.forall_mem_cons]
    exact ⟨.text _, .text _, List.forall_mem_nil _⟩
  | proximity _ ih =>
    rw [toJson, toJsons_eq_map]
    refine formed_ofChoice _ (formed_ofFields ?_)
    simp only [List.forall_mem_cons]
    exact ⟨.text _, formed_ofNat _, formed_list ih, List.forall_mem_nil _⟩
  | score _ ih => exact formed_ofChoice _ ih
  | combine hweights _ ih =>
    rw [toJson, toJsons_eq_map]
    refine formed_ofChoice _ (formed_ofFields ?_)
    simp only [List.forall_mem_cons]
    exact ⟨.text _, formed_list fun weight hw => (hweights weight hw).formed, formed_list ih,
      List.forall_mem_nil _⟩

/-- Arguments are read in the third level, after the choice and its record. -/
theorem args_reread {args : List (Query Float)} {levels : Nat}
    (hlevels : (Json.array (args.map toJson)).depth ≤ levels - 1 - 1)
    (ih : ∀ arg ∈ args, arg.toJson.depth ≤ levels - 3 →
      ofJson? (levels - 3) arg.toJson.reread = some arg) :
    levels - 2 ≠ 0 ∧ list? (levels - 2) (ofJson? (levels - 3))
      (Json.array (args.map toJson)).reread = some args := by
  obtain ⟨hlist, hargs⟩ := depth_array_le_iff.mp hlevels
  rw [List.forall_mem_map] at hargs
  exact ⟨hlist, list?_reread hlist fun arg ha => ih arg ha (hargs arg ha)⟩

theorem ofJson?_reread {query : Query Float} (hlegible : query.Legible) {levels : Nat}
    (hlevels : query.toJson.depth ≤ levels) : ofJson? levels query.toJson.reread = some query := by
  induction hlegible generalizing levels with
  | term field word =>
    rw [toJson, depth_ofChoice_le_iff, depth_ofFields_le_iff] at hlevels
    obtain ⟨hchoice, hrecord, -⟩ := hlevels
    rw [toJson, ofJson?, if_neg hchoice, choice?_reread _ _ hchoice]
    simp [hrecord]
  | @proximity kind span args _ ih =>
    rw [toJson, toJsons_eq_map, depth_ofChoice_le_iff, depth_ofFields_le_iff] at hlevels
    obtain ⟨hchoice, hrecord, hfields⟩ := hlevels
    obtain ⟨-, hargs⟩ := args_reread (hfields ("args", .array (args.map toJson)) (by simp))
      fun arg ha => ih arg ha
    rw [toJson, toJsons_eq_map, ofJson?, if_neg hchoice, choice?_reread _ _ hchoice]
    simp [hrecord, hargs]
  | score _ ih =>
    rw [toJson, depth_ofChoice_le_iff] at hlevels
    rw [toJson, ofJson?, if_neg hlevels.1, choice?_reread _ _ hlevels.1]
    simp [ih hlevels.2]
  | @combine op weights args hweights _ ih =>
    rw [toJson, toJsons_eq_map, depth_ofChoice_le_iff, depth_ofFields_le_iff] at hlevels
    obtain ⟨hchoice, hrecord, hfields⟩ := hlevels
    obtain ⟨hlist, hargs⟩ := args_reread (hfields ("args", .array (args.map toJson)) (by simp))
      fun arg ha => ih arg ha
    have hshares : list? (levels - 2) float? (Json.array (weights.map ofFloat)).reread =
        some weights := list?_reread hlist fun weight hw => (hweights weight hw).float?_reread
    rw [toJson, toJsons_eq_map, ofJson?, if_neg hchoice, choice?_reread _ _ hchoice]
    simp [hrecord, hshares, hargs]

theorem parse_write {query : Query Float} (hlegible : query.Legible)
    (hlevels : (JsonForm.toJson query).depth ≤ maxLevels) :
    JsonForm.parse (JsonForm.write query) = .ok query :=
  JsonForm.parse_write (formed_toJson hlegible) (ofJson?_reread hlegible hlevels)

end Query

/-! ## Posting lists -/

theorem Posting.formed_toJson (posting : Posting) : (JsonForm.toJson posting).Formed := by
  refine formed_ofFields ?_
  simp only [List.forall_mem_cons]
  exact ⟨formed_ofNat _, formed_ofNat _, formed_list fun _ _ => formed_ofNat _,
    List.forall_mem_nil _⟩

theorem Posting.ofJson?_reread (posting : Posting) {levels : Nat} (hlevels : 2 ≤ levels) :
    JsonForm.ofJson? levels (JsonForm.toJson posting).reread = some posting := by
  have hrecord : levels ≠ 0 := by omega
  have hpositions : list? (levels - 1) uint32?
      (Json.array (posting.positions.map fun n => Json.ofNat n.toNat)).reread =
        some posting.positions := list?_reread (by omega) fun n _ => uint32?_reread n
  simp [JsonForm.toJson, JsonForm.ofJson?, hrecord, hpositions]

theorem PostingList.formed_toJson (list : PostingList) : (JsonForm.toJson list).Formed := by
  refine formed_ofFields ?_
  simp only [List.forall_mem_cons]
  exact ⟨.text _, formed_list fun posting _ => posting.formed_toJson, formed_ofNat _,
    List.forall_mem_nil _⟩

theorem PostingList.ofJson?_reread (list : PostingList) {levels : Nat} (hlevels : 4 ≤ levels) :
    JsonForm.ofJson? levels (JsonForm.toJson list).reread = some list := by
  have hrecord : levels ≠ 0 := by omega
  have hpostings : list? (levels - 1) (JsonForm.ofJson? (levels - 2))
      (Json.array (list.toList.map JsonForm.toJson)).reread = some list.toList :=
    list?_reread (by omega) fun posting _ => posting.ofJson?_reread (by omega)
  have harray : list.toList.toArray = list.postings := Array.toArray_toList
  -- only this form is opened, not that of the postings
  rw [JsonForm.toJson, JsonForm.ofJson?]
  simp only [instJsonFormPostingList]
  simp [hrecord, hpostings, harray]

theorem PostingList.parse_write (list : PostingList) :
    JsonForm.parse (JsonForm.write list) = .ok list :=
  JsonForm.parse_write list.formed_toJson (list.ofJson?_reread (by decide))

/-! ## Rankings -/

theorem Hit.formed_toJson {hit : Hit Float} (hlegible : Json.Legible hit.score) :
    (JsonForm.toJson hit).Formed := by
  refine formed_ofFields ?_
  simp only [List.forall_mem_cons]
  exact ⟨formed_ofNat _, hlegible.formed, List.forall_mem_nil _⟩

theorem Hit.ofJson?_reread {hit : Hit Float} (hlegible : Json.Legible hit.score) {levels : Nat}
    (hrecord : levels ≠ 0) : JsonForm.ofJson? levels (JsonForm.toJson hit).reread = some hit := by
  simp [JsonForm.toJson, JsonForm.ofJson?, hrecord, hlegible.float?_reread]

/-- All scores can be read back. -/
def Ranking.Legible (ranking : Ranking Float) : Prop :=
  ∀ hit ∈ ranking.hits, Json.Legible hit.score

theorem Ranking.formed_toJson {ranking : Ranking Float} (hlegible : ranking.Legible) :
    (JsonForm.toJson ranking).Formed := by
  refine formed_ofFields ?_
  simp only [List.forall_mem_cons]
  exact ⟨formed_list fun hit hh => Hit.formed_toJson (hlegible hit hh), List.forall_mem_nil _⟩

theorem Ranking.ofJson?_reread {ranking : Ranking Float} (hlegible : ranking.Legible)
    {levels : Nat} (hlevels : 3 ≤ levels) :
    JsonForm.ofJson? levels (JsonForm.toJson ranking).reread = some ranking := by
  have hrecord : levels ≠ 0 := by omega
  have hhits : list? (levels - 1) (JsonForm.ofJson? (levels - 2))
      (Json.array (ranking.hits.map JsonForm.toJson)).reread = some ranking.hits :=
    list?_reread (by omega) fun hit hh => Hit.ofJson?_reread (hlegible hit hh) (by omega)
  rw [JsonForm.toJson, JsonForm.ofJson?]
  simp only [instJsonFormRankingFloat]
  simp [hrecord, hhits]

theorem Ranking.parse_write {ranking : Ranking Float} (hlegible : ranking.Legible) :
    JsonForm.parse (JsonForm.write ranking) = .ok ranking :=
  JsonForm.parse_write (formed_toJson hlegible) (ofJson?_reread hlegible (by decide))

/-! ## Models and search settings -/

namespace Model

/-- All parameters can be read back. -/
def Legible : Model Float → Prop
  | unrankedBoolean | rankedBoolean => True
  | bm25 params => Json.Legible params.k1 ∧ Json.Legible params.b ∧ Json.Legible params.k3
  | indri params => Json.Legible params.mu ∧ Json.Legible params.lambda

/-- A field that no parameter is named for is told apart from them. -/
theorem partition_rereadFields {name : String} (tag : Json) {params : List (String × Json)}
    (h : name ∉ params.map (·.1)) :
    (rereadFields ((name, tag) :: params)).partition (·.1.decode? == some name) =
      ([((RawText.ofString name).reread, tag.reread)], rereadFields params) := by
  have hothers : ∀ member ∈ rereadFields params, (member.1.decode? == some name) = false := by
    refine List.forall_mem_map.mpr fun param hp => ?_
    rw [RawText.decode?_reread, beq_eq_false_iff_ne]
    intro heq
    exact h (Option.some.inj heq ▸ List.mem_map_of_mem hp)
  have hnone : (rereadFields params).filter (·.1.decode? == some name) = [] :=
    List.filter_eq_nil_iff.mpr fun member hm => by simp [hothers member hm]
  have hall : (rereadFields params).filter (not ∘ (·.1.decode? == some name)) =
      rereadFields params :=
    List.filter_eq_self.mpr fun member hm => by simp [hothers member hm]
  have hcons : rereadFields ((name, tag) :: params) =
      ((RawText.ofString name).reread, tag.reread) :: rereadFields params := rfl
  have hfirst : ((RawText.ofString name).reread.decode? == some name) = true := by
    rw [RawText.decode?_reread, beq_self_eq_true]
  simp only [List.partition_eq_filter_filter, hcons, List.filter_cons, Function.comp_apply, hfirst,
    hnone, hall, Bool.not_true, Bool.false_eq_true, if_true, if_false]

/-- The algorithm is told apart from the parameters. -/
theorem algorithm?_reread {name : String} {params : List (String × Json)} {levels : Nat}
    (hlevels : levels ≠ 0) (hnames : "algorithm" ∉ params.map (·.1))
    (hreadable : ∀ param ∈ params, param.2.reread.isReadable (levels - 1) = true) :
    algorithm? levels (ofAlgorithm name params).reread =
      some (name, (ofFields params).reread) := by
  have hall : (ofAlgorithm name params).reread.isReadable levels = true :=
    isReadable_ofFields hlevels (List.forall_mem_cons.mpr ⟨isReadable_ofText .., hreadable⟩)
  rw [ofAlgorithm, reread_ofFields] at hall ⊢
  unfold algorithm?
  rw [hall]
  simp only [partition_rereadFields _ hnames, string?_reread]
  rw [reread_ofFields]
  rfl

theorem formed_toJson {model : Model Float} (hlegible : model.Legible) : model.toJson.Formed := by
  cases model with
  | unrankedBoolean | rankedBoolean =>
    exact formed_ofFields (List.forall_mem_singleton.mpr (.text _))
  | bm25 params =>
    refine formed_ofFields ?_
    simp only [List.forall_mem_cons]
    exact ⟨.text _, hlegible.1.formed, hlegible.2.1.formed, hlegible.2.2.formed,
      List.forall_mem_nil _⟩
  | indri params =>
    refine formed_ofFields ?_
    simp only [List.forall_mem_cons]
    exact ⟨.text _, hlegible.1.formed, hlegible.2.formed, List.forall_mem_nil _⟩

theorem ofJson?_reread {model : Model Float} (hlegible : model.Legible) {levels : Nat}
    (hlevels : levels ≠ 0) : Model.ofJson? levels model.toJson.reread = some model := by
  cases model with
  | unrankedBoolean | rankedBoolean =>
    rw [Model.toJson, Model.ofJson?,
      algorithm?_reread hlevels List.not_mem_nil (List.forall_mem_nil _)]
    rfl
  | bm25 params =>
    have halgorithm : algorithm? levels (bm25 params).toJson.reread =
        some ("bm25", (ofFields [("k1", ofFloat params.k1), ("b", ofFloat params.b),
          ("k3", ofFloat params.k3)]).reread) := by
      refine algorithm?_reread hlevels (by simp) ?_
      simp only [List.forall_mem_cons]
      exact ⟨hlegible.1.isReadable _, hlegible.2.1.isReadable _, hlegible.2.2.isReadable _,
        List.forall_mem_nil _⟩
    rw [Model.ofJson?, halgorithm]
    simp [hlevels, hlegible.1.float?_reread, hlegible.2.1.float?_reread,
      hlegible.2.2.float?_reread]
  | indri params =>
    have halgorithm : algorithm? levels (indri params).toJson.reread =
        some ("indri", (ofFields [("mu", ofFloat params.mu),
          ("lambda", ofFloat params.lambda)]).reread) := by
      refine algorithm?_reread hlevels (by simp) ?_
      simp only [List.forall_mem_cons]
      exact ⟨hlegible.1.isReadable _, hlegible.2.isReadable _, List.forall_mem_nil _⟩
    rw [Model.ofJson?, halgorithm]
    simp [hlevels, hlegible.1.float?_reread, hlegible.2.float?_reread]

end Model

theorem limit?_reread {n : Nat} (h : n < UInt64.size) :
    limit? (Json.ofNat n).reread = some (some n) :=
  congrArg (Option.map some) (nat?_reread h)

namespace SearchSettings

/-- All parameters can be read back, and the limit fits a word. -/
def Legible (settings : SearchSettings Float) : Prop :=
  settings.model.Legible ∧ ∀ n ∈ settings.limit, n < UInt64.size

theorem formed_toJson {settings : SearchSettings Float} (hlegible : settings.Legible) :
    (JsonForm.toJson settings).Formed := by
  refine formed_ofFields ?_
  simp only [List.forall_mem_cons]
  refine ⟨Model.formed_toJson hlegible.1, ?_, .bool _, List.forall_mem_nil _⟩
  cases settings.limit with
  | none => exact .null
  | some n => exact formed_ofNat n

theorem ofJson?_reread {settings : SearchSettings Float} (hlegible : settings.Legible)
    {levels : Nat} (hlevels : 2 ≤ levels) :
    JsonForm.ofJson? levels (JsonForm.toJson settings).reread = some settings := by
  obtain ⟨model, limit, wraps⟩ := settings
  have hrecord : levels ≠ 0 := by omega
  have hmodel : JsonForm.ofJson? (levels - 1) (JsonForm.toJson model).reread = some model :=
    Model.ofJson?_reread hlegible.1 (by omega)
  have hwraps : bool? (Json.bool wraps).reread = some wraps := rfl
  rw [JsonForm.toJson, JsonForm.ofJson?]
  simp only [instJsonFormSearchSettingsFloat]
  cases limit with
  | none =>
    have hlimit : limit? Json.null.reread = some none := rfl
    simp [hrecord, hmodel, hlimit, hwraps]
  | some n =>
    have hlimit := limit?_reread (hlegible.2 n rfl)
    simp [hrecord, hmodel, hlimit, hwraps]

theorem parse_write {settings : SearchSettings Float} (hlegible : settings.Legible) :
    JsonForm.parse (JsonForm.write settings) = .ok settings :=
  JsonForm.parse_write (formed_toJson hlegible) (ofJson?_reread hlegible (by decide))

end SearchSettings

namespace JsonForm

/-- What a form is written as is read as the same value: a query that does not nest too deep, a
posting list, a ranking and search settings. -/
theorem forms_read_back :
    (∀ query : Query Float, query.Legible → (toJson query).depth ≤ maxLevels →
      parse (write query) = .ok query) ∧
    (∀ list : PostingList, parse (write list) = .ok list) ∧
    (∀ ranking : Ranking Float, ranking.Legible → parse (write ranking) = .ok ranking) ∧
    (∀ settings : SearchSettings Float, settings.Legible → parse (write settings) = .ok settings) :=
  ⟨fun _ => Query.parse_write, PostingList.parse_write, fun _ => Ranking.parse_write,
    fun _ => SearchSettings.parse_write⟩

theorem forms_read_back_escaped :
    let query : Query Float := .combine .weightedSum [0.5, 2]
      [.term "title" "say \"hi\" \\ \n\x01", .score (.proximity .near 3
        [.term "body" "é", .term "body" "😀"])]
    let list : PostingList :=
      { field := "a\tb", postings := #[{ doc := 4294967295, frequency := 2, positions := [0, 7] }]
        ctf := 18446744073709551615 }
    let ranking : Ranking Float := { hits := [{ doc := 7, score := -0.1 }] }
    let settings : SearchSettings Float :=
      { model := .bm25 Bm25.standard, limit := some 10, wraps := false }
    (query.Legible ∧ (toJson query).depth ≤ maxLevels ∧ parse (write query) = .ok query) ∧
      parse (write list) = .ok list ∧
      (ranking.Legible ∧ parse (write ranking) = .ok ranking) ∧
      settings.Legible ∧ parse (write settings) = .ok settings := by
  intro query list ranking settings
  have hweights : ∀ weight ∈ ([0.5, 2] : List Float), Json.Legible weight := by decide +kernel
  have hquery : query.Legible := by
    refine .combine hweights ?_
    simp only [List.forall_mem_cons]
    refine ⟨.term .., .score (.proximity ?_), List.forall_mem_nil _⟩
    simp only [List.forall_mem_cons]
    exact ⟨.term .., .term .., List.forall_mem_nil _⟩
  have hlevels : (toJson query).depth ≤ maxLevels := by decide +kernel
  have hranking : ranking.Legible := by unfold Ranking.Legible; decide +kernel
  have hsettings : settings.Legible := by
    refine ⟨⟨?_, ?_, ?_⟩, ?_⟩ <;> decide +kernel
  exact ⟨⟨hquery, hlevels, forms_read_back.1 query hquery hlevels⟩, forms_read_back.2.1 list,
    ⟨hranking, forms_read_back.2.2.1 ranking hranking⟩, hsettings,
    forms_read_back.2.2.2 settings hsettings⟩

end JsonForm

end Retrieval
