import Retrieval.Proofs.Cursor.Searches
import Retrieval.Proofs.Scoring.Plan

/-!
# Traversals of score trees

A score tree walks through the documents of its plan like a cursor over one sorted list, however
it is nested and whatever calls are made on it (`ScoreTree.settle_after_calls`).

Every combinator keeps the document that it found and whether it has run out, while its children
are moved by it and by its searches. `ScoreTree.Sound` ties this to the postings that the leaves
have before them: a kept document is the first one that the children still admit together, and no
child is past a document that the combinator still admits.
-/

set_option autoImplicit false

namespace Retrieval.ScoreTree

variable {α : Type}

/-! ## The documents that are still to come -/

mutual

/-- Whether the document is among those that the tree still has before it. -/
def expects (doc : DocId) : ScoreTree α → Bool
  | leaf source _ => source.expects doc
  | combine _ _ rule children _ _ => rule.holds (eachExpects doc children)

def eachExpects (doc : DocId) : List (ScoreTree α) → List Bool
  | [] => []
  | tree :: rest => expects doc tree :: eachExpects doc rest

end

/-- Whether children still have a document before them that they match together. -/
def Admitted (rule : MatchRule) (children : List (ScoreTree α)) (doc : DocId) : Prop :=
  rule.Admits (fun child => child.expects doc = true) children

theorem expects_combine (doc : DocId) (op : Operator) (weights : List α) (rule : MatchRule)
    (children : List (ScoreTree α)) (current : Option DocId) (exhausted : Bool) :
    expects doc (combine op weights rule children current exhausted) = true ↔
      Admitted rule children doc := by
  have hmap : eachExpects doc children = children.map (expects doc) := by
    induction children with
    | nil => rfl
    | cons child rest ih => rw [eachExpects, ih, List.map_cons]
  rw [expects, hmap, MatchRule.holds_map_iff, Admitted]

/-- What a combinator keeps, against what its children have before them. -/
structure NodeSound (rule : MatchRule) (children : List (ScoreTree α)) (current : Option DocId)
    (exhausted : Bool) : Prop where
  none_lost : ∀ doc, Admitted rule children doc →
    ∀ child ∈ children, child.plan.has doc = true → child.expects doc = true
  current_first : ∀ doc, current = some doc → FirstOf (Admitted rule children) (some doc)
  children_stand : rule ≠ .first → ∀ doc, current = some doc →
    ∀ child ∈ children, child.expects doc = true → child.doc? = some doc
  exhausted_none : exhausted = true → current = none ∧ ∀ doc, ¬ Admitted rule children doc

inductive Sound : ScoreTree α → Prop
  | leaf {source : Source} {stats : ListStats α} (hsource : source.Sound) :
      Sound (leaf source stats)
  | combine {op : Operator} {weights : List α} {rule : MatchRule} {children : List (ScoreTree α)}
      {current : Option DocId} {exhausted : Bool}
      (hchildren : ∀ child ∈ children, Sound child)
      (hnode : NodeSound rule children current exhausted) :
      Sound (combine op weights rule children current exhausted)

/-! ## Moves -/

theorem moveAllTo_eq_map (doc : DocId) (trees : List (ScoreTree α)) :
    moveAllTo doc trees = trees.map (moveTo doc) := by
  induction trees with
  | nil => rfl
  | cons tree rest ih => rw [moveAllTo, ih, List.map_cons]

theorem moveAllBeyond_eq_map (doc : DocId) (trees : List (ScoreTree α)) :
    moveAllBeyond doc trees = trees.map (moveBeyond doc) := by
  induction trees with
  | nil => rfl
  | cons tree rest ih => rw [moveAllBeyond, ih, List.map_cons]

theorem plan_moveTo (doc : DocId) (tree : ScoreTree α) : (tree.moveTo doc).plan = tree.plan := by
  induction tree using inductionOn with
  | leaf source stats => rfl
  | combine op weights rule children current exhausted ih =>
    rw [moveTo]
    split
    · rfl
    · rw [plan_combine, plan_combine, moveAllTo_eq_map, List.map_map]
      congr 1
      exact List.map_congr_left ih

theorem plan_moveBeyond (doc : DocId) (tree : ScoreTree α) :
    (tree.moveBeyond doc).plan = tree.plan := by
  induction tree using inductionOn with
  | leaf source stats => rfl
  | combine op weights rule children current exhausted ih =>
    rw [moveBeyond]
    split
    · rfl
    · rw [plan_combine, plan_combine, moveAllBeyond_eq_map, List.map_map]
      congr 1
      exact List.map_congr_left ih

/-- A combinator that has moved all its children by a bound starts anew from there. -/
theorem NodeSound.moved {rule : MatchRule} {children : List (ScoreTree α)}
    {current : Option DocId} {exhausted : Bool} (hn : NodeSound rule children current exhausted)
    {move : ScoreTree α → ScoreTree α} (within : DocId → Prop)
    (hplan : ∀ child, (move child).plan = child.plan)
    (hmove : ∀ child ∈ children, ∀ doc,
      (move child).expects doc = true ↔ child.expects doc = true ∧ within doc) :
    NodeSound rule (children.map move) none exhausted where
  none_lost doc hd child hc hhas := by
    obtain ⟨before, hb, rfl⟩ := List.mem_map.mp hc
    have had := (rule.admits_map_and fun c h => hmove c h doc).mp hd
    rw [hplan] at hhas
    exact (hmove before hb doc).mpr ⟨hn.none_lost doc had.1 before hb hhas, had.2⟩
  current_first doc h := by cases h
  children_stand _ doc h := by cases h
  exhausted_none h := by
    refine ⟨rfl, fun doc hd => (hn.exhausted_none h).2 doc ?_⟩
    exact ((rule.admits_map_and fun c h => hmove c h doc).mp hd).1

theorem of_any_eq_true {current : Option DocId} {p : DocId → Bool} (h : current.any p = true) :
    ∃ doc, current = some doc ∧ p doc = true := by
  cases current with
  | none => cases h
  | some doc => exact ⟨doc, rfl, h⟩

theorem Sound.expects_moveTo {tree : ScoreTree α} (hs : tree.Sound) (bound doc : DocId) :
    (tree.moveTo bound).expects doc = true ↔ tree.expects doc = true ∧ bound ≤ doc := by
  induction hs with
  | leaf hsource => exact hsource.expects_moveTo bound doc
  | @combine op weights rule children current exhausted _ hnode ih =>
    rw [moveTo]
    split
    · rename_i hstay
      obtain ⟨place, rfl, hle⟩ := of_any_eq_true hstay
      rw [decide_eq_true_eq] at hle
      refine (and_iff_left_of_imp fun hd => ?_).symm
      rw [expects_combine] at hd
      exact UInt32.le_trans hle ((hnode.current_first place rfl).2 doc hd)
    · rw [expects_combine, expects_combine, moveAllTo_eq_map]
      exact rule.admits_map_and ih

theorem Sound.expects_moveBeyond {tree : ScoreTree α} (hs : tree.Sound) (bound doc : DocId) :
    (tree.moveBeyond bound).expects doc = true ↔ tree.expects doc = true ∧ bound < doc := by
  induction hs with
  | leaf hsource => exact hsource.expects_moveBeyond bound doc
  | @combine op weights rule children current exhausted _ hnode ih =>
    rw [moveBeyond]
    split
    · rename_i hstay
      obtain ⟨place, rfl, hlt⟩ := of_any_eq_true hstay
      rw [decide_eq_true_eq] at hlt
      refine (and_iff_left_of_imp fun hd => ?_).symm
      rw [expects_combine] at hd
      exact UInt32.lt_of_lt_of_le hlt ((hnode.current_first place rfl).2 doc hd)
    · rw [expects_combine, expects_combine, moveAllBeyond_eq_map]
      exact rule.admits_map_and ih

theorem Sound.moveTo {tree : ScoreTree α} (hs : tree.Sound) (bound : DocId) :
    (tree.moveTo bound).Sound := by
  induction hs with
  | leaf hsource => exact .leaf (hsource.moveTo bound)
  | combine hchildren hnode ih =>
    rw [ScoreTree.moveTo]
    split
    · exact .combine hchildren hnode
    · rw [moveAllTo_eq_map]
      refine .combine (List.forall_mem_map.mpr ih) (hnode.moved (bound ≤ ·) (plan_moveTo bound) ?_)
      exact fun child hc doc => (hchildren child hc).expects_moveTo bound doc

theorem Sound.moveBeyond {tree : ScoreTree α} (hs : tree.Sound) (bound : DocId) :
    (tree.moveBeyond bound).Sound := by
  induction hs with
  | leaf hsource => exact .leaf (hsource.moveBeyond bound)
  | combine hchildren hnode ih =>
    rw [ScoreTree.moveBeyond]
    split
    · exact .combine hchildren hnode
    · rw [moveAllBeyond_eq_map]
      refine .combine (List.forall_mem_map.mpr ih) (hnode.moved (bound < ·) (plan_moveBeyond bound) ?_)
      exact fun child hc doc => (hchildren child hc).expects_moveBeyond bound doc

theorem Sound.least_doc {tree : ScoreTree α} (hs : tree.Sound) {doc : DocId}
    (hd : tree.doc? = some doc) : FirstOf (tree.expects · = true) (some doc) := by
  cases hs with
  | leaf hsource =>
    have hf := hsource.first_doc
    rw [doc?] at hd
    rwa [hd] at hf
  | combine _ hnode =>
    exact (hnode.current_first doc hd).congr fun other => (expects_combine other ..).symm

/-! ## Searches -/

/-- The cursor of trees with at most the given number of levels. -/
def cursorWithin (levels : Nat) : Cursor (ScoreTree α) :=
  { settle := settleWithin levels, doc?, moveBeyond, moveTo }

theorem settleWithin_combine (levels : Nat) (op : Operator) (weights : List α) (rule : MatchRule)
    (children : List (ScoreTree α)) :
    settleWithin (levels + 1) (combine op weights rule children none false) =
      let outcome := (cursorWithin levels).find rule children
      (outcome.1.isSome, combine op weights rule outcome.2 outcome.1 outcome.1.isNone) := rfl

theorem plan_settleWithin (levels : Nat) (tree : ScoreTree α) :
    (settleWithin levels tree).2.plan = tree.plan := by
  induction levels generalizing tree with
  | zero => cases tree <;> rfl
  | succ levels ih =>
    cases tree with
    | leaf source stats => rfl
    | combine op weights rule children current exhausted =>
      cases exhausted with
      | true => rfl
      | false =>
        cases current with
        | some doc => rfl
        | none =>
          have hkeeps : (cursorWithin levels).Keeps fun a b : ScoreTree α => b.plan = a.plan :=
            { refl := fun _ => rfl
              trans := fun hab hbc => hbc.trans hab
              settle := ih
              moveTo := plan_moveTo
              moveBeyond := plan_moveBeyond }
          rw [settleWithin_combine, plan_combine, plan_combine, hkeeps.map_find rule children]

/-- With enough levels, a tree settles on the first document that is still to come. -/
structure Settles (levels : Nat) (tree : ScoreTree α) : Prop where
  sound : (settleWithin levels tree).2.Sound
  expects_iff : ∀ doc,
    (settleWithin levels tree).2.expects doc = true ↔ tree.expects doc = true
  first : FirstOf (tree.expects · = true) (settleWithin levels tree).2.doc?
  found : (settleWithin levels tree).1 = (settleWithin levels tree).2.doc?.isSome

theorem settles_leaf (levels : Nat) {source : Source} (stats : ListStats α)
    (hs : source.Sound) : Settles levels (leaf source stats) where
  sound := by cases levels <;> exact .leaf hs
  expects_iff doc := by cases levels <;> rfl
  first := by cases levels <;> exact hs.first_doc
  found := by cases levels <;> exact Source.cursor_lawful.found_iff source hs

/-- A combinator that keeps a document, or has run out, stays as it is. -/
theorem settles_of_kept (levels : Nat) {op : Operator} {weights : List α} {rule : MatchRule}
    {children : List (ScoreTree α)} {current : Option DocId} {exhausted : Bool}
    (hkept : exhausted = true ∨ current.isSome = true)
    (hs : (combine op weights rule children current exhausted).Sound) :
    Settles (levels + 1) (combine op weights rule children current exhausted) := by
  have hstay : settleWithin (levels + 1) (combine op weights rule children current exhausted) =
      (current.isSome, combine op weights rule children current exhausted) := by
    cases hs with
    | combine _ hnode =>
      cases exhausted with
      | true => rw [(hnode.exhausted_none rfl).1]; rfl
      | false =>
        have hc : current.isSome = true := by simpa using hkept
        simp [settleWithin, hc]
  refine ⟨by rwa [hstay], fun doc => by rw [hstay], ?_, by rw [hstay]; rfl⟩
  rw [hstay]
  cases current with
  | some doc => exact hs.least_doc rfl
  | none =>
    cases hs with
    | combine _ hnode =>
      have he : exhausted = true := by simpa using hkept
      exact fun doc hd => (hnode.exhausted_none he).2 doc ((expects_combine doc ..).mp hd)

theorem lawful_of_settles {levels : Nat}
    (h : ∀ tree : ScoreTree α, tree.Sound → tree.height ≤ levels → Settles levels tree) :
    (cursorWithin levels).Lawful (fun tree : ScoreTree α => tree.Sound ∧ tree.height ≤ levels)
      (fun tree doc => tree.expects doc = true) where
  sound_settle tree hs :=
    ⟨(h tree hs.1 hs.2).sound, height_eq_of_plan_eq (plan_settleWithin levels tree) ▸ hs.2⟩
  sound_moveTo doc tree hs :=
    ⟨hs.1.moveTo doc, height_eq_of_plan_eq (plan_moveTo doc tree) ▸ hs.2⟩
  sound_moveBeyond doc tree hs :=
    ⟨hs.1.moveBeyond doc, height_eq_of_plan_eq (plan_moveBeyond doc tree) ▸ hs.2⟩
  ahead_settle tree hs := (h tree hs.1 hs.2).expects_iff
  ahead_moveTo doc _ hs := hs.1.expects_moveTo doc
  ahead_moveBeyond doc _ hs := hs.1.expects_moveBeyond doc
  first_doc tree hs := (h tree hs.1 hs.2).first
  found_iff tree hs := (h tree hs.1 hs.2).found
  least_doc _ _ hs hd := hs.1.least_doc hd

theorem NodeSound.found {levels : Nat} {rule : MatchRule} {children : List (ScoreTree α)}
    (hlaw : (cursorWithin levels).Lawful
      (fun tree : ScoreTree α => tree.Sound ∧ tree.height ≤ levels)
      (fun tree doc => tree.expects doc = true))
    (hs : ∀ child ∈ children, child.Sound ∧ child.height ≤ levels)
    (hn : NodeSound rule children none false) :
    NodeSound rule ((cursorWithin levels).find rule children).2
      ((cursorWithin levels).find rule children).1
      ((cursorWithin levels).find rule children).1.isNone where
  none_lost doc hd child hc hhas := by
    by_cases hr : rule = .all
    · subst hr
      exact hd.2 child hc
    · -- The other searches only settle children, which leaves what they have and expect.
      have hsame : ((cursorWithin levels).find rule children).2.map
          (fun child => (child.plan.has doc, child.expects doc)) =
            children.map fun child => (child.plan.has doc, child.expects doc) :=
        Cursor.Lawful.map_find_of_ne_all hr fun child hc =>
          Prod.ext (congrArg (ScorePlan.has doc) (plan_settleWithin levels child))
            (Bool.eq_iff_iff.mpr (hlaw.ahead_settle child (hs child hc) doc))
      have hmem := List.mem_map_of_mem (f := fun child => (child.plan.has doc, child.expects doc)) hc
      rw [hsame] at hmem
      obtain ⟨before, hb, he⟩ := List.mem_map.mp hmem
      obtain ⟨hplan, hexp⟩ := Prod.mk.injEq .. ▸ he
      rw [← hexp]
      exact hn.none_lost doc ((hlaw.admits_find rule hs doc).mp hd) before hb (hplan ▸ hhas)
  current_first doc he := by
    have hfirst := hlaw.find_first rule hs
    rw [he] at hfirst
    exact hfirst.congr fun other => (hlaw.admits_find rule hs other).symm
  children_stand hr doc he := hlaw.doc_of_find hr hs he
  exhausted_none he := by
    have hfirst := hlaw.find_first rule hs
    rw [Option.isNone_iff_eq_none] at he
    rw [he] at hfirst ⊢
    exact ⟨rfl, fun doc hd => hfirst doc ((hlaw.admits_find rule hs doc).mp hd)⟩

theorem settles (levels : Nat) (tree : ScoreTree α) (hs : tree.Sound) (hh : tree.height ≤ levels) :
    Settles levels tree := by
  induction levels generalizing tree with
  | zero => cases tree <;> simp [height] at hh
  | succ levels ih =>
    have hlaw := lawful_of_settles ih
    cases hs with
    | leaf hsource => exact settles_leaf (levels + 1) _ hsource
    | @combine op weights rule children current exhausted hchildren hnode =>
      by_cases hkept : exhausted = true ∨ current.isSome = true
      · exact settles_of_kept levels hkept (.combine hchildren hnode)
      · obtain ⟨rfl, rfl⟩ : exhausted = false ∧ current = none := by simpa using hkept
        have hall : ∀ child ∈ children, child.Sound ∧ child.height ≤ levels := fun child hc =>
          ⟨hchildren child hc, heightOfAll_le_iff.mp (Nat.le_of_succ_le_succ hh) child hc⟩
        have hsound := hlaw.sound_find rule hall
        have hfirst := hlaw.find_first rule hall
        have hjoint := hlaw.admits_find rule hall
        have hfound := hnode.found hlaw hall
        refine ⟨?_, fun doc => ?_, ?_, ?_⟩
        · rw [settleWithin_combine]
          exact .combine (fun child hc => (hsound child hc).1) hfound
        · rw [settleWithin_combine, expects_combine, expects_combine]
          exact hjoint doc
        · rw [settleWithin_combine]
          exact hfirst.congr fun doc => (expects_combine doc ..).symm
        · rw [settleWithin_combine]
          rfl

theorem cursor_lawful :
    (cursor : Cursor (ScoreTree α)).Lawful Sound (fun tree doc => tree.expects doc = true) where
  sound_settle tree hs := (settles _ tree hs (Nat.le_refl _)).sound
  sound_moveTo doc _ hs := hs.moveTo doc
  sound_moveBeyond doc _ hs := hs.moveBeyond doc
  ahead_settle tree hs := (settles _ tree hs (Nat.le_refl _)).expects_iff
  ahead_moveTo doc _ hs := hs.expects_moveTo doc
  ahead_moveBeyond doc _ hs := hs.expects_moveBeyond doc
  first_doc tree hs := (settles _ tree hs (Nat.le_refl _)).first
  found_iff tree hs := (settles _ tree hs (Nat.le_refl _)).found
  least_doc _ _ hs hd := hs.least_doc hd

theorem cursor_keeps_plan :
    (cursor : Cursor (ScoreTree α)).Keeps fun a b => b.plan = a.plan where
  refl _ := rfl
  trans hab hbc := hbc.trans hab
  settle tree := plan_settleWithin tree.height tree
  moveTo := plan_moveTo
  moveBeyond := plan_moveBeyond

/-! ## Fresh trees -/

/-- A tree on which no call was made: sources stand at the start of ascending lists, and no
combinator has looked for a document. -/
inductive Fresh : ScoreTree α → Prop
  | leaf {label : String} {list : PostingList} {stats : ListStats α} (ascending : list.Ascending) :
      Fresh (leaf (Source.ofList label list) stats)
  | combine {op : Operator} {weights : List α} {rule : MatchRule} {children : List (ScoreTree α)}
      (hchildren : ∀ child ∈ children, Fresh child) :
      Fresh (ofChildren op weights rule children)

theorem Fresh.expects_eq {tree : ScoreTree α} (hf : tree.Fresh) (doc : DocId) :
    tree.expects doc = true ↔ tree.plan.has doc = true := by
  induction hf with
  | leaf _ =>
    simp [expects, Source.expects, Source.ofList, plan, ScorePlan.has, PostingList.docs]
  | @combine op weights rule children _ ih =>
    rw [ofChildren, expects_combine, plan_combine, ScorePlan.has_combine, Admitted,
      rule.admits_map_iff]
    exact rule.admits_congr (List.map_congr_left fun child hc => propext (ih child hc))

theorem Fresh.sound {tree : ScoreTree α} (hf : tree.Fresh) : tree.Sound := by
  induction hf with
  | leaf ascending => exact .leaf (Source.sound_ofList _ ascending)
  | combine hchildren ih =>
    refine .combine ih ⟨fun doc _ child hc hhas => ?_, ?_, ?_, ?_⟩
    · exact ((hchildren child hc).expects_eq doc).mpr hhas
    · exact fun doc h => nomatch h
    · exact fun _ doc h => nomatch h
    · exact fun h => nomatch h

/-! ## Any calls in any order -/

/-- Fresh trees with the same documents settle alike, wherever the same calls have led them. -/
theorem Fresh.settle_run_congr {tree tree' : ScoreTree α} (hf : tree.Fresh) (hf' : tree'.Fresh)
    (h : ∀ doc, tree'.plan.has doc = tree.plan.has doc) (calls : List CursorCall) :
    (cursor.run calls tree').settle.1 = (cursor.run calls tree).settle.1 ∧
      (cursor.run calls tree').settle.2.doc? = (cursor.run calls tree).settle.2.doc? := by
  have hs := cursor_lawful.sound_run calls hf.sound
  have hs' := cursor_lawful.sound_run calls hf'.sound
  have hexpects : ∀ doc, (cursor.run calls tree').expects doc = true ↔
      (cursor.run calls tree).expects doc = true := fun doc => by
    rw [cursor_lawful.ahead_run calls hf'.sound, cursor_lawful.ahead_run calls hf.sound,
      hf'.expects_eq, hf.expects_eq, h]
  have hdoc := ((cursor_lawful.first_doc _ hs').congr hexpects).unique
    (cursor_lawful.first_doc _ hs)
  refine ⟨?_, hdoc⟩
  calc (cursor.run calls tree').settle.1
      = (cursor.run calls tree').settle.2.doc?.isSome := cursor_lawful.found_iff _ hs'
    _ = (cursor.run calls tree).settle.2.doc?.isSome := congrArg Option.isSome hdoc
    _ = (cursor.run calls tree).settle.1 := (cursor_lawful.found_iff _ hs).symm

/-- Whatever calls were made, a tree settles on the first of its documents that they have not left
out, and once it has run out of documents no further call brings one back. -/
theorem settle_after_calls {tree : ScoreTree α} (hf : tree.Fresh) (calls : List CursorCall) :
    let outcome := (cursor.run calls tree).settle
    let left := fun doc : DocId =>
      tree.plan.has doc = true ∧ CursorCall.reach calls ≤ doc.toNat
    (outcome.1 = true ↔ ∃ doc, left doc) ∧ FirstOf left outcome.2.doc? ∧
      (outcome.1 = false → ∀ more, (cursor.run more outcome.2).settle.1 = false) := by
  intro outcome left
  have hs := cursor_lawful.sound_run calls hf.sound
  have hleft : ∀ doc, (cursor.run calls tree).expects doc = true ↔ left doc := fun doc => by
    rw [cursor_lawful.ahead_run calls hf.sound doc, hf.expects_eq]
  have hfirst : FirstOf left outcome.2.doc? := (cursor_lawful.first_doc _ hs).congr hleft
  have hfound : outcome.1 = outcome.2.doc?.isSome := cursor_lawful.found_iff _ hs
  refine ⟨by rw [hfound, hfirst.isSome_iff], hfirst, fun hend more => ?_⟩
  have hs' : outcome.2.Sound := cursor_lawful.sound_settle _ hs
  have hmore := cursor_lawful.sound_run more hs'
  rw [show (cursor.run more outcome.2).settle.1 = _ from cursor_lawful.found_iff _ hmore,
    ← Bool.not_eq_true, (cursor_lawful.first_doc _ hmore).isSome_iff]
  rintro ⟨doc, hd⟩
  have hahead := ((cursor_lawful.ahead_run more hs' doc).mp hd).1
  have hsome := hfirst.isSome_iff.mpr
    ⟨doc, (hleft doc).mp ((cursor_lawful.ahead_settle _ hs doc).mp hahead)⟩
  rw [← hfound, hend] at hsome
  cases hsome

def sampleLeaf (docs : List DocId) : ScoreTree Unit :=
  leaf (Source.ofList "body:word"
      { field := "body", postings := (docs.map fun doc => ⟨doc, 1, [0]⟩).toArray, ctf := 0 })
    { field := "body", df := 0, ctf := 0, docs := 0, fieldTokens := 0, averageLength := () }

def sampleTree : ScoreTree Unit :=
  ofChildren .or [] .min
    [ofChildren .and [] .all [sampleLeaf [1, 4, 7], sampleLeaf [1, 7]], sampleLeaf [4]]

theorem settle_after_calls_nested :
    sampleTree.Fresh ∧
      (cursor.run [.settle, .moveBeyond 1, .look, .moveTo 3] sampleTree).settle.1 = true ∧
      (cursor.run [.settle, .moveBeyond 1, .look, .moveTo 3] sampleTree).settle.2.doc? = some 4 := by
  have hf : sampleTree.Fresh := by
    refine .combine ?_
    simp only [List.forall_mem_cons]
    refine ⟨.combine ?_, .leaf (by decide), by simp⟩
    simp only [List.forall_mem_cons]
    exact ⟨.leaf (by decide), .leaf (by decide), by simp⟩
  obtain ⟨hfound, hfirst, -⟩ := settle_after_calls hf [.settle, .moveBeyond 1, .look, .moveTo 3]
  refine ⟨hf, hfound.mpr ⟨4, by decide⟩, hfirst.eq_some_iff.mpr ⟨by decide, fun other ho => ?_⟩⟩
  obtain ⟨hhas, hreach⟩ := ho
  have hdocs : other = 1 ∨ other = 4 ∨ other = 7 := by
    have hmarks : ((other = 1 ∨ other = 4 ∨ other = 7) ∧ (other = 1 ∨ other = 7)) ∨ other = 4 := by
      simpa [sampleTree, sampleLeaf, plan, plans, ofChildren, ScorePlan.has, ScorePlan.eachHas,
        MatchRule.holds, Source.ofList, PostingList.docs, PostingList.toList] using hhas
    rcases hmarks with ⟨h, -⟩ | h
    · exact h
    · exact .inr (.inl h)
  rcases hdocs with rfl | rfl | rfl
  · revert hreach; decide
  · decide
  · decide

end Retrieval.ScoreTree
