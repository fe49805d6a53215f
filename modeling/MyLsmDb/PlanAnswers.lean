import MyLsmDb.PlanExact

/-! Sorted and limited plans: what a query answers is what its logical plan says of all entities of
the collection. -/
namespace MyLsmDb
open Executor
open OrderedEntries
open Text

namespace LogicalPlan

def source : LogicalPlan → Chars
  | .collection name => name
  | .filter input _ => input.source
  | .sort input _ _ => input.source
  | .limit input _ => input.source

/-- What the layers say one after the other, from the inner one to the outer one. -/
def answer : LogicalPlan → List Row → List Row
  | .collection _, rows => rows
  | .filter input pred, rows => (input.answer rows).filter (Planner.passed pred)
  | .sort input field dir, rows => sortRows field dir (input.answer rows)
  | .limit input n, rows => (input.answer rows).take n

def sorts : LogicalPlan → Nat
  | .collection _ => 0
  | .filter input _ => input.sorts
  | .sort input _ _ => input.sorts + 1
  | .limit input _ => input.sorts

def unlimited : LogicalPlan → Bool
  | .collection _ => true
  | .filter input _ => input.unlimited
  | .sort input _ _ => input.unlimited
  | .limit _ _ => false

/-- There is one sort at most, and no limit below another layer. -/
def Regular (logical : LogicalPlan) : Prop :=
  logical.sorts ≤ 1 ∧ match logical with
    | .limit input _ => input.unlimited = true
    | other => other.unlimited = true

end LogicalPlan

namespace Planner

/-- The rows of a plan, of the entities of the collection in some order. -/
def Parts.answer (p : Parts) (rows : List Row) : List Row :=
  let kept := rows.filter (passedAll (combined p.predicates))
  let sorted := match p.sort with
    | some (field, dir) => sortRows field dir kept
    | none => kept
  match p.limit with
  | some n => sorted.take n
  | none => sorted

section Sorting
variable {v : ReadView} {schema : Schema} {found : List Row} {source : PhysicalPlan}
  {p : Row → Bool}

def GivesList (v : ReadView) (schema : Schema) (source : PhysicalPlan) (rows : List Row) : Prop :=
  execRows v schema source = .ok (rows.map pure)

theorem GivesList.run {rows : List Row} (h : GivesList v schema source rows) :
    run v schema source = .ok rows := by
  rw [Executor.run, h]
  exact collectedPure rows

theorem GivesList.limit {rows : List Row} (h : GivesList v schema source rows) (n : Nat) :
    GivesList v schema (.limit source n) (rows.take n) := by
  rw [GivesList, execRows, h, List.map_take]
  rfl

theorem GivesList.filteredBy {rows : List Row} (h : GivesList v schema source rows)
    (pred : Option Predicate) :
    GivesList v schema (filteredBy pred source) (rows.filter (passedAll pred)) := by
  cases pred with
  | none =>
    have all : rows.filter (passedAll none) = rows := List.filter_eq_self.mpr (fun _ _ => rfl)
    rw [all]
    exact h
  | some q =>
    change execRows v schema (.filter source q) = _
    rw [execRows, h]
    exact congrArg Except.ok (passesPure q rows)

theorem sortGives (once : (found.map Prod.fst).Nodup) (h : Gives v schema found source p)
    (field : Chars) (dir : SortDir) :
    GivesList v schema (.sort source field dir) (sortRows field dir (found.filter p)) := by
  obtain ⟨rows, run, perm⟩ := h
  have apart := rowsToldApart field dir ((List.filter_sublist (p := p)).map Prod.fst |>.nodup once)
  rw [GivesList, execRows, run]
  change (do let rows ← collected (rows.map pure); _) = _
  rw [collectedPure]
  exact congrArg (fun l : List Row => Except.ok (l.map pure)) ((rowOrders field dir).perm apart perm)

theorem Gives.ordered (h : Gives v schema found source p) :
    ∃ order : List Row, order.Perm found ∧ GivesList v schema source (order.filter p) := by
  obtain ⟨rows, run, perm⟩ := h
  refine ⟨rows ++ found.filter (fun r => !p r), ?_, ?_⟩
  · exact (perm.append_right _).trans (List.filter_append_perm p found)
  · have kept : rows.filter p = rows := List.filter_eq_self.mpr (fun r m =>
      (List.mem_filter.mp (perm.mem_iff.mp m)).2)
    have none : (found.filter (fun r => !p r)).filter p = [] := List.filter_eq_nil_iff.mpr (fun r m => by
      simpa using (List.mem_filter.mp m).2)
    rw [List.filter_append, kept, none, List.append_nil]
    exact run

end Sorting

section Ordered
variable {rows : List Rec} {schema : Schema} {name : Chars} {c : UInt32} {found : List Row}
  {field : Chars}

/-- What an index that gives the order rests on: its range takes in all entities that satisfy the
predicate, and it holds none of their former values. -/
structure Streamed (rows : List Rec) (schema : Schema) (c : UInt32) (clauses : List (List Lit))
    (field : Chars) : Prop where
  uncrossed : ¬ Crossed clauses field
  untied : ∀ clause, clauses = [clause] → ¬ Tied clause field
  fresh : ∀ f, schema.lookupFieldId c field = some f →
    Fresh rows c f (unionBounds clauses field).1 (unionBounds clauses field).2

theorem enabledIff (known : schema.lookupCollectionId name = some c) {clauses : List (List Lit)}
    (enabled : indexOrderEnabled schema name field clauses = true) :
    readyIndex schema c field = true ∧ ∀ clause ∈ clauses, indexableOn field clause ≠ [] := by
  rw [indexOrderEnabled, known] at enabled
  obtain ⟨ready, all⟩ := (Bool.and_eq_true _ _).mp enabled
  refine ⟨ready, fun clause m => ?_⟩
  obtain ⟨l, ml, on⟩ := List.any_eq_true.mp (List.all_eq_true.mp all clause m)
  refine List.ne_nil_of_mem (List.mem_filter.mpr ⟨ml, ?_⟩ : l ∈ indexableOn field clause)
  simpa [and_comm] using on

theorem unitedHolds {clauses : List (List Lit)} (uncrossed : ¬ Crossed clauses field)
    (all : ∀ clause ∈ clauses, indexableOn field clause ≠ []) {clause : List Lit}
    (m : clause ∈ clauses) {r : Row} (holds : clauseHolds clause r = true) :
    rowWithin field (unionBounds clauses field).1 (unionBounds clauses field).2 r = true := by
  rw [clauseSplit (fun l => l.field = field && l.indexable), Bool.and_eq_true] at holds
  have merged := (mergedHolds (all clause m)).1 holds.2
  obtain ⟨v, has, inside⟩ := (Option.any_eq_true _ _).mp merged
  have carried : ∀ clause ∈ clauses, ∃ l ∈ clause, l.indexable = true ∧ l.field = field := by
    intro clause m
    obtain ⟨l, ml⟩ := List.exists_mem_of_ne_nil _ (all clause m)
    obtain ⟨ml, on⟩ := List.mem_filter.mp ml
    exact ⟨l, ml, by simpa using on⟩
  exact (Option.any_eq_true _ _).mpr
    ⟨v, has, (coversIff clauses field).mpr uncrossed carried clause m v inside⟩

theorem streamGives (dir : SortDir) (h : Legible rows schema name c) (agreed : Agreed rows schema name c found)
    (prepared : Prepared rows schema c) (ready : readyIndex schema c field = true)
    {lower upper : Bound} (fresh : ∀ f, schema.lookupFieldId c field = some f →
      Fresh rows c f lower upper) :
    GivesList (.ofRows rows) schema (.indexOrderScan name field lower upper dir)
      (sortRows field dir (found.filter (rowWithin field lower upper))) := by
  obtain ⟨f, d, known, made, ready⟩ := readyDef ready
  have indexed := prepared.single f d made ready
  refine (streamRun h agreed known indexed (by rw [made]; rfl)).trans ?_
  rw [streamFresh h agreed known indexed (fresh f known)]

theorem leftHolds {pred : Option Predicate} (streamed : Streamed rows schema c (clausesOf pred) field)
    (all : ∀ clause ∈ clausesOf pred, indexableOn field clause ≠ []) :
    ∃ left, leftOf field pred = .ok left ∧ ∀ r : Row,
      (passedAll left r && rowWithin field (unionBounds (clausesOf pred) field).1
        (unionBounds (clausesOf pred) field).2 r) = passedAll pred r := by
  have covered : ∀ r, passedAll pred r = true → rowWithin field (unionBounds (clausesOf pred) field).1
      (unionBounds (clausesOf pred) field).2 r = true := by
    intro r holds
    obtain ⟨clause, m, holds⟩ := (clausesHold pred r).mp holds
    exact unitedHolds streamed.uncrossed all m holds
  by_cases one : ∃ clause, clausesOf pred = [clause]
  · obtain ⟨clause, is⟩ := one
    obtain ⟨left, made, same⟩ := residualHolds
      (clause.filter (fun l => !(l.field = field && l.indexable)))
    refine ⟨left, by rw [leftOf, is]; exact made, fun r => ?_⟩
    have pass : passedAll pred r = clauseHolds clause r := by
      rw [Bool.eq_iff_iff, clausesHold, is]
      simp
    have some_ := all clause (is ▸ List.mem_singleton_self _)
    rw [same, pass, is]
    refine Eq.trans ?_ (clauseSplit (fun l => l.field = field && l.indexable)).symm
    refine congrArg₂ _ rfl (Bool.eq_iff_iff.mpr ⟨?_, (mergedHolds some_).1⟩)
    exact (mergedHolds some_).2 (streamed.untied clause is)
  · refine ⟨pred, ?_, fun r => ?_⟩
    · rw [leftOf]
      split
      · exact absurd ⟨_, ‹_›⟩ one
      · rfl
    · cases holds : passedAll pred r with
      | false => rfl
      | true => exact covered r holds

theorem orderedGives (dir : SortDir) (h : Legible rows schema name c) (agreed : Agreed rows schema name c found)
    (prepared : Prepared rows schema c) {pred : Option Predicate}
    (enabled : indexOrderEnabled schema name field (clausesOf pred) = true)
    (streamed : Streamed rows schema c (clausesOf pred) field) (n : Nat) :
    ∃ physical, orderedPlan name field dir n pred = .ok physical ∧
      GivesList (.ofRows rows) schema physical
        ((sortRows field dir (found.filter (passedAll pred))).take n) := by
  obtain ⟨ready, all⟩ := enabledIff h.known enabled
  obtain ⟨left, made, same⟩ := leftHolds streamed all
  refine ⟨_, by rw [orderedPlan, made]; rfl, ?_⟩
  refine .limit ?_ n
  have stream := (streamGives dir h agreed prepared ready streamed.fresh).filteredBy left
  have apart := rowsToldApart field dir ((List.filter_sublist
    (p := rowWithin field (unionBounds (clausesOf pred) field).1
      (unionBounds (clausesOf pred) field).2)).map Prod.fst |>.nodup agreed.once)
  rw [sortRows, (rowOrders field dir).filter apart, List.filter_filter] at stream
  have kept := List.filter_congr (l := found) (fun r _ => same r)
  rw [kept] at stream
  exact stream

end Ordered

section Layers
variable {rows : List Row}

theorem combinedPassed (preds : List Predicate) (r : Row) :
    passedAll (combined preds) r = preds.all (fun p => passed p r) := by
  cases preds with
  | nil => rfl
  | cons p rest =>
    have fold : ∀ (ps : List Predicate) (q : Predicate),
        passed (ps.foldl .and q) r = (passed q r && ps.all (fun p => passed p r)) := by
      intro ps
      induction ps with
      | nil => exact fun q => (Bool.and_true _).symm
      | cons p ps ih =>
        intro q
        rw [List.foldl_cons, ih]
        exact Bool.and_assoc _ _ _
    exact fold rest p

theorem answerOnce (once : (rows.map Prod.fst).Nodup) (logical : LogicalPlan) :
    ((logical.answer rows).map Prod.fst).Nodup := by
  induction logical with
  | collection name => exact once
  | filter input pred ih => exact (List.filter_sublist.map _).nodup ih
  | sort input field dir ih => exact ((List.mergeSort_perm _ _).map _).nodup_iff.mpr ih
  | limit input n ih => exact ((List.take_sublist _ _).map _).nodup ih

theorem partsAfter (once : (rows.map Prod.fst).Nodup) {logical : LogicalPlan} {p : Parts}
    (unlimited : logical.unlimited = true)
    (one : logical.sorts ≤ 1 ∧ (p.sort ≠ none → logical.sorts = 0)) :
    (parts logical p).answer rows = p.answer (logical.answer rows) := by
  induction logical generalizing p with
  | collection name => rfl
  | filter input pred ih =>
    have rest := @ih { p with predicates := p.predicates ++ [pred] } unlimited one
    rw [parts, rest]
    have kept : passedAll (combined (p.predicates ++ [pred])) =
        fun r => passedAll (combined p.predicates) r && passed pred r := by
      funext r
      simp [combinedPassed]
    unfold Parts.answer
    simp only [LogicalPlan.answer, List.filter_filter, kept]
  | sort input field dir ih =>
    have none : p.sort = none := by
      by_contra some_
      exact Nat.succ_ne_zero _ (one.2 some_)
    have zero : input.sorts = 0 := Nat.le_zero.mp (Nat.le_of_succ_le_succ one.1)
    rw [parts, ih unlimited ⟨zero.le.trans zero_le_one, fun _ => zero⟩]
    have apart := rowsToldApart field dir (answerOnce once input)
    have swap := (rowOrders field dir).filter apart (passedAll (combined p.predicates))
    unfold Parts.answer
    simp only [LogicalPlan.answer, none, sortRows, swap]
  | limit input n ih => cases unlimited

def layers (logical : LogicalPlan) : Parts := parts logical ⟨[], [], none, none⟩

theorem layersAnswer (once : (rows.map Prod.fst).Nodup) {logical : LogicalPlan}
    (regular : logical.Regular) : (layers logical).answer rows = logical.answer rows := by
  have empty : ∀ limit : Option Nat, ∀ l : List Row, (Parts.answer ⟨[], [], none, limit⟩ l) =
      match limit with
      | some n => l.take n
      | none => l := by
    intro limit l
    unfold Parts.answer
    have all : l.filter (passedAll (combined [])) = l := List.filter_eq_self.mpr (fun _ _ => rfl)
    simp only [all]
  obtain ⟨one, unlimited⟩ := regular
  cases logical with
  | limit input n =>
    rw [layers, parts, partsAfter once unlimited ⟨one, fun none => absurd rfl none⟩, empty]
    rfl
  | collection name =>
    rw [layers, partsAfter once unlimited ⟨one, fun none => absurd rfl none⟩, empty]
  | filter input pred =>
    rw [layers, partsAfter once unlimited ⟨one, fun none => absurd rfl none⟩, empty]
  | sort input field dir =>
    rw [layers, partsAfter once unlimited ⟨one, fun none => absurd rfl none⟩, empty]

theorem partsSource (logical : LogicalPlan) (p : Parts) :
    (parts logical p).collection = logical.source := by
  induction logical generalizing p with
  | collection name => rfl
  | filter input pred ih => exact ih _
  | sort input field dir ih => exact ih _
  | limit input n ih => exact ih _

theorem partsSort (logical : LogicalPlan) (p : Parts) :
    (parts logical p).sort = none ↔ p.sort = none ∧ logical.sorts = 0 := by
  induction logical generalizing p with
  | collection name => exact (and_iff_left rfl).symm
  | filter input pred ih => exact ih _
  | sort input field dir ih =>
    rw [parts, ih]
    simp [LogicalPlan.sorts]
  | limit input n ih => exact ih _

end Layers

section Answers
variable {rows : List Rec} {schema : Schema} {c : UInt32} {found : List Row}

/-- What the plan of a query rests on besides the indexes. -/
structure Suited (rows : List Rec) (schema : Schema) (c : UInt32) (p : Parts) : Prop where
  selective : Selective rows schema c (clausesOf (combined p.predicates))
  streamed : ∀ field dir n, p.sort = some (field, dir) → p.limit = some n →
    indexOrderEnabled schema p.collection field (clausesOf (combined p.predicates)) = true →
      Streamed rows schema c (clausesOf (combined p.predicates)) field

theorem limitedGives {v : ReadView} {source : PhysicalPlan} {l : List Row}
    (h : GivesList v schema source l) (limit : Option Nat) :
    GivesList v schema (limitedTo limit source) (match limit with
      | some n => l.take n
      | none => l) := by
  cases limit with
  | none => exact h
  | some n => exact h.limit n

theorem partsGive {p : Parts} (h : Legible rows schema p.collection c)
    (agreed : Agreed rows schema p.collection c found) (prepared : Prepared rows schema c)
    (suited : Suited rows schema c p) :
    ∃ physical, planParts schema p = .ok physical ∧ ∃ order : List Row, order.Perm found ∧
      (p.sort ≠ none → order = found) ∧ GivesList (.ofRows rows) schema physical (p.answer order) := by
  obtain ⟨collection, predicates, sort, limit⟩ := p
  obtain ⟨source, made, gives⟩ := rowsGive h agreed prepared suited.selective
  dsimp only at made
  cases sort with
  | none =>
    obtain ⟨order, perm, list⟩ := gives.ordered
    refine ⟨limitedTo limit source, ?_, order, perm, fun some_ => absurd rfl some_, limitedGives list limit⟩
    simp only [planParts, made]
    rfl
  | some by_ =>
    obtain ⟨field, dir⟩ := by_
    have sorted := sortGives agreed.once gives field dir
    cases limit with
    | none =>
      refine ⟨.sort source field dir, ?_, found, .refl _, fun _ => rfl, sorted⟩
      simp only [planParts, made]
      rfl
    | some n =>
      by_cases enabled : indexOrderEnabled schema collection field (clausesOf (combined predicates)) = true
      · obtain ⟨physical, ordered, list⟩ := orderedGives dir h agreed prepared enabled
          (suited.streamed field dir n rfl rfl enabled) n
        refine ⟨physical, ?_, found, .refl _, fun _ => rfl, list⟩
        simp only [planParts, made, bind, Except.bind, enabled, if_true]
        exact ordered
      · refine ⟨.limit (.sort source field dir) n, ?_, found, .refl _, fun _ => rfl, sorted.limit n⟩
        simp only [planParts, made, bind, Except.bind, enabled]
        rfl

theorem layersGive {logical : LogicalPlan} (regular : logical.Regular)
    (h : Legible rows schema logical.source c) (agreed : Agreed rows schema logical.source c found)
    (prepared : Prepared rows schema c) (suited : Suited rows schema c (layers logical)) :
    ∃ physical, plan schema logical = .ok physical ∧ ∃ order : List Row, order.Perm found ∧
      (logical.sorts ≠ 0 → order = found) ∧
        GivesList (.ofRows rows) schema physical (logical.answer order) := by
  have named := partsSource logical ⟨[], [], none, none⟩
  obtain ⟨physical, made, order, perm, sorted, list⟩ := @partsGive rows schema c found (layers logical)
    (named ▸ h) (named ▸ agreed) prepared suited
  have once : (order.map Prod.fst).Nodup := (perm.map Prod.fst).nodup_iff.mpr agreed.once
  refine ⟨physical, made, order, perm, fun some_ => sorted ?_, ?_⟩
  · exact fun none => some_ ((partsSort logical _).mp none).2
  · rw [← layersAnswer once regular]
    exact list

/-- A planned query answers what its logical plan says of the entities of the collection: in the
order that it asks for, or in some order where it asks for none. -/
theorem planAnswers {logical : LogicalPlan} (regular : logical.Regular)
    (h : Legible rows schema logical.source c) (agreed : Agreed rows schema logical.source c found)
    (prepared : Prepared rows schema c) (suited : Suited rows schema c (layers logical)) :
    ∃ physical, plan schema logical = .ok physical ∧ ∃ order : List Row, order.Perm found ∧
      (logical.sorts ≠ 0 → order = found) ∧
        run (.ofRows rows) schema physical = .ok (logical.answer order) := by
  obtain ⟨physical, made, order, perm, sorted, list⟩ := layersGive regular h agreed prepared suited
  exact ⟨physical, made, order, perm, sorted, list.run⟩

end Answers

section Pair
open Index (pairSchema pairCells pairRows pairShort pairHolds pairIndexed)

theorem pairLegible : Legible pairRows pairSchema ['u'] 0 := by
  refine ⟨by decide +kernel, ?_, ?_, rfl, fun f n => ?_⟩
  · have keys : ∀ r ∈ pairRows, r.1.head? = some entityTag → ∃ e ∈ [0x61, 0x62, 0x63],
        ∃ f ∈ [0, 1], isUtf8 [e] ∧ r.1 = encodeEntityKey 0 [e] f := by
      decide +kernel
    intro r m tagged
    obtain ⟨e, -, f, -, valid, is⟩ := keys r m tagged
    exact ⟨0, ⟨[e], valid⟩, f, is⟩
  · have good : ∀ r ∈ pairRows, ∀ cell ∈ decodeEntityKey r.1, ∀ stored ∈ r.2,
        Executor.badField pairSchema 0 cell.2.2 stored = false := by
      decide +kernel
    intro id f stored m
    obtain ⟨short, parts⟩ := Index.cellParts pairShort m
    exact ⟨short, good _ m _ parts stored rfl⟩
  · have names : pairSchema.fieldName.entries = [(toLex (0, 0), ['x']), (toLex (0, 1), ['y'])] := by
      decide +kernel
    have ids : pairSchema.fieldIdOf.entries = [(toLex (0, ['x']), 0), (toLex (0, ['y']), 1)] := by
      decide +kernel
    rw [Schema.lookupFieldId, ← OrderedMap.memIff, ← OrderedMap.memIff, names, ids]
    simp [Prod.ext_iff, and_comm]

theorem pairComplete {id : Utf8} {g f : UInt32} {value : Value} (h : Index.Holds pairRows 0 id g value)
    (among : f = 0 ∨ f = 1) : ∃ value, Index.Holds pairRows 0 id f value := by
  have cells : ∀ cell ∈ pairCells, ([0, 1] : List UInt32).all (fun f =>
      (pairRows.lookup (encodeEntityKey 0 cell.1 f)).join.any
        (fun stored => (Value.decode stored).toOption.isSome)) = true := by
    decide +kernel
  have here := List.all_eq_true.mp (cells _ (pairHolds h)) f (by simpa using among)
  obtain ⟨stored, found, reads⟩ := (Option.any_eq_true _ _).mp here
  obtain ⟨value, decoded⟩ := Index.readBack reads
  refine ⟨value, ?_⟩
  rw [Index.Holds, Index.fieldValueRows, found]
  change (Value.decode stored >>= fun value => pure (some value)) = _
  rw [decoded]
  rfl

theorem pairPrepared : Prepared pairRows pairSchema 0 := by
  have only : pairSchema.indexes = [⟨0, 0, [0, 1], .ready⟩] := rfl
  constructor
  · intro f d known _
    rw [Schema.findIndex, Schema.findIndexByFields, only] at known
    simp at known
  · intro d m _ _ _
    rw [only] at m
    obtain rfl := List.mem_singleton.mp m
    refine ⟨pairIndexed, rfl, fun f mf => ?_⟩
    have mf : f = 0 ∨ f = 1 := by simpa using mf
    rcases mf with rfl | rfl
    · exact ⟨['x'], rfl⟩
    · exact ⟨['y'], rfl⟩

def pairQuery : LogicalPlan :=
  .limit (.sort (.filter (.collection ['u']) (.field ['x'] .eq .null)) ['y'] .desc) 2

theorem pairSuited : Suited pairRows pairSchema 0 (layers pairQuery) := by
  refine ⟨⟨?_, ?_⟩, ?_⟩
  · intro clause m x chosen id good f mf
    obtain rfl := List.mem_singleton.mp m
    obtain rfl := Option.some.inj (chosen.symm.trans (rfl : _ = some (CompositeChoice.mk 0 [0, 1]
      [(0, .inclusive .null, .inclusive .null)])))
    obtain ⟨g, value, -, holds, -⟩ := good _ List.mem_cons_self
    exact pairComplete holds (by simpa using mf)
  · intro clause is n tied
    obtain rfl := (List.cons.inj is).1
    obtain ⟨s, m, -, -, strict, -⟩ := tied
    obtain rfl := List.mem_singleton.mp (List.mem_filter.mp m).1
    cases strict
  · intro field dir n sort limit enabled
    cases sort
    exact absurd enabled (by decide +kernel)

theorem pairFound : ∃ found, Agreed pairRows pairSchema ['u'] 0 found ∧ found.length = 3 := by
  obtain ⟨found, agreed⟩ := @wholeAgreed pairSchema 0 pairRows ['u'] pairLegible.ordered
    pairLegible.keys rfl pairLegible.whole
  have stream : (Executor.scanCollectionStream (.ofRows pairRows) pairSchema ['u']).toOption.map
      List.length = some 3 := by
    decide +kernel
  rw [agreed.stream] at stream
  have length := Option.some.inj stream
  exact ⟨found, agreed, by rwa [List.length_map] at length⟩

theorem planAnswersPair : ∃ found, Agreed pairRows pairSchema ['u'] 0 found ∧ found.length = 3 ∧
    ∃ physical, plan pairSchema pairQuery = .ok physical ∧ ∃ order : List Row, order.Perm found ∧
      (pairQuery.sorts ≠ 0 → order = found) ∧
        run (.ofRows pairRows) pairSchema physical = .ok (pairQuery.answer order) := by
  obtain ⟨found, agreed, three⟩ := pairFound
  exact ⟨found, agreed, three, @planAnswers pairRows pairSchema 0 found pairQuery ⟨by decide, rfl⟩
    pairLegible agreed pairPrepared pairSuited⟩

end Pair
end Planner
end MyLsmDb
