import MyLsmDb.IndexOrder
import MyLsmDb.PlanChoice

/-! What a planned query gives, against a scan of the whole collection that is filtered, sorted and
cut off. -/
namespace MyLsmDb.Planner
open ByteOrder (Bytes)
open Executor
open Index (Holds Satisfies Listed Equality FieldIndexed)
open OrderedEntries
open Ranking
open Text

def passed (pred : Predicate) (r : Row) : Bool := pred.evalInner r.2

def passedAll (pred : Option Predicate) (r : Row) : Bool := pred.all (fun p => passed p r)

def clauseHolds (clause : List Lit) (r : Row) : Bool := clause.all (fun l => passed l.toPredicate r)

section Sources
variable (v : ReadView) (schema : Schema) (found : List Row)

/-- The plan gives the entities that are told, each once. -/
def Gives (source : PhysicalPlan) (p : Row → Bool) : Prop :=
  ∃ rows : List Row, execRows v schema source = .ok (rows.map pure) ∧ rows.Perm (found.filter p)

variable {v schema found} {source : PhysicalPlan} {p q : Row → Bool}

theorem Gives.congr (h : Gives v schema found source p) (same : ∀ r ∈ found, p r = q r) :
    Gives v schema found source q := by
  obtain ⟨rows, run, perm⟩ := h
  exact ⟨rows, run, perm.trans (.of_eq (List.filter_congr same))⟩

theorem passesPure (pred : Predicate) (rows : List Row) :
    ((rows.map pure).filter (passes pred)) = (rows.filter (passed pred)).map pure := by
  rw [List.filter_map]
  rfl

theorem Gives.filter (h : Gives v schema found source p) (pred : Predicate) :
    Gives v schema found (.filter source pred) (fun r => passed pred r && p r) := by
  obtain ⟨rows, run, perm⟩ := h
  refine ⟨rows.filter (passed pred), ?_, ?_⟩
  · rw [execRows, run, ← passesPure]
    rfl
  · rw [← List.filter_filter]
    exact perm.filter _

theorem residualPassed {lits : List Lit} {pred : Predicate} (run : clauseResidual lits = .ok pred)
    (r : Row) : passed pred r = clauseHolds lits r := by
  cases lits with
  | nil => cases run
  | cons l rest =>
    cases run
    have fold : ∀ (ls : List Lit) (p : Predicate),
        passed (ls.foldl (fun p l => .and p l.toPredicate) p) r = (passed p r && clauseHolds ls r) := by
      intro ls
      induction ls with
      | nil => exact fun p => (Bool.and_true _).symm
      | cons l ls ih =>
        intro p
        rw [List.foldl_cons, ih]
        exact Bool.and_assoc _ _ _
    exact fold rest _

theorem residualHolds (lits : List Lit) : ∃ pred, residualOf lits = .ok pred ∧
    ∀ r, passedAll pred r = clauseHolds lits r := by
  cases lits with
  | nil => exact ⟨none, rfl, fun _ => rfl⟩
  | cons l rest =>
    have run : clauseResidual (l :: rest) =
      .ok (rest.foldl (fun p l => .and p l.toPredicate) l.toPredicate) := rfl
    exact ⟨some _, rfl, residualPassed run⟩

theorem Gives.filteredBy (h : Gives v schema found source p) (pred : Option Predicate) :
    Gives v schema found (filteredBy pred source) (fun r => passedAll pred r && p r) := by
  cases pred with
  | none => exact h.congr (fun _ _ => rfl)
  | some q => exact h.filter q

variable {rows : List Rec} {name : Chars} {c : UInt32}

theorem fullGives (agreed : Agreed rows schema name c found) :
    Gives (.ofRows rows) schema found (.fullScan name) (fun _ => true) := by
  refine ⟨found, agreed.stream, ?_⟩
  rw [List.filter_true]

theorem fetchGives (known : schema.lookupCollectionId name = some c)
    (agreed : Agreed rows schema name c found) {ids : List Utf8}
    (run : candidateIds (.ofRows rows) schema source = .ok ids) (once : ids.Nodup)
    (members : ∀ r ∈ found, r.1 ∈ ids ↔ p r = true) :
    Gives (.ofRows rows) schema found (.fetch source name) p := by
  have fetched : fetchRow (.ofRows rows) schema c =
      fun id => ((found.lookup id).map (fun e => (id, e))).map pure := by
    funext id
    unfold fetchRow
    rw [agreed.point]
    cases found.lookup id <;> rfl
  refine ⟨ids.filterMap (fun id => (found.lookup id).map (fun e => (id, e))), ?_, ?_⟩
  · rw [execRows, run]
    change Except.ok (fetchStream (.ofRows rows) schema ids name) = _
    rw [fetchStream, known, List.map_filterMap]
    dsimp only
    rw [fetched]
  · refine (List.perm_ext_iff_of_nodup ?_ ((List.Nodup.of_map _ agreed.once).filter _)).mpr
      (fun r => ?_)
    · refine List.pairwise_filterMap.mpr (once.imp (fun differ x hx y hy same => differ ?_))
      obtain ⟨e, -, rfl⟩ := Option.map_eq_some_iff.mp hx
      obtain ⟨e', -, rfl⟩ := Option.map_eq_some_iff.mp hy
      exact congrArg Prod.fst same
    · rw [List.mem_filterMap, List.mem_filter]
      constructor
      · intro out
        obtain ⟨id, m, got⟩ := out
        obtain ⟨e, lists, rfl⟩ := Option.map_eq_some_iff.mp got
        have inside := (Grouping.lookupEntry agreed.once).mp lists
        exact ⟨inside, (members _ inside).mp m⟩
      · intro out
        obtain ⟨inside, holds⟩ := out
        refine ⟨r.1, (members r inside).mpr holds, ?_⟩
        rw [(Grouping.lookupEntry agreed.once).mpr inside]
        rfl

end Sources

section Lookups
variable {rows : List Rec} {schema : Schema} {name : Chars} {c : UInt32} {found : List Row}

theorem scanGives (h : Legible rows schema name c) (agreed : Agreed rows schema name c found)
    {f : UInt32} {n : Chars} (field : schema.lookupFieldId c n = some f)
    (known : (schema.findIndex c f).isNone = false) (indexed : FieldIndexed rows c f)
    (lower upper : Bound) : Gives (.ofRows rows) schema found
      (.fetch (.indexScan name n lower upper) name) (rowWithin n lower upper) := by
  obtain ⟨ids, run, once, members⟩ := Index.findListed indexed known lower upper
  refine fetchGives h.known agreed ?_ once (fun r m => ?_)
  · rw [candidateIds, indexScan, h.known]
    simp only [field, known, Bool.false_eq_true, if_false]
    exact run
  · rw [members, and_iff_left_of_imp (Index.inRangeListed indexed), rowWithin, Option.any_eq_true]
    have lists := (Grouping.lookupEntry agreed.once).mpr m
    constructor
    · intro inside
      obtain ⟨value, holds, inside⟩ := inside
      obtain ⟨e, known, has⟩ := (Index.fieldHolds h agreed field r.1 value).mp holds
      cases lists.symm.trans known
      exact ⟨value, has, inside⟩
    · intro inside
      obtain ⟨value, has, inside⟩ := inside
      exact ⟨value, (Index.fieldHolds h agreed field r.1 value).mpr ⟨r.2, lists, has⟩, inside⟩

theorem compositeFound {d : IndexDef} {leading : List Leading} (single : schema.indexById d.id = some d)
    (ready : d.status = .ready) (indexed : Index.Indexed rows c d)
    (inRange : ∀ l ∈ leading, d.fieldIds[l.1]? ≠ none)
    (listed : ∀ id, Satisfies rows c d.fieldIds leading id → Listed d.fieldIds leading)
    (dense : ∀ id, Satisfies rows c d.fieldIds leading id →
      ∀ f ∈ d.fieldIds, ∃ value, Holds rows c id f value) :
    ∃ ids, Index.findCompositeM (.ofRows rows) schema c d.id d.fieldIds.length leading = .ok ids ∧
      ids.Nodup ∧ ∀ id, id ∈ ids ↔ Satisfies rows c d.fieldIds leading id := by
  set keys := rangeOf (some (Index.compositeIndexRange c d.id leading).1)
    (Index.compositeIndexRange c d.id leading).2 rows with hkeys
  have start : Index.findCompositeM (.ofRows rows) schema c d.id d.fieldIds.length leading =
      Index.findCompositeLoop (.ofRows rows) c d.fieldIds d.fieldIds.length leading [] keys := by
    unfold Index.findCompositeM
    simp only [single, ready, ReadView.ofRowsRows]
    rfl
  have decodes : ∀ r ∈ keys, ∃ comps id,
      Index.decodeCompositeKeyValue r.1 d.fieldIds.length = .ok (some (comps, id)) := by
    intro r m
    obtain ⟨inside, near⟩ := memRange.mp m
    rw [Index.rangeIs] at near
    obtain ⟨vals, id, count, short, key⟩ :=
      indexed.entries r inside (Index.rangePrefixed (Index.prefixBounded c d.id) near)
    exact ⟨_, id, by rw [key, ← count]; exact Index.decodeCompositeBack c d.id vals short⟩
  rw [start]
  obtain ⟨⟨l, ml, out⟩, -⟩ | ⟨ids, run, once, members⟩ :=
    @Index.loopRun rows c d.fieldIds leading d.fieldIds.length keys [] indexed.readable decodes
  · exact absurd out (inRange l ml)
  refine ⟨ids, run, once, fun id => (members id).trans ⟨fun m => m.2.1, fun good => ?_⟩⟩
  obtain ⟨vals, each⟩ := Index.valuesOf (dense id good)
  obtain ⟨stored, m⟩ := indexed.complete id vals each
  have count := each.length_eq.symm
  have near : (encodeCompositeIndexKey c d.id (vals.map Value.encodeOrdered) id.bytes, some stored) ∈
      keys := by
    rw [hkeys, memRange, and_iff_right m, Index.rangeIs, Index.compositeKeyParts]
    exact (Index.rangeInside (Index.prefixBounded c d.id) (listed id good).2.2
      (count ▸ (listed id good).2.1) _).mpr (Index.satisfiesInside (listed id good) each good)
  obtain ⟨vals', id', count', short, key⟩ := indexed.entries _ m ⟨_, (Index.compositeKeyParts ..).symm⟩
  obtain rfl := Index.entryInj (count.trans count'.symm) key
  refine ⟨List.not_mem_nil, good, _, near, vals.map Value.canonical, ?_⟩
  rw [← count]
  exact Index.decodeCompositeBack c d.id vals short

end Lookups

section Literals
variable {clause : List Lit} {n : Chars} {r : Row}

theorem literalHolds {l : Lit} (some_ : l.indexable = true) : passed l.toPredicate r = true ↔
    ∃ v, r.2.field l.field = some v ∧ Predicate.compare v l.cmp l.value = true := by
  obtain ⟨field, cmp, value, negated⟩ := l
  obtain ⟨rfl, differs⟩ : negated = false ∧ cmp ≠ .ne := by simpa [Lit.indexable] using some_
  change (Predicate.field field cmp value).evalInner r.2 = true ↔ _
  rw [Predicate.evalInner]
  cases r.2.field field with
  | none => simp [Predicate.missingField, differs]
  | some v => simp

theorem clauseHoldsIff : clauseHolds clause r = true ↔
    ∀ l ∈ clause, passed l.toPredicate r = true := List.all_eq_true

theorem clauseSplit (covered : Lit → Bool) : clauseHolds clause r =
    (clauseHolds (clause.filter (fun l => !covered l)) r && clauseHolds (clause.filter covered) r) := by
  rw [Bool.eq_iff_iff, Bool.and_eq_true]
  simp only [clauseHoldsIff, List.mem_filter]
  constructor
  · exact fun all => ⟨fun l m => all l m.1, fun l m => all l m.1⟩
  · intro both l m
    cases here : covered l with
    | false => exact both.1 l ⟨m, by rw [here]; rfl⟩
    | true => exact both.2 l ⟨m, here⟩

theorem fieldLiterals (some_ : indexableOn n clause ≠ []) :
    clauseHolds (clause.filter (fun l => l.field = n && l.indexable)) r = true ↔
      ∃ v, r.2.field n = some v ∧ ∀ l ∈ clause, l.indexable = true → l.field = n →
        Predicate.compare v l.cmp l.value = true := by
  rw [clauseHoldsIff]
  simp only [List.mem_filter, Bool.and_eq_true, decide_eq_true_eq]
  constructor
  · intro all
    obtain ⟨l, m⟩ := List.exists_mem_of_ne_nil _ some_
    obtain ⟨m, indexable, on⟩ : l ∈ clause ∧ l.indexable = true ∧ l.field = n := by
      simpa [indexableOn] using m
    obtain ⟨v, has, -⟩ := (literalHolds indexable).mp (all l ⟨m, on, indexable⟩)
    refine ⟨v, on ▸ has, fun l' m' indexable' on' => ?_⟩
    obtain ⟨v', has', holds⟩ := (literalHolds indexable').mp (all l' ⟨m', on', indexable'⟩)
    rw [on', ← on] at has'
    cases has.symm.trans has'
    exact holds
  · intro some_ l m
    obtain ⟨v, has, all⟩ := some_
    obtain ⟨m, on, indexable⟩ := m
    exact (literalHolds indexable).mpr ⟨v, on ▸ has, all l m indexable on⟩

/-- What satisfies the literals on a field lies within their merged bounds, and nothing else does
where no two of them tie. -/
theorem mergedHolds (some_ : indexableOn n clause ≠ []) :
    (clauseHolds (clause.filter (fun l => l.field = n && l.indexable)) r = true →
      rowWithin n (mergeBounds clause n).1 (mergeBounds clause n).2 r = true) ∧
    (¬ Tied clause n → rowWithin n (mergeBounds clause n).1 (mergeBounds clause n).2 r = true →
      clauseHolds (clause.filter (fun l => l.field = n && l.indexable)) r = true) := by
  rw [fieldLiterals some_, rowWithin, Option.any_eq_true]
  constructor
  · intro holds
    obtain ⟨v, has, all⟩ := holds
    obtain ⟨above, below⟩ := (admitsIff v).mp all
    exact ⟨v, has, (withinIff _ _ _).mpr ⟨mergedAbove above, mergedBelow.mpr below⟩⟩
  · intro untied inside
    obtain ⟨v, has, inside⟩ := inside
    exact ⟨v, has, ((intersectsIff clause n).mpr untied v).mpr inside⟩

theorem mergedEquality {l : Lit} (m : l ∈ indexableOn n clause) (eq : l.cmp = .eq) {v : Value}
    (inside : within v (mergeBounds clause n).1 (mergeBounds clause n).2 = true) (pos : Nat) :
    Equality (pos, mergeBounds clause n) := by
  obtain ⟨above, below⟩ := (withinIff _ _ _).mp inside
  have low := (mergedLower clause n).2 _ (memLowers.mpr ⟨l, m, by simp [lowerOf, eq]; rfl⟩)
  have high := (mergedUpper clause n).2 _ (memUppers.mpr ⟨l, m, by simp [upperOf, eq]; rfl⟩)
  have start : lowerRank (mergeBounds clause n).1 ≤ lowerRank (.inclusive v) := above.from_
  have stop : upperRank (.inclusive v) ≤ upperRank (mergeBounds clause n).2 := belowRank.mp below
  have pairs : ∀ x y : Bytes, (toLex (x, 1) : Bytes ×ₗ Nat) ≤ toLex (y, 1) ↔ x ≤ y := by
    intro x y
    rw [Prod.Lex.toLex_le_toLex]
    simp [le_iff_lt_or_eq]
  have same : Value.encodeOrdered l.value = Value.encodeOrdered v := by
    have up := low.trans start
    have down := stop.trans high
    simp only [lowerRank, upperRank, WithBot.coe_le_coe, WithTop.coe_le_coe, pairs] at up down
    exact le_antisymm up down
  have rank : lowerRank (.inclusive l.value) = lowerRank (.inclusive v) := by
    simp only [lowerRank, same]
  have rank' : upperRank (.inclusive l.value) = upperRank (.inclusive v) := by
    simp only [upperRank, same]
  obtain ⟨w, isLow, atLow⟩ := rankSame.1.mp (le_antisymm start (rank ▸ low))
  have top : upperRank (mergeBounds clause n).2 = upperRank (.inclusive v) :=
    le_antisymm (high.trans_eq rank') stop
  obtain ⟨u, isHigh, atHigh⟩ : ∃ u, (mergeBounds clause n).2 = .inclusive u ∧
      Value.encodeOrdered u = Value.encodeOrdered v := by
    cases b : (mergeBounds clause n).2 with
    | unbounded => rw [b] at top; simp [upperRank] at top
    | exclusive u => rw [b] at top; simp [upperRank] at top
    | inclusive u => exact ⟨u, rfl, by rw [b] at top; simpa [upperRank] using top⟩
  exact ⟨w, u, Prod.ext isLow isHigh, Value.valueCmpEq.mpr (atLow.trans atHigh.symm)⟩

end Literals

section Choices
variable {schema : Schema} {c : UInt32} {clause : List Lit}

/-- What is known of the component of an index that a clause binds. -/
def Binds (schema : Schema) (c : UInt32) (clause : List Lit) (fid : UInt32) (l : Leading) : Prop :=
  ∃ n, schema.fieldName.get (toLex (c, fid)) = some n ∧ l.2 = mergeBounds clause n ∧
    indexableOn n clause ≠ []

/-- A component behind which another one is bound is bound by an `=`. -/
def BindsEqual (schema : Schema) (c : UInt32) (clause : List Lit) (fid : UInt32) : Prop :=
  ∃ n l, schema.fieldName.get (toLex (c, fid)) = some n ∧ l ∈ indexableOn n clause ∧ l.cmp = .eq

inductive Leads (schema : Schema) (c : UInt32) (clause : List Lit) :
    Nat → List UInt32 → List Leading → Prop
  | stop (pos : Nat) (fids : List UInt32) : Leads schema c clause pos fids []
  | last {pos : Nat} {fid : UInt32} {rest : List UInt32} {l : Leading} (at_ : l.1 = pos)
      (binds : Binds schema c clause fid l) : Leads schema c clause pos (fid :: rest) [l]
  | more {pos : Nat} {fid : UInt32} {rest : List UInt32} {l : Leading} {others : List Leading}
      (at_ : l.1 = pos) (binds : Binds schema c clause fid l)
      (equal : BindsEqual schema c clause fid) (tail : Leads schema c clause (pos + 1) rest others) :
      Leads schema c clause pos (fid :: rest) (l :: others)

theorem leadingLeads {pos : Nat} {fids : List UInt32} {leading : List Leading}
    (run : leadingFrom schema c clause pos fids = some leading) :
    Leads schema c clause pos fids leading := by
  induction fids generalizing pos leading with
  | nil =>
    cases run
    exact .stop pos []
  | cons fid rest ih =>
    rw [leadingFrom] at run
    obtain ⟨n, named, run⟩ := Option.bind_eq_some_iff.mp run
    cases first : clause.find? (fun l => l.field = n && l.indexable) with
    | none =>
      rw [first] at run
      cases run
      exact .stop pos _
    | some l =>
      rw [first] at run
      have on : l ∈ indexableOn n clause := by
        have good := List.find?_some first
        simp only [Bool.and_eq_true, decide_eq_true_eq] at good
        simp [indexableOn, List.mem_of_find?_eq_some first, good]
      have binds : Binds schema c clause fid (pos, mergeBounds clause n) :=
        ⟨n, named, rfl, List.ne_nil_of_mem on⟩
      dsimp only at run
      by_cases eq : l.cmp = .eq
      · rw [if_neg (not_not.mpr eq)] at run
        obtain ⟨others, tail, same⟩ := Option.bind_eq_some_iff.mp run
        cases same
        exact .more rfl binds ⟨n, l, named, on, eq⟩ (ih tail)
      · rw [if_pos eq] at run
        cases run
        exact .last rfl binds

theorem Leads.positions {pos : Nat} {fids : List UInt32} {leading : List Leading}
    (h : Leads schema c clause pos fids leading) :
    leading.map Prod.fst = List.range' pos leading.length ∧ leading.length ≤ fids.length := by
  induction h with
  | stop pos fids => exact ⟨rfl, Nat.zero_le _⟩
  | last at_ binds => simp [at_]
  | more at_ binds equal tail ih =>
    obtain ⟨positions, short⟩ := ih
    exact ⟨by simp [at_, positions, List.range'_succ], by simpa using short⟩

theorem Leads.binds {pos : Nat} {fids : List UInt32} {leading : List Leading}
    (h : Leads schema c clause pos fids leading) {l : Leading} (m : l ∈ leading) :
    pos ≤ l.1 ∧ ∃ fid, fids[l.1 - pos]? = some fid ∧ Binds schema c clause fid l := by
  induction h with
  | stop pos fids => cases m
  | last at_ binds =>
    obtain rfl := List.mem_singleton.mp m
    exact ⟨at_.ge, _, by simp [at_], binds⟩
  | @more pos fid rest l' others at_ binds equal tail ih =>
    rcases List.mem_cons.mp m with rfl | m
    · exact ⟨at_.ge, _, by simp [at_], binds⟩
    · obtain ⟨far, fid', at', binds'⟩ := ih m
      refine ⟨by omega, fid', ?_, binds'⟩
      obtain ⟨k, behind⟩ : ∃ k, l.1 - pos = k + 1 := ⟨l.1 - pos - 1, by omega⟩
      rw [behind, List.getElem?_cons_succ, ← at']
      congr 1
      omega

theorem Leads.equal {pos : Nat} {fids : List UInt32} {leading : List Leading}
    (h : Leads schema c clause pos fids leading) {l : Leading} (m : l ∈ leading.dropLast) :
    ∃ fid, fids[l.1 - pos]? = some fid ∧ Binds schema c clause fid l ∧
      BindsEqual schema c clause fid := by
  induction h with
  | stop pos fids => cases m
  | last at_ binds => cases m
  | @more pos fid rest l' others at_ binds equal tail ih =>
    cases others with
    | nil => cases m
    | cons other others =>
      rcases List.mem_cons.mp m with rfl | m
      · exact ⟨fid, by simp [at_], binds, equal⟩
      · obtain ⟨fid', at', both⟩ := ih m
        have far := (tail.binds (List.mem_of_mem_dropLast m)).1
        refine ⟨fid', ?_, both⟩
        obtain ⟨k, behind⟩ : ∃ k, l.1 - pos = k + 1 := ⟨l.1 - pos - 1, by omega⟩
        rw [behind, List.getElem?_cons_succ, ← at']
        congr 1
        omega

theorem foldChosen {α : Type} {f : Option α → α → Option α}
    (one : ∀ best a x, f best a = some x → best = some x ∨ x = a) {l : List α} {best : Option α}
    {x : α} (run : l.foldl f best = some x) : best = some x ∨ x ∈ l := by
  induction l generalizing best with
  | nil => exact .inl run
  | cons a l ih =>
    rcases ih run with first | later
    · rcases one best a x first with old | new
      · exact .inl old
      · exact .inr (new ▸ List.mem_cons_self)
    · exact .inr (List.mem_cons_of_mem _ later)

theorem cheapestChosen {x : Chars} (run : pickIndexFieldCost schema c clause = some x) :
    indexableOn x clause ≠ [] ∧ readyIndex schema c x = true := by
  obtain ⟨cand, chosen, rfl⟩ := Option.map_eq_some_iff.mp run
  have one : ∀ best a y, cheapest best a = some y → best = some y ∨ y = a := by
    intro best a y is
    cases best with
    | none => exact .inr (Option.some.inj is).symm
    | some b =>
      rw [cheapest] at is
      split at is
      · exact .inr (Option.some.inj is).symm
      · exact .inl is
  have mem : cand ∈ (indexedFields schema c clause).map (candidate clause) :=
    (foldChosen one chosen).resolve_left (by simp)
  obtain ⟨n, m, rfl⟩ := List.mem_map.mp mem
  rw [indexedFields, List.mem_dedup, List.mem_mergeSort] at m
  obtain ⟨l, ml, rfl⟩ := List.mem_map.mp m
  obtain ⟨ml, good⟩ := List.mem_filter.mp ml
  rw [Bool.and_eq_true] at good
  have on : l ∈ indexableOn l.field clause := List.mem_filter.mpr ⟨ml, by simp [good.1]⟩
  exact ⟨List.ne_nil_of_mem on, good.2⟩

theorem compositeChosen {x : CompositeChoice} (run : pickCompositeIndex schema c clause = some x) :
    ∃ d ∈ schema.indexes, d.collectionId = c ∧ d.status = .ready ∧ 2 ≤ d.fieldIds.length ∧
      x.index = d.id ∧ x.fids = d.fieldIds ∧ Leads schema c clause 0 d.fieldIds x.leading := by
  have one : ∀ best a y, betterComposite best a = some y → best = some y ∨ y = a := by
    intro best a y is
    cases best with
    | none => exact .inr (Option.some.inj is).symm
    | some b =>
      rw [betterComposite] at is
      obtain is := Option.some.inj is
      split at is
      · exact .inr is.symm
      · exact .inl (congrArg some is)
  have mem := (foldChosen one run).resolve_left (by simp)
  obtain ⟨d, m, made⟩ := List.mem_filterMap.mp mem
  obtain ⟨m, mine, ready, two⟩ : d ∈ schema.indexes ∧ d.collectionId = c ∧ d.status = .ready ∧
    2 ≤ d.fieldIds.length := by simpa using m
  unfold compositeCandidate at made
  split at made
  · cases made
  · cases made
  · rename_i leading _ lead
    cases made
    exact ⟨d, m, mine, ready, two, rfl, rfl, leadingLeads lead⟩

end Choices

section Clauses
variable {rows : List Rec} {schema : Schema} {name : Chars} {c : UInt32} {found : List Row}

/-- The ready indexes of a collection are complete. -/
structure Prepared (rows : List Rec) (schema : Schema) (c : UInt32) : Prop where
  single : ∀ f d, schema.findIndex c f = some d → d.status = .ready → FieldIndexed rows c f
  composite : ∀ d ∈ schema.indexes, d.collectionId = c → d.status = .ready →
    2 ≤ d.fieldIds.length → Index.Indexed rows c d ∧ schema.indexById d.id = some d ∧
      ∀ f ∈ d.fieldIds, ∃ n, schema.fieldName.get (toLex (c, f)) = some n

/-- The source gives all entities that satisfy the clause, and those alone where the filter behind it
lets them through, unless bounds of the clause tie. -/
def Sourced (v : ReadView) (schema : Schema) (found : List Row) (clause : List Lit)
    (s : PhysicalPlan × List Lit) : Prop :=
  ∃ p, Gives v schema found s.1 p ∧ (∀ r ∈ found, clauseHolds clause r = true → p r = true) ∧
    ((∀ n, ¬ Tied clause n) → ∀ r ∈ found, (clauseHolds s.2 r && p r) = clauseHolds clause r)

theorem fullSourced (agreed : Agreed rows schema name c found) (clause : List Lit) :
    Sourced (.ofRows rows) schema found clause (fullSource name clause) :=
  ⟨_, fullGives agreed, fun _ _ _ => rfl, fun _ _ _ => Bool.and_true _⟩

theorem readyDef {n : Chars} (ready : readyIndex schema c n = true) :
    ∃ f d, schema.lookupFieldId c n = some f ∧ schema.findIndex c f = some d ∧ d.status = .ready := by
  unfold readyIndex at ready
  split at ready
  · cases ready
  · rename_i f field
    split at ready
    · cases ready
    · rename_i d known
      exact ⟨f, d, field, known, of_decide_eq_true ready⟩

theorem singleSourced (h : Legible rows schema name c) (agreed : Agreed rows schema name c found)
    (prepared : Prepared rows schema c) {clause : List Lit} {n : Chars}
    (some_ : indexableOn n clause ≠ []) (ready : readyIndex schema c n = true) :
    Sourced (.ofRows rows) schema found clause (singleSource name clause n) := by
  obtain ⟨f, d, field, known, ready⟩ := readyDef ready
  refine ⟨_, scanGives h agreed field (by rw [known]; rfl) (prepared.single f d known ready) _ _, ?_, ?_⟩
  · intro r _ holds
    rw [clauseSplit (fun l => l.field = n && l.indexable), Bool.and_eq_true] at holds
    exact (mergedHolds some_).1 holds.2
  · intro untied r _
    refine Eq.trans ?_ (clauseSplit (fun l => l.field = n && l.indexable)).symm
    refine congrArg₂ _ rfl (Bool.eq_iff_iff.mpr ⟨(mergedHolds some_).2 (untied n), ?_⟩)
    exact (mergedHolds some_).1

theorem namesFound {fids : List UInt32}
    (named : ∀ f ∈ fids, ∃ n, schema.fieldName.get (toLex (c, f)) = some n) :
    ∃ names, fids.mapM (nameOf schema c) = .ok names ∧ names.length = fids.length ∧
      ∀ i : Nat, names[i]? = fids[i]?.bind (fun f => schema.fieldName.get (toLex (c, f))) := by
  induction fids with
  | nil => exact ⟨[], rfl, rfl, fun i => by simp⟩
  | cons f fids ih =>
    obtain ⟨n, known⟩ := named f List.mem_cons_self
    obtain ⟨names, run, length, at_⟩ := ih (fun g m => named g (List.mem_cons_of_mem _ m))
    have first : nameOf schema c f = .ok n := by
      rw [nameOf, known]
      rfl
    refine ⟨n :: names, ?_, by simp [length], fun i => ?_⟩
    · rw [List.mapM_cons, first, run]
      rfl
    · cases i with
      | zero => exact known.symm
      | succ i => exact at_ i

def leadingHolds (names : List Chars) (leading : List Leading) (r : Row) : Bool :=
  leading.all (fun l => names[l.1]?.any (fun n => rowWithin n l.2.1 l.2.2 r))

theorem satisfiesNames (h : Legible rows schema name c) (agreed : Agreed rows schema name c found)
    {fids : List UInt32} {names : List Chars} {leading : List Leading} {clause : List Lit}
    (lead : Leads schema c clause 0 fids leading)
    (at_ : ∀ i : Nat, names[i]? = fids[i]?.bind (fun f => schema.fieldName.get (toLex (c, f))))
    {r : Row} (m : r ∈ found) :
    Satisfies rows c fids leading r.1 ↔ leadingHolds names leading r = true := by
  have lists := (Grouping.lookupEntry agreed.once).mpr m
  rw [leadingHolds, List.all_eq_true]
  refine forall₂_congr (fun l ml => ?_)
  obtain ⟨-, f, here, n, named, -, -⟩ := lead.binds ml
  rw [Nat.sub_zero] at here
  rw [at_, here, Option.bind_some, named, Option.any_some, rowWithin, Option.any_eq_true]
  have field := (h.named f n).mp named
  constructor
  · intro good
    obtain ⟨f', value, here', holds, inside⟩ := good
    obtain rfl := Option.some.inj here'
    obtain ⟨e, known, has⟩ := (Index.fieldHolds h agreed field r.1 value).mp holds
    cases lists.symm.trans known
    exact ⟨value, has, inside⟩
  · intro good
    obtain ⟨value, has, inside⟩ := good
    exact ⟨f, value, rfl, (Index.fieldHolds h agreed field r.1 value).mpr ⟨r.2, lists, has⟩, inside⟩

theorem satisfiesListed {fids : List UInt32} {leading : List Leading} {clause : List Lit}
    (lead : Leads schema c clause 0 fids leading) {id : Utf8}
    (good : Satisfies rows c fids leading id) : Listed fids leading := by
  obtain ⟨positions, short⟩ := lead.positions
  refine ⟨positions.trans List.range_eq_range'.symm, short, fun l m => ?_⟩
  obtain ⟨f, here, ⟨n, named, bounds, -⟩, n', lit, named', on, eq⟩ := lead.equal m
  obtain rfl := Option.some.inj (named.symm.trans named')
  obtain ⟨-, value, -, -, inside⟩ := good l (List.mem_of_mem_dropLast m)
  rw [bounds] at inside
  obtain ⟨v, w, is, same⟩ := mergedEquality on eq inside 0
  exact ⟨v, w, bounds.trans is, same⟩

section Covered
variable {fids : List UInt32} {names : List Chars} {leading : List Leading} {clause : List Lit}
  {r : Row} (lead : Leads schema c clause 0 fids leading)
  (at_ : ∀ i : Nat, names[i]? = fids[i]?.bind (fun f => schema.fieldName.get (toLex (c, f))))
include lead at_

theorem boundName {l : Leading} (m : l ∈ leading) : ∃ n, names[l.1]? = some n ∧
    l.2 = mergeBounds clause n ∧ indexableOn n clause ≠ [] := by
  obtain ⟨-, f, here, n, named, bounds, some_⟩ := lead.binds m
  rw [Nat.sub_zero] at here
  refine ⟨n, ?_, bounds, some_⟩
  rw [at_, here]
  exact named

theorem leadingOfClause (holds : clauseHolds (clause.filter (fun l =>
      leading.any (fun b => names[b.1]? = some l.field && l.indexable))) r = true) :
    leadingHolds names leading r = true := by
  rw [leadingHolds, List.all_eq_true]
  intro b m
  obtain ⟨n, name, bounds, some_⟩ := boundName lead at_ m
  rw [name, Option.any_some, bounds]
  refine (mergedHolds some_).1 (clauseHoldsIff.mpr (fun l ml => clauseHoldsIff.mp holds l ?_))
  obtain ⟨ml, on⟩ := List.mem_filter.mp ml
  rw [Bool.and_eq_true, decide_eq_true_eq] at on
  exact List.mem_filter.mpr ⟨ml, List.any_eq_true.mpr ⟨b, m, by simp [name, on]⟩⟩

theorem clauseOfLeading (untied : ∀ n, ¬ Tied clause n) (holds : leadingHolds names leading r = true) :
    clauseHolds (clause.filter (fun l =>
      leading.any (fun b => names[b.1]? = some l.field && l.indexable))) r = true := by
  rw [clauseHoldsIff]
  intro l ml
  obtain ⟨ml, covered⟩ := List.mem_filter.mp ml
  obtain ⟨b, m, on⟩ := List.any_eq_true.mp covered
  rw [Bool.and_eq_true, decide_eq_true_eq] at on
  obtain ⟨n, name, bounds, some_⟩ := boundName lead at_ m
  obtain rfl := Option.some.inj (name.symm.trans on.1)
  have inside := List.all_eq_true.mp holds b m
  rw [name, Option.any_some, bounds] at inside
  exact clauseHoldsIff.mp ((mergedHolds some_).2 (untied _) inside) l
    (List.mem_filter.mpr ⟨ml, by simp [on.2]⟩)

end Covered

theorem compositeSourced (h : Legible rows schema name c) (agreed : Agreed rows schema name c found)
    (prepared : Prepared rows schema c) {clause : List Lit} {x : CompositeChoice}
    (run : pickCompositeIndex schema c clause = some x)
    (dense : ∀ id, Satisfies rows c x.fids x.leading id →
      ∀ f ∈ x.fids, ∃ value, Holds rows c id f value) :
    ∃ s, compositeSource schema c name clause x = .ok s ∧
      Sourced (.ofRows rows) schema found clause s := by
  obtain ⟨index, fids, leading⟩ := x
  obtain ⟨d, m, mine, ready, two, rfl, rfl, lead⟩ := compositeChosen run
  obtain ⟨indexed, single, named⟩ := prepared.composite d m mine ready two
  obtain ⟨names, list, length, at_⟩ := namesFound named
  refine ⟨_, by rw [compositeSource, list]; rfl, leadingHolds names leading, ?_, ?_, ?_⟩
  · obtain ⟨ids, found_, once, members⟩ := compositeFound single ready indexed
      (fun l ml => by
        obtain ⟨-, f, here, -⟩ := lead.binds ml
        rw [Nat.sub_zero] at here
        rw [here]
        exact Option.some_ne_none f)
      (fun id good => satisfiesListed lead good) dense
    refine fetchGives h.known agreed ?_ once (fun r mr => ?_)
    · rw [candidateIds, indexCompositeScan, h.known, length]
      exact found_
    · rw [members, satisfiesNames h agreed lead at_ mr]
  · intro r _ holds
    rw [clauseSplit (fun l => leading.any (fun b => names[b.1]? = some l.field && l.indexable)),
      Bool.and_eq_true] at holds
    exact leadingOfClause lead at_ holds.2
  · intro untied r _
    refine Eq.trans ?_ (clauseSplit
      (fun l => leading.any (fun b => names[b.1]? = some l.field && l.indexable))).symm
    refine congrArg₂ _ rfl (Bool.eq_iff_iff.mpr ⟨clauseOfLeading lead at_ untied, ?_⟩)
    exact leadingOfClause lead at_

/-- Every entity within the bounds that an index over several fields is asked for has all of its
fields, so that the index has an entry of it. -/
def Dense (rows : List Rec) (schema : Schema) (c : UInt32) (clause : List Lit) : Prop :=
  ∀ x, pickCompositeIndex schema c clause = some x → ∀ id, Satisfies rows c x.fids x.leading id →
    ∀ f ∈ x.fids, ∃ value, Holds rows c id f value

theorem clauseSourced (h : Legible rows schema name c) (agreed : Agreed rows schema name c found)
    (prepared : Prepared rows schema c) {clause : List Lit} (dense : Dense rows schema c clause) :
    ∃ s, sourceOf schema name clause = .ok s ∧ Sourced (.ofRows rows) schema found clause s := by
  have start : sourceOf schema name clause = planClause schema c name clause := by
    rw [sourceOf, h.known]
  rw [start]
  unfold planClause
  cases single : pickIndexFieldCost schema c clause with
  | none =>
    cases composite : pickCompositeIndex schema c clause with
    | none => exact ⟨_, rfl, fullSourced agreed clause⟩
    | some x => exact compositeSourced h agreed prepared composite (dense x composite)
  | some n =>
    obtain ⟨some_, ready⟩ := cheapestChosen single
    cases composite : pickCompositeIndex schema c clause with
    | none => exact ⟨_, rfl, singleSourced h agreed prepared some_ ready⟩
    | some x =>
      dsimp only
      split
      · exact compositeSourced h agreed prepared composite (dense x composite)
      · exact ⟨_, rfl, singleSourced h agreed prepared some_ ready⟩

end Clauses

section Unions
variable {v : ReadView} {schema : Schema} {found : List Row}

theorem firstRowsOnce (seen : List Utf8) (rows : List Row) :
    ((firstRows seen rows).map Prod.fst).Nodup ∧ (∀ r ∈ firstRows seen rows, r ∈ rows ∧ r.1 ∉ seen) ∧
      ∀ r ∈ rows, r.1 ∉ seen → ∃ r' ∈ firstRows seen rows, r'.1 = r.1 := by
  induction rows generalizing seen with
  | nil => exact ⟨List.nodup_nil, fun _ m => absurd m List.not_mem_nil,
      fun _ m => absurd m List.not_mem_nil⟩
  | cons r rows ih =>
    rw [firstRows]
    by_cases old : r.1 ∈ seen
    · rw [if_pos old]
      obtain ⟨once, from_, all⟩ := ih seen
      refine ⟨once, fun x m => ⟨List.mem_cons_of_mem _ (from_ x m).1, (from_ x m).2⟩, ?_⟩
      intro x m new
      rcases List.mem_cons.mp m with rfl | m
      · exact absurd old new
      · exact all x m new
    · rw [if_neg old]
      obtain ⟨once, from_, all⟩ := ih (r.1 :: seen)
      refine ⟨?_, ?_, ?_⟩
      · refine List.nodup_cons.mpr ⟨fun m => ?_, once⟩
        obtain ⟨x, mx, same⟩ := List.mem_map.mp m
        exact (from_ x mx).2 (same ▸ List.mem_cons_self)
      · intro x m
        rcases List.mem_cons.mp m with rfl | m
        · exact ⟨List.mem_cons_self, old⟩
        · exact ⟨List.mem_cons_of_mem _ (from_ x m).1,
            fun seen => (from_ x m).2 (List.mem_cons_of_mem _ seen)⟩
      · intro x m new
        by_cases same : r.1 = x.1
        · exact ⟨r, List.mem_cons_self, same⟩
        · rcases List.mem_cons.mp m with rfl | m
          · exact absurd rfl same
          · obtain ⟨r', m', is⟩ := all x m (fun m => by
              rcases List.mem_cons.mp m with here | m
              · exact same here.symm
              · exact new m)
            exact ⟨r', List.mem_cons_of_mem _ m', is⟩

theorem branchesGive {clauses : List (List Lit)}
    (sourced : ∀ clause ∈ clauses, ∃ s, sourceOf schema name clause = .ok s ∧
      Sourced v schema found clause s) :
    ∃ branches, clauses.mapM (fun clause => do return (← sourceOf schema name clause).1) =
        .ok branches ∧ ∃ rows, execBranches v schema branches = .ok rows ∧
      (∀ r ∈ rows, r ∈ found) ∧
      ∀ clause ∈ clauses, ∀ r ∈ found, clauseHolds clause r = true → r ∈ rows := by
  induction clauses with
  | nil => exact ⟨[], rfl, [], rfl, fun _ m => absurd m List.not_mem_nil,
      fun _ m => absurd m List.not_mem_nil⟩
  | cons clause clauses ih =>
    obtain ⟨s, run, p, ⟨rows, gives, perm⟩, more, -⟩ := sourced clause List.mem_cons_self
    obtain ⟨branches, runs, others, exec, inside, all⟩ :=
      ih (fun x m => sourced x (List.mem_cons_of_mem _ m))
    refine ⟨s.1 :: branches, ?_, rows ++ others, ?_, ?_, ?_⟩
    · rw [List.mapM_cons, runs, run]
      rfl
    · rw [execBranches, gives]
      simp only [bind, Except.bind, collectedPure, exec]
      rfl
    · intro r m
      rcases List.mem_append.mp m with m | m
      · exact List.mem_of_mem_filter (perm.mem_iff.mp m)
      · exact inside r m
    · intro x m r mr holds
      rcases List.mem_cons.mp m with rfl | m
      · exact List.mem_append_left _ (perm.mem_iff.mpr (List.mem_filter.mpr ⟨mr, more r mr holds⟩))
      · exact List.mem_append_right _ (all x m r mr holds)

theorem unionGives (once : (found.map Prod.fst).Nodup) {branches : List PhysicalPlan}
    {rows : List Row} (run : execBranches v schema branches = .ok rows)
    (inside : ∀ r ∈ rows, r ∈ found) :
    ∃ p : Row → Bool, Gives v schema found (.unionIds branches) p ∧ ∀ r ∈ rows, p r = true := by
  classical
  obtain ⟨ids, from_, all⟩ := firstRowsOnce [] rows
  refine ⟨fun r => decide (r ∈ rows), ⟨firstRows [] rows, ?_, ?_⟩, fun r m => decide_eq_true m⟩
  · rw [execRows, run]
    rfl
  · refine (List.perm_ext_iff_of_nodup (List.Nodup.of_map _ ids)
      ((List.Nodup.of_map _ once).filter _)).mpr (fun r => ?_)
    rw [List.mem_filter, decide_eq_true_eq]
    constructor
    · exact fun m => ⟨inside r (from_ r m).1, (from_ r m).1⟩
    · intro both
      obtain ⟨m, here⟩ := both
      obtain ⟨r', m', same⟩ := all r here List.not_mem_nil
      exact List.inj_on_of_nodup_map once (inside r' (from_ r' m').1) m same ▸ m'

end Unions

section Rows
variable {v : ReadView} {schema : Schema} {name : Chars} {found : List Row}

theorem clausesHold (pred : Option Predicate) (r : Row) : passedAll pred r = true ↔
    ∃ clause ∈ clausesOf pred, clauseHolds clause r = true := by
  cases pred with
  | none => exact ⟨fun _ => ⟨[], List.mem_singleton_self _, rfl⟩, fun _ => rfl⟩
  | some p =>
    change p.evalInner r.2 = true ↔ _
    rw [(dnfBoth p).1]
    simp only [SomeClause, clauseHoldsIff, Lit.Holds, evalTrue]
    rfl

theorem singleGives {clause : List Lit} (untied : ∀ n, ¬ Tied clause n)
    (sourced : ∃ s, sourceOf schema name clause = .ok s ∧ Sourced v schema found clause s) :
    ∃ physical, (do
        let (source, residual) ← sourceOf schema name clause
        return filteredBy (← residualOf residual) source) = .ok physical ∧
      Gives v schema found physical (clauseHolds clause) := by
  obtain ⟨⟨source, residual⟩, run, p, gives, -, exact_⟩ := sourced
  obtain ⟨pred, made, same⟩ := residualHolds residual
  refine ⟨filteredBy pred source, ?_, (gives.filteredBy pred).congr (fun r m => ?_)⟩
  swap
  · rw [same]
    exact exact_ untied r m
  rw [run]
  simp only [bind, Except.bind, made]
  rfl

theorem severalGive (once : (found.map Prod.fst).Nodup) (p : Predicate)
    (sourced : ∀ clause ∈ dnf p, ∃ s, sourceOf schema name clause = .ok s ∧
      Sourced v schema found clause s) :
    ∃ branches, (dnf p).mapM (fun clause => do return (← sourceOf schema name clause).1) =
        .ok branches ∧ Gives v schema found (.filter (.unionIds branches) p) (passed p) := by
  obtain ⟨branches, made, rows, run, inside, all⟩ := branchesGive sourced
  obtain ⟨q, gives, more⟩ := unionGives once run inside
  refine ⟨branches, made, (gives.filter p).congr (fun r m => ?_)⟩
  cases holds : passed p r with
  | false => rfl
  | true =>
    obtain ⟨clause, mc, good⟩ := (clausesHold (some p) r).mp holds
    exact more r (all clause mc r m good)

variable {rows : List Rec} {c : UInt32}

/-- What the rows of a plan rest on besides the indexes. -/
structure Selective (rows : List Rec) (schema : Schema) (c : UInt32) (clauses : List (List Lit)) :
    Prop where
  dense : ∀ clause ∈ clauses, Dense rows schema c clause
  untied : ∀ clause, clauses = [clause] → ∀ n, ¬ Tied clause n

theorem rowsGive (h : Legible rows schema name c) (agreed : Agreed rows schema name c found)
    (prepared : Prepared rows schema c) {pred : Option Predicate}
    (selective : Selective rows schema c (clausesOf pred)) :
    ∃ physical, planRows schema name pred = .ok physical ∧
      Gives (.ofRows rows) schema found physical (passedAll pred) := by
  have sourced : ∀ clause ∈ clausesOf pred, ∃ s, sourceOf schema name clause = .ok s ∧
      Sourced (.ofRows rows) schema found clause s :=
    fun clause m => clauseSourced h agreed prepared (selective.dense clause m)
  have alone : ∀ clause, clausesOf pred = [clause] →
      ∃ physical, planRows schema name pred = .ok physical ∧
        Gives (.ofRows rows) schema found physical (passedAll pred) := by
    intro clause is
    obtain ⟨physical, run, gives⟩ := singleGives (selective.untied clause is)
      (sourced clause (is ▸ List.mem_singleton_self _))
    refine ⟨physical, ?_, gives.congr (fun r _ => ?_)⟩
    · rw [planRows, is]
      exact run
    · rw [Bool.eq_iff_iff, clausesHold, is]
      simp
  cases pred with
  | none => exact alone [] rfl
  | some p =>
    by_cases one : ∃ clause, dnf p = [clause]
    · obtain ⟨clause, is⟩ := one
      exact alone clause is
    · obtain ⟨branches, made, gives⟩ := severalGive agreed.once p sourced
      refine ⟨.filter (.unionIds branches) p, ?_, gives⟩
      rw [planRows, clausesOf]
      split
      · exact absurd ⟨_, ‹_›⟩ one
      · rw [made]
        rfl

end Rows
end MyLsmDb.Planner
