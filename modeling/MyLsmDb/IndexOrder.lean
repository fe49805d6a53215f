import MyLsmDb.IndexLookup
import MyLsmDb.Ranking

/-! The entities of a range of an index in the order of the field, and when they are the ones that
sorting all entities would give. -/
namespace MyLsmDb
open ByteOrder (Bytes)
open OrderedEntries
open Ranking
open Text
open Value (canonical encodeOrdered valueCmp valueCmpEq valueCmpLt valueCmpGt)

namespace Executor

section Places
variable {field : Chars} {dir : SortDir}

def place (x : Option Value) : WithBot Bytes := x.elim ⊥ (fun v => (encodeOrdered v : WithBot Bytes))

theorem placeCompares (x y : Value) : (valueCmp x y).Compares (place (some x)) (place (some y)) := by
  cases order : valueCmp x y with
  | lt => exact WithBot.coe_lt_coe.mpr (valueCmpLt.mp order)
  | eq => exact congrArg (fun b : Bytes => (b : WithBot Bytes)) (valueCmpEq.mp order)
  | gt => exact WithBot.coe_lt_coe.mpr (valueCmpGt.mp order)

theorem bytesCompare (a b : Bytes) : (cmp a b).Compares a b := by
  obtain ⟨less, same, more⟩ := Value.cmpBytes a b
  cases order : cmp a b with
  | lt => exact less.mp order
  | eq => exact same.mp order
  | gt => exact more.mp order

def fieldCmp (field : Chars) (a b : Row) : Ordering :=
  if (a.2.field field).isNone then if (b.2.field field).isNone then .eq else .lt
  else if (b.2.field field).isNone then .gt
  else valueCmp ((a.2.field field).getD .null) ((b.2.field field).getD .null)

theorem fieldCompares (field : Chars) (a b : Row) :
    (fieldCmp field a b).Compares (place (a.2.field field)) (place (b.2.field field)) := by
  unfold fieldCmp
  cases a.2.field field with
  | none =>
    cases b.2.field field with
    | none => exact rfl
    | some y => exact WithBot.bot_lt_coe _
  | some x =>
    cases b.2.field field with
    | none => exact WithBot.bot_lt_coe _
    | some y => exact placeCompares x y

theorem rowCmpField (a b : Row) : rowCmp field dir a b =
    (flipped dir (fieldCmp field a b)).then (cmp a.1.bytes b.1.bytes) := by
  unfold rowCmp fieldCmp
  cases a.2.field field with
  | none =>
    cases b.2.field field with
    | none => cases dir <;> rfl
    | some y => rfl
  | some x =>
    cases b.2.field field with
    | none => rfl
    | some y => rfl

section Directions
variable {α : Type} {o : α → α → Ordering} {g : α → WithBot Bytes} {key : α → Bytes}

theorem directedAsc (compares : ∀ a b, (o a b).Compares (g a) (g b)) (a b : α) :
    ((flipped .asc (o a b)).then (cmp (key a) (key b))).isLE = true ↔
      (toLex (g a, key a) : WithBot Bytes ×ₗ Bytes) ≤ toLex (g b, key b) :=
  thenLe (compares a b) (bytesCompare _ _)

theorem directedDesc (compares : ∀ a b, (o a b).Compares (g a) (g b)) (a b : α) :
    ((flipped .desc (o a b)).then (cmp (key a) (key b))).isLE = true ↔
      (toLex (OrderDual.toDual (g a), key a) : (WithBot Bytes)ᵒᵈ ×ₗ Bytes) ≤
        toLex (OrderDual.toDual (g b), key b) := by
  refine thenLe ?_ (bytesCompare _ _)
  rw [flipped, toDual_compares_toDual, Ordering.compares_swap]
  exact compares a b

theorem directedOrders (compares : ∀ a b, (o a b).Compares (g a) (g b)) (dir : SortDir) :
    Orders (fun a b => ((flipped dir (o a b)).then (cmp (key a) (key b))).isLE) := by
  cases dir with
  | asc => exact .ofRank (directedAsc compares)
  | desc => exact .ofRank (directedDesc compares)

theorem directedSame (key : α → Bytes) (compares : ∀ a b, (o a b).Compares (g a) (g b)) {a b : α}
    (ab : ((flipped dir (o a b)).then (cmp (key a) (key b))).isLE = true)
    (ba : ((flipped dir (o b a)).then (cmp (key b) (key a))).isLE = true) : key a = key b := by
  cases dir with
  | asc =>
    rw [directedAsc compares] at ab ba
    exact congrArg (fun p : WithBot Bytes ×ₗ Bytes => (ofLex p).2) (le_antisymm ab ba)
  | desc =>
    rw [directedDesc compares] at ab ba
    exact congrArg (fun p : (WithBot Bytes)ᵒᵈ ×ₗ Bytes => (ofLex p).2) (le_antisymm ab ba)

end Directions

theorem rowOrders (field : Chars) (dir : SortDir) :
    Orders (fun a b => (rowCmp field dir a b).isLE) := by
  simp only [rowCmpField]
  exact directedOrders (fieldCompares field) dir

theorem candidateOrders (dir : SortDir) :
    Orders (fun a b => (candidateCmp dir a b).isLE) :=
  directedOrders (fun a b : Value × Utf8 => placeCompares a.1 b.1) dir

theorem rowsToldApart (field : Chars) (dir : SortDir) {rows : List Row}
    (once : (rows.map Prod.fst).Nodup) : ToldApart (fun a b => (rowCmp field dir a b).isLE) rows :=
  fun a ma b mb ab ba => by
    dsimp only at ab ba
    rw [rowCmpField] at ab ba
    exact List.inj_on_of_nodup_map once ma mb
      (utf8Same.mp (directedSame (fun r : Row => r.1.bytes) (fieldCompares field) ab ba))

end Places

section Stream
variable {rows : List Rec} {schema : Schema} {name : Chars} {c : UInt32} {found : List Row}
  {f : UInt32} {n : Chars} {lower upper : Bound} {dir : SortDir}

def rowWithin (n : Chars) (lower upper : Bound) (r : Row) : Bool :=
  (r.2.field n).any (fun v => within v lower upper)

/-- No entry of the range, deleted or not, is left of an entity whose field has another value in
the range by now. -/
def Fresh (rows : List Rec) (c f : UInt32) (lower upper : Bound) : Prop :=
  ∀ r ∈ rows, ∀ (val : Value) (id : Utf8), r.1 = encodeIndexKey c f val.encodeOrdered id.bytes →
    within val lower upper → ∀ value, Index.Holds rows c id f value → within value lower upper →
      valueCmp val value = .eq

def entryOf (r : Rec) : Option (Value × Utf8) := (Index.decodeIndexKeyValue r.1).toOption.join

/-- The entity that a candidate stands for, if its field lies in the range. -/
def emitted (found : List Row) (n : Chars) (lower upper : Bound) (cand : Value × Utf8) : Option Row :=
  ((found.lookup cand.2).map (fun e => (cand.2, e))).filter (rowWithin n lower upper)

theorem candidatesRun {keys : List Rec}
    (decodes : ∀ r ∈ keys, ∃ cand, Index.decodeIndexKeyValue r.1 = .ok (some cand)) :
    candidates keys = .ok (keys.filterMap entryOf) := by
  induction keys with
  | nil => rfl
  | cons r keys ih =>
    obtain ⟨key, value⟩ := r
    obtain ⟨cand, decoded⟩ := decodes _ List.mem_cons_self
    have entry : entryOf (key, value) = some cand := by
      rw [entryOf, decoded]
      rfl
    rw [candidates, List.filterMap_cons_some entry]
    simp only [decoded, bind, Except.bind, ih (fun r m => decodes r (List.mem_cons_of_mem _ m))]
    rfl

theorem orderRowRun (h : Legible rows schema name c) (agreed : Agreed rows schema name c found)
    (field : schema.lookupFieldId c n = some f) (indexed : Index.FieldIndexed rows c f)
    (cand : Value × Utf8) : orderRow (.ofRows rows) schema c f lower upper cand =
      (emitted found n lower upper cand).map pure := by
  obtain ⟨actual, read⟩ := indexed.readable cand.2
  have holds := Index.fieldHolds h agreed field cand.2
  have point : fetchRow (.ofRows rows) schema c cand.2 =
      (found.lookup cand.2).map (fun e => pure (cand.2, e)) := by
    unfold fetchRow
    rw [agreed.point]
    cases found.lookup cand.2 <;> rfl
  unfold orderRow
  unfold Index.fieldValue at read
  have got : (ReadView.ofRows rows).find (encodeEntityKey c cand.2.bytes f) =
    .ok (rows.lookup (encodeEntityKey c cand.2.bytes f)).join := rfl
  rw [got] at read ⊢
  cases live : (rows.lookup (encodeEntityKey c cand.2.bytes f)).join with
  | none =>
    have none : emitted found n lower upper cand = none := by
      unfold emitted
      cases known : found.lookup cand.2 with
      | none => rfl
      | some e =>
        rw [Option.map_some, Option.filter_some, if_neg]
        intro inside
        obtain ⟨v, has, -⟩ := (Option.any_eq_true _ _).mp inside
        have value := (holds v).mpr ⟨e, known, has⟩
        rw [Index.Holds, Index.fieldValueRows, live] at value
        cases value
    rw [none]
    rfl
  | some stored =>
    rw [live] at read
    cases decoded : Value.decode stored with
    | error e =>
      simp only [decoded, bind, Except.bind] at read
      cases read
    | ok v =>
      have value : Index.Holds rows c cand.2 f v := by
        rw [Index.Holds, Index.fieldValueRows, live]
        simp only [decoded]
        rfl
      obtain ⟨e, known, has⟩ := (holds v).mp value
      have row : rowWithin n lower upper (cand.2, e) = within v lower upper := by
        rw [rowWithin, has]
        rfl
      simp only [decoded, point, known, emitted, Option.map_some, Option.filter_some, row]
      split <;> rfl

theorem emittedSome {cand : Value × Utf8} {r : Row} : emitted found n lower upper cand = some r ↔
    cand.2 = r.1 ∧ found.lookup r.1 = some r.2 ∧ rowWithin n lower upper r = true := by
  rw [emitted, Option.filter_eq_some_iff, Option.map_eq_some_iff]
  constructor
  · intro e
    obtain ⟨⟨e, known, rfl⟩, inside⟩ := e
    exact ⟨rfl, known, inside⟩
  · intro e
    obtain ⟨same, known, inside⟩ := e
    refine ⟨⟨r.2, same ▸ known, ?_⟩, inside⟩
    rw [same]

theorem entryOfKey (c f : UInt32) (val : Value) {id : Utf8} (short : id.bytes.length < 2 ^ 32)
    (value : Entry) : entryOf (encodeIndexKey c f val.encodeOrdered id.bytes, value) =
      some (canonical val, id) := by
  rw [entryOf, Index.decodeIndexKeyValueBack c f val short]
  rfl

theorem valueCmpCongr {a a' b b' : Value} (left : encodeOrdered a = encodeOrdered a')
    (right : encodeOrdered b = encodeOrdered b') : valueCmp a b = valueCmp a' b' := by
  rw [← Value.encodeOrderedCmp a b, ← Value.encodeOrderedCmp a' b', left, right]

def streamed (rows : List Rec) (found : List Row) (c f : UInt32) (n : Chars) (lower upper : Bound)
    (dir : SortDir) : List Row :=
  (((Index.rangeRows rows c f lower upper).filterMap entryOf).mergeSort
    (fun a b => (candidateCmp dir a b).isLE)).filterMap (emitted found n lower upper)

theorem streamRun (h : Legible rows schema name c) (agreed : Agreed rows schema name c found)
    (field : schema.lookupFieldId c n = some f) (indexed : Index.FieldIndexed rows c f)
    (known : (schema.findIndex c f).isNone = false) :
    indexOrderStream (.ofRows rows) schema name n lower upper dir =
      .ok ((streamed rows found c f n lower upper dir).map pure) := by
  have decodes : ∀ r ∈ Index.rangeRows rows c f lower upper,
      ∃ cand, Index.decodeIndexKeyValue r.1 = .ok (some cand) := by
    intro r m
    obtain ⟨-, val, id, short, key, -⟩ := (Index.memRangeRows indexed).mp m
    exact ⟨_, key ▸ Index.decodeIndexKeyValueBack c f val short⟩
  have runs : orderRow (.ofRows rows) schema c f lower upper =
      fun cand => (emitted found n lower upper cand).map pure :=
    funext (orderRowRun h agreed field indexed)
  unfold indexOrderStream
  simp only [h.known, field, known, Bool.false_eq_true, if_false, ReadView.ofRowsRows]
  change (candidates (Index.rangeRows rows c f lower upper) >>= _) = _
  rw [candidatesRun decodes]
  change Except.ok (List.filterMap _ _) = _
  rw [runs, streamed, List.map_filterMap]

variable (h : Legible rows schema name c) (agreed : Agreed rows schema name c found)
  (field : schema.lookupFieldId c n = some f) (indexed : Index.FieldIndexed rows c f)
include h agreed field indexed

omit indexed in
theorem emittedHolds {cand : Value × Utf8} {r : Row}
    (out : emitted found n lower upper cand = some r) :
    ∃ value, Index.Holds rows c cand.2 f value ∧ r.2.field n = some value ∧
      within value lower upper := by
  obtain ⟨same, known, inside⟩ := emittedSome.mp out
  obtain ⟨value, has, inside⟩ := (Option.any_eq_true _ _).mp inside
  exact ⟨value, (Index.fieldHolds h agreed field cand.2 value).mpr ⟨r.2, same ▸ known, has⟩, has, inside⟩

theorem memStreamed (r : Row) : r ∈ streamed rows found c f n lower upper dir ↔
    r ∈ found ∧ rowWithin n lower upper r = true := by
  rw [streamed, List.mem_filterMap, ← Grouping.lookupEntry agreed.once]
  constructor
  · intro out
    obtain ⟨cand, -, out⟩ := out
    exact (emittedSome.mp out).2
  · intro inside
    obtain ⟨known, inside⟩ := inside
    obtain ⟨value, has, within_⟩ := (Option.any_eq_true _ _).mp inside
    have holds := (Index.fieldHolds h agreed field r.1 value).mpr ⟨r.2, known, has⟩
    obtain ⟨stored, m⟩ := indexed.complete r.1 value holds
    obtain ⟨cell, live, -⟩ := Index.holdsMem holds
    have short := (h.whole r.1 f cell live).1
    refine ⟨(canonical value, r.1), ?_, emittedSome.mpr ⟨rfl, known, inside⟩⟩
    rw [List.mem_mergeSort, List.mem_filterMap]
    exact ⟨_, (Index.memRangeRows indexed).mpr ⟨m, value, r.1, short, rfl, within_⟩,
      entryOfKey c f value short _⟩

theorem streamFresh (fresh : Fresh rows c f lower upper) :
    streamed rows found c f n lower upper dir =
      sortRows n dir (found.filter (rowWithin n lower upper)) := by
  have entry : ∀ r ∈ Index.rangeRows rows c f lower upper, ∀ cand, entryOf r = some cand →
      ∀ row, emitted found n lower upper cand = some row → ∃ value, row.2.field n = some value ∧
        encodeOrdered cand.1 = encodeOrdered value ∧
          r.1 = encodeIndexKey c f value.encodeOrdered row.1.bytes := by
    intro r m cand read row out
    obtain ⟨inside, val, id, short, key, within_⟩ := (Index.memRangeRows indexed).mp m
    obtain ⟨key', stored⟩ := r
    subst key
    rw [entryOfKey c f val short] at read
    obtain rfl := Option.some.inj read
    obtain ⟨value, holds, has, valueWithin⟩ := emittedHolds h agreed field out
    have same := valueCmpEq.mp (fresh _ inside val id rfl within_ value holds valueWithin)
    refine ⟨value, has, (Value.canonicalSame val).trans same, ?_⟩
    rw [same, ← (emittedSome.mp out).1]
  have ordered : Ordered (Index.rangeRows rows c f lower upper) := rangeOrdered h.ordered
  have nodup : ((Index.rangeRows rows c f lower upper).filterMap
      (fun r => (entryOf r).bind (emitted found n lower upper))).Nodup := by
    refine List.pairwise_filterMap.mpr (List.Pairwise.imp_of_mem ?_ ordered)
    intro a b ma mb less row outA row' outB same
    subst same
    obtain ⟨candA, readA, outA⟩ := Option.bind_eq_some_iff.mp outA
    obtain ⟨candB, readB, outB⟩ := Option.bind_eq_some_iff.mp outB
    obtain ⟨value, has, -, keyA⟩ := entry a ma candA readA row outA
    obtain ⟨value', has', -, keyB⟩ := entry b mb candB readB row outB
    obtain rfl := Option.some.inj (has.symm.trans has')
    rw [keyA, keyB] at less
    exact lt_irrefl _ less
  have perm : (streamed rows found c f n lower upper dir).Perm
      (found.filter (rowWithin n lower upper)) := by
    refine (List.perm_ext_iff_of_nodup ?_ ((List.Nodup.of_map _ agreed.once).filter _)).mpr
      (fun r => ?_)
    · refine (((List.mergeSort_perm _ _).filterMap _).nodup_iff).mpr ?_
      rw [List.filterMap_filterMap]
      exact nodup
    · rw [memStreamed h agreed field indexed, List.mem_filter]
  refine ((rowOrders n dir).unique ?_ perm ?_).symm
  · exact rowsToldApart n dir ((List.filter_sublist.map _).nodup agreed.once)
  · refine List.pairwise_filterMap.mpr
      (List.Pairwise.imp_of_mem ?_ ((candidateOrders dir).sorted _))
    intro a b ma mb less rowA outA rowB outB
    obtain ⟨rA, mrA, readA⟩ := List.mem_filterMap.mp (List.mem_mergeSort.mp ma)
    obtain ⟨rB, mrB, readB⟩ := List.mem_filterMap.mp (List.mem_mergeSort.mp mb)
    obtain ⟨valueA, hasA, encodedA, -⟩ := entry rA mrA a readA rowA outA
    obtain ⟨valueB, hasB, encodedB, -⟩ := entry rB mrB b readB rowB outB
    rw [rowCmpField, fieldCmp, hasA, hasB, ← (emittedSome.mp outA).1, ← (emittedSome.mp outB).1]
    change ((flipped dir (valueCmp valueA valueB)).then _).isLE = true
    rw [← valueCmpCongr encodedA encodedB]
    exact less

/-- What an index gives in its order is what sorting gives exactly where no entry is left over of
a value that the field had before. -/
theorem orderStreamExact (known : (schema.findIndex c f).isNone = false) :
    indexOrderStream (.ofRows rows) schema name n lower upper dir =
        .ok ((sortRows n dir (found.filter (rowWithin n lower upper))).map pure) ↔
      Fresh rows c f lower upper := by
  rw [streamRun h agreed field indexed known]
  constructor
  · intro same
    have same := List.map_injective_iff.mpr (fun _ _ => Except.ok.inj) (Except.ok.inj same)
    have nodup : (streamed rows found c f n lower upper dir).Nodup := by
      rw [same]
      exact (List.mergeSort_perm _ _).nodup_iff.mpr ((List.Nodup.of_map _ agreed.once).filter _)
    have once := (((List.mergeSort_perm _ _).filterMap _).nodup_iff).mp nodup
    rw [List.filterMap_filterMap] at once
    intro r m val id key within_ value holds valueWithin
    obtain ⟨stored, complete⟩ := indexed.complete id value holds
    obtain ⟨cell, live, -⟩ := Index.holdsMem holds
    have short := (h.whole id f cell live).1
    obtain ⟨e, lists, has⟩ := (Index.fieldHolds h agreed field id value).mp holds
    have inside : rowWithin n lower upper (id, e) = true := by
      rw [rowWithin, has]
      exact valueWithin
    have out : ∀ (w : Value) (x : Entry),
        (entryOf (encodeIndexKey c f w.encodeOrdered id.bytes, x)).bind
          (emitted found n lower upper) = some (id, e) := by
      intro w x
      rw [entryOfKey c f w short]
      exact emittedSome.mpr ⟨rfl, lists, inside⟩
    obtain ⟨key', x⟩ := r
    obtain rfl : key' = encodeIndexKey c f val.encodeOrdered id.bytes := key
    by_contra other
    have first := (Index.memRangeRows indexed).mpr ⟨m, val, id, short, rfl, within_⟩
    have second := (Index.memRangeRows indexed).mpr ⟨complete, value, id, short, rfl, valueWithin⟩
    have one := filterMapOnce once first second (out val x) (out value _)
    exact other (Index.indexKeyInj.mp (congrArg Prod.fst one)).2.2.1
  · intro fresh
    rw [streamFresh h agreed field indexed fresh]

end Stream

section Stale
open Index (soleSchema soleCells soleEntries soleRows soleShort soleHolds soleIndexed)

theorem soleLegible : Legible soleRows soleSchema ['u'] 0 := by
  refine ⟨by decide +kernel, ?_, ?_, rfl, fun f n => ?_⟩
  · have keys : ∀ r ∈ soleRows, r.1.head? = some entityTag →
        ∃ e ∈ [0x61, 0x62, 0x63, 0x64], isUtf8 [e] ∧ r.1 = encodeEntityKey 0 [e] 0 := by
      decide +kernel
    intro r m tagged
    obtain ⟨e, -, valid, is⟩ := keys r m tagged
    exact ⟨0, ⟨[e], valid⟩, 0, is⟩
  · have good : ∀ r ∈ soleRows, ∀ cell ∈ decodeEntityKey r.1, ∀ stored ∈ r.2,
        badField soleSchema 0 cell.2.2 stored = false := by
      decide +kernel
    intro id f stored m
    obtain ⟨short, parts⟩ := Index.cellParts soleShort m
    exact ⟨short, good _ m _ parts stored rfl⟩
  · have names : soleSchema.fieldName.entries = [(toLex (0, 0), ['x'])] := by decide +kernel
    have ids : soleSchema.fieldIdOf.entries = [(toLex (0, ['x']), 0)] := by decide +kernel
    rw [Schema.lookupFieldId, ← OrderedMap.memIff, ← OrderedMap.memIff, names, ids]
    simp [Prod.ext_iff, and_comm]

theorem soleFresh : Fresh soleRows 0 0 .unbounded (.exclusive (.int 3)) := by
  have entry : ∀ r ∈ soleRows, indexFieldPrefix 0 0 <+: r.1 → ∃ e ∈ soleEntries,
      r.1 = encodeIndexKey 0 0 e.1.encodeOrdered e.2.1.bytes := by
    decide +kernel
  have alike : ∀ e ∈ soleEntries, ∀ cell ∈ soleCells, cell.1 = e.2.1.bytes →
      valueCmp e.1 (.int 3) = .lt → valueCmp e.1 cell.2 = .eq := by
    decide +kernel
  intro r m val id key inside value holds _
  obtain ⟨e, me, is⟩ := entry r m (key ▸ ⟨_, (indexKeyParts 0 0 _ _).symm⟩)
  obtain ⟨-, -, same, rfl⟩ := Index.indexKeyInj.mp (key.symm.trans is)
  have less : valueCmp e.1 (.int 3) = .lt := by
    rw [← valueCmpCongr (valueCmpEq.mp same) rfl]
    simpa [within] using inside
  rw [valueCmpCongr (valueCmpEq.mp same) rfl]
  exact alike e me _ (soleHolds holds) rfl less

theorem soleStale : ¬ Fresh soleRows 0 0 .unbounded .unbounded := by
  intro fresh
  have one : Index.Holds soleRows 0 ⟨[0x61], by decide⟩ 0 (.int 1) := rfl
  have eq := fresh (encodeIndexKey 0 0 (encodeOrdered (.int 3)) [0x61], some []) (by decide +kernel)
    (.int 3) ⟨[0x61], by decide⟩ rfl rfl (.int 1) one rfl
  cases eq

theorem orderStreamExactStale : ∃ found, Agreed soleRows soleSchema ['u'] 0 found ∧
    found.length = 3 ∧
    (∀ upper, indexOrderStream (.ofRows soleRows) soleSchema ['u'] ['x'] .unbounded upper .desc =
        .ok ((sortRows ['x'] .desc (found.filter (rowWithin ['x'] .unbounded upper))).map pure) ↔
      Fresh soleRows 0 0 .unbounded upper) ∧
    Fresh soleRows 0 0 .unbounded (.exclusive (.int 3)) ∧
    ¬ Fresh soleRows 0 0 .unbounded .unbounded := by
  obtain ⟨found, agreed⟩ := @wholeAgreed soleSchema 0 soleRows ['u'] soleLegible.ordered
    soleLegible.keys rfl soleLegible.whole
  have stream : (scanCollectionStream (.ofRows soleRows) soleSchema ['u']).toOption.map
      List.length = some 3 := by
    decide +kernel
  rw [agreed.stream] at stream
  refine ⟨found, agreed, ?_, fun upper => ?_, soleFresh, soleStale⟩
  · have length := Option.some.inj stream
    rwa [List.length_map] at length
  · exact orderStreamExact soleLegible agreed rfl soleIndexed rfl

end Stale
end Executor
end MyLsmDb
