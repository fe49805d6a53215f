import MyLsmDb.Damage
import MyLsmDb.EntityStore
import MyLsmDb.Grouping

/-! The three ways to read entities: the stream that regroups the rows of a scan, the scan that
collects them in a map, and the read by id. -/
namespace MyLsmDb
open ByteOrder (Bytes Delimited)
open Grouping
open LittleEndian
open OrderedEntries
open Text

theorem utf8Same {a b : Utf8} : a.bytes = b.bytes ↔ a = b := by
  constructor
  · intro same
    cases a
    cases b
    cases same
    rfl
  · exact congrArg Utf8.bytes

/-- A live row that can be taken for a field of an entity. -/
def fieldOf (schema : Schema) (c : UInt32) (r : Rec) : Option (Utf8 × Chars × Value) :=
  match decodeEntityKey r.1, r.2 with
  | some (_, e, fid), some stored =>
    match Value.decode stored, schema.fieldName.get (toLex (c, fid)), decodeEntityId e with
    | .ok value, some name, .ok id => some (id, name, value)
    | _, _, _ => none
  | _, _ => none

/-- The key is that of a field, and the row is taken for one unless it is a tombstone. -/
def Taken (schema : Schema) (c : UInt32) (r : Rec) : Prop :=
  (∃ k, decodeEntityKey r.1 = some k) ∧ (r.2 = none ∨ ∃ x, fieldOf schema c r = some x)

def gathered (g : Utf8 × List (Chars × Value)) : Row := (g.1, ⟨g.2⟩)

section Rows
variable {schema : Schema} {c : UInt32}

theorem fieldOfTombstone (key : Bytes) : fieldOf schema c (key, none) = none := by
  unfold fieldOf
  split
  · rename_i same
    cases same
  · rfl

theorem fieldOfSome {r : Rec} {x : Utf8 × Chars × Value} (h : fieldOf schema c r = some x) :
    ∃ c' fid stored, decodeEntityKey r.1 = some (c', x.1.bytes, fid) ∧ r.2 = some stored ∧
      Value.decode stored = .ok x.2.2 ∧ schema.fieldName.get (toLex (c, fid)) = some x.2.1 := by
  unfold fieldOf at h
  split at h
  · rename_i c' e fid stored key live
    split at h
    · rename_i value name id decoded named valid
      cases h
      refine ⟨c', fid, stored, ?_, live, decoded, named⟩
      unfold decodeEntityId at valid
      split at valid
      · cases valid
        exact key
      · cases valid
    · cases h
  · cases h

theorem fieldOfIs {r : Rec} {c' fid : UInt32} {id : Utf8} {stored : Bytes} {value : Value}
    {name : Chars} (key : decodeEntityKey r.1 = some (c', id.bytes, fid)) (live : r.2 = some stored)
    (decoded : Value.decode stored = .ok value)
    (named : schema.fieldName.get (toLex (c, fid)) = some name) :
    fieldOf schema c r = some (id, name, value) := by
  have valid : decodeEntityId id.bytes = .ok id := by
    rw [decodeEntityId, dif_pos id.valid]
    rfl
  simp only [fieldOf, key, live, decoded, named, valid]

theorem assembleRuns {rows : List Rec} (taken : ∀ r ∈ rows, Taken schema c r) :
    Executor.assemble schema c none (rows.map .ok) =
        (runs (rows.filterMap (fieldOf schema c))).map (fun g => .ok (gathered g)) ∧
      ∀ id (e : Entity), e.fields ≠ [] →
        Executor.assemble schema c (some (id, e)) (rows.map .ok) =
          (joined id e.fields (runs (rows.filterMap (fieldOf schema c)))).map
            (fun g => .ok (gathered g)) := by
  induction rows with
  | nil =>
    refine ⟨rfl, fun id e begun => ?_⟩
    rw [List.map_nil, Executor.assemble, Executor.finished, if_neg begun]
    rfl
  | cons r rows ih =>
    obtain ⟨⟨k, key⟩, state⟩ := taken r List.mem_cons_self
    obtain ⟨fresh, current⟩ := ih (fun r' m => taken r' (List.mem_cons_of_mem r m))
    obtain ⟨raw, value⟩ := r
    have skip : value = none → ∀ cur, Executor.assemble schema c cur (((raw, value) :: rows).map .ok) =
        Executor.assemble schema c cur (rows.map .ok) := by
      intro dead cur
      subst dead
      rw [List.map_cons, Executor.assemble.eq_def]
      simp only [key]
    cases state with
    | inl dead =>
      have none : fieldOf schema c (raw, value) = none := by
        have gone : value = none := dead
        rw [gone]
        exact fieldOfTombstone raw
      rw [List.filterMap_cons_none none, skip dead]
      exact ⟨fresh, fun id e begun => by rw [skip dead]; exact current id e begun⟩
    | inr live =>
      obtain ⟨⟨id', name, val⟩, is⟩ := live
      obtain ⟨c', fid, stored, key', value', decoded, named⟩ := fieldOfSome is
      have value' : value = some stored := value'
      subst value'
      have valid : decodeEntityId id'.bytes = .ok id' := by
        rw [decodeEntityId, dif_pos id'.valid]
        rfl
      have begun : (Entity.new.insert name val).fields ≠ [] := by simp [Entity.insert]
      have next := current id' (Entity.new.insert name val) begun
      rw [List.filterMap_cons_some is]
      constructor
      · rw [List.map_cons, Executor.assemble.eq_def]
        simp only [key', decoded, named, valid]
        exact next
      · intro id e begun
        rw [List.map_cons, Executor.assemble.eq_def]
        simp only [key', decoded, named, valid]
        by_cases same : id = id'
        · subst same
          have more := current id (e.insert name val) (by simp [Entity.insert])
          rw [if_pos rfl, more, runs, joinedJoined]
          rfl
        · rw [if_neg same, next, Executor.finished, if_neg begun, runs, joinedOther same]
          rfl

def Collected (xs : List (Utf8 × Chars × Value)) (found : OrderedMap Bytes Entity) : Prop :=
  ∀ key, found.get key = (let l := valuesAt (xs.map (fun x => (x.1.bytes, x.2))) key
    if l = [] then none else some ⟨l⟩)

theorem collectsRows {rows : List Rec} (taken : ∀ r ∈ rows, Taken schema c r)
    {xs : List (Utf8 × Chars × Value)} {found : OrderedMap Bytes Entity}
    (h : Collected xs found) : ∃ all, rows.foldlM (collectionRow schema c) found = .ok all ∧
      Collected (xs ++ rows.filterMap (fieldOf schema c)) all := by
  induction rows generalizing xs found with
  | nil => exact ⟨found, rfl, by simpa using h⟩
  | cons r rows ih =>
    obtain ⟨⟨k, key⟩, state⟩ := taken r List.mem_cons_self
    have rest := fun r' m => taken r' (List.mem_cons_of_mem r m)
    obtain ⟨raw, value⟩ := r
    rw [List.foldlM_cons]
    cases state with
    | inl dead =>
      have dead : value = none := dead
      subst dead
      have stays : collectionRow schema c found (raw, none) = .ok found := by
        unfold collectionRow
        simp only [key]
        rfl
      rw [stays, List.filterMap_cons_none (fieldOfTombstone raw)]
      exact ih rest h
    | inr live =>
      obtain ⟨⟨id, name, val⟩, is⟩ := live
      obtain ⟨c', fid, stored, key', value', decoded, named⟩ := fieldOfSome is
      have value' : value = some stored := value'
      subst value'
      have grows : collectionRow schema c found (raw, some stored) =
          .ok (found.insert id.bytes (((found.get id.bytes).getD .new).insert name val)) := by
        unfold collectionRow
        simp only [key', decoded, named, bind, Except.bind]
        rfl
      rw [grows, List.filterMap_cons_some is, List.append_cons]
      refine ih rest (fun q => ?_)
      rw [OrderedMap.getInsert, List.map_append, valuesAtAppend, List.map_cons, List.map_nil,
        valuesAtSingle]
      by_cases here : q = id.bytes
      · have before := h id.bytes
        rw [if_pos here, if_pos here.symm, here, before]
        by_cases none : valuesAt (xs.map (fun x => (x.1.bytes, x.2))) id.bytes = []
        · simp [none, Entity.new, Entity.insert]
        · simp [none, Entity.insert]
      · rw [if_neg here, if_neg (Ne.symm here), List.append_nil]
        exact h q

theorem entityIdsBack {l : List (Bytes × Entity)} (valid : ∀ r ∈ l, isUtf8 r.1 = true) :
    ∃ rows, entityIds l = .ok rows ∧ rows.map (fun r => (r.1.bytes, r.2)) = l := by
  induction l with
  | nil => exact ⟨[], rfl, rfl⟩
  | cons r l ih =>
    obtain ⟨rows, run, same⟩ := ih (fun r' m => valid r' (List.mem_cons_of_mem r m))
    have first := valid r List.mem_cons_self
    refine ⟨(⟨r.1, first⟩, r.2) :: rows, ?_, by rw [List.map_cons, same]⟩
    rw [entityIds, dif_pos first, run]
    rfl

theorem fieldsOfTaken {rows : List Rec} (taken : ∀ r ∈ rows, Taken schema c r) :
    fieldsOf schema c rows = .ok ((rows.filterMap (fieldOf schema c)).map Prod.snd) := by
  induction rows with
  | nil => rfl
  | cons r rows ih =>
    obtain ⟨⟨k, key⟩, state⟩ := taken r List.mem_cons_self
    have rest := ih (fun r' m => taken r' (List.mem_cons_of_mem r m))
    obtain ⟨raw, value⟩ := r
    rw [fieldsOf.eq_def]
    cases state with
    | inl dead =>
      have dead : value = none := dead
      subst dead
      simp only [key]
      rw [List.filterMap_cons_none (fieldOfTombstone raw)]
      exact rest
    | inr live =>
      obtain ⟨⟨id, name, val⟩, is⟩ := live
      obtain ⟨c', fid, stored, key', value', decoded, named⟩ := fieldOfSome is
      have value' : value = some stored := value'
      subst value'
      simp only [key', decoded, named, rest, bind, Except.bind]
      rw [List.filterMap_cons_some is]
      rfl

end Rows

section Keys
variable {c : UInt32}

/-- The keys of fields are those of entities, whatever the length of their ids. -/
def EntityKeys (rows : List Rec) : Prop := ∀ r ∈ rows, r.1.head? = some entityTag →
  ∃ (c : UInt32) (e : Utf8) (f : UInt32), r.1 = encodeEntityKey c e.bytes f

theorem encodeEntityKeyLength (c : UInt32) (e : Bytes) (f : UInt32) :
    (encodeEntityKey c e f).length = 13 + e.length := by
  simp [encodeEntityKey, entityPrefix]
  omega

theorem decodeEntityKeySome (c : UInt32) (e : Bytes) (f : UInt32) :
    ∃ k, decodeEntityKey (encodeEntityKey c e f) = some k := by
  have whole : encodeEntityKey c e f =
      entityTag :: (le32 c ++ (leBytes 4 e.length ++ (e ++ le32 f))) := by
    simp [encodeEntityKey, entityPrefix]
  have length := encodeEntityKeyLength c e f
  have drop : (encodeEntityKey c e f).drop 5 = leBytes 4 e.length ++ (e ++ le32 f) := by
    rw [whole, List.drop_succ_cons, List.drop_left' (le32Length c)]
  have low : fromLe (((encodeEntityKey c e f).drop 5).take 4) ≤ e.length := by
    rw [drop, List.take_left' (leBytesLength 4 _), fromLeBytes]
    exact Nat.mod_le _ _
  have tagged : (encodeEntityKey c e f).head? = some entityTag := by
    rw [whole]
    rfl
  rw [decodeEntityKey, if_neg (by rw [length, tagged]; simp), if_neg (by omega)]
  exact ⟨_, rfl⟩

theorem decodeEntityKeyShort {key e : Bytes} {f : UInt32} (h : decodeEntityKey key = some (c, e, f)) :
    e.length < 2 ^ 32 := by
  unfold decodeEntityKey at h
  split at h
  · cases h
  · dsimp only at h
    split at h
    · cases h
    · cases h
      have small := fromLeLt ((key.drop 5).take 4)
      have width : ((key.drop 5).take 4).length ≤ 4 := List.length_take_le _ _
      have bound : 256 ^ ((key.drop 5).take 4).length ≤ 256 ^ 4 :=
        Nat.pow_le_pow_right (by decide) width
      have taken := List.length_take_le (fromLe ((key.drop 5).take 4)) (key.drop 9)
      omega

theorem collectionBetween (c : UInt32) (key : Bytes) :
    between (some (collectionPrefix c)) (successor (collectionPrefix c)) key ↔
      collectionPrefix c <+: key := by
  obtain ⟨s, found⟩ := successorSome (b := entityTag) (le32 c) (by decide)
  have range : successor (collectionPrefix c) = some s := found
  rw [range]
  exact successorBetween found key

theorem collectionPrefixOf {c' : UInt32} {e : Bytes} {f : UInt32} :
    collectionPrefix c <+: encodeEntityKey c' e f ↔ c = c' := by
  have whole : encodeEntityKey c' e f =
      collectionPrefix c' ++ (leBytes 4 e.length ++ (e ++ le32 f)) := by
    simp [encodeEntityKey, entityPrefix, collectionPrefix]
  have apart : Delimited (collectionPrefix c) (collectionPrefix c') :=
    ByteOrder.delimitedOfLength (by simp [collectionPrefix])
  rw [whole, apart.prefix_iff]
  constructor
  · intro same
    exact le32Inj (List.cons.inj same).2
  · exact congrArg collectionPrefix

theorem entityInCollection {e key : Bytes} (h : entityPrefix c e <+: key) :
    collectionPrefix c <+: key := by
  have whole : entityPrefix c e = collectionPrefix c ++ (leBytes 4 e.length ++ e) := by
    simp [entityPrefix, collectionPrefix]
  rw [whole] at h
  exact (List.prefix_append _ _).trans h

/-- An entity whose key has room for it is met only under its own prefix, whatever id is asked for. -/
theorem prefixOfShort {e e' : Bytes} {f : UInt32} (short : e'.length < 2 ^ 32) :
    entityPrefix c e <+: encodeEntityKey c e' f ↔ e = e' := by
  constructor
  · intro h
    by_cases small : e.length < 2 ^ 32
    · exact ((entityPrefixOf small short f).mp h).2
    · exfalso
      have fits := h.length_le
      rw [encodeEntityKeyLength] at fits
      have size : (entityPrefix c e).length = 9 + e.length := by
        simp [entityPrefix]
        omega
      have front : entityPrefix c e = collectionPrefix c ++ (leBytes 4 e.length ++ e) := by
        simp [entityPrefix, collectionPrefix]
      have back : encodeEntityKey c e' f =
          collectionPrefix c ++ (leBytes 4 e'.length ++ (e' ++ le32 f)) := by
        simp [encodeEntityKey, entityPrefix, collectionPrefix]
      rw [front, back, List.prefix_append_right_inj] at h
      have lengths : leBytes 4 e.length = leBytes 4 e'.length := by
        have taken := List.prefix_iff_eq_take.mp ((List.prefix_append _ _).trans h)
        rw [List.take_left' (by simp)] at taken
        exact taken
      have wraps := congrArg fromLe lengths
      rw [fromLeBytes, fromLeBytes] at wraps
      omega
  · intro same
    rw [same, encodeEntityKey]
    exact List.prefix_append _ _

end Keys

/-- Every live field of the collection has an id that its key has room for, a value that is read
back and a name. -/
def Whole (schema : Schema) (c : UInt32) (rows : List Rec) : Prop :=
  ∀ (e : Utf8) (f : UInt32) (stored : Bytes), (encodeEntityKey c e.bytes f, some stored) ∈ rows →
    e.bytes.length < 2 ^ 32 ∧ Executor.badField schema c f stored = false

/-- What the three ways to read a collection give: the entities that `found` has. -/
structure Agreed (rows : List Rec) (schema : Schema) (name : Chars) (c : UInt32)
    (found : List Row) : Prop where
  stream : Executor.scanCollectionStream (.ofRows rows) schema name = .ok (found.map .ok)
  scan : ∃ scanned, (ReadView.ofRows rows).read (coreScanCollection schema c) = .ok scanned ∧
    scanned.Perm found
  point : ∀ id : Utf8, (ReadView.ofRows rows).read (coreGetEntity schema c id.bytes) =
    .ok (found.lookup id)
  once : (found.map Prod.fst).Nodup
  own : ∀ r ∈ found, ∀ field ∈ r.2.fields, ∃ f stored,
    (encodeEntityKey c r.1.bytes f, some stored) ∈ rows ∧
      schema.fieldName.get (toLex (c, f)) = some field.1 ∧ Value.decode stored = .ok field.2

section Agreement
variable {schema : Schema} {c : UInt32} {rows : List Rec}

def collectionRows (c : UInt32) (rows : List Rec) : List Rec :=
  rangeOf (some (collectionPrefix c)) (successor (collectionPrefix c)) rows

theorem memCollection {r : Rec} :
    r ∈ collectionRows c rows ↔ r ∈ rows ∧ collectionPrefix c <+: r.1 := by
  rw [collectionRows, memRange, collectionBetween]

theorem collectionKey (keys : EntityKeys rows) {r : Rec} (m : r ∈ collectionRows c rows) :
    ∃ (e : Utf8) (f : UInt32), r.1 = encodeEntityKey c e.bytes f := by
  obtain ⟨inside, starts⟩ := memCollection.mp m
  have tagged : r.1.head? = some entityTag := by
    obtain ⟨t, same⟩ := starts
    rw [← same]
    rfl
  obtain ⟨c', e, f, key⟩ := keys r inside tagged
  rw [key, collectionPrefixOf] at starts
  exact ⟨e, f, starts ▸ key⟩

theorem wholeTaken (keys : EntityKeys rows) (whole : Whole schema c rows) {r : Rec}
    (m : r ∈ collectionRows c rows) : Taken schema c r := by
  obtain ⟨e, f, key⟩ := collectionKey keys m
  obtain ⟨raw, value⟩ := r
  have key : raw = encodeEntityKey c e.bytes f := key
  subst key
  refine ⟨decodeEntityKeySome c e.bytes f, ?_⟩
  cases value with
  | none => exact .inl rfl
  | some stored =>
    obtain ⟨short, good⟩ := whole e f stored (memCollection.mp m).1
    rw [Executor.badField, Bool.or_eq_false_iff] at good
    obtain ⟨value, decoded⟩ : ∃ value, Value.decode stored = .ok value := by
      cases h : Value.decode stored with
      | ok value => exact ⟨value, rfl⟩
      | error e => simp [h, Except.isOk, Except.toBool] at good
    obtain ⟨name, named⟩ := Option.ne_none_iff_exists'.mp (fun none =>
      by simp [none] at good : schema.fieldName.get (toLex (c, f)) ≠ none)
    exact .inr ⟨_, fieldOfIs (decodeEncodeEntityKey c short f) rfl decoded named⟩

theorem fieldSource (keys : EntityKeys rows) (whole : Whole schema c rows) {r : Rec}
    (m : r ∈ collectionRows c rows) {x : Utf8 × Chars × Value}
    (h : fieldOf schema c r = some x) : x.1.bytes.length < 2 ^ 32 ∧ ∃ f stored,
      r = (encodeEntityKey c x.1.bytes f, some stored) ∧
      schema.fieldName.get (toLex (c, f)) = some x.2.1 ∧ Value.decode stored = .ok x.2.2 := by
  obtain ⟨e, f, key⟩ := collectionKey keys m
  obtain ⟨c', fid, stored, decodes, live, decoded, named⟩ := fieldOfSome h
  obtain ⟨raw, value⟩ := r
  have key : raw = encodeEntityKey c e.bytes f := key
  have live : value = some stored := live
  subst key live
  have short := (whole e f stored (memCollection.mp m).1).1
  have decodes : decodeEntityKey (encodeEntityKey c e.bytes f) = some (c', x.1.bytes, fid) := decodes
  rw [decodeEncodeEntityKey c short f] at decodes
  have parts := Option.some.inj decodes
  have ids : e.bytes = x.1.bytes := congrArg (fun k => k.2.1) parts
  have fields : f = fid := congrArg (fun k => k.2.2) parts
  exact ⟨ids ▸ short, f, stored, by rw [ids], fields ▸ named, decoded⟩

theorem fieldsAscending (ordered : Ordered rows) (keys : EntityKeys rows)
    (whole : Whole schema c rows) : Ascending (fun id : Utf8 => entityPrefix c id.bytes)
      ((collectionRows c rows).filterMap (fieldOf schema c)) := by
  have sorted : Ordered (collectionRows c rows) := rangeOrdered ordered
  refine List.pairwise_filterMap.mpr (List.Pairwise.imp_of_mem ?_ sorted)
  intro a b ma mb less x hx y hy
  obtain ⟨shortA, f, stored, rfl, -⟩ := fieldSource keys whole ma hx
  obtain ⟨shortB, g, stored', rfl, -⟩ := fieldSource keys whole mb hy
  have less : encodeEntityKey c x.1.bytes f < encodeEntityKey c y.1.bytes g := less
  have delimited : Delimited (entityPrefix c x.1.bytes) (entityPrefix c y.1.bytes) :=
    entityPrefixDelimited shortA shortB
  cases delimited with
  | inl same => exact le_of_eq same
  | inr apart =>
    rw [encodeEntityKey, encodeEntityKey, apart.lt_iff] at less
    exact less.le

theorem prefixInjective (c : UInt32) :
    Function.Injective (fun id : Utf8 => entityPrefix c id.bytes) := by
  intro a b same
  exact utf8Same.mp (entityPrefixInj same).2

theorem entityFields (keys : EntityKeys rows) (whole : Whole schema c rows) (id : Utf8) :
    (rangeOf (some (entityRange c id.bytes).1) (entityRange c id.bytes).2 rows).filterMap
        (fieldOf schema c) =
      ((collectionRows c rows).filterMap (fieldOf schema c)).filter (fun x => x.1 = id) := by
  rw [collectionRows, rangeOf, rangeOf, List.filterMap_filter, List.filterMap_filter,
    List.filter_filterMap]
  refine List.filterMap_congr (fun r m => ?_)
  by_cases inside : collectionPrefix c <+: r.1
  · rw [if_pos ((collectionBetween c r.1).mpr inside)]
    cases found : fieldOf schema c r with
    | none => simp
    | some x =>
      obtain ⟨short, f, stored, rfl, -⟩ :=
        fieldSource keys whole (memCollection.mpr ⟨m, inside⟩) found
      have here : between (some (entityRange c id.bytes).1) (entityRange c id.bytes).2
          (encodeEntityKey c x.1.bytes f) = true ↔ x.1 = id := by
        rw [entityRangeBetween, prefixOfShort short, utf8Same, eq_comm]
      by_cases same : x.1 = id
      · rw [if_pos (here.mpr same), Option.filter_some, if_pos (decide_eq_true same)]
      · rw [if_neg (fun h => same (here.mp h)), Option.filter_some, if_neg (by simpa using same)]
  · have outside : ¬ between (some (entityRange c id.bytes).1) (entityRange c id.bytes).2 r.1 :=
      fun h => inside (entityInCollection ((entityRangeBetween c id.bytes r.1).mp h))
    rw [if_neg outside, if_neg (fun h => inside ((collectionBetween c r.1).mp h))]
    rfl

theorem lookupGathered (groups : List (Utf8 × List (Chars × Value))) (id : Utf8) :
    (groups.map gathered).lookup id = (groups.lookup id).map Entity.mk := by
  induction groups with
  | nil => rfl
  | cons g groups ih =>
    obtain ⟨i, l⟩ := g
    rw [List.map_cons, lookupFront]
    change List.lookup id ((i, Entity.mk l) :: groups.map gathered) = _
    rw [List.lookup_cons]
    by_cases same : id = i
    · simp [same]
    · rw [if_neg same, beq_false_of_ne same]
      exact ih

theorem valuesAtBytes (xs : List (Utf8 × Chars × Value)) (id : Utf8) :
    valuesAt (xs.map (fun x => (x.1.bytes, x.2))) id.bytes = valuesAt xs id := by
  induction xs with
  | nil => rfl
  | cons x xs ih =>
    rw [List.map_cons, valuesAtCons, valuesAtCons, ih]
    simp only [utf8Same]

theorem readCollection (v : ReadView) : v.read (coreScanCollection schema c) =
    (v.rows (some (collectionPrefix c)) (successor (collectionPrefix c)) >>= fun rows =>
      rows.foldlM (collectionRow schema c) .empty >>= fun found => entityIds found.entries) := by
  have start : coreScanCollection schema c =
      .scan (some (collectionPrefix c)) (successor (collectionPrefix c)) (fun rows =>
        KeyValue.lift (rows.foldlM (collectionRow schema c) .empty) >>= fun found =>
          KeyValue.lift (entityIds found.entries)) := rfl
  rw [start, ReadView.readScan]
  congr 1
  funext rows
  cases rows.foldlM (collectionRow schema c) .empty with
  | ok found => exact ReadView.readLift v _
  | error e => rfl

theorem valuesAtSome {xs : List (Utf8 × Chars × Value)} {key : Bytes} {e : Entity}
    (h : (let l := valuesAt (xs.map (fun x => (x.1.bytes, x.2))) key
      if l = [] then none else some (Entity.mk l)) = some e) :
    ∃ id : Utf8, valuesAt xs id = e.fields ∧ id.bytes = key := by
  dsimp only at h
  split at h
  · cases h
  · rename_i some_
    obtain ⟨y, my, same⟩ : ∃ y ∈ xs.map (fun x => (x.1.bytes, x.2)), y.1 = key := by
      by_contra none
      exact some_ (valuesAtEmpty.mpr (fun y my same => none ⟨y, my, same⟩))
    obtain ⟨x, -, rfl⟩ := List.mem_map.mp my
    have same : x.1.bytes = key := same
    refine ⟨x.1, ?_, same⟩
    rw [← valuesAtBytes, same]
    exact congrArg Entity.fields (Option.some.inj h)

theorem wholeAgreed {name : Chars} (ordered : Ordered rows) (keys : EntityKeys rows)
    (known : schema.lookupCollectionId name = some c) (whole : Whole schema c rows) :
    ∃ found, Agreed rows schema name c found := by
  set xs := (collectionRows c rows).filterMap (fieldOf schema c) with hxs
  have taken : ∀ r ∈ collectionRows c rows, Taken schema c r := fun r m => wholeTaken keys whole m
  have ascending := fieldsAscending ordered keys whole
  have nodup : (((runs xs).map gathered).map Prod.fst).Nodup := by
    rw [List.map_map]
    exact runsNodup (prefixInjective c) ascending
  have lookup : ∀ id : Utf8, ((runs xs).map gathered).lookup id =
      if valuesAt xs id = [] then none else some ⟨valuesAt xs id⟩ := by
    intro id
    rw [lookupGathered, runsLookup (prefixInjective c) ascending]
    split <;> rfl
  refine ⟨(runs xs).map gathered, ?_, ?_, ?_, nodup, ?_⟩
  · rw [Executor.scanCollectionStream, known]
    change Except.ok (Executor.assemble schema c none ((collectionRows c rows).map .ok)) = _
    rw [(assembleRuns taken).1, List.map_map]
    rfl
  · obtain ⟨all, folded, collects⟩ := collectsRows taken (show Collected [] .empty from fun _ => rfl)
    have valid : ∀ r ∈ all.entries, isUtf8 r.1 = true := by
      intro r m
      have got := all.memIff.mp m
      rw [collects r.1] at got
      obtain ⟨id, -, same⟩ := valuesAtSome got
      exact same ▸ id.valid
    obtain ⟨scanned, ids, back⟩ := entityIdsBack valid
    refine ⟨scanned, ?_, ?_⟩
    · rw [readCollection, ReadView.ofRowsRows]
      change (List.foldlM (collectionRow schema c) .empty (collectionRows c rows) >>= _) = _
      rw [folded]
      exact ids
    · have entries : all.entries.map Prod.fst = scanned.map (fun r => r.1.bytes) := by
        rw [← back, List.map_map]
        rfl
      have keys' : (scanned.map (fun r => r.1.bytes)).Nodup := entries ▸ all.ordered.nodupKeys
      refine (List.perm_ext_iff_of_nodup (List.Nodup.of_map _ keys') (List.Nodup.of_map _ nodup)).mpr
        (fun r => ?_)
      have pair : r ∈ scanned ↔ (r.1.bytes, r.2) ∈ all.entries := by
        rw [← back, List.mem_map]
        constructor
        · exact fun m => ⟨r, m, rfl⟩
        · intro found
          obtain ⟨r', m, same⟩ := found
          have ids := utf8Same.mp (congrArg Prod.fst same)
          have entities := congrArg Prod.snd same
          exact (Prod.ext ids entities : r' = r) ▸ m
      rw [pair, all.memIff, collects, List.nil_append, valuesAtBytes]
      change _ ↔ (r.1, r.2) ∈ _
      rw [← lookupEntry nodup, lookup]
  · intro id
    rw [Executor.readEntity, ReadView.ofRowsRows]
    change (fieldsOf schema c (rangeOf (some (entityRange c id.bytes).1)
      (entityRange c id.bytes).2 rows) >>= _) = _
    have near : ∀ r ∈ rangeOf (some (entityRange c id.bytes).1) (entityRange c id.bytes).2 rows,
        Taken schema c r := by
      intro r m
      obtain ⟨inside, starts⟩ := memRange.mp m
      exact taken r (memCollection.mpr
        ⟨inside, entityInCollection ((entityRangeBetween c id.bytes r.1).mp starts)⟩)
    rw [fieldsOfTaken near, entityFields keys whole, lookup]
    rfl
  · intro r m field inside
    obtain ⟨g, mg, rfl⟩ := List.mem_map.mp m
    have all : valuesAt xs g.1 = g.2 := by
      have found := (lookupEntry (by simpa using nodup)).mpr m
      rw [lookup] at found
      split at found
      · cases found
      · exact congrArg Entity.fields (Option.some.inj found)
    have inside : field ∈ valuesAt xs g.1 := all.symm ▸ inside
    obtain ⟨x, mx, rfl⟩ := List.mem_map.mp inside
    obtain ⟨mx, same⟩ := List.mem_filter.mp mx
    obtain ⟨r, mr, is⟩ := List.mem_filterMap.mp mx
    obtain ⟨-, f, stored, rfl, named, decoded⟩ := fieldSource keys whole mr is
    have same : x.1 = g.1 := of_decide_eq_true same
    exact ⟨f, stored, same ▸ (memCollection.mp mr).1, named, decoded⟩

theorem assembleShort {current : Option Row} (begun : ∀ r ∈ current, r.1.bytes.length < 2 ^ 32)
    (items : List (Except Error Rec)) (r : Row)
    (m : .ok r ∈ Executor.assemble schema c current items) : r.1.bytes.length < 2 ^ 32 := by
  have handed : ∀ {current : Option Row}, (∀ r ∈ current, r.1.bytes.length < 2 ^ 32) →
      .ok r ∈ Executor.finished current → r.1.bytes.length < 2 ^ 32 := by
    intro current begun m
    cases current with
    | none => cases m
    | some cur =>
      rw [Executor.finished] at m
      split at m
      · cases m
      · cases List.mem_singleton.mp m
        exact begun r rfl
  induction items generalizing current with
  | nil => exact handed begun m
  | cons item items ih =>
    rw [Executor.assemble.eq_def] at m
    cases item with
    | error e =>
      dsimp only at m
      cases List.mem_cons.mp m with
      | inl same => cases same
      | inr m => exact ih begun m
    | ok row =>
      obtain ⟨key, value⟩ := row
      dsimp only at m
      split at m
      · exact ih begun m
      · exact ih begun m
      · rename_i c' entity fid stored decodes
        split at m
        · cases List.mem_cons.mp m with
          | inl same => cases same
          | inr m => exact ih begun m
        · split at m
          · cases List.mem_cons.mp m with
            | inl same => cases same
            | inr m => exact ih begun m
          · split at m
            · cases List.mem_cons.mp m with
              | inl same => cases same
              | inr m => exact ih begun m
            · rename_i eid valid
              have short : eid.bytes.length < 2 ^ 32 := by
                unfold decodeEntityId at valid
                split at valid
                · cases valid
                  exact decodeEntityKeyShort decodes
                · cases valid
              have fresh : ∀ e : Entity, ∀ r ∈ some (eid, e), r.1.bytes.length < 2 ^ 32 := by
                intro e r same
                cases same
                exact short
              split at m
              · rename_i id ent
                split at m
                · exact ih (fun r same => by cases same; exact begun (id, ent) rfl) m
                · cases List.mem_append.mp m with
                  | inl m => exact handed begun m
                  | inr m => exact ih (fresh _) m
              · exact ih (fresh _) m

theorem agreedWhole {name : Chars} (known : schema.lookupCollectionId name = some c)
    {found : List Row} (h : Agreed rows schema name c found) : Whole schema c rows := by
  intro e f stored m
  have near : (encodeEntityKey c e.bytes f, some stored) ∈
      rangeOf (some (entityRange c e.bytes).1) (entityRange c e.bytes).2 rows := by
    refine memRange.mpr ⟨m, (entityRangeBetween c e.bytes _).mpr ?_⟩
    exact List.prefix_append _ _
  have shape : Executor.entityDamage (.ofRows rows) schema c e =
      if ((rangeOf (some (entityRange c e.bytes).1) (entityRange c e.bytes).2 rows).map
        Except.ok).any (Executor.badRow schema c) then some true
      else if ((rangeOf (some (entityRange c e.bytes).1) (entityRange c e.bytes).2 rows).map
        Except.ok).any Executor.live then some false else none := rfl
  have alive : ((rangeOf (some (entityRange c e.bytes).1) (entityRange c e.bytes).2 rows).map
      Except.ok).any Executor.live = true :=
    List.any_eq_true.mpr ⟨_, List.mem_map_of_mem near, rfl⟩
  obtain ⟨-, e', failed⟩ | ⟨state, -⟩ | ⟨state, entity, read⟩ :=
    Executor.readEntityDamage (.ofRows rows) schema c e
  · rw [h.point e] at failed
    cases failed
  · rw [shape, alive] at state
    split at state <;> cases state
  · rw [h.point e] at read
    have listed : (e, entity) ∈ found := (lookupEntry h.once).mp (Except.ok.inj read)
    have stream := h.stream
    rw [Executor.scanCollectionStream, known] at stream
    have stream : Executor.assemble schema c none ((collectionRows c rows).map .ok) =
      found.map .ok := Except.ok.inj stream
    have handed : .ok (e, entity) ∈
        Executor.assemble schema c none ((collectionRows c rows).map .ok) := by
      rw [stream]
      exact List.mem_map_of_mem listed
    have short := assembleShort (fun r same => by cases same) _ _ handed
    refine ⟨short, ?_⟩
    rw [shape] at state
    split at state
    · cases state
    · rename_i sound
      by_contra bad
      rw [Bool.not_eq_false] at bad
      refine sound (List.any_eq_true.mpr ⟨_, List.mem_map_of_mem near, ?_⟩)
      rw [Executor.badRow, decodeEncodeEntityKey c short f]
      exact bad

end Agreement

section Serving
open Effect KeyValue
variable {σ α : Type} {m : Machine Error Bytes Bytes σ} {rows : List Rec} {kept : σ → Prop}

theorem runRows (kept : σ → Prop)
    (get : ∀ s key, kept s →
      Completes (m.get key) s (fun found s' => found = (rows.lookup key).join ∧ kept s'))
    (scan : ∀ s start stop, kept s →
      Completes (m.scan start stop) s (fun l s' => l = rangeOf start stop rows ∧ kept s'))
    {p : KvProg α} (only : p.ReadOnly) {s : σ} (h : kept s) : Ends (p.run m) s
      (fun a s' => (ReadView.ofRows rows).read p = .ok a ∧ kept s')
      (fun e s' => (ReadView.ofRows rows).read p = .error e ∧ kept s') := by
  induction p generalizing s with
  | done a => exact ⟨rfl, h⟩
  | halt e => exact ⟨rfl, h⟩
  | get key next ih =>
    refine Ends.bind ((get s key h).mono (fun _ _ done => done) (fun _ _ => False.elim)) ?_
    intro found s' done
    obtain ⟨rfl, kept'⟩ := done
    rw [ReadView.readGet]
    exact ih _ (only _) kept'
  | scan start stop next ih =>
    refine Ends.bind ((scan s start stop h).mono (fun _ _ done => done) (fun _ _ => False.elim)) ?_
    intro l s' done
    obtain ⟨rfl, kept'⟩ := done
    rw [ReadView.readScan, ReadView.ofRowsRows]
    exact ih _ (only _) kept'
  | write key entry next ih => exact only.elim

theorem directRows [Wal.Crc32] {s : EntityStore} (cached : Cached s.db)
    (h : Readable s.db.disk.tables s.db.manifest) {p : KvProg α} (only : p.ReadOnly) :
    Ends (p.run EntityStore.machine) s
      (fun a s' => (ReadView.ofRows (Database.entries s.db)).read p = .ok a ∧ Reads s.db s'.db)
      (fun e s' => (ReadView.ofRows (Database.entries s.db)).read p = .error e ∧
        Reads s.db s'.db) := by
  refine runRows (fun s' : EntityStore => Reads s.db s'.db) ?_ ?_ only (.refl cached)
  · intro s' key kept
    have same : Readable s'.db.disk.tables s'.db.manifest := kept.disk ▸ kept.manifest ▸ h
    refine endsZoom ((Database.getExact kept.2 same key).mono ?_ (fun _ _ => False.elim))
    intro found db done
    obtain ⟨rfl, more⟩ := done
    refine ⟨?_, kept.trans more⟩
    rw [← Database.lookupEntries, Database.Reads.entries kept]
  · intro s' start stop kept
    have same : Readable s'.db.disk.tables s'.db.manifest := kept.disk ▸ kept.manifest ▸ h
    refine endsZoom ((Database.scanAllExact kept.2 same start stop).mono ?_ (fun _ _ => False.elim))
    intro l db done
    obtain ⟨rfl, more⟩ := done
    exact ⟨by rw [Database.Reads.entries kept], kept.trans more⟩

theorem overlaidRows {db : Database} {pending : OrderedMap Bytes Entry} (cached : Cached db)
    (h : Readable db.disk.tables db.manifest) {p : KvProg α} (only : p.ReadOnly) :
    Ends (p.run TxMutator.machine) ⟨db, pending⟩
      (fun a _ => (ReadView.ofRows (overlay pending.entries (Database.entries db))).read p = .ok a)
      (fun e _ =>
        (ReadView.ofRows (overlay pending.entries (Database.entries db))).read p = .error e) := by
  have ordered : Ordered (Database.entries db) := flattenOrdered _
  refine (runRows (fun m : TxMutator => m.pending = pending ∧ Reads db m.db) ?_ ?_ only
    ⟨rfl, .refl cached⟩).mono (fun _ _ done => done.1) (fun _ _ done => done.1)
  · intro t key kept
    obtain ⟨db', pending'⟩ := t
    obtain ⟨rfl, reads⟩ := kept
    have same : Readable db'.disk.tables db'.manifest := reads.disk ▸ reads.manifest ▸ h
    refine (TxMutator.getExact reads.2 same key).mono ?_ (fun _ _ => False.elim)
    intro found m done
    obtain ⟨rfl, pend, more⟩ := done
    refine ⟨?_, pend, reads.trans more⟩
    have shown := @TxMutator.lookupOverlaid pending' _ _ ordered
      (Database.lookupEntries db) key
    rw [shown, reads.memtable, reads.disk, reads.manifest]
  · intro t start stop kept
    obtain ⟨db', pending'⟩ := t
    obtain ⟨rfl, reads⟩ := kept
    have same : Readable db'.disk.tables db'.manifest := reads.disk ▸ reads.manifest ▸ h
    refine (TxMutator.scanExact reads.2 same start stop).mono ?_ (fun _ _ => False.elim)
    intro l m done
    obtain ⟨rfl, pend, more⟩ := done
    have rows : Database.entries db' = Database.entries db := Database.Reads.entries reads
    exact ⟨by rw [rows], pend, reads.trans more⟩

/-- What programs that only read find in an engine, or in a transaction, that shows the rows. -/
structure Served [Wal.Crc32] (rows : List Rec) : Prop where
  direct : ∀ {α : Type} {p : KvProg α} (s : EntityStore), p.ReadOnly → Cached s.db →
    Readable s.db.disk.tables s.db.manifest → Database.entries s.db = rows →
    Ends (p.run EntityStore.machine) s (fun a _ => (ReadView.ofRows rows).read p = .ok a)
      (fun e _ => (ReadView.ofRows rows).read p = .error e)
  overlaid : ∀ {α : Type} {p : KvProg α} (db : Database) (pending : OrderedMap Bytes Entry),
    p.ReadOnly → Cached db → Readable db.disk.tables db.manifest →
    overlay pending.entries (Database.entries db) = rows →
    Ends (p.run TxMutator.machine) ⟨db, pending⟩ (fun a _ => (ReadView.ofRows rows).read p = .ok a)
      (fun e _ => (ReadView.ofRows rows).read p = .error e)

theorem rowsServed [Wal.Crc32] (rows : List Rec) : Served rows where
  direct s only cached readable shown := by
    subst shown
    exact (directRows cached readable only).mono (fun _ _ done => done.1) (fun _ _ done => done.1)
  overlaid db pending only cached readable shown := by
    subst shown
    exact overlaidRows cached readable only

end Serving

section Agreeing
variable {schema : Schema} {c : UInt32} {rows : List Rec}

/-- The three ways to read a collection agree exactly where every live field is whole, in the engine
and in a transaction. -/
theorem readPathsAgree [Wal.Crc32] {name : Chars} (ordered : Ordered rows) (keys : EntityKeys rows)
    (known : schema.lookupCollectionId name = some c) :
    ((∃ found, Agreed rows schema name c found) ↔ Whole schema c rows) ∧ Served rows := by
  refine ⟨?_, rowsServed rows⟩
  constructor
  · intro agreed
    obtain ⟨found, h⟩ := agreed
    exact agreedWhole known h
  · exact wholeAgreed ordered keys known

attribute [local instance] Wal.ieee

theorem readPathsAgreeTwo :
    let schema := ((Schema.new.collectionId ['u']).2.fieldId 0 ['x']).2.fieldId 0 ['y']
    let rows := [(encodeEntityKey 0 [0x61] 0, some Value.null.encode),
      (encodeEntityKey 0 [0x61] 1, some (Value.bool true).encode),
      (encodeEntityKey 0 [0x62] 0, none)]
    ((∃ found, Agreed rows schema.2 ['u'] 0 found) ↔ Whole schema.2 0 rows) ∧ Served rows := by
  intro schema rows
  refine readPathsAgree (by decide) ?_ rfl
  intro r m _
  obtain rfl | rfl | rfl : r = _ ∨ r = _ ∨ r = _ := by simpa [rows] using m
  · exact ⟨0, ⟨[0x61], by decide⟩, 0, rfl⟩
  · exact ⟨0, ⟨[0x61], by decide⟩, 1, rfl⟩
  · exact ⟨0, ⟨[0x62], by decide⟩, 0, rfl⟩

theorem utf8Letters (n : Nat) : isUtf8 (List.replicate n 0x61) = true := by
  induction n with
  | zero => rfl
  | succ n ih => exact ih

/-- The stream meets an entity whose id has 2 ^ 32 bytes under another id. -/
theorem longIdLost : ¬ ∀ (rows : List Rec) (schema : Schema) (name : Chars) (c : UInt32),
    Ordered rows → EntityKeys rows → schema.lookupCollectionId name = some c →
    ∃ found, Agreed rows schema name c found := by
  intro claim
  set long : Utf8 := ⟨List.replicate (2 ^ 32) 0x61, utf8Letters _⟩ with hlong
  have length : long.bytes.length = 2 ^ 32 := List.length_replicate
  obtain ⟨found, h⟩ := claim [(encodeEntityKey 0 long.bytes 0, some Value.null.encode)]
    ((Schema.new.collectionId ['u']).2.fieldId 0 ['x']).2 ['u'] 0 (List.pairwise_singleton _ _)
    (fun r m _ => ⟨0, long, 0, congrArg Prod.fst (List.mem_singleton.mp m)⟩) rfl
  have short := (agreedWhole rfl h long 0 _ List.mem_cons_self).1
  omega

end Agreeing
end MyLsmDb
