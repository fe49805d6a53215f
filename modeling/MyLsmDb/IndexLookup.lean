import MyLsmDb.KeyTrip

/-! What the scans through the index over one field find: the ids of the entities whose field lies
in the range, and the entities in the order of the field. -/
namespace MyLsmDb
open ByteOrder (Bytes)
open OrderedEntries
open Text

/-- A collection whose fields are whole and have the names that the schema gives them. -/
structure Legible (rows : List Rec) (schema : Schema) (name : Chars) (c : UInt32) : Prop where
  ordered : Ordered rows
  keys : EntityKeys rows
  whole : Whole schema c rows
  known : schema.lookupCollectionId name = some c
  named : ∀ f n, schema.fieldName.get (toLex (c, f)) = some n ↔ schema.lookupFieldId c n = some f

namespace Index
open Value (canonical encodeOrdered valueCmp valueCmpEq)

section Fields
variable {rows : List Rec} {schema : Schema} {name : Chars} {c : UInt32} {found : List Row}

theorem legibleFields (h : Legible rows schema name c) (agreed : Agreed rows schema name c found)
    (id : Utf8) : ((found.lookup id).map Entity.fields).getD [] =
      ((rangeOf (some (entityRange c id.bytes).1) (entityRange c id.bytes).2 rows).filterMap
        (fieldOf schema c)).map Prod.snd := by
  have read := agreed.point id
  rw [Executor.readEntity, ReadView.ofRowsRows] at read
  change (fieldsOf schema c (rangeOf (some (entityRange c id.bytes).1)
    (entityRange c id.bytes).2 rows) >>= _) = _ at read
  have near : ∀ r ∈ rangeOf (some (entityRange c id.bytes).1) (entityRange c id.bytes).2 rows,
      Taken schema c r := by
    intro r m
    obtain ⟨inside, starts⟩ := memRange.mp m
    exact wholeTaken h.keys h.whole (memCollection.mpr
      ⟨inside, entityInCollection ((entityRangeBetween c id.bytes r.1).mp starts)⟩)
  rw [fieldsOfTaken near] at read
  rw [← Except.ok.inj read]
  set fields := ((rangeOf (some (entityRange c id.bytes).1) (entityRange c id.bytes).2
    rows).filterMap (fieldOf schema c)).map Prod.snd
  by_cases none : fields = []
  · rw [if_pos none, none]
    rfl
  · rw [if_neg none]
    rfl

theorem fieldHolds (h : Legible rows schema name c) (agreed : Agreed rows schema name c found)
    {f : UInt32} {n : Chars} (field : schema.lookupFieldId c n = some f) (id : Utf8) (value : Value) :
    Holds rows c id f value ↔ ∃ e, found.lookup id = some e ∧ e.field n = some value := by
  have fields := legibleFields h agreed id
  have sole : ∀ e, found.lookup id = some e → ∀ x ∈ e.fields, x.1 = n →
      ∃ stored, (encodeEntityKey c id.bytes f, some stored) ∈ rows ∧ Value.decode stored = .ok x.2 := by
    intro e known x m same
    obtain ⟨g, stored, inside, named, decoded⟩ := agreed.own _ ((Grouping.lookupEntry agreed.once).mp known) x m
    have alike : g = f := by
      have mine := (h.named g x.1).mp named
      rw [same, field] at mine
      exact (Option.some.inj mine).symm
    exact ⟨stored, alike ▸ inside, decoded⟩
  constructor
  · intro holds
    obtain ⟨stored, inside, decoded⟩ := holdsMem holds
    obtain ⟨short, -⟩ := h.whole id f stored inside
    have is : fieldOf schema c (encodeEntityKey c id.bytes f, some stored) = some (id, n, value) :=
      fieldOfIs (decodeEncodeEntityKey c short f) rfl decoded ((h.named f n).mpr field)
    have near : (n, value) ∈ ((rangeOf (some (entityRange c id.bytes).1)
        (entityRange c id.bytes).2 rows).filterMap (fieldOf schema c)).map Prod.snd := by
      refine List.mem_map.mpr ⟨(id, n, value), List.mem_filterMap.mpr ⟨_, memRange.mpr ⟨inside, ?_⟩, is⟩, rfl⟩
      exact (entityRangeBetween c id.bytes _).mpr (List.prefix_append _ _)
    rw [← fields] at near
    cases known : found.lookup id with
    | none =>
      rw [known] at near
      cases near
    | some e =>
      rw [known] at near
      refine ⟨e, rfl, ?_⟩
      cases first : e.field n with
      | none => exact absurd rfl (lookupNone.mp first _ near)
      | some other =>
        obtain ⟨stored', inside', decoded'⟩ := sole e known _ (lookupMem first) rfl
        have same := (memLookup h.ordered inside).symm.trans (memLookup h.ordered inside')
        cases same
        cases decoded.symm.trans decoded'
        rfl
  · intro has
    obtain ⟨e, known, first⟩ := has
    obtain ⟨stored, inside, decoded⟩ := sole e known _ (lookupMem first) rfl
    rw [Holds, fieldValueRows, memLookup h.ordered inside]
    change (Value.decode stored >>= fun value => pure (some value)) = _
    rw [decoded]
    rfl

end Fields

section Finding
variable (rows : List Rec) (c f : UInt32)

/-- An index over one field whose entries are complete; there may be more of them than entities, and
deleted ones. -/
structure FieldIndexed : Prop where
  readable : ∀ id : Utf8, ∃ found, fieldValue (.ofRows rows) c id.bytes f = .ok found
  entries : ∀ r ∈ rows, indexFieldPrefix c f <+: r.1 → ∃ (val : Value) (id : Utf8),
    id.bytes.length < 2 ^ 32 ∧ r.1 = encodeIndexKey c f val.encodeOrdered id.bytes
  complete : ∀ (id : Utf8) value, Holds rows c id f value →
    ∃ stored, (encodeIndexKey c f value.encodeOrdered id.bytes, some stored) ∈ rows

variable {rows c f} {lower upper : Bound}

def InRange (rows : List Rec) (c f : UInt32) (lower upper : Bound) (id : Utf8) : Prop :=
  ∃ value, Holds rows c id f value ∧ within value lower upper

theorem findLoopRun (readable : ∀ id : Utf8, ∃ found, fieldValue (.ofRows rows) c id.bytes f = .ok found)
    {keys : List Rec} {seen : List Utf8}
    (decodes : ∀ r ∈ keys, ∃ id : Utf8, decodeIndexKey r.1 = some (c, f, id.bytes)) :
    ∃ ids, findLoop (.ofRows rows) c f lower upper seen keys = .ok ids ∧ ids.Nodup ∧
      ∀ id, id ∈ ids ↔ id ∉ seen ∧ InRange rows c f lower upper id ∧
        ∃ r ∈ keys, decodeIndexKey r.1 = some (c, f, id.bytes) := by
  induction keys generalizing seen with
  | nil => exact ⟨[], rfl, List.nodup_nil, by simp⟩
  | cons r keys ih =>
    obtain ⟨key, value⟩ := r
    obtain ⟨eid, decoded⟩ := decodes _ List.mem_cons_self
    have rest := fun r m => decodes r (List.mem_cons_of_mem _ m)
    have among : ∀ id : Utf8, (∃ r ∈ (key, value) :: keys, decodeIndexKey r.1 = some (c, f, id.bytes)) ↔
        id = eid ∨ ∃ r ∈ keys, decodeIndexKey r.1 = some (c, f, id.bytes) := by
      intro id
      rw [List.exists_mem_cons_iff]
      refine or_congr ?_ Iff.rfl
      rw [decoded]
      simp only [Option.some.injEq, Prod.mk.injEq, true_and]
      rw [utf8Same]
      exact eq_comm
    have valid : decodeEntityId eid.bytes = .ok eid := by
      rw [decodeEntityId, dif_pos eid.valid]
      rfl
    obtain ⟨actual, read⟩ := readable eid
    have step : findLoop (.ofRows rows) c f lower upper seen ((key, value) :: keys) =
        if eid ∈ seen then findLoop (.ofRows rows) c f lower upper seen keys
        else if actual.any (fun v => within v lower upper) then
          (findLoop (.ofRows rows) c f lower upper (eid :: seen) keys).map (eid :: ·)
        else findLoop (.ofRows rows) c f lower upper (eid :: seen) keys := by
      rw [findLoop]
      simp only [decoded, valid, bind, Except.bind, read]
      split
      · rfl
      · cases actual with
        | none => rfl
        | some v =>
          simp only [Option.any_some]
          split
          · cases findLoop (.ofRows rows) c f lower upper (eid :: seen) keys <;> rfl
          · rfl
    have holds : InRange rows c f lower upper eid ↔ actual.any (fun v => within v lower upper) = true := by
      unfold InRange Holds
      rw [read]
      cases actual <;> simp
    rw [step]
    by_cases old : eid ∈ seen
    · rw [if_pos old]
      obtain ⟨ids, run, nodup, members⟩ := ih rest
      refine ⟨ids, run, nodup, fun id => ?_⟩
      rw [members, among]
      constructor
      · exact fun h => ⟨h.1, h.2.1, .inr h.2.2⟩
      · intro h
        obtain ⟨new, good, same | later⟩ := h
        · exact absurd (same ▸ old) new
        · exact ⟨new, good, later⟩
    · rw [if_neg old]
      obtain ⟨ids, run, nodup, members⟩ := @ih (eid :: seen) rest
      by_cases good : actual.any (fun v => within v lower upper) = true
      · rw [if_pos good, run]
        refine ⟨eid :: ids, rfl, List.nodup_cons.mpr ⟨fun m => ?_, nodup⟩, fun id => ?_⟩
        · exact ((members eid).mp m).1 List.mem_cons_self
        · rw [List.mem_cons, members, among, List.mem_cons]
          constructor
          · intro h
            obtain same | ⟨new, good', later⟩ := h
            · exact ⟨same ▸ old, same ▸ holds.mpr good, .inl same⟩
            · exact ⟨fun m => new (.inr m), good', .inr later⟩
          · intro h
            obtain ⟨new, good', same | later⟩ := h
            · exact .inl same
            · by_cases same : id = eid
              · exact .inl same
              · exact .inr ⟨fun m => m.elim same new, good', later⟩
      · rw [if_neg good]
        refine ⟨ids, run, nodup, fun id => ?_⟩
        rw [members, among, List.mem_cons]
        constructor
        · exact fun h => ⟨fun m => h.1 (.inr m), h.2.1, .inr h.2.2⟩
        · intro h
          obtain ⟨new, good', same | later⟩ := h
          · exact absurd (holds.mp (same ▸ good')) good
          · refine ⟨fun m => ?_, good', later⟩
            rcases m with same | m
            · exact good (holds.mp (same ▸ good'))
            · exact new m

def rangeRows (rows : List Rec) (c f : UInt32) (lower upper : Bound) : List Rec :=
  rangeOf (some (indexRange c f lower upper).1) (indexRange c f lower upper).2 rows

theorem memRangeRows (h : FieldIndexed rows c f) {r : Rec} :
    r ∈ rangeRows rows c f lower upper ↔ r ∈ rows ∧ ∃ (val : Value) (id : Utf8),
      id.bytes.length < 2 ^ 32 ∧ r.1 = encodeIndexKey c f val.encodeOrdered id.bytes ∧
        within val lower upper := by
  rw [rangeRows, memRange]
  refine and_congr_right fun m => ?_
  constructor
  · intro inside
    obtain ⟨val, id, short, key⟩ := h.entries r m (rangeInField inside)
    refine ⟨val, id, short, key, ?_⟩
    rw [key] at inside
    exact ((indexKeyInRange c c f f lower upper val id.bytes).mp inside).2.2
  · intro e
    obtain ⟨val, id, -, key, inside⟩ := e
    rw [key]
    exact (indexKeyInRange c c f f lower upper val id.bytes).mpr ⟨rfl, rfl, inside⟩

theorem findListed {schema : Schema} (h : FieldIndexed rows c f)
    (known : (schema.findIndex c f).isNone = false) (lower upper : Bound) :
    ∃ ids, findM (.ofRows rows) schema c f lower upper = .ok ids ∧ ids.Nodup ∧
      ∀ id, id ∈ ids ↔ InRange rows c f lower upper id ∧ ∃ r ∈ rangeRows rows c f lower upper,
        decodeIndexKey r.1 = some (c, f, id.bytes) := by
  have start : findM (.ofRows rows) schema c f lower upper =
      findLoop (.ofRows rows) c f lower upper [] (rangeRows rows c f lower upper) := by
    unfold findM
    rw [known]
    simp only [Bool.false_eq_true, if_false, ReadView.ofRowsRows]
    rfl
  have decodes : ∀ r ∈ rangeRows rows c f lower upper,
      ∃ id : Utf8, decodeIndexKey r.1 = some (c, f, id.bytes) := by
    intro r m
    obtain ⟨-, val, id, short, key, -⟩ := (memRangeRows h).mp m
    exact ⟨id, key ▸ decodeIndexKeyBack c f val short⟩
  obtain ⟨ids, run, nodup, members⟩ := @findLoopRun rows c f lower upper h.readable
    (rangeRows rows c f lower upper) [] decodes
  refine ⟨ids, start.trans run, nodup, fun id => ?_⟩
  rw [members, and_iff_right List.not_mem_nil]

theorem inRangeListed (h : FieldIndexed rows c f) {lower upper : Bound} {id : Utf8}
    (inside : InRange rows c f lower upper id) :
    ∃ r ∈ rangeRows rows c f lower upper, decodeIndexKey r.1 = some (c, f, id.bytes) := by
  obtain ⟨value, holds, inside⟩ := inside
  obtain ⟨stored, m⟩ := h.complete id value holds
  obtain ⟨val, id', short, key⟩ := h.entries _ m ⟨_, (indexKeyParts c f _ _).symm⟩
  obtain ⟨-, -, -, rfl⟩ := indexKeyInj.mp key
  exact ⟨_, (memRangeRows h).mpr ⟨m, value, id, short, rfl, inside⟩, decodeIndexKeyBack c f value short⟩

/-- `find` gives the ids of the entities whose field lies in the range, each once. -/
theorem findExact {schema : Schema} (h : FieldIndexed rows c f)
    (known : (schema.findIndex c f).isNone = false) (lower upper : Bound) :
    ∃ ids, findM (.ofRows rows) schema c f lower upper = .ok ids ∧ ids.Nodup ∧
      ∀ id, id ∈ ids ↔ InRange rows c f lower upper id := by
  obtain ⟨ids, run, nodup, members⟩ := findListed h known lower upper
  exact ⟨ids, run, nodup, fun id => (members id).trans (and_iff_left_of_imp (inRangeListed h))⟩

def CollectionHandle.find (v : ReadView) (schema : Schema) (c : UInt32) (field : Chars)
    (op : FindOp) : Fallible (List Utf8) :=
  match schema.lookupFieldId c field with
  | none => invalidArgument s!"unknown field {String.ofList field}"
  | some f => findM v schema c f op.toBounds.1 op.toBounds.2

def Asks : FindOp → Value → Prop
  | .eq v, value => valueCmp value v = .eq
  | .gt v, value => valueCmp value v = .gt
  | .gte v, value => valueCmp value v ≠ .lt
  | .lt v, value => valueCmp value v = .lt
  | .lte v, value => valueCmp value v ≠ .gt
  | .between l h, value => valueCmp value l ≠ .lt ∧ valueCmp value h ≠ .gt

theorem withinBounds (op : FindOp) (value : Value) :
    within value op.toBounds.1 op.toBounds.2 = true ↔ Asks op value := by
  cases op with
  | eq v => cases cmp : valueCmp value v <;> simp [FindOp.toBounds, within, Asks, cmp]
  | gt v => cases cmp : valueCmp value v <;> simp [FindOp.toBounds, within, Asks, cmp]
  | gte v => cases cmp : valueCmp value v <;> simp [FindOp.toBounds, within, Asks, cmp]
  | lt v => cases cmp : valueCmp value v <;> simp [FindOp.toBounds, within, Asks, cmp]
  | lte v => cases cmp : valueCmp value v <;> simp [FindOp.toBounds, within, Asks, cmp]
  | between l h => simp [FindOp.toBounds, within, Asks]

theorem findAsked {schema : Schema} {n : Chars} (h : FieldIndexed rows c f)
    (field : schema.lookupFieldId c n = some f) (known : (schema.findIndex c f).isNone = false)
    (op : FindOp) : ∃ ids, CollectionHandle.find (.ofRows rows) schema c n op = .ok ids ∧
      ids.Nodup ∧ ∀ id, id ∈ ids ↔ ∃ value, Holds rows c id f value ∧ Asks op value := by
  obtain ⟨ids, run, nodup, members⟩ := findListed h known op.toBounds.1 op.toBounds.2
  refine ⟨ids, ?_, nodup, fun id => ?_⟩
  · unfold CollectionHandle.find
    rw [field]
    exact run
  · rw [members, and_iff_left_of_imp (inRangeListed h)]
    exact exists_congr fun value => and_congr_right fun _ => withinBounds op value

end Finding

section Stale

def soleSchema : Schema :=
  let s := ((Schema.new.collectionId ['u']).2.fieldId 0 ['x']).2
  let (id, s) := s.createIndex 0 0
  s.setIndexReady id

def soleCells : List (Bytes × Value) := [([0x61], .int 1), ([0x62], .null), ([0x63], .int 5)]

/-- The entries of the index; the entity `a` had the value 3 before, and `d` was deleted. -/
def soleEntries : List (Value × Utf8 × Entry) :=
  [(.null, .ofBytes [0x62], some []), (.int 1, .ofBytes [0x61], some []),
    (.int 2, .ofBytes [0x64], none), (.int 3, .ofBytes [0x61], some []),
    (.int 5, .ofBytes [0x63], some [])]

def soleRows : List Rec :=
  soleCells.map (fun cell => (encodeEntityKey 0 cell.1 0, some cell.2.encode)) ++
    (encodeEntityKey 0 [0x64] 0, none) ::
      soleEntries.map (fun e => (encodeIndexKey 0 0 e.1.encodeOrdered e.2.1.bytes, e.2.2))

theorem soleShort : ∀ r ∈ soleRows, r.1.length < 2 ^ 32 := by decide +kernel

theorem soleHolds {id : Utf8} {value : Value} (h : Holds soleRows 0 id 0 value) :
    (id.bytes, value) ∈ soleCells := by
  obtain ⟨stored, m, decoded⟩ := holdsMem h
  have listed : ∀ r ∈ soleRows, ∀ cell ∈ decodeEntityKey r.1, ∀ stored ∈ r.2,
      ∀ value ∈ (Value.decode stored).toOption, (cell.2.1, value) ∈ soleCells := by
    decide +kernel
  exact listed _ m _ (cellParts soleShort m).2 _ rfl _ (by rw [decoded]; rfl)

theorem soleIndexed : FieldIndexed soleRows 0 0 := by
  refine ⟨fun id => readableRows ?_ id 0, ?_, ?_⟩
  · have reads : ∀ r ∈ soleRows, ∀ stored ∈ r.2, r.1.head? = some entityTag →
        (Value.decode stored).toOption.isSome := by decide +kernel
    intro r m stored live tagged
    exact readBack (reads r m stored live tagged)
  · have entry : ∀ r ∈ soleRows, indexFieldPrefix 0 0 <+: r.1 → ∃ e ∈ soleEntries,
        e.2.1.bytes.length < 2 ^ 32 ∧
          r.1 = encodeIndexKey 0 0 e.1.encodeOrdered e.2.1.bytes := by
      decide +kernel
    intro r m inside
    obtain ⟨e, -, is⟩ := entry r m inside
    exact ⟨e.1, e.2.1, is⟩
  · have complete : ∀ cell ∈ soleCells,
        (encodeIndexKey 0 0 cell.2.encodeOrdered cell.1, some []) ∈ soleRows := by
      decide +kernel
    exact fun id value holds => ⟨[], complete _ (soleHolds holds)⟩

theorem findExactStale : ∃ ids, findM (.ofRows soleRows) soleSchema 0 0 (.inclusive .null)
    (.exclusive (.int 4)) = .ok ids ∧ ids.map Utf8.bytes = [[0x62], [0x61]] ∧ ids.Nodup ∧
      ∀ id, id ∈ ids ↔ InRange soleRows 0 0 (.inclusive .null) (.exclusive (.int 4)) id := by
  have found : (findM (.ofRows soleRows) soleSchema 0 0 (.inclusive .null)
      (.exclusive (.int 4))).toOption.map (·.map Utf8.bytes) = some [[0x62], [0x61]] := by
    decide +kernel
  obtain ⟨ids, run, nodup, members⟩ := @findExact soleRows 0 0 soleSchema soleIndexed rfl
    (.inclusive .null) (.exclusive (.int 4))
  rw [run] at found
  exact ⟨ids, run, Option.some.inj found, nodup, members⟩

end Stale
end Index
end MyLsmDb
