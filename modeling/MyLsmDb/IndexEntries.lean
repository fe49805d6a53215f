import MyLsmDb.CellReads

/-! The entries of an index as a function of the fields of the entities: a put and a delete keep
an index at what its entities call for. -/
namespace MyLsmDb
open ByteOrder (Bytes)
open LittleEndian
open OrderedEntries
open Value (encodeOrdered valueCmp valueCmpEq)

section Plain

/-- No NaN and no negative zero: such values are `==` exactly where their encodings are the same. -/
def Value.Plain : Value → Prop
  | .float bits => Value.isNan bits = false ∧ bits ≠ 0x8000000000000000
  | _ => True

theorem zeroMagnitude {bits : UInt64} (zero : bits &&& 0x7FFFFFFFFFFFFFFF = 0) :
    bits = 0 ∨ bits = 0x8000000000000000 := by
  have low : bits.toNat % 2 ^ 63 = 0 := by
    have and_ := congrArg UInt64.toNat zero
    rw [UInt64.toNat_and] at and_
    rw [← Nat.and_two_pow_sub_one_eq_mod]
    exact and_
  have small := bits.toNat_lt
  rcases (by omega : bits.toNat = 0 ∨ bits.toNat = 2 ^ 63) with h | h
  · exact .inl (UInt64.toNat_inj.mp h)
  · exact .inr (UInt64.toNat_inj.mp h)

namespace Value
variable {a b : Value}

theorem Plain.canonical (h : a.Plain) : canonical a = a := by
  cases a with
  | float bits => simp [Value.canonical, h.1]
  | _ => rfl

theorem Plain.encoded (ha : a.Plain) (hb : b.Plain) : encodeOrdered a = encodeOrdered b ↔ a = b := by
  constructor
  · intro same
    have back := decodeOrderedBack a
    rw [same, decodeOrderedBack, ha.canonical, hb.canonical] at back
    exact (Except.ok.inj back).symm
  · exact fun same => congrArg encodeOrdered same

theorem Plain.eq (ha : a.Plain) (hb : b.Plain) : a.partialEq b = true ↔ a = b := by
  cases a with
  | float x =>
    cases b with
    | float y =>
      change floatEq x y = true ↔ _
      rw [floatEq, ha.1, hb.1]
      simp only [Bool.not_false, Bool.true_and, Bool.or_eq_true, Bool.and_eq_true, decide_eq_true_eq,
        float.injEq]
      constructor
      · intro same
        rcases same with same | ⟨zero, zero'⟩
        · exact same
        · rw [(zeroMagnitude zero).resolve_right ha.2, (zeroMagnitude zero').resolve_right hb.2]
      · exact .inl
    | _ => simp [partialEq]
  | _ => cases b <;> simp [partialEq]

end Value
end Plain

section Tuples

def PlainTuple (tuple : List (Option Value)) : Prop := ∀ x ∈ tuple, ∀ v ∈ x, v.Plain

theorem optionSame {x y : Option Value} (hx : ∀ v ∈ x, v.Plain) (hy : ∀ v ∈ y, v.Plain) :
    optionEq x y = true ↔ x = y := by
  cases x with
  | none => cases y <;> simp [optionEq]
  | some a =>
    cases y with
    | none => simp [optionEq]
    | some b => simp [optionEq, (hx a rfl).eq (hy b rfl)]

theorem tupleSame {s t : List (Option Value)} (hs : PlainTuple s) (ht : PlainTuple t) :
    tupleEq s t = true ↔ s = t := by
  induction s generalizing t with
  | nil => cases t <;> simp [tupleEq]
  | cons x s ih =>
    cases t with
    | nil => simp [tupleEq]
    | cons y t =>
      have first := optionSame (hs x List.mem_cons_self) (ht y List.mem_cons_self)
      have rest := @ih t (fun z m => hs z (List.mem_cons_of_mem _ m))
        (fun z m => ht z (List.mem_cons_of_mem _ m))
      rw [tupleEq, Bool.and_eq_true, first, rest, List.cons.injEq]

theorem completeValues (tuple : List (Option Value)) :
    complete tuple = true ↔ ∃ vals : List Value, tuple = vals.map some := by
  induction tuple with
  | nil => exact ⟨fun _ => ⟨[], rfl⟩, fun _ => rfl⟩
  | cons x tuple ih =>
    cases x with
    | none =>
      constructor
      · intro h
        cases h
      · intro h
        obtain ⟨vals, same⟩ := h
        cases vals <;> cases same
    | some v =>
      have step : complete (some v :: tuple) = complete tuple := rfl
      rw [step, ih]
      constructor
      · intro h
        obtain ⟨vals, rfl⟩ := h
        exact ⟨v :: vals, rfl⟩
      · intro h
        obtain ⟨vals, same⟩ := h
        cases vals with
        | nil => cases same
        | cons w vals => exact ⟨vals, (List.cons.inj same).2⟩

theorem componentsValues (vals : List Value) :
    components (vals.map some) = vals.map encodeOrdered := by
  rw [components, List.filterMap_map]
  exact congrArg _ (List.filterMap_some)

theorem plainEncoded {vals vals' : List Value} (plain : PlainTuple (vals.map some))
    (plain' : PlainTuple (vals'.map some)) (same : vals.map encodeOrdered = vals'.map encodeOrdered) :
    vals = vals' := by
  induction vals generalizing vals' with
  | nil => exact (List.map_eq_nil_iff.mp same.symm).symm
  | cons v vals ih =>
    cases vals' with
    | nil => cases same
    | cons w vals' =>
      obtain ⟨first, rest⟩ := List.cons.inj same
      obtain rfl := ((plain _ List.mem_cons_self v rfl).encoded (plain' _ List.mem_cons_self w rfl)).mp
        first
      rw [ih (fun x m => plain x (List.mem_cons_of_mem _ m))
        (fun x m => plain' x (List.mem_cons_of_mem _ m)) rest]

end Tuples

namespace IndexDef

def keyPrefix (d : IndexDef) : Bytes :=
  match d.fieldIds with
  | [f] => indexFieldPrefix d.collectionId f
  | _ => compositePrefix d.collectionId d.id

def keyOf (d : IndexDef) (comps : List Bytes) (e : Bytes) : Bytes :=
  d.keyPrefix ++ (comps.flatten ++ (leBytes 4 e.length ++ e))

def entry (d : IndexDef) (values : UInt32 → Option Value) (e : Bytes) : Option Bytes :=
  if complete (d.fieldIds.map values) then some (d.keyOf (components (d.fieldIds.map values)) e)
  else none

/-- The index has the entries that the entities call for, and no others. -/
def Exact (d : IndexDef) (v : View) : Prop := ∀ key, d.keyPrefix <+: key →
  (v key ≠ none ↔ ∃ e : Utf8, d.entry (cellValue v d.collectionId e.bytes) e.bytes = some key)

variable {d d' : IndexDef} {values values' : UInt32 → Option Value} {e e' : Utf8} {key : Bytes}

theorem entrySome : d.entry values e.bytes = some key ↔ ∃ vals : List Value,
    d.fieldIds.map values = vals.map some ∧ d.keyOf (vals.map encodeOrdered) e.bytes = key := by
  unfold entry
  by_cases all : complete (d.fieldIds.map values) = true
  · obtain ⟨vals, same⟩ := (completeValues _).mp all
    rw [if_pos all, same, componentsValues, Option.some.injEq]
    constructor
    · exact fun is => ⟨vals, rfl, is⟩
    · intro h
      obtain ⟨vals', mapped, is⟩ := h
      rw [List.map_injective_iff.mpr (fun _ _ => Option.some.inj) mapped]
      exact is
  · rw [if_neg all]
    constructor
    · intro h
      cases h
    · intro h
      obtain ⟨vals, same, -⟩ := h
      exact absurd ((completeValues _).mpr ⟨vals, same⟩) all

theorem entryCongr (same : ∀ f ∈ d.fieldIds, values f = values' f) (e : Bytes) :
    d.entry values e = d.entry values' e := by
  rw [entry, entry, List.map_congr_left same]

theorem entryPrefix (h : d.entry values e.bytes = some key) : d.keyPrefix <+: key := by
  obtain ⟨vals, -, rfl⟩ := entrySome.mp h
  exact List.prefix_append _ _

theorem keyOfInj {vals vals' : List Value} (count : vals.length = vals'.length)
    (same : d.keyOf (vals.map encodeOrdered) e.bytes = d.keyOf (vals'.map encodeOrdered) e'.bytes) :
    vals.map encodeOrdered = vals'.map encodeOrdered ∧ e = e' := by
  have rest := List.append_cancel_left same
  rw [← List.flatMap_def, ← List.flatMap_def] at rest
  obtain ⟨values, ids⟩ := Index.componentsInj count rest
  exact ⟨Index.encodedSame values, utf8Same.mp (List.append_inj ids (by simp)).2⟩

theorem entryLength {vals : List Value} (same : d.fieldIds.map values = vals.map some) :
    vals.length = d.fieldIds.length := by
  simpa using (congrArg List.length same).symm

theorem entryInj (h : d.entry values e.bytes = some key) (h' : d.entry values' e'.bytes = some key) :
    e = e' := by
  obtain ⟨vals, same, rfl⟩ := entrySome.mp h
  obtain ⟨vals', same', is⟩ := entrySome.mp h'
  exact (keyOfInj ((entryLength same').trans (entryLength same).symm) is).2.symm

theorem entryTuple (plain : PlainTuple (d.fieldIds.map values))
    (plain' : PlainTuple (d.fieldIds.map values')) (some_ : complete (d.fieldIds.map values) = true) :
    d.entry values e.bytes = d.entry values' e.bytes ↔ d.fieldIds.map values = d.fieldIds.map values' := by
  constructor
  · intro same
    obtain ⟨vals, mapped⟩ := (completeValues _).mp some_
    have mine : d.entry values e.bytes = some (d.keyOf (vals.map encodeOrdered) e.bytes) :=
      entrySome.mpr ⟨vals, mapped, rfl⟩
    obtain ⟨vals', mapped', is⟩ := entrySome.mp (same.symm.trans mine)
    rw [mapped] at plain ⊢
    rw [mapped'] at plain' ⊢
    refine congrArg _ (plainEncoded plain plain' ?_)
    exact (keyOfInj ((entryLength mapped').trans (entryLength mapped).symm) is).1.symm
  · intro same
    rw [entry, entry, same]

theorem Exact.moved {v v' : View} (h : d.Exact v)
    (others : ∀ e' ≠ e, ∀ f, cellValue v' d.collectionId e'.bytes f = cellValue v d.collectionId e'.bytes f)
    (writes : ∀ key, d.keyPrefix <+: key → (v' key ≠ none ↔
      d.entry (cellValue v' d.collectionId e.bytes) e.bytes = some key ∨
        v key ≠ none ∧ d.entry (cellValue v d.collectionId e.bytes) e.bytes ≠ some key)) :
    d.Exact v' := by
  intro key starts
  have same : ∀ e' ≠ e, d.entry (cellValue v' d.collectionId e'.bytes) e'.bytes =
      d.entry (cellValue v d.collectionId e'.bytes) e'.bytes :=
    fun e' other => entryCongr (fun f _ => others e' other f) _
  rw [writes key starts, h key starts]
  constructor
  · intro live
    rcases live with mine | ⟨⟨e', theirs⟩, other⟩
    · exact ⟨e, mine⟩
    · refine ⟨e', (same e' (fun is => ?_)).trans theirs⟩
      exact other (is ▸ theirs)
  · intro live
    obtain ⟨e', theirs⟩ := live
    by_cases is : e' = e
    · exact .inl (is ▸ theirs)
    · rw [same e' is] at theirs
      exact .inr ⟨⟨e', theirs⟩, fun mine => is (entryInj theirs mine)⟩

end IndexDef

section Spaces

/-- No two indexes share an id, and none is over the marker or over nothing. -/
structure Schema.Separate (s : Schema) : Prop where
  ids : ∀ d ∈ s.indexes, ∀ d' ∈ s.indexes, d.id = d'.id → d = d'
  real : ∀ d ∈ s.indexes, ∀ f ∈ d.fieldIds, f ≠ compositeFieldMarker
  filled : ∀ d ∈ s.indexes, d.fieldIds ≠ []

namespace IndexDef
variable {d d' : IndexDef}

theorem keyPrefixSole {f : UInt32} (is : d.fieldIds = [f]) :
    d.keyPrefix = indexFieldPrefix d.collectionId f := by
  rw [keyPrefix, is]

theorem keyPrefixSome (is : 2 ≤ d.fieldIds.length) :
    d.keyPrefix = compositePrefix d.collectionId d.id := by
  rw [keyPrefix]
  split
  · rename_i f one
    rw [one] at is
    exact absurd is (by simp)
  · rfl

theorem keyPrefixTag (d : IndexDef) : ∃ rest, d.keyPrefix = indexTag :: rest := by
  rw [keyPrefix]
  split
  · exact ⟨_, rfl⟩
  · exact ⟨_, rfl⟩

theorem soleOrMore (filled : d.fieldIds ≠ []) :
    (∃ f, d.fieldIds = [f]) ∨ 2 ≤ d.fieldIds.length := by
  cases is : d.fieldIds with
  | nil => exact absurd is filled
  | cons f rest =>
    cases rest with
    | nil => exact .inl ⟨f, rfl⟩
    | cons g rest => exact .inr (by simp)

theorem compositeMarked (c i : UInt32) :
    compositePrefix c i = indexFieldPrefix c compositeFieldMarker ++ le32 i := by
  simp [compositePrefix, indexFieldPrefix]

theorem prefixSame {a b key : Bytes} (length : a.length = b.length) (ha : a <+: key) (hb : b <+: key) :
    a = b := (List.prefix_of_prefix_length_le ha hb length.le).eq_of_length length

theorem fieldPrefixLength (c f : UInt32) : (indexFieldPrefix c f).length = 9 := by
  simp [indexFieldPrefix]

theorem soleApart {c c' f i : UInt32} {key : Bytes} (real : f ≠ compositeFieldMarker)
    (ha : indexFieldPrefix c f <+: key) (hb : compositePrefix c' i <+: key) : False := by
  rw [compositeMarked] at hb
  have same := prefixSame (by rw [fieldPrefixLength, fieldPrefixLength]) ha
    ((List.prefix_append _ _).trans hb)
  exact real (fieldPrefixInj same).2

theorem prefixesMeet {s : Schema} (separate : s.Separate) (m : d ∈ s.indexes) (m' : d' ∈ s.indexes)
    {key : Bytes} (ha : d.keyPrefix <+: key) (hb : d'.keyPrefix <+: key) :
    d.collectionId = d'.collectionId ∧ d.fieldIds = d'.fieldIds ∧ d.keyPrefix = d'.keyPrefix := by
  rcases soleOrMore (separate.filled d m) with ⟨f, one⟩ | two
  · have real := separate.real d m f (by rw [one]; exact List.mem_singleton_self f)
    rw [keyPrefixSole one] at ha ⊢
    rcases soleOrMore (separate.filled d' m') with ⟨f', one'⟩ | two'
    · rw [keyPrefixSole one'] at hb ⊢
      have same := prefixSame (by rw [fieldPrefixLength, fieldPrefixLength]) ha hb
      obtain ⟨collection, field⟩ := fieldPrefixInj same
      exact ⟨collection, by rw [one, one', field], same⟩
    · rw [keyPrefixSome two'] at hb
      exact (soleApart real ha hb).elim
  · rw [keyPrefixSome two] at ha ⊢
    rcases soleOrMore (separate.filled d' m') with ⟨f', one'⟩ | two'
    · have real := separate.real d' m' f' (by rw [one']; exact List.mem_singleton_self f')
      rw [keyPrefixSole one'] at hb
      exact (soleApart real hb ha).elim
    · rw [keyPrefixSome two'] at hb ⊢
      have same := prefixSame (by simp [compositePrefix]) ha hb
      obtain ⟨collection, id⟩ := Index.compositePrefixInj same
      obtain rfl := separate.ids d m d' m' id
      exact ⟨rfl, rfl, rfl⟩

theorem entryMeet {values : UInt32 → Option Value} {e : Bytes} (fields : d.fieldIds = d'.fieldIds)
    (keys : d.keyPrefix = d'.keyPrefix) : d.entry values e = d'.entry values e := by
  rw [entry, entry, keyOf, keyOf, fields, keys]

end IndexDef
end Spaces

section Writing
variable {schema : Schema} {c : UInt32} {e : Utf8} {written : List (UInt32 × Value)} {old : OldFields}

/-- An index that puts and deletes keep up to date. -/
structure Serving (schema : Schema) (c : UInt32) (d : IndexDef) : Prop where
  known : d ∈ schema.indexes
  mine : d.collectionId = c
  ready : d.status = .ready

theorem soleServing {f : UInt32} : f ∈ indexedFieldIds schema c ↔
    ∃ d, Serving schema c d ∧ d.fieldIds = [f] := by
  rw [indexedFieldIds, List.mem_map]
  constructor
  · intro h
    obtain ⟨d, m, rfl⟩ := h
    obtain ⟨m, one⟩ := List.mem_filter.mp m
    obtain ⟨m, good⟩ := List.mem_filter.mp m
    rw [decide_eq_true_eq] at one good
    obtain ⟨f, is⟩ := List.length_eq_one_iff.mp one
    exact ⟨d, ⟨m, good.1, good.2⟩, by rw [is]; rfl⟩
  · intro h
    obtain ⟨d, ⟨m, mine, ready⟩, is⟩ := h
    refine ⟨d, List.mem_filter.mpr ⟨List.mem_filter.mpr ⟨m, by simp [mine, ready]⟩, by simp [is]⟩, ?_⟩
    rw [is]
    rfl

theorem moreServing {x : UInt32 × List UInt32} : x ∈ compositeIndexDefs schema c ↔
    ∃ d, Serving schema c d ∧ 2 ≤ d.fieldIds.length ∧ x = (d.id, d.fieldIds) := by
  rw [compositeIndexDefs, List.mem_map]
  constructor
  · intro h
    obtain ⟨d, m, rfl⟩ := h
    obtain ⟨m, two⟩ := List.mem_filter.mp m
    obtain ⟨m, good⟩ := List.mem_filter.mp m
    rw [decide_eq_true_eq] at two good
    exact ⟨d, ⟨m, good.1, good.2⟩, two, rfl⟩
  · intro h
    obtain ⟨d, ⟨m, mine, ready⟩, two, rfl⟩ := h
    exact ⟨d, List.mem_filter.mpr ⟨List.mem_filter.mpr ⟨m, by simp [mine, ready]⟩, by simp [two]⟩, rfl⟩

theorem servingNeeds {d : IndexDef} (serving : Serving schema c d) (filled : d.fieldIds ≠ [])
    {f : UInt32} (m : f ∈ d.fieldIds) : needOld schema c f = true := by
  rw [needOld, Bool.or_eq_true]
  rcases IndexDef.soleOrMore filled with ⟨g, one⟩ | two
  · rw [one] at m
    obtain rfl := List.mem_singleton.mp m
    exact .inl (List.contains_iff_mem.mpr (soleServing.mpr ⟨d, serving, one⟩))
  · refine .inr (List.any_eq_true.mpr ⟨_, moreServing.mpr ⟨d, serving, two, rfl⟩, ?_⟩)
    exact List.contains_iff_mem.mpr m

theorem entrySole {d : IndexDef} {f : UInt32} (mine : d.collectionId = c) (one : d.fieldIds = [f])
    (values : UInt32 → Option Value) (e : Bytes) : d.entry values e =
      (values f).map (fun v => encodeIndexKey c f v.encodeOrdered e) := by
  rw [IndexDef.entry, IndexDef.keyOf, d.keyPrefixSole one, one, mine]
  cases is : values f with
  | none => simp [complete, is]
  | some v => simp [complete, components, is, encodeIndexKey, indexFieldPrefix]

theorem entryMore {d : IndexDef} (mine : d.collectionId = c) (two : 2 ≤ d.fieldIds.length)
    (values : UInt32 → Option Value) (e : Bytes) : d.entry values e =
      if complete (d.fieldIds.map values) then
        some (encodeCompositeIndexKey c d.id (components (d.fieldIds.map values)) e) else none := by
  rw [IndexDef.entry, IndexDef.keyOf, d.keyPrefixSome two, mine]
  simp [encodeCompositeIndexKey]

end Writing

section Putting
variable {schema : Schema} {c : UInt32} {e : Utf8} {written : List (UInt32 × Value)} {old : OldFields}
  {key : Bytes}

/-- The old values that an index is made of, and the new ones, are plain. -/
structure PlainPut (schema : Schema) (c : UInt32) (written : List (UInt32 × Value)) (old : OldFields) :
    Prop where
  new : ∀ w ∈ written, w.2.Plain
  old : ∀ f, needOld schema c f = true → ∀ v, old.values.get f = some v → v.Plain
  once : (written.map Prod.fst).Nodup

namespace PlainPut
variable (h : PlainPut schema c written old)
include h

theorem newTuple (fids : List UInt32) : PlainTuple (fids.map (fun f => written.lookup f)) := by
  intro x m v is
  obtain ⟨f, -, rfl⟩ := List.mem_map.mp m
  exact h.new _ (lookupMem is)

theorem oldTuple {fids : List UInt32} (needs : ∀ f ∈ fids, needOld schema c f = true) :
    PlainTuple (fids.map old.values.get) := by
  intro x m v is
  obtain ⟨f, mf, rfl⟩ := List.mem_map.mp m
  exact h.old f (needs f mf) v is

theorem lookupIs {w : UInt32 × Value} (m : w ∈ written) : written.lookup w.1 = some w.2 :=
  Registry.lookupUnique h.once m

theorem changed {d : IndexDef} {key : Bytes} (needs : ∀ f ∈ d.fieldIds, needOld schema c f = true)
    (new : d.entry (fun f => written.lookup f) e.bytes = some key) :
    tupleEq (d.fieldIds.map (fun f => written.lookup f)) (d.fieldIds.map old.values.get) = true ↔
      d.entry old.values.get e.bytes = some key := by
  have all : complete (d.fieldIds.map (fun f => written.lookup f)) = true := by
    obtain ⟨vals, same, -⟩ := IndexDef.entrySome.mp new
    exact (completeValues _).mpr ⟨vals, same⟩
  rw [tupleSame (h.newTuple _) (h.oldTuple needs),
    ← d.entryTuple (e := e) (h.newTuple _) (h.oldTuple needs) all, new]
  exact eq_comm

theorem changedOld {d : IndexDef} {key : Bytes} (needs : ∀ f ∈ d.fieldIds, needOld schema c f = true)
    (was : d.entry old.values.get e.bytes = some key) :
    tupleEq (d.fieldIds.map (fun f => written.lookup f)) (d.fieldIds.map old.values.get) = true ↔
      d.entry (fun f => written.lookup f) e.bytes = some key := by
  have all : complete (d.fieldIds.map old.values.get) = true := by
    obtain ⟨vals, same, -⟩ := IndexDef.entrySome.mp was
    exact (completeValues _).mpr ⟨vals, same⟩
  rw [tupleSame (h.newTuple _) (h.oldTuple needs), eq_comm,
    ← d.entryTuple (e := e) (h.oldTuple needs) (h.newTuple _) all, was]
  exact eq_comm

theorem soleTuple {d : IndexDef} {f : UInt32} (needs : ∀ f ∈ d.fieldIds, needOld schema c f = true)
    (one : d.fieldIds = [f]) :
    tupleEq (d.fieldIds.map (fun f => written.lookup f)) (d.fieldIds.map old.values.get) = true ↔
      written.lookup f = old.values.get f := by
  rw [tupleSame (h.newTuple _) (h.oldTuple needs), one]
  simp

theorem puts (filled : ∀ d ∈ schema.indexes, d.fieldIds ≠ []) :
    (∃ w ∈ indexPuts schema c e.bytes written old ++ compositePuts schema c e.bytes written old,
      w.1 = key) ↔
    ∃ d, Serving schema c d ∧ d.entry (fun f => written.lookup f) e.bytes = some key ∧
      d.entry old.values.get e.bytes ≠ some key := by
  constructor
  · intro out
    obtain ⟨w, m, rfl⟩ := out
    rcases List.mem_append.mp m with m | m
    · obtain ⟨x, mx, rfl⟩ := List.mem_map.mp m
      obtain ⟨mx, good⟩ := List.mem_filter.mp mx
      rw [Bool.and_eq_true, List.contains_iff_mem] at good
      obtain ⟨d, serving, one⟩ := soleServing.mp good.1
      have needs := fun f => servingNeeds (f := f) serving (filled d serving.known)
      have new : d.entry (fun f => written.lookup f) e.bytes =
          some (encodeIndexKey c x.1 x.2.encodeOrdered e.bytes) := by
        rw [entrySole serving.mine one, h.lookupIs mx]
        rfl
      refine ⟨d, serving, new, fun same => ?_⟩
      have equal := (h.soleTuple needs one).mp ((h.changed needs new).mpr same)
      rw [h.lookupIs mx] at equal
      have plain : optionEq (old.values.get x.1) (some x.2) = true :=
        (optionSame (fun v is => h.old x.1 (needs _ (one ▸ List.mem_singleton_self _)) v is) (fun v is => by cases is; exact h.new x mx)).mpr
          equal.symm
      simp [plain] at good
    · obtain ⟨x, mx, made⟩ := List.mem_filterMap.mp m
      obtain ⟨d, serving, two, rfl⟩ := moreServing.mp mx
      have needs := fun f => servingNeeds (f := f) serving (filled d serving.known)
      dsimp only [compositeTuples] at made
      split at made
      · rename_i good
        cases made
        rw [Bool.and_eq_true, Bool.not_eq_true'] at good
        have new : d.entry (fun f => written.lookup f) e.bytes = some (encodeCompositeIndexKey c d.id
            (components (d.fieldIds.map (fun f => written.lookup f))) e.bytes) := by
          rw [entryMore serving.mine two, if_pos good.2]
        refine ⟨d, serving, new, fun same => ?_⟩
        rw [(h.changed needs new).mpr same] at good
        cases good.1
      · cases made
  · intro out
    obtain ⟨d, serving, new, differs⟩ := out
    have needs := fun f => servingNeeds (f := f) serving (filled d serving.known)
    have moved := mt (h.changed needs new).mp differs
    rcases IndexDef.soleOrMore (filled d serving.known) with ⟨f, one⟩ | two
    · rw [h.soleTuple needs one] at moved
      rw [entrySole serving.mine one] at new
      obtain ⟨v, is, rfl⟩ := Option.map_eq_some_iff.mp new
      refine ⟨_, List.mem_append_left _ (List.mem_map_of_mem (List.mem_filter.mpr
        ⟨lookupMem is, ?_⟩)), rfl⟩
      rw [Bool.and_eq_true, List.contains_iff_mem, Bool.not_eq_true']
      refine ⟨soleServing.mpr ⟨d, serving, one⟩, Bool.eq_false_iff.mpr (fun same => moved ?_)⟩
      rw [is]
      exact ((optionSame (fun v is => h.old f (needs _ (one ▸ List.mem_singleton_self _)) v is)
        (fun v' same => by cases same; exact h.new _ (lookupMem is))).mp same).symm
    · rw [entryMore serving.mine two] at new
      by_cases all : complete (d.fieldIds.map (fun f => written.lookup f)) = true
      · rw [if_pos all] at new
        refine ⟨(key, some []), List.mem_append_right _ (List.mem_filterMap.mpr
          ⟨_, moreServing.mpr ⟨d, serving, two, rfl⟩, ?_⟩), rfl⟩
        dsimp only [compositeTuples]
        rw [if_pos (by simp [moved, all]), Option.some.inj new]
      · rw [if_neg all] at new
        cases new

theorem deletes (filled : ∀ d ∈ schema.indexes, d.fieldIds ≠ []) :
    (∃ w ∈ indexDeletes schema c e.bytes written old ++ compositeDeletes schema c e.bytes written old,
      w.1 = key) ↔
    ∃ d, Serving schema c d ∧ d.entry old.values.get e.bytes = some key ∧
      d.entry (fun f => written.lookup f) e.bytes ≠ some key := by
  constructor
  · intro out
    obtain ⟨w, m, rfl⟩ := out
    rcases List.mem_append.mp m with m | m
    · obtain ⟨x, mx, rfl⟩ := List.mem_map.mp m
      obtain ⟨mx, good⟩ := List.mem_filter.mp mx
      rw [Bool.and_eq_true, List.contains_iff_mem, Bool.not_eq_true'] at good
      obtain ⟨d, serving, one⟩ := soleServing.mp good.1
      have needs := fun f => servingNeeds (f := f) serving (filled d serving.known)
      have is : old.values.get x.1 = some x.2 := (OrderedMap.memIff _).mp mx
      have was : d.entry old.values.get e.bytes =
          some (encodeIndexKey c x.1 x.2.encodeOrdered e.bytes) := by
        rw [entrySole serving.mine one, is]
        rfl
      refine ⟨d, serving, was, fun same => ?_⟩
      have equal := (h.soleTuple needs one).mp ((h.changedOld needs was).mpr same)
      rw [is] at equal
      have m := lookupMem equal
      have none := List.any_eq_false.mp good.2 _ m
      refine none ?_
      rw [Bool.and_eq_true, decide_eq_true_eq, ((h.new _ m).eq (h.old _ (needs _ (one ▸ List.mem_singleton_self _)) _ is))]
      exact ⟨rfl, rfl⟩
    · obtain ⟨x, mx, made⟩ := List.mem_filterMap.mp m
      obtain ⟨d, serving, two, rfl⟩ := moreServing.mp mx
      have needs := fun f => servingNeeds (f := f) serving (filled d serving.known)
      dsimp only [compositeTuples] at made
      split at made
      · rename_i good
        cases made
        rw [Bool.and_eq_true, Bool.not_eq_true'] at good
        have was : d.entry old.values.get e.bytes = some (encodeCompositeIndexKey c d.id
            (components (d.fieldIds.map old.values.get)) e.bytes) := by
          rw [entryMore serving.mine two, if_pos good.2]
        refine ⟨d, serving, was, fun same => ?_⟩
        rw [(h.changedOld needs was).mpr same] at good
        cases good.1
      · cases made
  · intro out
    obtain ⟨d, serving, was, differs⟩ := out
    have needs := fun f => servingNeeds (f := f) serving (filled d serving.known)
    have moved := mt (h.changedOld needs was).mp differs
    rcases IndexDef.soleOrMore (filled d serving.known) with ⟨f, one⟩ | two
    · rw [h.soleTuple needs one] at moved
      rw [entrySole serving.mine one] at was
      obtain ⟨v, is, rfl⟩ := Option.map_eq_some_iff.mp was
      refine ⟨_, List.mem_append_left _ (List.mem_map_of_mem (List.mem_filter.mpr
        ⟨(OrderedMap.memIff _).mpr is, ?_⟩)), rfl⟩
      rw [Bool.and_eq_true, List.contains_iff_mem, Bool.not_eq_true']
      refine ⟨soleServing.mpr ⟨d, serving, one⟩, List.any_eq_false.mpr (fun w m same => moved ?_)⟩
      rw [Bool.and_eq_true, decide_eq_true_eq, ((h.new _ m).eq (h.old _ (needs _ (one ▸ List.mem_singleton_self _)) _ is))] at same
      obtain ⟨field, value⟩ := same
      have mine := h.lookupIs m
      rw [field, value] at mine
      rw [is]
      exact mine
    · rw [entryMore serving.mine two] at was
      by_cases all : complete (d.fieldIds.map old.values.get) = true
      · rw [if_pos all] at was
        refine ⟨(key, none), List.mem_append_right _ (List.mem_filterMap.mpr
          ⟨_, moreServing.mpr ⟨d, serving, two, rfl⟩, ?_⟩), rfl⟩
        dsimp only [compositeTuples]
        rw [if_pos (by simp [moved, all]), Option.some.inj was]
      · rw [if_neg all] at was
        cases was

end PlainPut

theorem appliedAll {ws : List Rec} {value : Entry} (all : ∀ w ∈ ws, w.2 = value) (v : View)
    (key : Bytes) : ((∃ w ∈ ws, w.1 = key) → applied ws v key = value) ∧
      ((¬ ∃ w ∈ ws, w.1 = key) → applied ws v key = v key) := by
  constructor
  · intro some_
    obtain ⟨w, m, same⟩ := some_
    rw [appliedLast]
    cases last : lastWrite ws key with
    | none => exact absurd same (lookupNone.mp last w (List.mem_reverse.mpr m))
    | some entry => exact all _ (List.mem_reverse.mp (lookupMem last))
  · exact fun absent => appliedOther (fun w m same => absent ⟨w, m, same⟩)

variable {allowed : Bytes → Prop} {v : View}

theorem livesAfter {adds rest takes : List Rec} (puts : ∀ w ∈ adds, w.2 = some [])
    (deletes : ∀ w ∈ takes, w.2 = none) (other : ∀ w ∈ rest, w.1 ≠ key) :
    applied (adds ++ rest ++ takes) v key ≠ none ↔
      (¬ ∃ w ∈ takes, w.1 = key) ∧ ((∃ w ∈ adds, w.1 = key) ∨ v key ≠ none) := by
  rw [appliedAppend, appliedAppend]
  by_cases taken : ∃ w ∈ takes, w.1 = key
  · rw [(appliedAll deletes _ key).1 taken]
    simp [taken]
  · rw [(appliedAll deletes _ key).2 taken, appliedOther other]
    by_cases added : ∃ w ∈ adds, w.1 = key
    · rw [(appliedAll puts _ key).1 added]
      simp [taken, added]
    · rw [(appliedAll puts _ key).2 added]
      simp [taken, added]

theorem putLives (found : Found allowed schema c e.bytes (putIds written) v old)
    (tagged : key.head? = some indexTag) :
    applied (putWrites schema c e.bytes written old) v key ≠ none ↔
      (¬ ∃ w ∈ indexDeletes schema c e.bytes written old ++
        compositeDeletes schema c e.bytes written old, w.1 = key) ∧
      ((∃ w ∈ indexPuts schema c e.bytes written old ++ compositePuts schema c e.bytes written old,
        w.1 = key) ∨ v key ≠ none) := by
  have parts : putWrites schema c e.bytes written old =
      (indexPuts schema c e.bytes written old ++ compositePuts schema c e.bytes written old) ++
        (staleDeletes old ++ fieldPuts c e.bytes written) ++
        (indexDeletes schema c e.bytes written old ++
          compositeDeletes schema c e.bytes written old) := by
    simp [putWrites]
  rw [parts]
  refine livesAfter ?_ ?_ ?_
  · intro w m
    rcases List.mem_append.mp m with m | m
    · obtain ⟨x, -, rfl⟩ := List.mem_map.mp m
      rfl
    · obtain ⟨x, -, made⟩ := List.mem_filterMap.mp m
      dsimp only at made
      split at made
      · cases made
        rfl
      · cases made
  · intro w m
    rcases List.mem_append.mp m with m | m
    · obtain ⟨x, -, rfl⟩ := List.mem_map.mp m
      rfl
    · obtain ⟨x, -, made⟩ := List.mem_filterMap.mp m
      dsimp only at made
      split at made
      · cases made
        rfl
      · cases made
  · intro w m same
    have entity : w.1.head? = some entityTag := by
      rcases List.mem_append.mp m with m | m
      · obtain ⟨k, mk, rfl⟩ := List.mem_map.mp m
        obtain ⟨t, is⟩ := (found.mine k mk).2
        rw [← is]
        rfl
      · obtain ⟨x, -, rfl⟩ := List.mem_map.mp m
        rfl
    rw [same, tagged] at entity
    exact absurd entity (by decide)

theorem lastLookup (once : (written.map Prod.fst).Nodup) (f : UInt32) :
    lastValue written f = written.lookup f := by
  refine Option.ext (fun value => ?_)
  have reversed : (written.reverse.map Prod.fst).Nodup := by
    rw [List.map_reverse, List.nodup_reverse]
    exact once
  constructor
  · intro is
    exact Registry.lookupUnique once (List.mem_reverse.mp (lookupMem is))
  · intro is
    exact Registry.lookupUnique reversed (List.mem_reverse.mpr (lookupMem is))

theorem putValues (found : Found allowed schema c e.bytes (putIds written) v old)
    (once : (written.map Prod.fst).Nodup) (small : ∀ w ∈ written, w.2.Small) (f : UInt32) :
    cellValue (applied (putWrites schema c e.bytes written old) v) c e.bytes f =
      written.lookup f := by
  rw [cellValue, cellPutOwn found, lastLookup once]
  cases is : written.lookup f with
  | none => rfl
  | some x =>
    rw [Option.map_some, Option.bind_some, Value.decodeEncode (small _ (lookupMem is))]
    rfl

theorem IndexDef.Exact.still {d : IndexDef} {v' : View} (h : d.Exact v)
    (keys : ∀ key, d.keyPrefix <+: key → (v' key ≠ none ↔ v key ≠ none))
    (values : ∀ (e : Utf8) f, cellValue v' d.collectionId e.bytes f =
      cellValue v d.collectionId e.bytes f) : d.Exact v' := by
  intro key starts
  rw [keys key starts, h key starts]
  exact exists_congr (fun e => by rw [d.entryCongr (fun f _ => values e f)])

theorem prefixTagged {d : IndexDef} (starts : d.keyPrefix <+: key) : key.head? = some indexTag := by
  obtain ⟨rest, is⟩ := d.keyPrefixTag
  rw [is] at starts
  obtain ⟨t, rfl⟩ := starts
  rfl

theorem PlainPut.exact (h : PlainPut schema c written old) (separate : schema.Separate)
    (found : Found allowed schema c e.bytes (putIds written) v old)
    (canonical : Canonical allowed c e.bytes) (small : ∀ w ∈ written, w.2.Small) {d : IndexDef}
    (known : d ∈ schema.indexes) (ready : d.status = .ready) (exact_ : d.Exact v) :
    d.Exact (applied (putWrites schema c e.bytes written old) v) := by
  have others : ∀ (c' : UInt32) (e' : Utf8), ¬ (c = c' ∧ e = e') → ∀ f,
      cellValue (applied (putWrites schema c e.bytes written old) v) c' e'.bytes f =
        cellValue v c' e'.bytes f := by
    intro c' e' other f
    rw [cellValue, cellPutOther found canonical (fun same => other ⟨same.1, utf8Same.mp same.2⟩)]
    rfl
  -- only indexes of the collection are written, and each only where its fields have changed
  have only : ∀ {key}, d.keyPrefix <+: key → ∀ {values values' : UInt32 → Option Value},
      (∃ d', Serving schema c d' ∧ d'.entry values e.bytes = some key ∧
        d'.entry values' e.bytes ≠ some key) ↔
      d.collectionId = c ∧ d.entry values e.bytes = some key ∧ d.entry values' e.bytes ≠ some key := by
    intro key starts values values'
    constructor
    · intro out
      obtain ⟨d', serving, new, differs⟩ := out
      obtain ⟨collection, fields, keys⟩ := IndexDef.prefixesMeet separate known serving.known starts
        (IndexDef.entryPrefix new)
      rw [IndexDef.entryMeet fields keys, IndexDef.entryMeet fields keys]
      exact ⟨collection.trans serving.mine, new, differs⟩
    · intro out
      obtain ⟨mine, new, differs⟩ := out
      exact ⟨d, ⟨known, mine, ready⟩, new, differs⟩
  have lives : ∀ key, d.keyPrefix <+: key →
      (applied (putWrites schema c e.bytes written old) v key ≠ none ↔
        (¬ (d.collectionId = c ∧ d.entry old.values.get e.bytes = some key ∧
          d.entry (fun f => written.lookup f) e.bytes ≠ some key)) ∧
        ((d.collectionId = c ∧ d.entry (fun f => written.lookup f) e.bytes = some key ∧
          d.entry old.values.get e.bytes ≠ some key) ∨ v key ≠ none)) := by
    intro key starts
    rw [putLives found (prefixTagged starts), h.puts separate.filled, h.deletes separate.filled,
      only starts, only starts]
  by_cases mine : d.collectionId = c
  · subst mine
    have serving : Serving schema d.collectionId d := ⟨known, rfl, ready⟩
    have was : d.entry old.values.get e.bytes =
        d.entry (cellValue v d.collectionId e.bytes) e.bytes :=
      d.entryCongr (fun f m => found.values canonical f
        (servingNeeds serving (separate.filled d known) m)) _
    have is : d.entry (fun f => written.lookup f) e.bytes = d.entry (cellValue
        (applied (putWrites schema d.collectionId e.bytes written old) v) d.collectionId e.bytes)
          e.bytes :=
      d.entryCongr (fun f _ => (putValues found h.once small f).symm) _
    refine exact_.moved (e := e) (fun e' other f => others _ e' (fun same => other same.2.symm) f) ?_
    intro key starts
    rw [lives key starts, ← was, ← is]
    by_cases new : d.entry (fun f => written.lookup f) e.bytes = some key
    · by_cases before : d.entry old.values.get e.bytes = some key
      · have live : v key ≠ none := (exact_ key starts).mpr ⟨e, was ▸ before⟩
        simp [new, before, live]
      · simp [new, before]
    · by_cases before : d.entry old.values.get e.bytes = some key
      · simp [new, before]
      · simp [new, before]
  · refine exact_.still (fun key starts => ?_) (fun e' f => others _ e' (fun same => mine same.1.symm) f)
    rw [lives key starts]
    simp [mine]

end Putting

section Deleting
variable {schema : Schema} {c : UInt32} {e : Utf8} {old : OldFields} {key : Bytes}
  {allowed : Bytes → Prop} {v : View}

theorem deletedEntries (filled : ∀ d ∈ schema.indexes, d.fieldIds ≠ []) :
    (∃ w ∈ deleteWrites schema c e.bytes old, w.1 = key) ↔ key ∈ old.staleKeys ∨
      ∃ d, Serving schema c d ∧ d.entry old.values.get e.bytes = some key := by
  have whole : deleteWrites schema c e.bytes old = staleDeletes old ++
      ((old.values.entries.filter (fun f => (indexedFieldIds schema c).contains f.1)).map
        (fun f => (encodeIndexKey c f.1 f.2.encodeOrdered e.bytes, none)) ++
      (compositeIndexDefs schema c).filterMap (fun d =>
        let tuple := d.2.map old.values.get
        if complete tuple then some (encodeCompositeIndexKey c d.1 (components tuple) e.bytes, none)
        else none)) := List.append_assoc _ _ _
  rw [whole]
  simp only [List.mem_append, or_and_right, exists_or]
  refine or_congr ?_ ?_
  · constructor
    · intro out
      obtain ⟨w, m, rfl⟩ := out
      obtain ⟨k, mk, rfl⟩ := List.mem_map.mp m
      exact mk
    · exact fun m => ⟨(key, none), List.mem_map_of_mem m, rfl⟩
  constructor
  · intro out
    rcases out with ⟨w, m, rfl⟩ | ⟨w, m, rfl⟩
    · obtain ⟨x, mx, rfl⟩ := List.mem_map.mp m
      obtain ⟨mx, good⟩ := List.mem_filter.mp mx
      obtain ⟨d, serving, one⟩ := soleServing.mp (List.contains_iff_mem.mp good)
      refine ⟨d, serving, ?_⟩
      rw [entrySole serving.mine one, (OrderedMap.memIff _).mp mx]
      rfl
    · obtain ⟨x, mx, made⟩ := List.mem_filterMap.mp m
      obtain ⟨d, serving, two, rfl⟩ := moreServing.mp mx
      dsimp only at made
      split at made
      · rename_i all
        cases made
        exact ⟨d, serving, by rw [entryMore serving.mine two, if_pos all]⟩
      · cases made
  · intro out
    obtain ⟨d, serving, was⟩ := out
    rcases IndexDef.soleOrMore (filled d serving.known) with ⟨f, one⟩ | two
    · rw [entrySole serving.mine one] at was
      obtain ⟨x, is, rfl⟩ := Option.map_eq_some_iff.mp was
      refine .inl ⟨_, List.mem_map_of_mem (List.mem_filter.mpr ⟨(OrderedMap.memIff _).mpr is, ?_⟩), rfl⟩
      exact List.contains_iff_mem.mpr (soleServing.mpr ⟨d, serving, one⟩)
    · rw [entryMore serving.mine two] at was
      by_cases all : complete (d.fieldIds.map old.values.get) = true
      · rw [if_pos all] at was
        refine .inr ⟨(key, none), List.mem_filterMap.mpr
          ⟨_, moreServing.mpr ⟨d, serving, two, rfl⟩, ?_⟩, rfl⟩
        dsimp only
        rw [if_pos all, Option.some.inj was]
      · rw [if_neg all] at was
        cases was

theorem deleteLives (filled : ∀ d ∈ schema.indexes, d.fieldIds ≠ [])
    (found : Found allowed schema c e.bytes [] v old) (tagged : key.head? = some indexTag) :
    applied (deleteWrites schema c e.bytes old) v key ≠ none ↔ v key ≠ none ∧
      ¬ ∃ d, Serving schema c d ∧ d.entry old.values.get e.bytes = some key := by
  have all : ∀ w ∈ deleteWrites schema c e.bytes old, w.2 = none := by
    intro w m
    obtain ⟨ws, whole, -, gone⟩ := deleteWritesElse schema c e.bytes old
    rw [whole] at m
    rcases List.mem_append.mp m with m | m
    · obtain ⟨k, -, rfl⟩ := List.mem_map.mp m
      rfl
    · exact (gone w m).1
  have fresh : key ∉ old.staleKeys := by
    intro m
    obtain ⟨t, rfl⟩ := (found.mine key m).2
    exact absurd tagged (by simp [entityPrefix, entityTag, indexTag])
  have entries : (∃ w ∈ deleteWrites schema c e.bytes old, w.1 = key) ↔ key ∈ old.staleKeys ∨
      ∃ d, Serving schema c d ∧ d.entry old.values.get e.bytes = some key := deletedEntries filled
  rw [or_iff_right fresh] at entries
  rw [← entries]
  by_cases out : ∃ w ∈ deleteWrites schema c e.bytes old, w.1 = key
  · rw [(appliedAll all v key).1 out]
    simp [out]
  · rw [(appliedAll all v key).2 out]
    simp [out]

theorem IndexDef.entryNone {d : IndexDef} (filled : d.fieldIds ≠ []) {values : UInt32 → Option Value}
    (none_ : ∀ f, values f = none) (e : Bytes) : d.entry values e = none := by
  rw [entry, if_neg]
  intro all
  obtain ⟨f, m⟩ := List.exists_mem_of_ne_nil _ filled
  have some_ := List.all_eq_true.mp all (values f) (List.mem_map_of_mem m)
  rw [none_ f] at some_
  cases some_

theorem deleteExact (separate : schema.Separate) (found : Found allowed schema c e.bytes [] v old)
    (canonical : Canonical allowed c e.bytes) {d : IndexDef} (known : d ∈ schema.indexes)
    (ready : d.status = .ready) (exact_ : d.Exact v) :
    d.Exact (applied (deleteWrites schema c e.bytes old) v) := by
  have others : ∀ (c' : UInt32) (e' : Utf8), ¬ (c = c' ∧ e = e') → ∀ f,
      cellValue (applied (deleteWrites schema c e.bytes old) v) c' e'.bytes f =
        cellValue v c' e'.bytes f := by
    intro c' e' other f
    rw [cellValue, cellDeleteOther found canonical (fun same => other ⟨same.1, utf8Same.mp same.2⟩)]
    rfl
  have lives : ∀ key, d.keyPrefix <+: key →
      (applied (deleteWrites schema c e.bytes old) v key ≠ none ↔ v key ≠ none ∧
        ¬ (d.collectionId = c ∧ d.entry old.values.get e.bytes = some key)) := by
    intro key starts
    rw [deleteLives separate.filled found (prefixTagged starts)]
    refine and_congr_right (fun _ => not_congr ⟨fun out => ?_, fun out => ?_⟩)
    · obtain ⟨d', serving, was⟩ := out
      obtain ⟨collection, fields, keys⟩ := IndexDef.prefixesMeet separate known serving.known starts
        (IndexDef.entryPrefix was)
      rw [IndexDef.entryMeet fields keys]
      exact ⟨collection.trans serving.mine, was⟩
    · exact ⟨d, ⟨known, out.1, ready⟩, out.2⟩
  by_cases mine : d.collectionId = c
  · subst mine
    have serving : Serving schema d.collectionId d := ⟨known, rfl, ready⟩
    have was : d.entry old.values.get e.bytes =
        d.entry (cellValue v d.collectionId e.bytes) e.bytes :=
      d.entryCongr (fun f m => found.values canonical f
        (servingNeeds serving (separate.filled d known) m)) _
    have gone : ∀ f, cellValue (applied (deleteWrites schema d.collectionId e.bytes old) v)
        d.collectionId e.bytes f = none := fun f => cellValueDead (cellDeleteOwn found)
    refine exact_.moved (e := e) (fun e' other f => others _ e' (fun same => other same.2.symm) f) ?_
    intro key starts
    rw [lives key starts, was, IndexDef.entryNone (separate.filled d known) gone]
    simp
  · refine exact_.still (fun key starts => ?_) (fun e' f => others _ e' (fun same => mine same.1.symm) f)
    rw [lives key starts]
    simp [mine]

end Deleting
end MyLsmDb
