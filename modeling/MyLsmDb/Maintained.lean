import MyLsmDb.IndexBuild
import MyLsmDb.IndexOrder
import MyLsmDb.Orderly
import MyLsmDb.PlanExact

/-! The map of a store whose indexes are kept up: the fields can be read and have names, and every
index that is ready has the entries of the entities. Each change of the schema and each of the
programs over the map keeps this. -/
namespace MyLsmDb
open ByteOrder (Bytes)
open Effect (Stop)
open LittleEndian
open OrderedEntries
open Text

section Keys

/-- The keys that a store writes. `arity` tells over how many fields each composite index is. -/
inductive Proper (arity : UInt32 → Option Nat) : Bytes → Prop where
  | field (c : UInt32) (e : Utf8) (f : UInt32) (short : e.bytes.length < 2 ^ 32) :
      Proper arity (encodeEntityKey c e.bytes f)
  | sole (c f : UInt32) (value : Value) (e : Utf8) (real : f ≠ compositeFieldMarker)
      (short : e.bytes.length < 2 ^ 32) :
      Proper arity (encodeIndexKey c f value.encodeOrdered e.bytes)
  | composite (c i : UInt32) (vals : List Value) (e : Utf8) (whole : arity i = some vals.length)
      (short : e.bytes.length < 2 ^ 32) :
      Proper arity (encodeCompositeIndexKey c i (vals.map Value.encodeOrdered) e.bytes)

variable {arity arity' : UInt32 → Option Nat} {key : Bytes} {d : IndexDef}

theorem Proper.mono (more : ∀ i n, arity i = some n → arity' i = some n) (h : Proper arity key) :
    Proper arity' key := by
  cases h with
  | field c e f short => exact .field c e f short
  | sole c f value e real short => exact .sole c f value e real short
  | composite c i vals e whole short => exact .composite c i vals e (more i _ whole) short

theorem compositeStarts (c i : UInt32) (comps : List Bytes) (e : Bytes) :
    compositePrefix c i <+: encodeCompositeIndexKey c i comps e := by
  rw [encodeCompositeIndexKey, List.append_assoc, List.append_assoc]
  exact List.prefix_append _ _

theorem soleStarts (c f : UInt32) (encoded e : Bytes) :
    indexFieldPrefix c f <+: encodeIndexKey c f encoded e := by
  rw [indexKeyParts]
  exact List.prefix_append _ _

theorem properCanonicals : Canonicals (Proper arity) := by
  intro key mine tagged
  cases mine with
  | field c e f short => exact ⟨c, e, f, short, rfl⟩
  | sole c f value e real short =>
    rw [indexKeyParts] at tagged
    cases tagged
  | composite c i vals e whole short =>
    simp [encodeCompositeIndexKey, compositePrefix, indexTag, entityTag] at tagged

theorem Proper.ofSole {c f : UInt32} (h : Proper arity key) (real : f ≠ compositeFieldMarker)
    (starts : indexFieldPrefix c f <+: key) : ∃ (value : Value) (e : Utf8),
      e.bytes.length < 2 ^ 32 ∧ key = encodeIndexKey c f value.encodeOrdered e.bytes := by
  cases h with
  | field c' e f' short =>
    obtain ⟨t, same⟩ := starts
    cases congrArg List.head? same
  | sole c' f' value e real' short =>
    have same := IndexDef.prefixSame (by rw [IndexDef.fieldPrefixLength, IndexDef.fieldPrefixLength])
      starts (soleStarts c' f' _ _)
    obtain ⟨rfl, rfl⟩ := fieldPrefixInj same
    exact ⟨value, e, short, rfl⟩
  | composite c' i vals e whole short =>
    exact (IndexDef.soleApart real starts (compositeStarts c' i _ _)).elim

theorem Proper.ofComposite {c i : UInt32} {n : Nat} (h : Proper arity key) (whole : arity i = some n)
    (starts : compositePrefix c i <+: key) : ∃ (vals : List Value) (e : Utf8), vals.length = n ∧
      e.bytes.length < 2 ^ 32 ∧
        key = encodeCompositeIndexKey c i (vals.map Value.encodeOrdered) e.bytes := by
  cases h with
  | field c' e f' short =>
    obtain ⟨t, same⟩ := starts
    cases congrArg List.head? same
  | sole c' f' value e real short =>
    exact (IndexDef.soleApart real (soleStarts c' f' _ _) starts).elim
  | composite c' i' vals e whole' short =>
    have same := IndexDef.prefixSame (b := compositePrefix c' i') (by simp [compositePrefix]) starts
      (compositeStarts c' i' _ _)
    obtain ⟨rfl, rfl⟩ := Index.compositePrefixInj same
    exact ⟨vals, e, Option.some.inj (whole'.symm.trans whole), short, rfl⟩

theorem properAdmits (filled : d.fieldIds ≠ []) (real : ∀ f ∈ d.fieldIds, f ≠ compositeFieldMarker)
    (whole : arity d.id = some d.fieldIds.length) : Admits (Proper arity) d := by
  intro values e key short made
  obtain ⟨vals, mapped, rfl⟩ := IndexDef.entrySome.mp made
  rcases IndexDef.soleOrMore filled with ⟨f, one⟩ | two
  · rw [entrySole rfl one] at made
    obtain ⟨value, -, is⟩ := Option.map_eq_some_iff.mp made
    rw [← is]
    exact .sole _ f value e (real f (by simp [one])) short
  · rw [IndexDef.keyOf, d.keyPrefixSome two]
    have key := Proper.composite d.collectionId d.id vals e
      (whole.trans (congrArg some (IndexDef.entryLength mapped).symm)) short
    simpa only [encodeCompositeIndexKey, List.append_assoc] using key

end Keys

/-- The schema tells the fields apart, what is stored of each is a plain value of a field with a
name, and the indexes that are ready are exact. -/
structure Maintained (arity : UInt32 → Option Nat) (s : Schema) (v : View) : Prop where
  orderly : s.Orderly
  arities : ∀ d ∈ s.indexes, arity d.id = some d.fieldIds.length
  unused : ∀ i, s.nextIndexId ≤ i → arity i = none
  fields : ∀ c e f stored, cell v c e f = some stored →
    (∃ value, Value.decode stored = .ok value ∧ value.Plain) ∧
      (s.fieldName.get (toLex (c, f))).isSome
  exact_ : ∀ d ∈ s.indexes, d.status = .ready → d.Exact v

namespace Maintained
variable {arity : UInt32 → Option Nat} {s s' : Schema} {v v' : View} {c : UInt32} {e : Utf8}
  {written : List (UInt32 × Value)} {old : OldFields} {d d' : IndexDef}

theorem new : Maintained (fun _ => none) .new (fun _ => none) := by
  refine ⟨Schema.orderlyNew, fun d m => ?_, fun _ _ => rfl, fun c e f stored found => ?_,
    fun d m => ?_⟩
  · cases m
  · cases found
  · cases m

theorem follows (h : Maintained arity s v) (f : s.Follows s') : Maintained arity s' v := by
  refine ⟨f.orderly, ?_, ?_, fun c e g stored found => ?_, ?_⟩
  · rw [f.indexes]
    exact h.arities
  · rw [f.next]
    exact h.unused
  · obtain ⟨reads, named⟩ := h.fields c e g stored found
    obtain ⟨name, is⟩ := Option.isSome_iff_exists.mp named
    exact ⟨reads, Option.isSome_iff_exists.mpr ⟨name, f.names _ _ is⟩⟩
  · rw [f.indexes]
    exact h.exact_

theorem plain (h : Maintained arity s v) {c : UInt32} {e : Bytes} {f : UInt32} {value : Value}
    (is : cellValue v c e f = some value) : value.Plain := by
  obtain ⟨stored, found, decoded⟩ := Option.bind_eq_some_iff.mp is
  obtain ⟨⟨value', reads, plain⟩, -⟩ := h.fields c e f stored found
  rw [reads] at decoded
  cases decoded
  exact plain

theorem admits (h : Maintained arity s v) (m : d ∈ s.indexes) : Admits (Proper arity) d :=
  properAdmits (h.orderly.filled d m) (h.orderly.separate.real d m) (h.arities d m)

/-- The fields of a put that the indexes can follow. -/
structure Writes (s : Schema) (c : UInt32) (written : List (UInt32 × Value)) : Prop where
  plain : ∀ w ∈ written, w.2.Plain
  small : ∀ w ∈ written, w.2.Small
  once : (written.map Prod.fst).Nodup
  named : ∀ w ∈ written, (s.fieldName.get (toLex (c, w.1))).isSome

theorem plainPut (h : Maintained arity s v) (short : e.bytes.length < 2 ^ 32)
    (writes : Writes s c written) (found : Found (Proper arity) s c e.bytes (putIds written) v old) :
    PlainPut s c written old := by
  have canonical := (@properCanonicals arity).canonical (c := c) short
  refine ⟨writes.plain, fun f need value is => ?_, writes.once⟩
  rw [found.values canonical f need] at is
  exact h.plain is

theorem put (h : Maintained arity s v) (short : e.bytes.length < 2 ^ 32) (writes : Writes s c written)
    (found : Found (Proper arity) s c e.bytes (putIds written) v old) :
    Maintained arity s (applied (putWrites s c e.bytes written old) v) := by
  have canonical := (@properCanonicals arity).canonical (c := c) short
  refine ⟨h.orderly, h.arities, h.unused, fun c' e' f stored there => ?_, fun d m ready => ?_⟩
  · by_cases mine : c = c' ∧ e.bytes = e'
    · obtain ⟨rfl, rfl⟩ := mine
      rw [cellPutOwn found] at there
      obtain ⟨value, last, rfl⟩ := Option.map_eq_some_iff.mp there
      have m := List.mem_reverse.mp (lookupMem last)
      exact ⟨⟨value, Value.decodeEncode (writes.small _ m), writes.plain _ m⟩, writes.named _ m⟩
    · rw [cellPutOther found canonical mine] at there
      exact h.fields c' e' f stored there
  · exact (h.plainPut short writes found).exact h.orderly.separate found canonical writes.small m ready
      (h.exact_ d m ready)

theorem putKeys (h : Maintained arity s v) (short : e.bytes.length < 2 ^ 32)
    (writes : Writes s c written) (found : Found (Proper arity) s c e.bytes (putIds written) v old) :
    ∀ w ∈ putWrites s c e.bytes written old, Proper arity w.1 := by
  have plain := h.plainPut short writes found
  intro w m
  simp only [putWrites, List.mem_append, or_assoc] at m
  have added : w ∈ indexPuts s c e.bytes written old ++ compositePuts s c e.bytes written old →
      Proper arity w.1 := by
    intro m
    obtain ⟨d, serving, made, -⟩ := (plain.puts h.orderly.filled).mp ⟨w, m, rfl⟩
    exact h.admits serving.known _ e _ short made
  have taken : w ∈ indexDeletes s c e.bytes written old ++ compositeDeletes s c e.bytes written old →
      Proper arity w.1 := by
    intro m
    obtain ⟨d, serving, made, -⟩ := (plain.deletes h.orderly.filled).mp ⟨w, m, rfl⟩
    exact h.admits serving.known _ e _ short made
  rcases m with m | m | m | m | m | m
  · exact added (List.mem_append_left _ m)
  · exact added (List.mem_append_right _ m)
  · obtain ⟨key, mk, rfl⟩ := List.mem_map.mp m
    exact (found.mine key mk).1
  · obtain ⟨x, -, rfl⟩ := List.mem_map.mp m
    exact .field c e x.1 short
  · exact taken (List.mem_append_left _ m)
  · exact taken (List.mem_append_right _ m)

theorem deleteKeys (h : Maintained arity s v) (short : e.bytes.length < 2 ^ 32)
    (found : Found (Proper arity) s c e.bytes [] v old) :
    ∀ w ∈ deleteWrites s c e.bytes old, Proper arity w.1 := by
  intro w m
  rcases (deletedEntries h.orderly.filled).mp ⟨w, m, rfl⟩ with stale | ⟨d, serving, made⟩
  · exact (found.mine _ stale).1
  · exact h.admits serving.known _ e _ short made

theorem delete (h : Maintained arity s v) (short : e.bytes.length < 2 ^ 32)
    (found : Found (Proper arity) s c e.bytes [] v old) :
    Maintained arity s (applied (deleteWrites s c e.bytes old) v) := by
  have canonical := (@properCanonicals arity).canonical (c := c) short
  refine ⟨h.orderly, h.arities, h.unused, fun c' e' f stored there => ?_, fun d m ready => ?_⟩
  · by_cases mine : c = c' ∧ e.bytes = e'
    · obtain ⟨rfl, rfl⟩ := mine
      rw [cellDeleteOwn found] at there
      cases there
    · rw [cellDeleteOther found canonical mine] at there
      exact h.fields c' e' f stored there
  · exact deleteExact h.orderly.separate found canonical m ready (h.exact_ d m ready)

section Indexes
variable {fieldIds : List UInt32}

/-- The arities behind a creation. -/
def withIndex (arity : UInt32 → Option Nat) (d : IndexDef) : UInt32 → Option Nat :=
  Function.update arity d.id (some d.fieldIds.length)

theorem grown (h : Maintained arity s v) (creates : s.Creates c fieldIds d s') (i : UInt32) (n : Nat)
    (is : arity i = some n) : withIndex arity d i = some n := by
  unfold withIndex
  by_cases mine : i = d.id
  · subst mine
    rw [Function.update_self]
    rcases creates.fresh with m | ⟨fresh, -⟩
    · rw [← h.arities d m, is]
    · rw [h.unused d.id fresh.ge] at is
      cases is
  · rw [Function.update_of_ne mine]
    exact is

theorem create (h : Maintained arity s v) (creates : s.Creates c fieldIds d s') :
    Maintained (withIndex arity d) s' v := by
  refine ⟨creates.orderly, fun d' m => ?_, fun i le => ?_, ?_, fun d' m ready => ?_⟩
  · by_cases mine : d' = d
    · rw [mine]
      exact Function.update_self ..
    · exact h.grown creates _ _ (h.arities d' (creates.others d' m mine))
  · obtain ⟨above, other⟩ := creates.grows i le
    rw [withIndex, Function.update_of_ne other]
    exact h.unused i above
  · rw [creates.names]
    exact h.fields
  · by_cases mine : d' = d
    · subst mine
      rcases creates.fresh with known | ⟨-, building⟩
      · exact h.exact_ d' known ready
      · rw [ready] at building
        cases building
    · exact h.exact_ d' (creates.others d' m mine) ready

theorem sameFields (h : Maintained arity s v) (same : SameCells v v') :
    ∀ c e f stored, cell v' c e f = some stored →
      (∃ value, Value.decode stored = .ok value ∧ value.Plain) ∧
        (s.fieldName.get (toLex (c, f))).isSome := fun c e f stored found =>
  h.fields c e f stored ((same c e f).symm.trans found)

theorem built (h : Maintained arity s v) (m : d ∈ s.indexes) (b : Built d v v') :
    Maintained arity (s.setIndexReady d.id) v' := by
  obtain ⟨orderly, indexes, names, next⟩ := h.orderly.ready d.id
  have marked : ∀ d' ∈ (s.setIndexReady d.id).indexes, ∃ d₀ ∈ s.indexes,
      d' = if d₀.id = d.id then { d₀ with status := .ready } else d₀ := by
    intro d' m'
    rw [indexes] at m'
    obtain ⟨d₀, m₀, rfl⟩ := List.mem_map.mp m'
    exact ⟨d₀, m₀, rfl⟩
  refine ⟨orderly, fun d' m' => ?_, ?_, ?_, fun d' m' ready => ?_⟩
  · obtain ⟨d₀, m₀, rfl⟩ := marked d' m'
    split <;> exact h.arities d₀ m₀
  · rw [next]
    exact h.unused
  · rw [names]
    exact h.sameFields (cellsBeside b.others)
  · obtain ⟨d₀, m₀, rfl⟩ := marked d' m'
    by_cases mine : d₀.id = d.id
    · obtain rfl := h.orderly.same m₀ m mine
      rw [if_pos mine]
      exact b.exact_
    · rw [if_neg mine] at ready ⊢
      exact b.all h.orderly.separate m m₀ (fun _ => h.exact_ d₀ m₀ ready)

theorem dropped (h : Maintained arity s v) (m : d ∈ s.indexes) (cleared : Cleared d v v') :
    Maintained arity (s.dropIndex d.id) v' := by
  have left : ∀ d' ∈ (s.dropIndex d.id).indexes, d' ∈ s.indexes ∧ d'.id ≠ d.id := by
    intro d' m'
    obtain ⟨m₀, other⟩ := List.mem_filter.mp m'
    exact ⟨m₀, of_decide_eq_true other⟩
  refine ⟨h.orderly.drop d.id, fun d' m' => h.arities d' (left d' m').1, h.unused,
    h.sameFields (cellsBeside cleared.others), fun d' m' ready => ?_⟩
  obtain ⟨m₀, other⟩ := left d' m'
  refine exactBeside h.orderly.separate m m₀ (fun same => other ?_) cleared.others (h.exact_ d' m₀ ready)
  obtain ⟨collection, fields, -⟩ := IndexDef.prefixesMeet h.orderly.separate m m₀ List.prefix_rfl
    (same ▸ List.prefix_rfl)
  rw [h.orderly.samePair m m₀ collection fields]

end Indexes

section Rows
variable {rows : List Rec} {name : Chars}

/-- The records of an engine that shows the map, all under keys of the store. -/
structure Lays (arity : UInt32 → Option Nat) (v : View) (rows : List Rec) : Prop where
  ordered : Ordered rows
  shows : ∀ key, (rows.lookup key).join = v key
  keys : ∀ r ∈ rows, Proper arity r.1

theorem Lays.mem (l : Lays arity v rows) {key stored : Bytes} :
    (key, some stored) ∈ rows ↔ v key = some stored := by
  rw [← l.shows key]
  constructor
  · intro m
    rw [memLookup l.ordered m]
    rfl
  · exact fun is => lookupMem (Option.join_eq_some_iff.mp is)

theorem Lays.holds (l : Lays arity v rows) (h : Maintained arity s v) (id : Utf8) (f : UInt32)
    (value : Value) : Index.Holds rows c id f value ↔ cellValue v c id.bytes f = some value := by
  rw [Index.Holds, Index.fieldValueRows, l.shows, cellValue, cell]
  cases is : v (encodeEntityKey c id.bytes f) with
  | none => simp
  | some stored =>
    obtain ⟨⟨value', reads, -⟩, -⟩ := h.fields c id.bytes f stored is
    rw [Option.bind_some, reads]
    simp [reads, bind, Except.bind, pure, Except.pure, Except.toOption]

theorem Lays.heldValues (l : Lays arity v rows) (h : Maintained arity s v) {id : Utf8}
    {fids : List UInt32} {vals : List Value} (all : List.Forall₂ (Index.Holds rows c id) fids vals) :
    fids.map (cellValue v c id.bytes) = vals.map some := by
  induction all with
  | nil => rfl
  | cons first _ ih => rw [List.map_cons, List.map_cons, (l.holds h id _ _).mp first, ih]

theorem Lays.readable (l : Lays arity v rows) (h : Maintained arity s v) (id : Utf8) (f : UInt32) :
    ∃ found, Index.fieldValue (.ofRows rows) c id.bytes f = .ok found := by
  refine Index.readableRows (fun r m stored live tagged => ?_) id f
  obtain ⟨key, entry⟩ := r
  cases live
  obtain ⟨c', e, f', -, rfl⟩ := properCanonicals key (l.keys _ m) tagged
  obtain ⟨⟨value, reads, -⟩, -⟩ := h.fields c' e.bytes f' stored (l.mem.mp m)
  exact ⟨value, reads⟩

theorem fieldIndexed (h : Maintained arity s v) (l : Lays arity v rows) (m : d ∈ s.indexes)
    (ready : d.status = .ready) {f : UInt32} (one : d.fieldIds = [f]) :
    Index.FieldIndexed rows d.collectionId f := by
  have real := h.orderly.separate.real d m f (by simp [one])
  refine ⟨fun id => l.readable h id f, fun r mr starts => (l.keys r mr).ofSole real starts, ?_⟩
  intro id value holds
  have is := (l.holds h id f value).mp holds
  have made : d.entry (cellValue v d.collectionId id.bytes) id.bytes =
      some (encodeIndexKey d.collectionId f value.encodeOrdered id.bytes) := by
    rw [entrySole rfl one, is]
    rfl
  have live := (h.exact_ d m ready _ (IndexDef.entryPrefix made)).mpr ⟨id, made⟩
  obtain ⟨stored, there⟩ := Option.ne_none_iff_exists'.mp live
  exact ⟨stored, l.mem.mpr there⟩

theorem indexed (h : Maintained arity s v) (l : Lays arity v rows) (m : d ∈ s.indexes)
    (ready : d.status = .ready) (two : 2 ≤ d.fieldIds.length) :
    Index.Indexed rows d.collectionId d := by
  refine ⟨fun id f _ => l.readable h id f,
    fun r mr starts => (l.keys r mr).ofComposite (h.arities d m) starts, ?_⟩
  intro id vals all
  have mapped := l.heldValues h all
  have made : d.entry (cellValue v d.collectionId id.bytes) id.bytes =
      some (encodeCompositeIndexKey d.collectionId d.id (vals.map Value.encodeOrdered) id.bytes) := by
    rw [entryMore rfl two, mapped, if_pos ((completeValues _).mpr ⟨vals, rfl⟩), componentsValues]
  have live := (h.exact_ d m ready _ (IndexDef.entryPrefix made)).mpr ⟨id, made⟩
  obtain ⟨stored, there⟩ := Option.ne_none_iff_exists'.mp live
  exact ⟨stored, l.mem.mpr there⟩

theorem prepared (h : Maintained arity s v) (l : Lays arity v rows) : Planner.Prepared rows s c := by
  constructor
  · intro f d found ready
    have m := List.mem_of_find?_eq_some found
    have is := List.find?_some found
    rw [decide_eq_true_eq] at is
    rw [← is.1]
    exact h.fieldIndexed l m ready is.2
  · intro d m mine ready two
    subst mine
    refine ⟨h.indexed l m ready two, ?_, fun f mf => ?_⟩
    · have some_ : (s.indexById d.id).isSome := by
        rw [Schema.indexById, List.find?_isSome]
        exact ⟨d, m, by simp⟩
      obtain ⟨d', found⟩ := Option.isSome_iff_exists.mp some_
      have is := List.find?_some found
      rw [decide_eq_true_eq] at is
      rw [found, h.orderly.same (List.mem_of_find?_eq_some found) m is]
    · exact Option.isSome_iff_exists.mp (h.orderly.named d m f mf)

end Rows
end Maintained
end MyLsmDb
