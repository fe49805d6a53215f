import MyLsmDb.IndexEntries

/-! Building and clearing an index: all of its entries are taken out, or made anew from the fields
of the entities, and no other index sees it. -/
namespace MyLsmDb
open ByteOrder (Bytes)
open Effect (Stop)
open KeyValue (Prog)
open LittleEndian
open OrderedEntries

section Scanning
variable {β : Type} {allowed : Bytes → Prop} {broken : View → Prop} {post : β → View → Prop}
  {refused : Stop Error → View → Prop} {v : View} {start : Bytes} {rows : List Rec}

/-- The live rows that begin with `start`, each key once. -/
structure LiveRows (allowed : Bytes → Prop) (v : View) (start : Bytes) (rows : List Rec) : Prop where
  once : (rows.map Prod.fst).Nodup
  live : ∀ r ∈ rows, ∃ stored, r.2 = some stored
  mem : ∀ key stored, (key, some stored) ∈ rows ↔ start <+: key ∧ v key = some stored
  keys : ∀ r ∈ rows, allowed r.1

theorem scanLiveMeets {f : List Rec → KvProg β} (low : ∃ b rest, start = b :: rest ∧ b ≠ 0xFF)
    (next : ∀ rows, LiveRows allowed v start rows → (f rows).Meets allowed broken post refused v) :
    (Index.scanLive start (successor start) >>= f).Meets allowed broken post refused v := by
  intro rows lists keys
  obtain ⟨b, rest, rfl, low⟩ := low
  obtain ⟨s, found⟩ := successorSome rest low
  refine next _ ⟨?_, ?_, ?_, fun r m => keys r (List.mem_of_mem_filter m)⟩
  · exact (List.filter_sublist.map Prod.fst).nodup lists.ascending.nodupKeys
  · exact fun r m => Option.isSome_iff_exists.mp (List.mem_filter.mp m).2
  · intro key stored
    rw [List.mem_filter, and_iff_left (show (some stored).isSome = true from rfl)]
    have inside := successorBetween found key
    rw [found] at lists
    constructor
    · intro m
      have within := lists.inside _ m
      refine ⟨inside.mp within, ?_⟩
      rw [← lists.reads key within, memLookup lists.ascending m]
      rfl
    · intro h
      have reads := lists.reads key (inside.mpr h.1)
      rw [h.2] at reads
      exact lookupMem (Option.join_eq_some_iff.mp reads)

theorem writesMeet {post : Unit → View → Prop} {ws : List Rec} (keys : ∀ w ∈ ws, allowed w.1)
    (ends : post () (applied ws v)) :
    (KeyValue.writeAll ws : KvProg Unit).Meets allowed (fun _ => True) post refused v := by
  refine KeyValue.meetsWrites keys (fun _ => trivial) ?_
  rw [writtenApplied]
  exact ends

theorem clearRangeMeets (rest : Bytes) : (Index.clearRange (indexTag :: rest)).Meets allowed
    (fun _ => True) (fun _ v' => ∀ key, v' key = if indexTag :: rest <+: key then none else v key)
    refused v := by
  refine scanLiveMeets ⟨indexTag, rest, rfl, by decide⟩ (fun rows live => ?_)
  refine writesMeet (fun w m => ?_) (fun key => ?_)
  · obtain ⟨r, mr, rfl⟩ := List.mem_map.mp m
    exact live.keys r mr
  · have writes : rows.map (fun r => (r.1, (none : Entry))) =
        (rows.map Prod.fst).map (fun key => (key, (none : Entry))) := by
      rw [List.map_map]
      rfl
    rw [writes, appliedDeletes]
    by_cases starts : indexTag :: rest <+: key
    · rw [if_pos starts]
      cases is : v key with
      | none => exact ite_self _
      | some stored => exact if_pos (List.mem_map_of_mem ((live.mem key stored).mpr ⟨starts, is⟩))
    · rw [if_neg starts, if_neg (fun m => ?_)]
      obtain ⟨⟨k, entry⟩, mr, rfl⟩ := List.mem_map.mp m
      obtain ⟨stored, rfl⟩ := live.live _ mr
      exact starts ((live.mem _ stored).mp mr).1

end Scanning

section Rebuilding
variable {allowed : Bytes → Prop} {v v' : View} {d : IndexDef}

/-- The index is empty, all else is as it was. -/
structure Cleared (d : IndexDef) (v v' : View) : Prop where
  gone : ∀ key, d.keyPrefix <+: key → v' key = none
  others : ∀ key, ¬ d.keyPrefix <+: key → v' key = v key

/-- The index has the entries of the entities, all else is as it was. -/
structure Built (d : IndexDef) (v v' : View) : Prop where
  exact_ : d.Exact v'
  others : ∀ key, ¬ d.keyPrefix <+: key → v' key = v key

theorem prefixNoEntity (d : IndexDef) (c : UInt32) (e : Bytes) (f : UInt32) :
    ¬ d.keyPrefix <+: encodeEntityKey c e f := by
  intro starts
  have tagged := prefixTagged starts
  rw [entityKeyTag] at tagged
  exact absurd tagged (by decide)

theorem cellsBeside (others : ∀ key, ¬ d.keyPrefix <+: key → v' key = v key) : SameCells v v' :=
  fun c e f => others _ (prefixNoEntity d c e f)

theorem SameCells.values (same : SameCells v v') (c : UInt32) (e : Bytes) (f : UInt32) :
    cellValue v' c e f = cellValue v c e f := by
  rw [cellValue, same]
  rfl

/-- The keys of entities are those of well-formed ids that their keys have room for. -/
def Canonicals (allowed : Bytes → Prop) : Prop := ∀ key, allowed key → key.head? = some entityTag →
  ∃ (c : UInt32) (e : Utf8) (f : UInt32), e.bytes.length < 2 ^ 32 ∧ key = encodeEntityKey c e.bytes f

/-- The keys of an index are among those that are written. -/
def Admits (allowed : Bytes → Prop) (d : IndexDef) : Prop := ∀ (values : UInt32 → Option Value)
  (e : Utf8) key, e.bytes.length < 2 ^ 32 → d.entry values e.bytes = some key → allowed key

theorem Canonicals.canonical (h : Canonicals allowed) {c : UInt32} {e : Bytes}
    (short : e.length < 2 ^ 32) : Canonical allowed c e := by
  intro key mine starts
  have tagged : key.head? = some entityTag := by
    obtain ⟨t, rfl⟩ := starts
    rfl
  obtain ⟨c', e', f, short', rfl⟩ := h key mine tagged
  obtain ⟨rfl, rfl⟩ := (entityPrefixOf short short' f).mp starts
  exact ⟨f, rfl⟩

variable (canonicals : Canonicals allowed) {c : UInt32} {rows : List Rec}
  (live : LiveRows allowed v (collectionPrefix c) rows)
include canonicals live

theorem rowField {r : Rec} (m : r ∈ rows) : ∃ (e : Utf8) (f : UInt32) (stored : Bytes),
    e.bytes.length < 2 ^ 32 ∧ r = (encodeEntityKey c e.bytes f, some stored) ∧
      cell v c e.bytes f = some stored := by
  obtain ⟨key, entry⟩ := r
  obtain ⟨stored, rfl⟩ := live.live _ m
  obtain ⟨starts, is⟩ := (live.mem key stored).mp m
  have tagged : key.head? = some entityTag := by
    obtain ⟨t, rfl⟩ := starts
    rfl
  obtain ⟨c', e, f, short, rfl⟩ := canonicals key (live.keys _ m) tagged
  obtain rfl : c' = c := by
    have same := IndexDef.prefixSame (by simp [collectionPrefix])
      (entityInCollection (List.prefix_append _ _)) starts
    exact le32Inj (List.cons.inj same).2
  exact ⟨e, f, stored, short, rfl, is⟩

theorem fieldRow {e : Bytes} {f : UInt32} {stored : Bytes} (is : cell v c e f = some stored) :
    (encodeEntityKey c e f, some stored) ∈ rows ∧ e.length < 2 ^ 32 ∧ ∃ id : Utf8, id.bytes = e := by
  have m : (encodeEntityKey c e f, some stored) ∈ rows :=
    (live.mem _ stored).mpr ⟨entityInCollection (List.prefix_append _ _), is⟩
  obtain ⟨id, f', stored', short, same, -⟩ := rowField canonicals live m
  obtain ⟨-, rfl, -⟩ := encodeEntityKeySame.mp (Prod.mk.inj same).1
  exact ⟨m, short, id, rfl⟩

theorem entryShort {e : Utf8} {key : Bytes} (filled : d.fieldIds ≠ [])
    (made : d.entry (cellValue v c e.bytes) e.bytes = some key) : e.bytes.length < 2 ^ 32 := by
  obtain ⟨vals, mapped, -⟩ := IndexDef.entrySome.mp made
  obtain ⟨f, m⟩ := List.exists_mem_of_ne_nil _ filled
  have has : cellValue v c e.bytes f ∈ vals.map some := by
    rw [← mapped]
    exact List.mem_map_of_mem m
  obtain ⟨value, -, is⟩ := List.mem_map.mp has
  obtain ⟨stored, there, -⟩ := Option.bind_eq_some_iff.mp is.symm
  exact (fieldRow canonicals live there).2.1

end Rebuilding

section Sole
variable {allowed : Bytes → Prop} {v : View} {c f : UInt32} {rows : List Rec}

def soleEntry (c f : UInt32) (r : Rec) : Option Rec :=
  match decodeEntityKey r.1, r.2 with
  | some (collection, e, field), some stored =>
    if collection ≠ c ∨ field ≠ f then none
    else (Value.decode stored).toOption.map
      (fun value => (encodeIndexKey c f value.encodeOrdered e, some []))
  | _, _ => none

theorem soleEntryField {e : Bytes} {g : UInt32} {stored : Bytes} (short : e.length < 2 ^ 32) :
    soleEntry c f (encodeEntityKey c e g, some stored) = if g ≠ f then none else
      (Value.decode stored).toOption.map
        (fun value => (encodeIndexKey c f value.encodeOrdered e, some [])) := by
  unfold soleEntry
  rw [decodeEncodeEntityKey c short g]
  simp

theorem rebuildRows (reads : ∀ r ∈ rows, ∀ e stored, r = (encodeEntityKey c e f, some stored) →
      ∃ value, Value.decode stored = .ok value)
    (fields : ∀ r ∈ rows, ∃ (e : Bytes) (g : UInt32) (stored : Bytes), e.length < 2 ^ 32 ∧
      r = (encodeEntityKey c e g, some stored)) :
    rows.forM (Index.rebuildRow c f) = (KeyValue.writeAll (rows.filterMap (soleEntry c f)) : KvProg Unit) := by
  induction rows with
  | nil => rfl
  | cons r rows ih =>
    obtain ⟨e, g, stored, short, rfl⟩ := fields r List.mem_cons_self
    have rest := ih (fun r m => reads r (List.mem_cons_of_mem _ m))
      (fun r m => fields r (List.mem_cons_of_mem _ m))
    have made := @soleEntryField c f e g stored short
    change (Index.rebuildRow c f (encodeEntityKey c e g, some stored) >>= fun _ =>
      rows.forM (Index.rebuildRow c f)) = _
    rw [rest, List.filterMap_cons, made]
    unfold Index.rebuildRow
    rw [decodeEncodeEntityKey c short g]
    dsimp only
    by_cases mine : g = f
    · subst mine
      obtain ⟨value, decoded⟩ := reads _ List.mem_cons_self e stored rfl
      rw [if_neg (by simp), if_neg (by simp), decoded]
      rfl
    · rw [if_pos (.inr mine), if_pos mine]
      rfl

end Sole

section Building
variable {allowed : Bytes → Prop} {v v₁ : View} {d : IndexDef} {ws : List Rec}

theorem Cleared.built (h : Cleared d v v₁) (puts : ∀ w ∈ ws, w.2 = some [])
    (entries : ∀ key, (∃ w ∈ ws, w.1 = key) ↔
      ∃ e : Utf8, d.entry (cellValue v₁ d.collectionId e.bytes) e.bytes = some key) :
    Built d v (applied ws v₁) := by
  have only : ∀ key, ¬ d.keyPrefix <+: key → applied ws v₁ key = v₁ key := fun key out =>
    (appliedAll puts v₁ key).2 (fun there => by
      obtain ⟨e, made⟩ := (entries key).mp there
      exact out (IndexDef.entryPrefix made))
  refine ⟨fun key starts => ?_, fun key out => (only key out).trans (h.others key out)⟩
  have values : ∀ e : Bytes, cellValue (applied ws v₁) d.collectionId e =
      cellValue v₁ d.collectionId e := fun e =>
    funext ((cellsBeside only).values d.collectionId e)
  simp only [values]
  rw [← entries key]
  by_cases there : ∃ w ∈ ws, w.1 = key
  · rw [(appliedAll puts v₁ key).1 there]
    simp [there]
  · rw [(appliedAll puts v₁ key).2 there, h.gone key starts]
    simp [there]

theorem clearedOf {v' : View} (is : ∀ key, v' key = if d.keyPrefix <+: key then none else v key) :
    Cleared d v v' :=
  ⟨fun key starts => by rw [is, if_pos starts], fun key out => by rw [is, if_neg out]⟩

theorem rebuildMeets {f : UInt32} {refused : Stop Error → View → Prop} (one : d.fieldIds = [f])
    (canonicals : Canonicals allowed) (admits : Admits allowed d)
    (reads : ∀ e stored, cell v d.collectionId e f = some stored →
      ∃ value, Value.decode stored = .ok value) :
    (Index.rebuild d.collectionId f).Meets allowed (fun _ => True) (fun _ v' => Built d v v')
      refused v := by
  set c := d.collectionId with hc
  refine Prog.Meets.bind (clearRangeMeets _) (fun _ v₁ is => ?_)
  have cleared : Cleared d v v₁ := clearedOf (by rw [d.keyPrefixSole one]; exact is)
  have same := cellsBeside cleared.others
  refine scanLiveMeets ⟨entityTag, _, rfl, by decide⟩ (fun rows live => ?_)
  have fields := fun r m => rowField (v := v₁) canonicals live (r := r) m
  -- the entries that are written are those of the entities
  have entries : ∀ key, (∃ w ∈ rows.filterMap (soleEntry c f), w.1 = key) ↔
      ∃ e : Utf8, d.entry (cellValue v₁ c e.bytes) e.bytes = some key := by
    intro key
    constructor
    · intro out
      obtain ⟨w, m, rfl⟩ := out
      obtain ⟨r, mr, made⟩ := List.mem_filterMap.mp m
      obtain ⟨e, g, stored, short, rfl, there⟩ := fields r mr
      rw [soleEntryField short] at made
      split at made
      · cases made
      · rename_i mine
        obtain rfl := not_not.mp mine
        obtain ⟨value, decoded, rfl⟩ := Option.map_eq_some_iff.mp made
        refine ⟨e, ?_⟩
        rw [entrySole rfl one, cellValue, there, Option.bind_some, decoded]
        rfl
    · intro out
      obtain ⟨e, made⟩ := out
      rw [entrySole rfl one] at made
      obtain ⟨value, has, rfl⟩ := Option.map_eq_some_iff.mp made
      obtain ⟨stored, there, decoded⟩ := Option.bind_eq_some_iff.mp has
      obtain ⟨m, short, -⟩ := fieldRow canonicals live there
      refine ⟨(_, some []), List.mem_filterMap.mpr ⟨_, m, ?_⟩, rfl⟩
      have read : (Value.decode stored).toOption = some value := decoded
      rw [soleEntryField short, if_neg (by simp), read]
      rfl
  have puts : ∀ w ∈ rows.filterMap (soleEntry c f), w.2 = some [] := by
    intro w m
    obtain ⟨r, mr, made⟩ := List.mem_filterMap.mp m
    obtain ⟨e, g, stored, short, rfl, -⟩ := fields r mr
    rw [soleEntryField short] at made
    split at made
    · cases made
    · obtain ⟨value, -, rfl⟩ := Option.map_eq_some_iff.mp made
      rfl
  rw [rebuildRows (c := c) (f := f) ?_ ?_]
  · refine writesMeet (fun w m => ?_) (cleared.built puts entries)
    obtain ⟨e, made⟩ := (entries w.1).mp ⟨w, m, rfl⟩
    exact admits _ e w.1 (entryShort canonicals live (by simp [one]) made) made
  · intro r m e stored is
    obtain ⟨e', g, stored', short, same', there⟩ := fields r m
    obtain ⟨key, entry⟩ := Prod.mk.inj (is.symm.trans same')
    obtain ⟨-, rfl, rfl⟩ := encodeEntityKeySame.mp key
    obtain rfl := Option.some.inj entry
    exact reads _ _ ((same _ _ _).symm.trans there)
  · intro r m
    obtain ⟨e, g, stored, short, is, -⟩ := fields r m
    exact ⟨e.bytes, g, stored, short, is⟩

def collectedField (found : OrderedMap Bytes (OrderedMap UInt32 Value)) (e : Bytes) (f : UInt32) :
    Option Value := (found.get e).bind (fun m => m.get f)

theorem entityRowField {c : UInt32} (found : OrderedMap Bytes (OrderedMap UInt32 Value)) {e : Bytes}
    {g : UInt32} {stored : Bytes} (short : e.length < 2 ^ 32) (e' : Bytes) (f : UInt32) :
    collectedField (Index.entityRow found (encodeEntityKey c e g, some stored)) e' f =
      if e' = e ∧ f = g then (Value.decode stored).toOption.or (collectedField found e' f)
      else collectedField found e' f := by
  unfold Index.entityRow
  rw [decodeEncodeEntityKey c short g]
  dsimp only
  cases Value.decode stored with
  | error err => exact (ite_self _).symm
  | ok value =>
    dsimp only
    unfold collectedField
    rw [OrderedMap.getInsert]
    by_cases mine : e' = e
    · subst mine
      rw [if_pos rfl, Option.bind_some, OrderedMap.getInsert]
      by_cases same : f = g
      · simp [same, Except.toOption]
      · cases found.get e' with
        | none => simp [same, OrderedMap.getEmpty]
        | some m => simp [same]
    · rw [if_neg mine, if_neg (fun h => mine h.1)]

theorem foldedField {c : UInt32} {rows : List Rec} (once : (rows.map Prod.fst).Nodup)
    (fields : ∀ r ∈ rows, ∃ (e : Bytes) (g : UInt32) (stored : Bytes), e.length < 2 ^ 32 ∧
      r = (encodeEntityKey c e g, some stored)) (found : OrderedMap Bytes (OrderedMap UInt32 Value))
    (e : Bytes) (f : UInt32) : collectedField (rows.foldl Index.entityRow found) e f =
      ((rows.lookup (encodeEntityKey c e f)).join.bind (fun stored =>
        (Value.decode stored).toOption)).or (collectedField found e f) := by
  induction rows generalizing found with
  | nil => rfl
  | cons r rows ih =>
    obtain ⟨e', g, stored, short, rfl⟩ := fields r List.mem_cons_self
    rw [List.map_cons, List.nodup_cons] at once
    rw [List.foldl_cons, ih once.2 (fun r m => fields r (List.mem_cons_of_mem _ m)),
      entityRowField _ short, lookupCons]
    by_cases mine : e = e' ∧ f = g
    · obtain ⟨rfl, rfl⟩ := mine
      have none : rows.lookup (encodeEntityKey c e f) = none :=
        lookupNone.mpr (fun r m same => once.1 (List.mem_map.mpr ⟨r, m, same⟩))
      rw [none, if_pos ⟨rfl, rfl⟩, if_pos rfl]
      rfl
    · rw [if_neg mine, if_neg (fun same => mine (encodeEntityKeySame.mp same).2)]

theorem LiveRows.lookup {start : Bytes} {rows : List Rec} (live : LiveRows allowed v start rows)
    {key : Bytes} (starts : start <+: key) : (rows.lookup key).join = v key := by
  cases is : v key with
  | some stored =>
    rw [Registry.lookupUnique live.once ((live.mem key stored).mpr ⟨starts, is⟩)]
    rfl
  | none =>
    cases found : rows.lookup key with
    | none => rfl
    | some entry =>
      obtain ⟨stored, rfl⟩ := live.live _ (lookupMem found)
      have there := ((live.mem key stored).mp (lookupMem found)).2
      rw [is] at there
      cases there

theorem collectedFields (canonicals : Canonicals allowed) {c : UInt32} {rows : List Rec}
    (live : LiveRows allowed v (collectionPrefix c) rows) (e : Bytes) :
    collectedField (rows.foldl Index.entityRow .empty) e = cellValue v c e := by
  funext f
  have there : (rows.lookup (encodeEntityKey c e f)).join = v (encodeEntityKey c e f) :=
    live.lookup (entityInCollection (List.prefix_append _ _))
  rw [foldedField (c := c) live.once (fun r m => ?_), there, collectedField, OrderedMap.getEmpty,
    Option.bind_none, Option.or_none]
  · rfl
  · obtain ⟨e, g, stored, short, is, -⟩ := rowField canonicals live m
    exact ⟨e.bytes, g, stored, short, is⟩

theorem rebuildCompositeMeets {refused : Stop Error → View → Prop} (two : 2 ≤ d.fieldIds.length)
    (canonicals : Canonicals allowed) (admits : Admits allowed d) :
    (Index.rebuildComposite d.collectionId d.id d.fieldIds).Meets allowed (fun _ => True)
      (fun _ v' => Built d v v') refused v := by
  have filled : d.fieldIds ≠ [] := fun none => absurd two (by simp [none])
  set c := d.collectionId with hc
  obtain ⟨s, next⟩ := successorSome (b := indexTag) (le32 c ++ le32 compositeFieldMarker ++ le32 d.id)
    (by decide)
  obtain ⟨s', next'⟩ := successorSome (b := entityTag) (le32 c) (by decide)
  have next : successor (compositePrefix c d.id) = some s := by
    rw [← next]
    simp [compositePrefix]
  have next' : successor (collectionPrefix c) = some s' := next'
  unfold Index.rebuildComposite Index.clearComposite
  rw [next]
  refine Prog.Meets.bind (clearRangeMeets _) (fun _ v₁ is => ?_)
  have cleared : Cleared d v v₁ := clearedOf (by rw [d.keyPrefixSome two]; exact is)
  have scan := @scanLiveMeets Unit allowed (fun _ => True) (fun _ v' => Built d v v') refused v₁
    (collectionPrefix c) (fun rows => KeyValue.writeAll (Index.compositeEntries c d.id d.fieldIds
      (rows.foldl Index.entityRow .empty))) ⟨entityTag, _, rfl, by decide⟩ (fun rows live => ?_)
  · rw [next'] at scan ⊢
    exact scan
  set found := rows.foldl Index.entityRow .empty with hfound
  have values : ∀ e m, (e, m) ∈ found.entries → (m : OrderedMap UInt32 Value).get = cellValue v₁ c e := by
    intro e m mem
    rw [← collectedFields canonicals live e, ← hfound]
    funext f
    rw [collectedField, (OrderedMap.memIff _).mp mem]
    rfl
  have puts : ∀ w ∈ Index.compositeEntries c d.id d.fieldIds found, w.2 = some [] := by
    intro w m
    obtain ⟨x, -, made⟩ := List.mem_filterMap.mp m
    dsimp only at made
    split at made
    · cases made
      rfl
    · cases made
  have entries : ∀ key, (∃ w ∈ Index.compositeEntries c d.id d.fieldIds found, w.1 = key) ↔
      ∃ e : Utf8, d.entry (cellValue v₁ c e.bytes) e.bytes = some key := by
    intro key
    constructor
    · intro out
      obtain ⟨w, m, rfl⟩ := out
      obtain ⟨⟨e, m⟩, mem, made⟩ := List.mem_filterMap.mp m
      dsimp only at made
      rw [values e m mem] at made
      split at made
      · rename_i all
        cases made
        have entry : d.entry (cellValue v₁ c e) e = some (encodeCompositeIndexKey c d.id
            (components (d.fieldIds.map (cellValue v₁ c e))) e) := by
          rw [entryMore rfl two, if_pos all]
        obtain ⟨f, mf⟩ := List.exists_mem_of_ne_nil _ filled
        obtain ⟨value, has⟩ := Option.isSome_iff_exists.mp
          (List.all_eq_true.mp all _ (List.mem_map_of_mem mf))
        obtain ⟨stored, there, -⟩ := Option.bind_eq_some_iff.mp has
        obtain ⟨-, -, id, rfl⟩ := fieldRow canonicals live there
        exact ⟨id, entry⟩
      · cases made
    · intro out
      obtain ⟨e, made⟩ := out
      rw [entryMore rfl two] at made
      by_cases all : complete (d.fieldIds.map (cellValue v₁ c e.bytes)) = true
      · rw [if_pos all] at made
        obtain ⟨f, mf⟩ := List.exists_mem_of_ne_nil _ filled
        obtain ⟨value, has⟩ := Option.isSome_iff_exists.mp
          (List.all_eq_true.mp all _ (List.mem_map_of_mem mf))
        rw [← collectedFields canonicals live, ← hfound] at has
        obtain ⟨m, known, -⟩ := Option.bind_eq_some_iff.mp has
        have mem := (OrderedMap.memIff _).mpr known
        refine ⟨(key, some []), List.mem_filterMap.mpr ⟨_, mem, ?_⟩, rfl⟩
        dsimp only
        rw [values _ m mem, if_pos all, Option.some.inj made]
      · rw [if_neg all] at made
        cases made
  refine writesMeet (fun w m => ?_) (cleared.built puts entries)
  obtain ⟨e, made⟩ := (entries w.1).mp ⟨w, m, rfl⟩
  exact admits _ e w.1 (entryShort canonicals live filled made) made

theorem clearMeets {f : UInt32} {refused : Stop Error → View → Prop} (one : d.fieldIds = [f]) :
    (Index.clear d.collectionId f).Meets allowed (fun _ => True) (fun _ v' => Cleared d v v')
      refused v :=
  (clearRangeMeets _).mono (fun _ _ is => clearedOf (by rw [d.keyPrefixSole one]; exact is))
    (fun _ _ => id)

theorem clearCompositeMeets {refused : Stop Error → View → Prop} (two : 2 ≤ d.fieldIds.length) :
    (Index.clearComposite d.collectionId d.id).Meets allowed (fun _ => True)
      (fun _ v' => Cleared d v v') refused v := by
  obtain ⟨s, next⟩ := successorSome (b := indexTag)
    (le32 d.collectionId ++ le32 compositeFieldMarker ++ le32 d.id) (by decide)
  have next : successor (compositePrefix d.collectionId d.id) = some s := by
    rw [← next]
    simp [compositePrefix]
  unfold Index.clearComposite
  rw [next]
  exact (clearRangeMeets _).mono
    (fun _ _ is => clearedOf (by rw [d.keyPrefixSome two]; exact is)) (fun _ _ => id)

end Building

section Others
variable {schema : Schema} {v v' : View} {d d' : IndexDef}

theorem exactBeside (separate : schema.Separate) (m : d ∈ schema.indexes) (m' : d' ∈ schema.indexes)
    (apart : d.keyPrefix ≠ d'.keyPrefix) (others : ∀ key, ¬ d.keyPrefix <+: key → v' key = v key)
    (exact_ : d'.Exact v) : d'.Exact v' := by
  refine exact_.still (fun key starts => ?_) (fun e f => (cellsBeside others).values _ _ _)
  rw [others key (fun own => apart (IndexDef.prefixesMeet separate m m' own starts).2.2)]

theorem Built.all (h : Built d v v') (separate : schema.Separate) (m : d ∈ schema.indexes)
    (m' : d' ∈ schema.indexes) (exact_ : d' ≠ d → d'.Exact v) : d'.Exact v' := by
  by_cases same : d' = d
  · rw [same]
    exact h.exact_
  · by_cases apart : d.keyPrefix = d'.keyPrefix
    · obtain ⟨collection, fields, -⟩ := IndexDef.prefixesMeet separate m m' List.prefix_rfl
        (apart ▸ List.prefix_rfl)
      intro key starts
      rw [h.exact_ key (apart ▸ starts), collection]
      exact exists_congr (fun e => by rw [IndexDef.entryMeet fields apart])
    · exact exactBeside separate m m' apart h.others (exact_ same)

end Others
end MyLsmDb
