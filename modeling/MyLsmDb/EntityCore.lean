import MyLsmDb.Entity
import MyLsmDb.KeyValue
import MyLsmDb.Keys
import MyLsmDb.Schema

/-! What the entity layer asks of a key-value store, whether that is the engine itself or a
transaction over it. -/
namespace MyLsmDb
open ByteOrder (Bytes)
open Effect (Stop)
open KeyValue
open OrderedEntries
open Text

abbrev KvProg := Prog Error Bytes Bytes

def indexedFieldIds (schema : Schema) (c : UInt32) : List UInt32 :=
  ((schema.indexes.filter (fun i => i.collectionId = c ∧ i.status = .ready)).filter
    (fun i => i.fieldIds.length = 1)).map (fun i => i.fieldIds.headD 0)

def compositeIndexDefs (schema : Schema) (c : UInt32) : List (UInt32 × List UInt32) :=
  ((schema.indexes.filter (fun i => i.collectionId = c ∧ i.status = .ready)).filter
    (fun i => 2 ≤ i.fieldIds.length)).map (fun i => (i.id, i.fieldIds))

def needOld (schema : Schema) (c fid : UInt32) : Bool :=
  (indexedFieldIds schema c).contains fid ||
    (compositeIndexDefs schema c).any (fun d => d.2.contains fid)

def compositeTuples (written : List (UInt32 × Value)) (oldValues : OrderedMap UInt32 Value)
    (fids : List UInt32) : List (Option Value) × List (Option Value) :=
  (fids.map (fun fid => written.lookup fid), fids.map oldValues.get)

def tupleEq : List (Option Value) → List (Option Value) → Bool
  | [], [] => true
  | a :: s, b :: t => optionEq a b && tupleEq s t
  | _, _ => false

def complete (tuple : List (Option Value)) : Bool := tuple.all Option.isSome

def components (tuple : List (Option Value)) : List Bytes :=
  (tuple.filterMap id).map Value.encodeOrdered

/-- What is known of the entity before a put. -/
structure OldFields where
  values : OrderedMap UInt32 Value
  staleKeys : List Bytes

namespace OldFields

def empty : OldFields := ⟨.empty, []⟩

/- A value that does not decode is left out. -/
def keep (old : OldFields) (fid : UInt32) (stored : Bytes) : OldFields :=
  match Value.decode stored with
  | .ok v => { old with values := old.values.insert fid v }
  | .error _ => old

def stale (old : OldFields) (key : Bytes) : OldFields :=
  { old with staleKeys := old.staleKeys ++ [key] }

end OldFields

section Put
variable (schema : Schema) (c : UInt32) (e : Bytes)

def staleField (old : OldFields) (fid : UInt32) : KvProg OldFields := do
  let key := encodeEntityKey c e fid
  match ← get key with
  | none => return old
  | some stored =>
    let old := old.stale key
    return if needOld schema c fid then old.keep fid stored else old

def writtenField (old : OldFields) (w : UInt32 × Value) : KvProg OldFields :=
  if !needOld schema c w.1 then pure old
  else do
    match ← get (encodeEntityKey c e w.1) with
    | none => return old
    | some stored => return old.keep w.1 stored

def warmOld (hint newIds : List UInt32) (written : List (UInt32 × Value)) : KvProg OldFields := do
  let old ← (hint.filter (fun fid => fid ∉ newIds)).foldlM (staleField schema c e) .empty
  written.foldlM (writtenField schema c e) old

def coldRow (newIds : List UInt32) (old : OldFields) (r : Rec) : OldFields :=
  match decodeEntityKey r.1 with
  | none => old
  | some (_, _, fid) =>
    let old := if fid ∈ newIds then old else old.stale r.1
    match r.2 with
    | none => old
    | some stored => old.keep fid stored

def coldOld (newIds : List UInt32) : KvProg OldFields := do
  let rows ← scan (some (entityRange c e).1) (entityRange c e).2
  return rows.foldl (coldRow newIds) .empty

variable (written : List (UInt32 × Value)) (old : OldFields)

def indexPuts : List Rec :=
  (written.filter (fun w => (indexedFieldIds schema c).contains w.1 &&
    !optionEq (old.values.get w.1) (some w.2))).map
    (fun w => (encodeIndexKey c w.1 w.2.encodeOrdered e, some []))

def compositePuts : List Rec :=
  (compositeIndexDefs schema c).filterMap (fun d =>
    let (newTuple, oldTuple) := compositeTuples written old.values d.2
    if !tupleEq newTuple oldTuple && complete newTuple then
      some (encodeCompositeIndexKey c d.1 (components newTuple) e, some [])
    else none)

def staleDeletes : List Rec := old.staleKeys.map (fun key => (key, none))

def fieldPuts : List Rec := written.map (fun w => (encodeEntityKey c e w.1, some w.2.encode))

def indexDeletes : List Rec :=
  (old.values.entries.filter (fun f => (indexedFieldIds schema c).contains f.1 &&
    !written.any (fun w => w.1 = f.1 && w.2.partialEq f.2))).map
    (fun f => (encodeIndexKey c f.1 f.2.encodeOrdered e, none))

def compositeDeletes : List Rec :=
  (compositeIndexDefs schema c).filterMap (fun d =>
    let (newTuple, oldTuple) := compositeTuples written old.values d.2
    if !tupleEq newTuple oldTuple && complete oldTuple then
      some (encodeCompositeIndexKey c d.1 (components oldTuple) e, none)
    else none)

/- Entries are added to the indexes before the fields are written and taken out behind them. -/
def putWrites : List Rec :=
  indexPuts schema c e written old ++ compositePuts schema c e written old ++
    staleDeletes old ++ fieldPuts c e written ++
    indexDeletes schema c e written old ++ compositeDeletes schema c e written old

/-- `core_put_entity` behind the ids: what the fields were is read, then all is written. -/
def putFields (hinted : Option (List UInt32)) : KvProg Unit := do
  let newIds := (written.map Prod.fst).dedup
  let old ← match hinted with
    | some hint => warmOld schema c e hint newIds written
    | none => coldOld c e newIds
  writeAll (putWrites schema c e written old)

end Put

section Delete
variable (schema : Schema) (c : UInt32) (e : Bytes)

def deleteRow (old : OldFields) (r : Rec) : OldFields :=
  match decodeEntityKey r.1 with
  | none => old
  | some (_, _, fid) =>
    let old := old.stale r.1
    match r.2 with
    | none => old
    | some stored => if needOld schema c fid then old.keep fid stored else old

def deleteWrites (old : OldFields) : List Rec :=
  staleDeletes old ++
    (old.values.entries.filter (fun f => (indexedFieldIds schema c).contains f.1)).map
      (fun f => (encodeIndexKey c f.1 f.2.encodeOrdered e, none)) ++
    (compositeIndexDefs schema c).filterMap (fun d =>
      let tuple := d.2.map old.values.get
      if complete tuple then some (encodeCompositeIndexKey c d.1 (components tuple) e, none)
      else none)

def coreDeleteEntity : KvProg Unit :=
  if !isUtf8 e then fail (.invalidArgument "entity id is not valid utf8")
  else do
    let rows ← scan (some (entityRange c e).1) (entityRange c e).2
    writeAll (deleteWrites schema c e (rows.foldl (deleteRow schema c) .empty))

end Delete

section Read
variable (schema : Schema) (c : UInt32)

def fieldsOf : List Rec → Fallible (List (Chars × Value))
  | [] => pure []
  | (key, value) :: rest =>
    match decodeEntityKey key with
    | none => invalidFormat "bad entity key"
    | some (_, _, fid) =>
      match value with
      | none => fieldsOf rest
      | some stored => do
        let value ← Value.decode stored
        match schema.fieldName.get (toLex (c, fid)) with
        | none => invalidFormat s!"unknown field id {fid.toNat}"
        | some name => return (name, value) :: (← fieldsOf rest)

def coreGetEntity (e : Bytes) : KvProg (Option Entity) := do
  let rows ← scan (some (entityRange c e).1) (entityRange c e).2
  let fields ← lift (fieldsOf schema c rows)
  return if fields = [] then none else some ⟨fields⟩

def collectionRow (found : OrderedMap Bytes Entity) (r : Rec) :
    Fallible (OrderedMap Bytes Entity) :=
  match decodeEntityKey r.1, r.2 with
  | none, _ => pure found
  | some _, none => pure found
  | some (_, e, fid), some stored => do
    let value ← Value.decode stored
    match schema.fieldName.get (toLex (c, fid)) with
    | none => invalidFormat s!"unknown field id {fid.toNat}"
    | some name => return found.insert e (((found.get e).getD .new).insert name value)

def entityIds : List (Bytes × Entity) → Fallible (List (Utf8 × Entity))
  | [] => pure []
  | (e, entity) :: rest => do
    if valid : isUtf8 e then return (⟨e, valid⟩, entity) :: (← entityIds rest)
    else invalidFormat "entity id is not valid utf8"

def coreScanCollection : KvProg (List (Utf8 × Entity)) := do
  let start := collectionPrefix c
  let rows ← scan (some start) (successor start)
  let found ← lift (rows.foldlM (collectionRow schema c) .empty)
  lift (entityIds found.entries)

/-- Rows that were scanned before, read like a store. -/
def directScan (rows : List Rec) : Machine Error Bytes Bytes Unit where
  get key := pure (rows.lookup key).join
  scan start stop := pure (rangeOf start stop rows)
  write _ _ := throw (.error (.invalidArgument "read-only view"))

def readRows {α : Type} (rows : List Rec) (p : KvProg α) : Except (Stop Error) α :=
  match p.run (directScan rows) () with
  | .ok a _ => .ok a
  | .error e _ => .error e

end Read

/-- The first half of `core_cas_entity`: what is there is read, compared and patched. -/
def casEntity (schema : Schema) (c : UInt32) (e : Bytes) (expected : Expected)
    (patch : List Patch) : KvProg Entity := do
  let rows ← scan (some (entityRange c e).1) (entityRange c e).2
  let current ← lift (readRows rows (coreGetEntity schema c e))
  match expected.failure current with
  | some reason => fail (.conflict c.toNat (utf8Text e) reason)
  | none => lift (applyPatch (current.getD .new) patch)

end MyLsmDb
