import MyLsmDb.EntityCore

/-! Secondary indexes over the key-value store: all entries of one are taken out, or made anew
from the entities. -/
namespace MyLsmDb.Index
open ByteOrder (Bytes)
open KeyValue
open OrderedEntries

/-- `Database::scan`, which passes over what was deleted. -/
def scanLive (start : Bytes) (stop : Option Bytes) : KvProg (List Rec) := do
  return (← scan (some start) stop).filter (fun r => r.2.isSome)

def clearRange (start : Bytes) : KvProg Unit := do
  let rows ← scanLive start (successor start)
  writeAll (rows.map (fun r => (r.1, none)))

def clear (c f : UInt32) : KvProg Unit := clearRange (indexFieldPrefix c f)

def clearComposite (c index : UInt32) : KvProg Unit :=
  match successor (compositePrefix c index) with
  | none => fail (.invalidFormat "composite prefix has no successor")
  | some _ => clearRange (compositePrefix c index)

def rebuildRow (c f : UInt32) (r : Rec) : KvProg Unit :=
  match decodeEntityKey r.1, r.2 with
  | some (collection, e, field), some stored =>
    if collection ≠ c ∨ field ≠ f then pure ()
    else do
      let value ← lift (Value.decode stored)
      put (encodeIndexKey c f value.encodeOrdered e) []
  | _, _ => pure ()

def rebuild (c f : UInt32) : KvProg Unit := do
  clear c f
  let rows ← scanLive (collectionPrefix c) (successor (collectionPrefix c))
  rows.forM (rebuildRow c f)

/-- The fields of every entity that is met; a value that does not decode is left out. -/
def entityRow (found : OrderedMap Bytes (OrderedMap UInt32 Value)) (r : Rec) :
    OrderedMap Bytes (OrderedMap UInt32 Value) :=
  match decodeEntityKey r.1, r.2 with
  | some (_, e, field), some stored =>
    match Value.decode stored with
    | .ok value => found.insert e (((found.get e).getD .empty).insert field value)
    | .error _ => found
  | _, _ => found

def compositeEntries (c index : UInt32) (fieldIds : List UInt32)
    (found : OrderedMap Bytes (OrderedMap UInt32 Value)) : List Rec :=
  found.entries.filterMap (fun e =>
    let tuple := fieldIds.map e.2.get
    if complete tuple then some (encodeCompositeIndexKey c index (components tuple) e.1, some [])
    else none)

def rebuildComposite (c index : UInt32) (fieldIds : List UInt32) : KvProg Unit := do
  clearComposite c index
  match successor (collectionPrefix c) with
  | none => fail (.invalidFormat "collection prefix has no successor")
  | some stop => do
    let rows ← scanLive (collectionPrefix c) (some stop)
    writeAll (compositeEntries c index fieldIds (rows.foldl entityRow .empty))

end MyLsmDb.Index
