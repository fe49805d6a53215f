import MyLsmDb.Backup
import MyLsmDb.Index
import MyLsmDb.Overlay

/-! The entity store: the engine, the schema and a hint of the fields that an entity has. Each
call comes in two forms, straight on the engine and inside a transaction. -/
namespace MyLsmDb
open ByteOrder (Bytes)
open Effect
open KeyValue (Machine Prog)
open OrderedEntries
open Text
open Wal (Crc32)

abbrev FieldHint := OrderedMap (UInt32 ×ₗ Bytes) (List UInt32)

structure EntityStore where
  db : Database
  schema : Schema
  fieldHint : FieldHint

abbrev StoreM := Act Error EntityStore

inductive TxState where
  | active
  | committed
  | aborted
  deriving DecidableEq, Repr

/-- While it lives, a transaction has the store for itself. -/
structure Transaction where
  store : EntityStore
  id : Nat
  pending : OrderedMap Bytes Entry
  state : TxState

abbrev TransactionM := Act Error Transaction

/-- Where the core functions run. -/
structure Side (σ : Type) where
  schema : σ → Schema
  setSchema : Schema → σ → σ
  hint : UInt32 → Bytes → σ → Option (List UInt32)
  setHint : UInt32 → Bytes → List UInt32 → σ → σ
  machine : Machine Error Bytes Bytes σ

def allocFields (c : UInt32) : List (Chars × Value) → Schema → List (UInt32 × Value) × Schema
  | [], s => ([], s)
  | (name, value) :: rest, s =>
    let (id, s) := s.fieldId c name
    let (written, s) := allocFields c rest s
    ((id, value) :: written, s)

section Core
variable {σ : Type} (side : Side σ)

def requireUtf8 (e : Bytes) : Act Error σ Unit :=
  if isUtf8 e then pure () else throw (.error (.invalidArgument "entity id is not valid utf8"))

def corePutEntity (c : UInt32) (e : Bytes) (entity : Entity) : Act Error σ Unit := do
  requireUtf8 e
  let (written, schema) := allocFields c entity.fields (side.schema (← get))
  modify (side.setSchema schema)
  (putFields schema c e written (side.hint c e (← get))).run side.machine
  modify (side.setHint c e (written.map Prod.fst).dedup)

def coreCasEntity (c : UInt32) (e : Bytes) (expected : Expected) (patch : List Patch) :
    Act Error σ Entity := do
  let entity ← (casEntity (side.schema (← get)) c e expected patch).run side.machine
  corePutEntity side c e entity
  return entity

def collectionIdOf (name : Chars) : Act Error σ UInt32 := do
  let (c, schema) := (side.schema (← get)).collectionId name
  modify (side.setSchema schema)
  return c

end Core

/-- A query of whatever kind, `find` and the aggregates among them, reads the schema and the store. -/
structure Query where
  prog : Schema → KvProg Unit
  readOnly : ∀ schema, (prog schema).ReadOnly

namespace EntityStore

def onDb {α : Type} (x : DbM α) : StoreM α := zoom EntityStore.db (fun db s => { s with db }) x

def setSchema (schema : Schema) (s : EntityStore) : EntityStore := { s with schema }

def boot (disk : Disk) (faults : List Fault) (opts : Options) : EntityStore :=
  ⟨Database.boot disk faults opts, .new, .empty⟩

def saveSchema : StoreM Unit := do
  let text := (← get).schema.save
  onDb (Database.atomically (fun d => { d with schema := some text }))
  modify (fun s => { s with schema := s.schema.saved })

def persistSchema : StoreM Unit := do
  if (← get).schema.changed then saveSchema

def flush : StoreM Unit := onDb Database.flush

/-- The schema is copied as it was saved. -/
def backup : Act Error (EntityStore × Option Disk) Nat :=
  zoom (fun s => (s.1.db, s.2)) (fun b s => ({ s.1 with db := b.1 }, b.2)) Database.backup

def drop : StoreM Unit := onDb Database.drop

/-- The store is dropped where an error, or a panic, comes up. -/
def dropOnError (x : StoreM Unit) : StoreM Unit :=
  tryCatch x (fun e => do
    if e ≠ .crash then drop
    throw e)

def close : StoreM Unit := dropOnError (do
  persistSchema
  onDb Database.close)

section Writes
variable [Crc32]

def machine : Machine Error Bytes Bytes EntityStore where
  get key := onDb (Database.get key)
  scan start stop := onDb (Database.scanAll start stop)
  write key value := onDb (Database.putInternal key value)

def side : Side EntityStore where
  schema := EntityStore.schema
  setSchema := setSchema
  hint c e s := s.fieldHint.get (toLex (c, e))
  setHint c e ids s := { s with fieldHint := s.fieldHint.insert (toLex (c, e)) ids }
  machine := machine

def collection (name : Chars) : StoreM UInt32 := do
  let c ← collectionIdOf side name
  persistSchema
  return c

def putEntity (c : UInt32) (e : Bytes) (entity : Entity) : StoreM Unit := do
  corePutEntity side c e entity
  persistSchema

def casUpdate (name : Chars) (e : Utf8) (expected : Expected) (patch : List Patch) :
    StoreM Entity := do
  let c ← collectionIdOf side name
  let entity ← coreCasEntity side c e.bytes expected patch
  persistSchema
  return entity

def getEntity (c : UInt32) (e : Bytes) : StoreM (Option Entity) := do
  (coreGetEntity (← get).schema c e).run machine

def scanCollection (name : Chars) : StoreM (List (Utf8 × Entity)) := do
  let schema := (← get).schema
  match schema.lookupCollectionId name with
  | none => return []
  | some c => (coreScanCollection schema c).run machine

def deleteEntity (c : UInt32) (e : Bytes) : StoreM Unit := do
  (coreDeleteEntity (← get).schema c e).run machine
  modify (fun s => { s with fieldHint := s.fieldHint.erase (toLex (c, e)) })

def query (q : Query) : StoreM Unit := do
  (q.prog (← get).schema).run machine

/-- Saved as building, built, saved as ready. -/
def buildIndex (id : UInt32) (build : KvProg Unit) : StoreM Unit := do
  saveSchema
  build.run machine
  modify (fun s => { s with schema := s.schema.setIndexReady id })
  saveSchema

def createIndex (c f : UInt32) : StoreM Unit := do
  let (id, schema) := (← get).schema.createIndex c f
  modify (setSchema schema)
  buildIndex id (Index.rebuild c f)

def createCompositeIndex (c : UInt32) (fields : List UInt32) : StoreM Unit := do
  let (id, schema) := (← get).schema.createCompositeIndex c fields
  modify (setSchema schema)
  buildIndex id (Index.rebuildComposite c id fields)

def removeIndex (id : UInt32) (clear : KvProg Unit) : StoreM Unit := do
  clear.run machine
  modify (fun s => { s with schema := s.schema.dropIndex id })
  saveSchema

def dropIndex (c f : UInt32) : StoreM Unit := do
  match (← get).schema.findIndex c f with
  | none => return ()
  | some d => removeIndex d.id (Index.clear c f)

def dropCompositeIndex (c : UInt32) (fields : List UInt32) : StoreM Unit := do
  match (← get).schema.findIndexByFields c fields with
  | none => return ()
  | some d => removeIndex d.id (Index.clearComposite c d.id)

def fieldIds (c : UInt32) : List Chars → StoreM (List UInt32)
  | [] => return []
  | name :: rest => do
    let (f, schema) := (← get).schema.fieldId c name
    modify (setSchema schema)
    return f :: (← fieldIds c rest)

def recoverIndex (i : IndexDef) : StoreM Unit :=
  match i.fieldIds with
  | [f] => createIndex i.collectionId f
  | fields => createCompositeIndex i.collectionId fields

/-- Indexes that a crash left unfinished are built anew. -/
def recoverIndexes : StoreM Unit := do
  (← get).schema.buildingIndexes.forM recoverIndex

def loadSchema : StoreM Unit := do
  let schema ← lift (Schema.load (← get).db.disk.schema)
  modify (setSchema schema)

def openWith : StoreM Unit := do
  onDb Database.openWith
  dropOnError (do
    loadSchema
    recoverIndexes)

end Writes
end EntityStore

namespace Transaction

def onStore {α : Type} (x : StoreM α) : TransactionM α :=
  zoom Transaction.store (fun store t => { t with store }) x

def onView {α : Type} (x : TxM α) : TransactionM α :=
  zoom (fun t => ⟨t.store.db, t.pending⟩)
    (fun m t => { t with store := { t.store with db := m.db }, pending := m.pending }) x

def machine : Machine Error Bytes Bytes Transaction where
  get key := onView (TxMutator.get key)
  scan start stop := onView (TxMutator.scan start stop)
  write key value := onView (TxMutator.write key value)

/-- In a transaction nothing is hinted. -/
def side : Side Transaction where
  schema t := t.store.schema
  setSchema schema t := { t with store := t.store.setSchema schema }
  hint _ _ _ := none
  setHint _ _ _ t := t
  machine := machine

def begin (s : EntityStore) : Transaction :=
  ⟨{ s with db := { s.db with nextTxId := s.db.nextTxId + 1 } }, s.db.nextTxId, .empty, .active⟩

def checkActive : TransactionM Unit := do
  if (← get).state ≠ .active then throw (.error (.invalidArgument "transaction is not active"))

def update (name : Chars) (e : Utf8) (entity : Entity) : TransactionM Unit := do
  checkActive
  let c ← collectionIdOf side name
  corePutEntity side c e.bytes entity

def casUpdate (name : Chars) (e : Utf8) (expected : Expected) (patch : List Patch) :
    TransactionM Entity := do
  checkActive
  let c ← collectionIdOf side name
  coreCasEntity side c e.bytes expected patch

def delete (name : Chars) (e : Utf8) : TransactionM Unit := do
  checkActive
  let c ← collectionIdOf side name
  (coreDeleteEntity (← get).store.schema c e.bytes).run machine

def getEntity (name : Chars) (e : Utf8) : TransactionM (Option Entity) := do
  checkActive
  let schema := (← get).store.schema
  match schema.lookupCollectionId name with
  | none => return none
  | some c => do
    let range := entityRange c e.bytes
    let rows ← machine.scan (some range.1) range.2
    lift (readRows rows (coreGetEntity schema c e.bytes))

def scanCollection (name : Chars) : TransactionM (List (Utf8 × Entity)) := do
  checkActive
  let schema := (← get).store.schema
  match schema.lookupCollectionId name with
  | none => return []
  | some c => do
    let start := collectionPrefix c
    let rows ← machine.scan (some start) (successor start)
    lift (readRows rows (coreScanCollection schema c))

def query (q : Query) : TransactionM Unit := do
  checkActive
  (q.prog (← get).store.schema).run machine

/-- Entities that were written behind the hint lose theirs. -/
def forgetHints (pending : List Rec) (hint : FieldHint) : FieldHint :=
  pending.foldl (fun hint w => match decodeEntityKey w.1 with
    | some (c, e, _) => hint.erase (toLex (c, e))
    | none => hint) hint

def abort : TransactionM Unit := do
  checkActive
  modify (fun t => { t with pending := .empty, state := .aborted })

variable [Crc32]

def commit : TransactionM Unit := do
  checkActive
  onStore EntityStore.persistSchema
  let t ← get
  onStore (EntityStore.onDb (Database.commitPending t.id t.pending.entries))
  modify (fun t => { t with
    store := { t.store with fieldHint := forgetHints t.pending.entries t.store.fieldHint }
    state := .committed })

end Transaction

inductive TxCall where
  | update (name : Chars) (e : Utf8) (entity : Entity)
  | casUpdate (name : Chars) (e : Utf8) (expected : Expected) (patch : List Patch)
  | delete (name : Chars) (e : Utf8)
  | getEntity (name : Chars) (e : Utf8)
  | scanCollection (name : Chars)
  | query (q : Query)
  | commit
  | abort

inductive StoreCall where
  | collection (name : Chars)
  | putEntity (c : UInt32) (e : Bytes) (entity : Entity)
  | casUpdate (name : Chars) (e : Utf8) (expected : Expected) (patch : List Patch)
  | deleteEntity (c : UInt32) (e : Bytes)
  | getEntity (c : UInt32) (e : Bytes)
  | scanCollection (name : Chars)
  | query (q : Query)
  | createIndex (c f : UInt32)
  | createCompositeIndex (c : UInt32) (fields : List UInt32)
  | dropIndex (c f : UInt32)
  | dropCompositeIndex (c : UInt32) (fields : List UInt32)
  | fieldIds (c : UInt32) (names : List Chars)
  | transact (calls : List TxCall)
  | flush
  | backup (dest : Option Disk)

/-- How a process gives the store up. -/
inductive Leave where
  | close
  | drop
  deriving DecidableEq, Repr

section Calls
variable [Crc32]

namespace TxCall

def run : TxCall → TransactionM Unit
  | update name e entity => Transaction.update name e entity
  | casUpdate name e expected patch => do let _ ← Transaction.casUpdate name e expected patch
  | delete name e => Transaction.delete name e
  | getEntity name e => do let _ ← Transaction.getEntity name e
  | scanCollection name => do let _ ← Transaction.scanCollection name
  | query q => Transaction.query q
  | commit => Transaction.commit
  | abort => Transaction.abort

end TxCall

namespace StoreCall

/-- A transaction: begun, used whatever its calls report, and dropped. -/
def runTransact (calls : List TxCall) : StoreM Unit :=
  zoom Transaction.begin (fun t _ => t.store) (calls.forM (fun call => ignoreError call.run))

def run : StoreCall → StoreM Unit
  | collection name => do let _ ← EntityStore.collection name
  | putEntity c e entity => EntityStore.putEntity c e entity
  | casUpdate name e expected patch => do let _ ← EntityStore.casUpdate name e expected patch
  | deleteEntity c e => EntityStore.deleteEntity c e
  | getEntity c e => do let _ ← EntityStore.getEntity c e
  | scanCollection name => do let _ ← EntityStore.scanCollection name
  | query q => EntityStore.query q
  | createIndex c f => EntityStore.createIndex c f
  | createCompositeIndex c fields => EntityStore.createCompositeIndex c fields
  | dropIndex c f => EntityStore.dropIndex c f
  | dropCompositeIndex c fields => EntityStore.dropCompositeIndex c fields
  | fieldIds c names => do let _ ← EntityStore.fieldIds c names
  | transact calls => runTransact calls
  | flush => EntityStore.flush
  | backup dest => zoom (·, dest) (fun p _ => p.1) (do let _ ← EntityStore.backup)

def all : List StoreCall → StoreM Unit
  | [] => pure ()
  | call :: calls => do
    call.run
    all calls

end StoreCall

def Leave.run : Leave → StoreM Unit
  | close => EntityStore.close
  | drop => EntityStore.drop

end Calls
end MyLsmDb
