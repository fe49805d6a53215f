import MyLsmDb.Iterator
import MyLsmDb.Manifest
import MyLsmDb.Wal

/-! The key-value engine: log, memtable, tables of level 0, segments of level 1. Every
write to the medium asks a list of faults how it goes, so that one run can succeed, report
an I/O error or lose the machine at any of its writes. -/
namespace MyLsmDb
open BinarySearch (search)
open ByteOrder (Bytes)
open Effect
open Iterator
open OrderedEntries
open Sstable (TableReader tableFile)
open Text
open Wal (Crc32)

structure Options where
  memtableLimit : Nat
  l0CompactThreshold : Nat
  segmentMaxRecords : Nat
  deriving DecidableEq, Repr

/-- What is on the medium. `tail` is appended to the log but not synced; `cuts` has the log and the
tail as they were before each truncation that has not been synced either. -/
structure Disk where
  version : Option Chars
  manifest : Option Chars
  schema : Option Chars
  tables : OrderedMap Nat Bytes
  wal : Bytes
  tail : Bytes
  cuts : List (Bytes × Bytes)

namespace Disk

def empty : Disk := ⟨none, none, none, .empty, [], [], []⟩

/-- After the machine went down: of the tail, the first `kept` bytes are there. -/
def crashed (d : Disk) (kept : Nat) : Disk := { d with wal := d.wal ++ d.tail.take kept, tail := [] }

/-- What is found when the machine is up again: what the crash has left, or the log as it was before
a truncation that was not synced, with a part of the tail that it had then. -/
inductive Found (d : Disk) : Disk → Prop where
  | left : Found d { d with cuts := [] }
  | undone {cut : Bytes × Bytes} (mem : cut ∈ d.cuts) (kept : Nat) :
    Found d { d with wal := cut.1 ++ cut.2.take kept, cuts := [] }

end Disk

/-- How a write goes: of what it writes, `arrived` is on the medium when it does not succeed. -/
inductive Fault where
  | pass
  | fail (arrived : Nat)
  | crash (arrived kept : Nat)
  deriving DecidableEq, Repr

structure Database where
  disk : Disk
  faults : List Fault
  memtable : MemTable
  manifest : Manifest
  opts : Options
  closed : Bool
  tableCache : List (Nat × TableReader)
  nextTxId : Nat
  formatVersion : Nat
  /-- History: what was handed to the table builder. No function reads it. -/
  built : List (List Rec)
  /-- History: the manifests handed to `save`. No function reads it. -/
  saves : List Manifest

abbrev DbM := Act Error Database

namespace Database

def boot (disk : Disk) (faults : List Fault) (opts : Options) : Database :=
  ⟨disk, faults, .new, .new, opts, false, [], 0, 0, [], []⟩

def nextFault : DbM Fault := do
  match (← get).faults with
  | [] => return .pass
  | f :: rest =>
    modify ({ · with faults := rest })
    return f

def modifyDisk (f : Disk → Disk) : DbM Unit := modify (fun db => { db with disk := f db.disk })

/-- One write: all of it, or `onFail` and an error, or `onCrash` and the machine is down. -/
def effect (fully : Disk → Disk) (onFail onCrash : Nat → Disk → Disk) : DbM Unit := do
  match ← nextFault with
  | .pass => modifyDisk fully
  | .fail arrived =>
    modifyDisk (onFail arrived)
    throw (.error .io)
  | .crash arrived kept =>
    modifyDisk (fun d => (onCrash arrived d).crashed kept)
    throw .crash

/-- A file replaced by `rename`: there is no state in between. -/
def atomically (fully : Disk → Disk) : DbM Unit :=
  effect fully (fun _ d => d) (fun arrived d => if arrived = 0 then d else fully d)

/- A table file is created, then its bytes arrive; the reader is never given a partial one
because the manifest refers to it only afterwards. -/
def createTable (id : Nat) (bytes : Bytes) : DbM Unit :=
  let partly : Nat → Disk → Disk := fun arrived d => match arrived with
    | 0 => d
    | n + 1 => { d with tables := d.tables.insert id (bytes.take n) }
  effect (fun d => { d with tables := d.tables.insert id bytes }) partly partly

def saveManifest : DbM Unit := do
  let manifest := (← get).manifest
  modify (fun db => { db with saves := db.saves ++ [manifest] })
  let text := manifest.save
  atomically (fun d => { d with manifest := some text })

/- The buffer of the writer may pass on a part of the record before it reports an error. -/
def walAppend (bytes : Bytes) : DbM Unit :=
  let partly : Nat → Disk → Disk := fun arrived d => { d with tail := d.tail ++ bytes.take arrived }
  effect (fun d => { d with tail := d.tail ++ bytes }) partly partly

def walSync : DbM Unit :=
  effect (fun d => { d with wal := d.wal ++ d.tail, tail := [], cuts := [] }) (fun _ d => d)
    (fun _ d => d)

/- `set_len` is not followed by a sync. -/
def walTruncate : DbM Unit :=
  atomically (fun d => { d with wal := [], tail := [], cuts := d.cuts ++ [(d.wal, d.tail)] })

def removeFile (id : Nat) : DbM Unit :=
  ignoreError (atomically (fun d => { d with tables := d.tables.erase id }))

def buildTableFromSorted (id : Nat) (records : List Rec) : DbM Unit := do
  modify (fun db => { db with built := db.built ++ [records] })
  createTable id (tableFile records)

def openTable (id : Nat) : DbM TableReader := do
  match (← get).disk.tables.get id with
  | none => throw (.error .io)
  | some bytes => lift (TableReader.openFile bytes)

def cacheReader (id : Nat) (reader : TableReader) : DbM Unit :=
  modify (fun db => { db with tableCache := (id, reader) :: db.tableCache })

/- The reader is kept after a negative lookup too, but not after one that failed. -/
def lookupTable (id : Nat) (key : Bytes) : DbM (Option Entry) := do
  match (← get).tableCache.lookup id with
  | some reader => lift (reader.lookup key)
  | none => do
    let reader ← openTable id
    let result ← lift (reader.lookup key)
    cacheReader id reader
    return result

def lookupFirst (key : Bytes) : List Nat → DbM (Option Entry)
  | [] => return none
  | id :: rest => do
    match ← lookupTable id key with
    | some entry => return some entry
    | none => lookupFirst key rest

def findSegment (segs : List SegmentMeta) (key : Bytes) : Option Nat :=
  if segs = [] then none
  else
    let lo := search (fun mid => (segs[mid]?).any (fun s => decide (s.minKey ≤ key)))
      segs.length 0 segs.length
    if lo = 0 then none
    else if (segs[lo - 1]?).any (fun s => decide (key ≤ s.maxKey)) then some (lo - 1) else none

/-- `None` stands for a key that is absent or deleted. -/
def get (key : Bytes) : DbM (Option Bytes) := do
  let db ← MonadState.get
  match db.memtable.get key with
  | some entry => return entry
  | none =>
    match ← lookupFirst key (db.manifest.levels.headD []).reverse with
    | some entry => return entry
    | none =>
      match findSegment db.manifest.segments key with
      | none => return none
      | some i =>
        match db.manifest.segments[i]? with
        | none => throw .panic
        | some seg =>
          match ← lookupTable seg.fileId key with
          | some entry => return entry
          | none => return none

def cachedReader (id : Nat) : DbM TableReader := do
  match (← MonadState.get).tableCache.lookup id with
  | some reader => return reader
  | none => do
    let reader ← openTable id
    cacheReader id reader
    return reader

def tableSources (start stop : Option Bytes) : List Nat → DbM (List Source)
  | [] => return []
  | id :: rest => do
    let reader ← cachedReader id
    return .table (TableIter.fromReader reader start stop) :: (← tableSources start stop rest)

def scanStream (start stop : Option Bytes) : DbM (MergeIter Source) := do
  let db ← MonadState.get
  let l0 ← tableSources start stop (db.manifest.levels.headD []).reverse
  let l1 ← tableSources start stop (db.manifest.segments.map SegmentMeta.fileId)
  return MergeIter.new (.vec (memtableSource db.memtable start stop) :: (l0 ++ l1))

/-- The raw scan, tombstones included. -/
def scanAll (start stop : Option Bytes) : DbM (List Rec) := do
  let merge ← scanStream start stop
  lift merge.collect

def scan (start stop : Option Bytes) : DbM (List Rec) := do
  return (← scanAll start stop).filter (fun r => r.2.isSome)

def setManifest (f : Manifest → Manifest) : DbM Unit :=
  modify (fun db => { db with manifest := f db.manifest })

def clearCache : DbM Unit := modify ({ · with tableCache := [] })

def allocTableId : DbM Nat := do
  let id := (← MonadState.get).manifest.nextTableId
  setManifest (fun m => { m with nextTableId := m.nextTableId + 1 })
  return id

def writeTable (records : List Rec) : DbM Nat := do
  let id ← allocTableId
  buildTableFromSorted id records
  return id

def updateLevel0 (f : List Nat → List Nat) (m : Manifest) : Manifest :=
  match m.levels with
  | [] => { m with levels := [f []] }
  | ids :: rest => { m with levels := f ids :: rest }

def mergeSources : List Nat → DbM (List (List Rec))
  | [] => return []
  | id :: rest => do
    let reader ← openTable id
    let records ← lift reader.iter
    return records :: (← mergeSources rest)

def mergeIds (ids : List Nat) (dropTombstones : Bool) : DbM (List Rec) := do
  let sources ← mergeSources ids
  let merged ← lift (mergeVecs sources)
  return if dropTombstones then merged.filter (fun r => r.2.isSome) else merged

def widen (bounds : Option (Bytes × Bytes)) (first last : Bytes) : Bytes × Bytes :=
  match bounds with
  | none => (first, last)
  | some (lo, hi) => (if first < lo then first else lo, if hi < last then last else hi)

def tableBounds (bounds : Option (Bytes × Bytes)) : List Nat → DbM (Option (Bytes × Bytes))
  | [] => return bounds
  | id :: rest => do
    let reader ← openTable id
    match reader.keyBounds with
    | none => throw (.error (.corrupt "empty L0 table referenced in compact"))
    | some (first, last) => tableBounds (some (widen bounds first last)) rest

def chunkLoop (n : Nat) : Nat → List Rec → List (List Rec)
  | 0, _ => []
  | fuel + 1, l => if l = [] then [] else l.take n :: chunkLoop n fuel (l.drop n)

def chunks (n : Nat) (l : List Rec) : Fallible (List (List Rec)) :=
  if n = 0 then throw .panic else pure (chunkLoop n l.length l)

def writeSegments : List (List Rec) → DbM (List SegmentMeta)
  | [] => return []
  | chunk :: rest => do
    match chunk.head?, chunk.getLast? with
    | some first, some last => do
      let id ← writeTable chunk
      return ⟨id, first.1, last.1, chunk.length⟩ :: (← writeSegments rest)
    | _, _ => writeSegments rest

def sortSegments (segs : List SegmentMeta) : List SegmentMeta :=
  segs.insertionSort (fun a b => a.minKey ≤ b.minKey)

def overlaps (lo hi : Bytes) (s : SegmentMeta) : Bool := decide (s.minKey ≤ hi) && decide (lo ≤ s.maxKey)

/-- The manifest first, then the old files. -/
def replaceTables (segments : List SegmentMeta) (old : List Nat) : DbM Unit := do
  setManifest (fun m => updateLevel0 (fun _ => []) { m with segments })
  saveManifest
  clearCache
  old.forM removeFile

/-- Merges the tables named into fresh segments beside the retained ones. -/
def mergeInto (l0 overlapIds : List Nat) (retained : List SegmentMeta) : DbM Unit := do
  let merged ← mergeIds (l0.reverse ++ overlapIds) true
  let parts ← lift (chunks (← MonadState.get).opts.segmentMaxRecords merged)
  let newSegments ← writeSegments parts
  replaceTables (sortSegments (retained ++ newSegments)) (l0 ++ overlapIds)

def compact : DbM Unit := do
  let db ← MonadState.get
  let l0 := db.manifest.levels.headD []
  if l0.length < db.opts.l0CompactThreshold then return ()
  match ← tableBounds none l0 with
  | none => throw (.error (.corrupt "empty L0 table in compact"))
  | some (lo, hi) =>
    let overlapIds := (db.manifest.segments.filter (overlaps lo hi)).map SegmentMeta.fileId
    let retained := db.manifest.segments.filter (fun s => !overlaps lo hi s)
    mergeInto l0 overlapIds retained

def flush : DbM Unit := do
  let db ← MonadState.get
  if db.memtable.isEmpty then return ()
  let id ← allocTableId
  buildTableFromSorted id db.memtable.iter
  setManifest (updateLevel0 (· ++ [id]))
  saveManifest
  clearCache
  walTruncate
  modify ({ · with memtable := .new })
  let db ← MonadState.get
  if (db.manifest.levels.headD []).length ≥ db.opts.l0CompactThreshold then compact

def compactFull : DbM Nat := do
  flush
  let db ← MonadState.get
  let l0 := db.manifest.levels.headD []
  let oldSegmentIds := db.manifest.segments.map SegmentMeta.fileId
  mergeInto l0 oldSegmentIds []
  return (← MonadState.get).manifest.segments.length

def flushIfOverLimit : DbM Unit := do
  let db ← MonadState.get
  if db.memtable.sizeBytes ≥ db.opts.memtableLimit then flush

def memPut (key : Bytes) (value : Entry) : DbM Unit :=
  modify (fun db => { db with memtable := db.memtable.put key value })

section Writes
variable [Crc32]

def putInternal (key : Bytes) (value : Entry) : DbM Unit := do
  walAppend (Wal.append key value)
  memPut key value
  flushIfOverLimit

def put (key value : Bytes) : DbM Unit := putInternal key (some value)
def delete (key : Bytes) : DbM Unit := putInternal key none

def allocTxId : DbM Nat := do
  let id := (← MonadState.get).nextTxId
  modify (fun db => { db with nextTxId := db.nextTxId + 1 })
  return id

def walTxWrite (tx : Nat) (w : Rec) : DbM Unit :=
  match w.2 with
  | some v => walAppend (Wal.appendTxPut tx w.1 v)
  | none => walAppend (Wal.appendTxDelete tx w.1)

/-- What `Transaction::commit` does with its mutations: log, sync, then the memtable. -/
def commitPending (tx : Nat) (pending : List Rec) : DbM Unit := do
  walAppend (Wal.appendBegin tx)
  pending.forM (walTxWrite tx)
  walAppend (Wal.appendCommit tx)
  walSync
  pending.forM (fun w => memPut w.1 w.2)
  ignoreError flushIfOverLimit

def close : DbM Unit := do
  if (← MonadState.get).closed then return ()
  flush
  walSync
  saveManifest
  modify ({ · with closed := true })

def drop : DbM Unit := do
  if (← MonadState.get).closed then return ()
  ignoreError flush
  ignoreError walSync

def formatVersionNumber : Nat := 1
def minSupportedVersion : Nat := 1

def versionText : Chars := joinSpace [['V'], decimal formatVersionNumber] ++ ['\n']

def parseVersion (text : Chars) : Fallible (Option Nat) :=
  match tokens text with
  | ['V'] :: rest =>
    match rest with
    | [] => invalidFormat "VERSION: missing version number"
    | n :: more =>
      match parseDecimal (2 ^ 32) n with
      | none => invalidFormat "VERSION: invalid version number"
      | some v => if more = [] then pure (some v) else invalidFormat "VERSION: trailing tokens"
  | _ => invalidFormat "VERSION: missing 'V' marker"

def readVersion (d : Disk) : Fallible (Option Nat) :=
  match d.version with
  | none => pure none
  | some text => parseVersion text

def checkCompatible (found : Nat) : Fallible Unit :=
  if found < minSupportedVersion ∨ found > formatVersionNumber then
    throw (.error (.unsupportedFormatVersion found minSupportedVersion formatVersionNumber))
  else pure ()

def openVersion : DbM Nat := do
  let disk := (← MonadState.get).disk
  match ← lift (readVersion disk) with
  | some v => do
    lift (checkCompatible v)
    return v
  | none =>
    if disk.manifest = none then do
      atomically (fun d => { d with version := some versionText })
      return formatVersionNumber
    else return 1

def legacySegments : List Nat → DbM (List SegmentMeta)
  | [] => return []
  | id :: rest => do
    let reader ← openTable id
    match reader.keyBounds with
    | none => throw (.error (.corrupt "legacy L1 table without index keys"))
    | some (first, last) =>
      return ⟨id, first, last, reader.numRecords⟩ :: (← legacySegments rest)

/- Tables that an old manifest lists for level 1 become segments. -/
def convertLegacyL1 : DbM Unit := do
  let m := (← MonadState.get).manifest
  if m.segments ≠ [] then return ()
  match m.levels[1]? with
  | none => return ()
  | some [] => return ()
  | some legacy => do
    let segs ← legacySegments legacy
    setManifest (fun m => { m with segments := sortSegments segs, levels := m.levels.set 1 [] })
    let m := (← MonadState.get).manifest
    lift m.validate

def validateSegments : List SegmentMeta → DbM Unit
  | [] => return ()
  | seg :: rest => do
    if (← MonadState.get).disk.tables.get seg.fileId = none then
      throw (.error (.corrupt "manifest references missing segment file"))
    let reader ← openTable seg.fileId
    match reader.keyBounds with
    | none => throw (.error (.corrupt "segment table without index keys"))
    | some (first, last) =>
      if first ≠ seg.minKey ∨ last ≠ seg.maxKey then
        throw (.error (.corrupt "segment range mismatch with table index"))
      validateSegments rest

def validateOpenState : DbM Unit := do
  let db ← MonadState.get
  if db.manifest.levels.flatten.any (fun id => (db.disk.tables.get id).isNone) then
    throw (.error (.corrupt "manifest references missing L0 table"))
  validateSegments db.manifest.segments

/-- Runs on a process that has just booted. -/
def openWith : DbM Unit := do
  let formatVersion ← openVersion
  let manifest ← lift (Manifest.load (← MonadState.get).disk.manifest)
  let manifest := updateLevel0 id manifest
  modify ({ · with manifest, formatVersion })
  convertLegacyL1
  validateOpenState
  let replay := Wal.replay (← MonadState.get).disk.wal
  replay.records.forM (fun r => memPut r.1 r.2)
  modify ({ · with nextTxId := replay.maxTxId + 1 })

end Writes
end Database
end MyLsmDb
