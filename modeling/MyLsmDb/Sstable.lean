import MyLsmDb.BinarySearch
import MyLsmDb.LittleEndian
import MyLsmDb.Records

/-! Table files: records in key order, a sparse index over every sixteenth of them and
the last, a bloom filter, a footer. The builder and the reader work on the bytes. -/
namespace MyLsmDb.Sstable
open BinarySearch (search)
open ByteOrder (Bytes)
open LittleEndian (leBytes fromLe)

def magic : Nat := 0x53535442
def defaultSpacing : Nat := 16

structure BloomFilter where
  bits : Bytes
  nbits : Nat
  k : Nat
  deriving DecidableEq, Repr

namespace BloomFilter

def new (nbits k : Nat) : BloomFilter := ⟨List.replicate ((nbits + 7) / 8) 0, nbits, k⟩

def rotateLeft5 (h : UInt64) : UInt64 := (h <<< 5) ||| (h >>> 59)

def hashes (key : Bytes) : UInt64 × UInt64 :=
  key.foldl (fun h b =>
    ((rotateLeft5 h.1 ^^^ b.toUInt64) * 0x1000000001b3,
      (rotateLeft5 h.2 ^^^ b.toUInt64) * 0x9e3779b97f4a7c15))
    (0xcbf29ce484222325, 0xbf58476d1ce4e5b9)

def probes (f : BloomFilter) (key : Bytes) : List Nat :=
  let (a, b) := hashes key
  (List.range f.k).map (fun i => (a + b * UInt64.ofNat i).toNat % f.nbits)

def mask (bit : Nat) : UInt8 := 1 <<< UInt8.ofNat (bit % 8)

def setBit (bits : Bytes) (bit : Nat) : Bytes := bits.modify (bit / 8) (· ||| mask bit)

def insert (f : BloomFilter) (key : Bytes) : BloomFilter :=
  { f with bits := (f.probes key).foldl setBit f.bits }

/- A filter read from a file may have no bits to take a remainder by, or fewer than it says. -/
def maybeContains (f : BloomFilter) (key : Bytes) : Fallible Bool :=
  if f.nbits = 0 ∧ f.k ≠ 0 then throw .panic
  else (f.probes key).allM (fun bit =>
    match f.bits[bit / 8]? with
    | some byte => pure (byte &&& mask bit != 0)
    | none => throw .panic)

def toBytes (f : BloomFilter) : Bytes := leBytes 4 f.nbits ++ leBytes 4 f.k ++ f.bits

def fromBytes (data : Bytes) : Fallible BloomFilter :=
  if data.length < 8 then throw .panic
  else pure ⟨data.drop 8, fromLe (data.take 4), fromLe ((data.drop 4).take 4)⟩

end BloomFilter

structure TableBuilder where
  buf : Bytes
  index : Bytes
  spacing : Nat
  keysSinceIndex : Nat
  numRecords : Nat
  bloom : BloomFilter
  lastKey : Option Bytes
  lastOffset : Nat
  lastRecordIndexed : Bool
  deriving DecidableEq, Repr

/- `len() as u32` keeps the low four bytes of a length. -/
def recordBytes (key : Bytes) (value : Entry) : Bytes :=
  leBytes 4 key.length ++ leBytes 4 (value.elim 0 List.length) ++
    [if value.isSome then 0 else 1] ++ key ++ value.getD []

def indexEntry (key : Bytes) (offset : Nat) : Bytes :=
  leBytes 4 key.length ++ key ++ leBytes 8 offset

namespace TableBuilder

def new : TableBuilder :=
  ⟨[], [], defaultSpacing, 0, 0, .new 1024 4, none, 0, false⟩

def add (b : TableBuilder) (key : Bytes) (value : Entry) : TableBuilder :=
  let offset := b.buf.length
  let starts := b.keysSinceIndex == 0
  let since := b.keysSinceIndex + 1
  { b with
    index := if starts then b.index ++ indexEntry key offset else b.index
    lastRecordIndexed := starts
    keysSinceIndex := if since = b.spacing then 0 else since
    bloom := b.bloom.insert key
    lastKey := some key
    lastOffset := offset
    buf := b.buf ++ recordBytes key value
    numRecords := b.numRecords + 1 }

/- The last record is in the index even when it does not start a block. -/
def finalIndex (b : TableBuilder) : Bytes :=
  if b.numRecords > 0 ∧ b.lastRecordIndexed = false then
    match b.lastKey with
    | some lk => b.index ++ indexEntry lk b.lastOffset
    | none => b.index
  else b.index

def footer (b : TableBuilder) : Bytes :=
  let indexLen := b.finalIndex.length % 2 ^ 32
  leBytes 8 b.buf.length ++ leBytes 4 indexLen ++ leBytes 8 (b.buf.length + indexLen) ++
    leBytes 4 b.bloom.toBytes.length ++ leBytes 8 b.spacing ++ leBytes 8 b.numRecords ++
    leBytes 4 magic

def finish (b : TableBuilder) : Bytes :=
  b.buf ++ b.finalIndex ++ b.bloom.toBytes ++ b.footer

def addAll (records : List Rec) : TableBuilder := records.foldl (fun b r => b.add r.1 r.2) new

end TableBuilder

def tableFile (records : List Rec) : Bytes := (TableBuilder.addAll records).finish

abbrev IndexEntry := Bytes × Nat

structure TableReader where
  file : Bytes
  numRecords : Nat
  bloom : Option BloomFilter
  indexEntries : List IndexEntry
  dataEnd : Nat
  deriving DecidableEq, Repr

def readExact (file : Bytes) (offset n : Nat) : Fallible Bytes :=
  if n = 0 ∨ offset + n ≤ file.length then pure ((file.drop offset).take n)
  else throw (.error .io)

/- Each entry takes at least twelve bytes, so the length of the block bounds their number. -/
def parseIndexLoop : Nat → Bytes → Fallible (List IndexEntry)
  | 0, _ => pure []
  | fuel + 1, raw => do
    if raw = [] then return []
    if raw.length < 4 then throw .panic
    let keyLen := fromLe (raw.take 4)
    let rest := raw.drop 4
    if rest.length < keyLen + 8 then throw .panic
    let tail ← parseIndexLoop fuel (rest.drop (keyLen + 8))
    return (rest.take keyLen, fromLe ((rest.drop keyLen).take 8)) :: tail

def parseIndex (raw : Bytes) : Fallible (List IndexEntry) := parseIndexLoop raw.length raw

def footerLen : Nat := 44

/-- The size of a record in a `Vec<(Vec<u8>, Entry)>`. -/
def recordSize : Nat := 48

/-- `Vec::with_capacity` panics where the vector would be longer than `isize::MAX` bytes. -/
def withCapacity (n size : Nat) : Fallible Unit := if n * size < 2 ^ 63 then pure () else throw .panic

namespace TableReader

def openFile (file : Bytes) : Fallible TableReader := do
  if file.length < footerLen then throw (.error (.invalidFormat "sstable too small"))
  let footer := file.drop (file.length - footerLen)
  if fromLe ((footer.drop 40).take 4) ≠ magic then
    throw (.error (.invalidFormat "bad sstable magic"))
  let indexOffset := fromLe (footer.take 8)
  let indexLen := fromLe ((footer.drop 8).take 4)
  let bloomOffset := fromLe ((footer.drop 12).take 8)
  let bloomLen := fromLe ((footer.drop 20).take 4)
  let numRecords := fromLe ((footer.drop 32).take 8)
  let index ← readExact file indexOffset indexLen
  let bloom ←
    if bloomLen > 0 then some <$> (readExact file bloomOffset bloomLen >>= BloomFilter.fromBytes)
    else pure none
  let indexEntries ← parseIndex index
  return ⟨file, numRecords, bloom, indexEntries, indexOffset⟩

def keyBounds (r : TableReader) : Option (Bytes × Bytes) := do
  let first ← r.indexEntries.head?
  let last ← r.indexEntries.getLast?
  return (first.1, last.1)

def blockOffsetFor (entries : List IndexEntry) (key : Bytes) : Nat :=
  let lo := search (fun mid => (entries[mid]?).any (fun e => decide (e.1 ≤ key)))
    entries.length 0 entries.length
  if lo = 0 then entries.head?.elim 0 Prod.snd else (entries[lo - 1]?).elim 0 Prod.snd

/-- The record at `pos` and the position behind it; `none` at the end of the records. -/
def readRecord (r : TableReader) (pos : Nat) : Fallible (Option (Rec × Nat)) := do
  if pos ≥ r.dataEnd then return none
  if r.file.length < pos + 8 then return none
  let lens := (r.file.drop pos).take 8
  let keyLen := fromLe (lens.take 4)
  let valLen := fromLe (lens.drop 4)
  let flags ← readExact r.file (pos + 8) 1
  let key ← readExact r.file (pos + 9) keyLen
  if flags = [1] then return some ((key, none), pos + 9 + keyLen)
  let value ← readExact r.file (pos + 9 + keyLen) valLen
  return some ((key, some value), pos + 9 + keyLen + valLen)

/- Every record read moves nine bytes or more, so the length of the file bounds the scan. -/
def lookupLoop (r : TableReader) (key : Bytes) : Nat → Nat → Fallible (Option Entry)
  | 0, _ => pure none
  | fuel + 1, pos => do
    match ← r.readRecord pos with
    | none => return none
    | some ((k, v), next) =>
      if k = key then return some v
      else if key < k then return none
      else lookupLoop r key fuel next

/-- `some none` is a tombstone in the table, `none` a key it does not have. -/
def lookup (r : TableReader) (key : Bytes) : Fallible (Option Entry) := do
  if let some bloom := r.bloom then
    if !(← bloom.maybeContains key) then return none
  r.lookupLoop key r.file.length (blockOffsetFor r.indexEntries key)

def iterLoop (r : TableReader) : Nat → Nat → Fallible (List Rec)
  | 0, _ => pure []
  | n + 1, pos => do
    match ← r.readRecord pos with
    | none => return []
    | some (rec, next) => return rec :: (← iterLoop r n next)

def iter (r : TableReader) : Fallible (List Rec) := do
  withCapacity r.numRecords recordSize
  r.iterLoop r.numRecords 0

end TableReader
end MyLsmDb.Sstable
