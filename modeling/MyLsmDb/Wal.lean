import MyLsmDb.LittleEndian
import MyLsmDb.Records

/-! The write-ahead log: one checksummed record after the other. A replay reads up to the
first record that is incomplete or does not check, and applies a transaction only when
its commit record has been read. -/
set_option linter.unusedSectionVars false
namespace MyLsmDb.Wal
open ByteOrder (Bytes)
open LittleEndian (leBytes fromLe leBytesLength fromLeFits)

/-- `crc32fast::hash`, of which nothing is assumed. -/
class Crc32 where
  hash : Bytes → UInt32

section Ieee

def crcBit (crc : UInt32) : UInt32 :=
  if crc &&& 1 = 1 then (crc >>> 1) ^^^ 0xEDB88320 else crc >>> 1

def crcByte (crc : UInt32) (b : UInt8) : UInt32 :=
  (List.range 8).foldl (fun crc _ => crcBit crc) (crc ^^^ b.toUInt32)

/-- The function the crate computes; only runs on fixed inputs use it. -/
def crc32 (bytes : Bytes) : UInt32 := bytes.foldl crcByte 0xFFFFFFFF ^^^ 0xFFFFFFFF

abbrev ieee : Crc32 := ⟨crc32⟩

example : crc32 [49, 50, 51, 52, 53, 54, 55, 56, 57] = 0xCBF43926 := by decide +kernel

end Ieee

variable [Crc32]

def tPut : UInt8 := 0
def tDelete : UInt8 := 1
def tBegin : UInt8 := 2
def tTxPut : UInt8 := 3
def tTxDelete : UInt8 := 4
def tCommit : UInt8 := 5
def tAbort : UInt8 := 6

def writeRecord (recordType : UInt8) (payload : Bytes) : Bytes :=
  leBytes 4 (Crc32.hash (recordType :: payload)).toNat ++ recordType :: payload

def append (key : Bytes) (value : Entry) : Bytes :=
  match value with
  | some v => writeRecord tPut (leBytes 4 key.length ++ leBytes 4 v.length ++ key ++ v)
  | none => writeRecord tDelete (leBytes 4 key.length ++ key)

def appendBegin (tx : Nat) : Bytes := writeRecord tBegin (leBytes 8 tx)

def appendTxPut (tx : Nat) (key value : Bytes) : Bytes :=
  writeRecord tTxPut
    (leBytes 8 tx ++ leBytes 4 key.length ++ leBytes 4 value.length ++ key ++ value)

def appendTxDelete (tx : Nat) (key : Bytes) : Bytes :=
  writeRecord tTxDelete (leBytes 8 tx ++ leBytes 4 key.length ++ key)

def appendCommit (tx : Nat) : Bytes := writeRecord tCommit (leBytes 8 tx)

def appendAbort (tx : Nat) : Bytes := writeRecord tAbort (leBytes 8 tx)

inductive RawOp where
  | put (key value : Bytes)
  | delete (key : Bytes)
  | txPut (tx : Nat) (key value : Bytes)
  | txDelete (tx : Nat) (key : Bytes)
  | commit (tx : Nat)
  deriving DecidableEq, Repr

structure ReplayResult where
  records : List Rec
  maxTxId : Nat
  deriving DecidableEq, Repr

def readN (n : Nat) (rest : Bytes) : Option (Bytes × Bytes) :=
  if rest.length < n then none else some (rest.take n, rest.drop n)

def headLength (t : UInt8) : Option Nat :=
  if t = tPut then some 8
  else if t = tDelete then some 4
  else if t = tBegin then some 8
  else if t = tTxPut then some 16
  else if t = tTxDelete then some 12
  else if t = tCommit then some 8
  else if t = tAbort then some 8
  else none

def dataLength (t : UInt8) (head : Bytes) : Nat :=
  if t = tPut then fromLe (head.take 4) + fromLe ((head.drop 4).take 4)
  else if t = tDelete then fromLe (head.take 4)
  else if t = tTxPut then fromLe ((head.drop 8).take 4) + fromLe ((head.drop 12).take 4)
  else if t = tTxDelete then fromLe ((head.drop 8).take 4)
  else 0

def readPayload (t : UInt8) (rest : Bytes) : Option (Bytes × Bytes) :=
  match headLength t with
  | none => some ([], rest)
  | some n => do
    let (head, rest) ← readN n rest
    let len := dataLength t head
    if len > 0 then
      let (data, rest) ← readN len rest
      return (head ++ data, rest)
    else return (head, rest)

/-- One record whose checksum is right: its type, its payload and what follows. -/
def readRecord (rest : Bytes) : Option (UInt8 × Bytes × Bytes) := do
  let (crcBuf, rest) ← readN 4 rest
  let (typeBuf, rest) ← readN 1 rest
  let t := typeBuf.headD 0
  let (payload, rest) ← readPayload t rest
  if (Crc32.hash (t :: payload)).toNat ≠ fromLe crcBuf then none else some (t, payload, rest)

def sliceOf (payload : Bytes) (start len : Nat) : Bytes := (payload.drop start).take len

/-- The operation and the transaction id in a record; `none` for an unknown type. -/
def decodeOp (t : UInt8) (payload : Bytes) : Option (Option RawOp × Option Nat) :=
  let tx := fromLe (sliceOf payload 0 8)
  if t = tPut then
    let k := fromLe (sliceOf payload 0 4)
    let v := fromLe (sliceOf payload 4 4)
    some (some (.put (sliceOf payload 8 k) (sliceOf payload (8 + k) v)), none)
  else if t = tDelete then
    let k := fromLe (sliceOf payload 0 4)
    some (some (.delete (sliceOf payload 4 k)), none)
  else if t = tBegin then some (none, some tx)
  else if t = tTxPut then
    let k := fromLe (sliceOf payload 8 4)
    let v := fromLe (sliceOf payload 12 4)
    some (some (.txPut tx (sliceOf payload 16 k) (sliceOf payload (16 + k) v)), some tx)
  else if t = tTxDelete then
    let k := fromLe (sliceOf payload 8 4)
    some (some (.txDelete tx (sliceOf payload 12 k)), some tx)
  else if t = tCommit then some (some (.commit tx), some tx)
  else if t = tAbort then some (none, some tx)
  else none

/- A record has five bytes or more, so the length of the file bounds the loop. -/
def readLog : Nat → Bytes → List RawOp × Nat
  | 0, _ => ([], 0)
  | fuel + 1, rest =>
    match readRecord rest with
    | none => ([], 0)
    | some (t, payload, rest) =>
      match decodeOp t payload with
      | none => ([], 0)
      | some (op, txn) =>
        let (ops, maxTxId) := readLog fuel rest
        (op.toList ++ ops, max (txn.getD 0) maxTxId)

def committed (ops : List RawOp) : List Nat :=
  ops.filterMap (fun op => match op with | .commit tx => some tx | _ => none)

def mutation (committed : List Nat) : RawOp → Option Rec
  | .put key value => some (key, some value)
  | .delete key => some (key, none)
  | .txPut tx key value => if tx ∈ committed then some (key, some value) else none
  | .txDelete tx key => if tx ∈ committed then some (key, none) else none
  | .commit _ => none

def resolve (ops : List RawOp) : List Rec := ops.filterMap (mutation (committed ops))

def replay (file : Bytes) : ReplayResult :=
  let (ops, maxTxId) := readLog file.length file
  ⟨resolve ops, maxTxId⟩

/-- What the writer appends, record by record. -/
inductive LogRecord where
  | plain (key : Bytes) (value : Entry)
  | begin (tx : Nat)
  | txPut (tx : Nat) (key value : Bytes)
  | txDelete (tx : Nat) (key : Bytes)
  | commit (tx : Nat)
  | abort (tx : Nat)
  deriving DecidableEq, Repr

namespace LogRecord

def bytes : LogRecord → Bytes
  | .plain key value => append key value
  | .begin tx => appendBegin tx
  | .txPut tx key value => appendTxPut tx key value
  | .txDelete tx key => appendTxDelete tx key
  | .commit tx => appendCommit tx
  | .abort tx => appendAbort tx

/-- Every length and id of the record has room in its field. -/
def Fits : LogRecord → Prop
  | .plain key value => key.length < 2 ^ 32 ∧ ∀ v, value = some v → v.length < 2 ^ 32
  | .begin tx => tx < 2 ^ 64
  | .txPut tx key value => tx < 2 ^ 64 ∧ key.length < 2 ^ 32 ∧ value.length < 2 ^ 32
  | .txDelete tx key => tx < 2 ^ 64 ∧ key.length < 2 ^ 32
  | .commit tx => tx < 2 ^ 64
  | .abort tx => tx < 2 ^ 64

def op : LogRecord → Option RawOp
  | .plain key (some value) => some (.put key value)
  | .plain key none => some (.delete key)
  | .begin _ => none
  | .txPut tx key value => some (.txPut tx key value)
  | .txDelete tx key => some (.txDelete tx key)
  | .commit tx => some (.commit tx)
  | .abort _ => none

def tx : LogRecord → Option Nat
  | .plain _ _ => none
  | .begin tx => some tx
  | .txPut tx _ _ => some tx
  | .txDelete tx _ => some tx
  | .commit tx => some tx
  | .abort tx => some tx

end LogRecord

def logBytes (log : List LogRecord) : Bytes := log.flatMap LogRecord.bytes
def logOps (log : List LogRecord) : List RawOp := log.filterMap LogRecord.op
def logMaxTx (log : List LogRecord) : Nat := log.foldr (fun r n => max (r.tx.getD 0) n) 0
def LogFits (log : List LogRecord) : Prop := ∀ r ∈ log, r.Fits

@[simp] theorem logBytesNil : logBytes [] = [] := rfl

@[simp] theorem logBytesSingle (r : LogRecord) : logBytes [r] = r.bytes := List.flatMap_singleton _ _

@[simp] theorem logBytesAppend (a b : List LogRecord) :
    logBytes (a ++ b) = logBytes a ++ logBytes b := List.flatMap_append

/-- The parts a record is read in: its type, the fixed head and the data behind it. -/
structure Shape (r : LogRecord) (t : UInt8) (head data : Bytes) : Prop where
  bytes : r.bytes = writeRecord t (head ++ data)
  headLength : headLength t = some head.length
  dataLength : dataLength t head = data.length
  decode : decodeOp t (head ++ data) = some (r.op, r.tx)

theorem fourBytesBack {n : Nat} (h : n < 2 ^ 32) : fromLe (leBytes 4 n) = n :=
  fromLeFits (by simpa using h)

theorem eightBytesBack {n : Nat} (h : n < 2 ^ 64) : fromLe (leBytes 8 n) = n :=
  fromLeFits (by simpa using h)

theorem sliceAt {payload p x q : Bytes} (e : payload = p ++ (x ++ q)) {start len : Nat}
    (hs : p.length = start) (hl : x.length = len) : sliceOf payload start len = x := by
  subst e hs hl
  rw [sliceOf, List.drop_left, List.take_left]

section Shapes
variable {tx : Nat} {key value : Bytes}

theorem deleteShaped (small : key.length < 2 ^ 32) :
    Shape (.plain key none) tDelete (leBytes 4 key.length) key := by
  have data : sliceOf (leBytes 4 key.length ++ key) 4 key.length = key :=
    sliceAt (p := leBytes 4 key.length) (q := []) (by simp) (leBytesLength 4 _) rfl
  have len : sliceOf (leBytes 4 key.length ++ key) 0 4 = leBytes 4 key.length :=
    sliceAt (p := []) rfl rfl (leBytesLength 4 _)
  refine ⟨rfl, by simp; rfl, ?_, ?_⟩
  · change fromLe ((leBytes 4 key.length).take 4) = _
    rw [List.take_of_length_le (by simp), fourBytesBack small]
  · change some (some (RawOp.delete (sliceOf _ 4 (fromLe (sliceOf _ 0 4)))), none) = _
    rw [len, fourBytesBack small, data]
    rfl

theorem putShaped (keyFits : key.length < 2 ^ 32) (valueFits : value.length < 2 ^ 32) :
    Shape (.plain key (some value)) tPut (leBytes 4 key.length ++ leBytes 4 value.length)
      (key ++ value) := by
  set head := leBytes 4 key.length ++ leBytes 4 value.length with hh
  have l1 : sliceOf (head ++ (key ++ value)) 0 4 = leBytes 4 key.length :=
    sliceAt (p := []) (q := leBytes 4 value.length ++ (key ++ value)) (by simp [hh]) rfl
      (leBytesLength 4 _)
  have l2 : sliceOf (head ++ (key ++ value)) 4 4 = leBytes 4 value.length :=
    sliceAt (p := leBytes 4 key.length) (q := key ++ value) (by simp [hh]) (leBytesLength 4 _)
      (leBytesLength 4 _)
  have k : sliceOf (head ++ (key ++ value)) 8 key.length = key :=
    sliceAt (p := head) (q := value) rfl (by simp [hh]) rfl
  have d : sliceOf (head ++ (key ++ value)) (8 + key.length) value.length = value :=
    sliceAt (p := head ++ key) (q := []) (by simp) (by simp [hh]; omega) rfl
  refine ⟨?_, by simp [hh]; rfl, ?_, ?_⟩
  · simp [LogRecord.bytes, append, hh]
  · change fromLe (head.take 4) + fromLe ((head.drop 4).take 4) = _
    rw [hh, List.take_left' (leBytesLength 4 _), List.drop_left' (leBytesLength 4 _),
      List.take_of_length_le (by simp), fourBytesBack keyFits, fourBytesBack valueFits,
      List.length_append]
  · change some (some (RawOp.put (sliceOf _ 8 (fromLe (sliceOf _ 0 4)))
      (sliceOf _ (8 + fromLe (sliceOf _ 0 4)) (fromLe (sliceOf _ 4 4)))), none) = _
    rw [l1, l2, fourBytesBack keyFits, fourBytesBack valueFits, k, d]
    rfl

theorem txPutShaped (txFits : tx < 2 ^ 64) (keyFits : key.length < 2 ^ 32)
    (valueFits : value.length < 2 ^ 32) :
    Shape (.txPut tx key value) tTxPut
      (leBytes 8 tx ++ leBytes 4 key.length ++ leBytes 4 value.length) (key ++ value) := by
  set head := leBytes 8 tx ++ leBytes 4 key.length ++ leBytes 4 value.length with hh
  have l0 : sliceOf (head ++ (key ++ value)) 0 8 = leBytes 8 tx :=
    sliceAt (p := []) (q := leBytes 4 key.length ++ (leBytes 4 value.length ++ (key ++ value)))
      (by simp [hh]) rfl (leBytesLength 8 _)
  have l1 : sliceOf (head ++ (key ++ value)) 8 4 = leBytes 4 key.length :=
    sliceAt (p := leBytes 8 tx) (q := leBytes 4 value.length ++ (key ++ value)) (by simp [hh])
      (leBytesLength 8 _) (leBytesLength 4 _)
  have l2 : sliceOf (head ++ (key ++ value)) 12 4 = leBytes 4 value.length :=
    sliceAt (p := leBytes 8 tx ++ leBytes 4 key.length) (q := key ++ value) (by simp [hh])
      (by simp) (leBytesLength 4 _)
  have h1 : (head.drop 8).take 4 = leBytes 4 key.length :=
    sliceAt (p := leBytes 8 tx) (q := leBytes 4 value.length) (by simp [hh])
      (leBytesLength 8 _) (leBytesLength 4 _)
  have h2 : (head.drop 12).take 4 = leBytes 4 value.length :=
    sliceAt (p := leBytes 8 tx ++ leBytes 4 key.length) (q := []) (by simp [hh])
      (by simp) (leBytesLength 4 _)
  have k : sliceOf (head ++ (key ++ value)) 16 key.length = key :=
    sliceAt (p := head) (q := value) rfl (by simp [hh]) rfl
  have d : sliceOf (head ++ (key ++ value)) (16 + key.length) value.length = value :=
    sliceAt (p := head ++ key) (q := []) (by simp) (by simp [hh]; omega) rfl
  refine ⟨?_, by simp [hh]; rfl, ?_, ?_⟩
  · simp [LogRecord.bytes, appendTxPut, hh]
  · change fromLe ((head.drop 8).take 4) + fromLe ((head.drop 12).take 4) = _
    rw [h1, h2, fourBytesBack keyFits, fourBytesBack valueFits, List.length_append]
  · change some (some (RawOp.txPut (fromLe (sliceOf _ 0 8)) (sliceOf _ 16 (fromLe (sliceOf _ 8 4)))
      (sliceOf _ (16 + fromLe (sliceOf _ 8 4)) (fromLe (sliceOf _ 12 4)))),
      some (fromLe (sliceOf _ 0 8))) = _
    rw [l0, l1, l2, eightBytesBack txFits, fourBytesBack keyFits, fourBytesBack valueFits, k, d]
    rfl

theorem txDeleteShaped (txFits : tx < 2 ^ 64) (keyFits : key.length < 2 ^ 32) :
    Shape (.txDelete tx key) tTxDelete (leBytes 8 tx ++ leBytes 4 key.length) key := by
  set head := leBytes 8 tx ++ leBytes 4 key.length with hh
  have l0 : sliceOf (head ++ key) 0 8 = leBytes 8 tx :=
    sliceAt (p := []) (q := leBytes 4 key.length ++ key) (by simp [hh]) rfl (leBytesLength 8 _)
  have l1 : sliceOf (head ++ key) 8 4 = leBytes 4 key.length :=
    sliceAt (p := leBytes 8 tx) (q := key) (by simp [hh]) (leBytesLength 8 _) (leBytesLength 4 _)
  have h1 : (head.drop 8).take 4 = leBytes 4 key.length :=
    sliceAt (p := leBytes 8 tx) (q := []) (by simp [hh]) (leBytesLength 8 _) (leBytesLength 4 _)
  have k : sliceOf (head ++ key) 12 key.length = key :=
    sliceAt (p := head) (q := []) (by simp) (by simp [hh]) rfl
  refine ⟨?_, by simp [hh]; rfl, ?_, ?_⟩
  · simp [LogRecord.bytes, appendTxDelete, hh]
  · change fromLe ((head.drop 8).take 4) = _
    rw [h1, fourBytesBack keyFits]
  · change some (some (RawOp.txDelete (fromLe (sliceOf _ 0 8))
      (sliceOf _ 12 (fromLe (sliceOf _ 8 4)))), some (fromLe (sliceOf _ 0 8))) = _
    rw [l0, l1, eightBytesBack txFits, fourBytesBack keyFits, k]
    rfl

theorem markerId (small : tx < 2 ^ 64) : fromLe (sliceOf (leBytes 8 tx ++ []) 0 8) = tx := by
  have all : sliceOf (leBytes 8 tx ++ []) 0 8 = leBytes 8 tx :=
    sliceAt (p := []) (q := []) (by simp) rfl (leBytesLength 8 tx)
  rw [all, eightBytesBack small]

theorem recordShaped (r : LogRecord) (fits : r.Fits) : ∃ t head data, Shape r t head data := by
  cases r with
  | plain key value =>
    cases value with
    | none => exact ⟨_, _, _, deleteShaped fits.1⟩
    | some v => exact ⟨_, _, _, putShaped fits.1 (fits.2 v rfl)⟩
  | begin tx =>
    refine ⟨tBegin, leBytes 8 tx, [], by simp [LogRecord.bytes, appendBegin], by simp; rfl, rfl, ?_⟩
    change some (none, some (fromLe (sliceOf _ 0 8))) = _
    rw [markerId fits]
    rfl
  | txPut tx key value => exact ⟨_, _, _, txPutShaped fits.1 fits.2.1 fits.2.2⟩
  | txDelete tx key => exact ⟨_, _, _, txDeleteShaped fits.1 fits.2⟩
  | commit tx =>
    refine ⟨tCommit, leBytes 8 tx, [], by simp [LogRecord.bytes, appendCommit], by simp; rfl, rfl, ?_⟩
    change some (some (RawOp.commit (fromLe (sliceOf _ 0 8))), some (fromLe (sliceOf _ 0 8))) = _
    rw [markerId fits]
    rfl
  | abort tx =>
    refine ⟨tAbort, leBytes 8 tx, [], by simp [LogRecord.bytes, appendAbort], by simp; rfl, rfl, ?_⟩
    change some (none, some (fromLe (sliceOf _ 0 8))) = _
    rw [markerId fits]
    rfl

end Shapes

theorem readNFull {x : Bytes} (rest : Bytes) {n : Nat} (h : x.length = n) :
    readN n (x ++ rest) = some (x, rest) := by
  subst h
  rw [readN, if_neg (by simp), List.take_left, List.drop_left]

theorem readNShort {rest : Bytes} {n : Nat} (h : rest.length < n) : readN n rest = none :=
  if_pos h

theorem readRecordWhole {r : LogRecord} (fits : r.Fits) (rest : Bytes) :
    ∃ t payload, readRecord (r.bytes ++ rest) = some (t, payload, rest) ∧
      decodeOp t payload = some (r.op, r.tx) := by
  obtain ⟨t, head, data, s⟩ := recordShaped r fits
  refine ⟨t, head ++ data, ?_, s.decode⟩
  have crc := readNFull (t :: (head ++ data) ++ rest)
    (leBytesLength 4 (Crc32.hash (t :: (head ++ data))).toNat)
  have kind : readN 1 (t :: (head ++ data) ++ rest) = some ([t], head ++ data ++ rest) :=
    readNFull (x := [t]) _ rfl
  have body : readPayload t (head ++ data ++ rest) = some (head ++ data, rest) := by
    have first : readN head.length (head ++ data ++ rest) = some (head, data ++ rest) := by
      rw [List.append_assoc]
      exact readNFull _ rfl
    simp only [readPayload, s.headLength, first, bind, Option.bind, s.dataLength]
    by_cases none : data.length > 0
    · rw [if_pos none, readNFull rest rfl]
      rfl
    · have empty : data = [] := List.length_eq_zero_iff.mp (by omega)
      simp [empty]
  have sum := fourBytesBack (UInt32.toNat_lt (Crc32.hash (t :: (head ++ data))))
  rw [s.bytes, writeRecord, List.append_assoc, readRecord]
  simp only [crc, kind, body, bind, Option.bind, List.headD_cons, sum, ne_eq, not_true, if_false]

theorem readRecordTorn {r : LogRecord} (fits : r.Fits) {part : Bytes} (cut : part <+: r.bytes)
    (short : part.length < r.bytes.length) : readRecord part = none := by
  obtain ⟨t, head, data, s⟩ := recordShaped r fits
  rw [s.bytes, writeRecord] at cut short
  set crc := leBytes 4 (Crc32.hash (t :: (head ++ data))).toNat with hcrc
  have crcLength : crc.length = 4 := leBytesLength 4 _
  simp only [List.length_append, List.length_cons, crcLength] at short
  by_cases c : part.length < 4
  · simp [readRecord, readNShort c]
  obtain ⟨p₁, rfl⟩ : crc <+: part :=
    List.prefix_of_prefix_length_le (List.prefix_append _ _) cut (by omega)
  have cut₁ := (List.prefix_append_right_inj _).mp cut
  simp only [List.length_append, crcLength] at short c
  cases p₁ with
  | nil =>
    simp only [readRecord, readNFull _ crcLength, readNShort (show ([] : Bytes).length < 1 by decide),
      bind, Option.bind]
  | cons t' p₂ =>
    obtain ⟨rfl, cut₂⟩ := List.cons_prefix_cons.mp cut₁
    have kind : readN 1 (t' :: p₂) = some ([t'], p₂) := readNFull (x := [t']) p₂ rfl
    have none : readPayload t' p₂ = .none := by
      simp only [readPayload, s.headLength]
      by_cases h : p₂.length < head.length
      · simp [readNShort h]
      obtain ⟨p₃, rfl⟩ : head <+: p₂ :=
        List.prefix_of_prefix_length_le (List.prefix_append _ _) cut₂ (by omega)
      simp only [List.length_append, List.length_cons] at short
      have some : data.length > 0 := by omega
      simp only [readNFull p₃ rfl, bind, Option.bind, s.dataLength, if_pos some,
        readNShort (show p₃.length < data.length by omega)]
    simp only [readRecord, readNFull _ crcLength, kind, none, bind, Option.bind, List.headD_cons]

theorem bytesPositive (r : LogRecord) : 0 < r.bytes.length := by
  cases r with
  | plain key value => cases value <;> simp [LogRecord.bytes, append, writeRecord]
  | _ => simp [LogRecord.bytes, appendBegin, appendTxPut, appendTxDelete, appendCommit, appendAbort,
      writeRecord]

theorem readLogTorn {log : List LogRecord} (fits : LogFits log) {torn : Bytes}
    (stops : readRecord torn = none) {fuel : Nat} (enough : (logBytes log ++ torn).length ≤ fuel) :
    readLog fuel (logBytes log ++ torn) = (logOps log, logMaxTx log) := by
  induction log generalizing fuel with
  | nil =>
    cases fuel with
    | zero => rfl
    | succ fuel =>
      change readLog (fuel + 1) torn = _
      simp only [readLog, stops]
      rfl
  | cons r log ih =>
    have positive := bytesPositive r
    have split : logBytes (r :: log) ++ torn = r.bytes ++ (logBytes log ++ torn) := by
      simp [logBytes]
    rw [split] at enough ⊢
    rw [List.length_append] at enough
    obtain _ | fuel := fuel
    · omega
    obtain ⟨t, payload, read, decode⟩ := readRecordWhole (fits r List.mem_cons_self)
      (logBytes log ++ torn)
    have rest := ih (fun x m => fits x (List.mem_cons_of_mem _ m))
      (show (logBytes log ++ torn).length ≤ fuel by omega)
    simp only [readLog, read, decode, rest, logMaxTx, List.foldr_cons, Prod.mk.injEq, and_true]
    cases h : r.op <;> simp [logOps, h]

theorem readRecordNil : readRecord [] = none := rfl

theorem replayLog {log : List LogRecord} (fits : LogFits log) {torn : Bytes}
    (stops : readRecord torn = none) :
    replay (logBytes log ++ torn) = ⟨resolve (logOps log), logMaxTx log⟩ := by
  simp only [replay, readLogTorn fits stops le_rfl]

/-- Where the cut of a log falls: behind some complete records, inside the next. -/
theorem cutLog {log : List LogRecord} (fits : LogFits log) {part : Bytes}
    (cut : part <+: logBytes log) : ∃ before after torn, log = before ++ after ∧
      part = logBytes before ++ torn ∧ readRecord torn = none := by
  induction log generalizing part with
  | nil =>
    have none : part = [] := List.prefix_nil.mp cut
    exact ⟨[], [], [], rfl, none, rfl⟩
  | cons r log ih =>
    have whole : logBytes (r :: log) = r.bytes ++ logBytes log := List.flatMap_cons
    rw [whole] at cut
    by_cases short : part.length < r.bytes.length
    · have cut := List.prefix_of_prefix_length_le cut (List.prefix_append _ _) (by omega)
      exact ⟨[], r :: log, part, rfl, rfl, readRecordTorn (fits r List.mem_cons_self) cut short⟩
    · obtain ⟨rest, rfl⟩ :=
        List.prefix_of_prefix_length_le (List.prefix_append _ _) cut (by omega)
      obtain ⟨before, after, torn, split, part, stops⟩ :=
        ih (fun x m => fits x (List.mem_cons_of_mem _ m))
          ((List.prefix_append_right_inj _).mp cut)
      exact ⟨r :: before, after, torn, by simp [split], by simp [part, logBytes], stops⟩

end MyLsmDb.Wal
