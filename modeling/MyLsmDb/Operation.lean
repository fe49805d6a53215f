import MyLsmDb.Session

/-! The operations of a session under one description: the records an operation logs, what
it writes, the state it leaves and where it may stop. -/
namespace MyLsmDb
open ByteOrder (Bytes)
open Effect
open OrderedEntries
open Wal (Crc32 LogRecord logBytes)

/-- The operations of a session. -/
inductive Op where
  | put (key value : Bytes)
  | delete (key : Bytes)
  | commit (pending : List Rec)
  | flush
  | compactFull
  | get (key : Bytes)
  | scan (start stop : Option Bytes)
  deriving DecidableEq, Repr

namespace Op

def writes : Op → List Rec
  | put key value => [(key, some value)]
  | delete key => [(key, none)]
  | commit pending => pending
  | _ => []

/-- Whether it ends with all of the log synced. -/
def syncs : Op → Bool
  | commit _ => true
  | _ => false

def records (tx : Nat) : Op → List LogRecord
  | put key value => [.plain key (some value)]
  | delete key => [.plain key none]
  | commit pending => txLog tx pending
  | _ => []

def start (op : Op) (db : Database) : Database :=
  if op.syncs then { db with nextTxId := db.nextTxId + 1 } else db

variable [Crc32]

def logged (op : Op) (db : Database) : Disk :=
  let tail := db.disk.tail ++ logBytes (op.records db.nextTxId)
  if op.syncs then { db.disk with wal := db.disk.wal ++ tail, tail := [], cuts := [] }
  else { db.disk with tail }

def run : Op → DbM Unit
  | put key value => Database.put key value
  | delete key => Database.delete key
  | commit pending => do
    let tx ← Database.allocTxId
    Database.commitPending tx pending
  | flush => Database.flush
  | compactFull => do let _ ← Database.compactFull
  | get key => do let _ ← Database.get key
  | scan start stop => do let _ ← Database.scan start stop

/-- Whether it flushes the memtable: because it is asked to, or because the memtable is full with
what it writes. -/
def flushes (db : Database) : Op → Bool
  | put key value => decide (db.opts.memtableLimit ≤ (db.memtable.put key (some value)).sizeBytes)
  | delete key => decide (db.opts.memtableLimit ≤ (db.memtable.put key none).sizeBytes)
  | flush => true
  | compactFull => true
  | commit _ | get _ | scan _ _ => false

variable {W : Manifest → Prop} {db db' : Database} {mem dur : Bytes → Option Bytes}

/-- What holds behind every operation. -/
structure Done (W : Manifest → Prop) (op : Op) (db db' : Database)
    (mem dur : Bytes → Option Bytes) : Prop where
  write : WriteDone W (op.logged db) (op.start db) db' (applied op.writes mem) dur
  flush : op.flushes db →
    op.records db.nextTxId = [] ∧ db.memtable.isEmpty ∨ Emptied (op.logged db) db'.disk

/-- Where it may stop: while it appends to the log, or in a flush. -/
def Stops (W : Manifest → Prop) (op : Op) (e : Stop Error) (db db' : Database)
    (mem dur : Bytes → Option Bytes) : Prop :=
  AppendStop W e (op.records db.nextTxId) (op.start db) db' mem dur ∨
    FlushStop W e (op.logged db) (op.start db) db' (applied op.writes mem) dur

omit [Crc32] in
theorem startSettled (op : Op) (settled : Settled db) : Settled (op.start db) := by
  unfold start
  split <;> exact settled

theorem ends (op : Op) (h : Store W db mem dur) (room : db.opts.segmentMaxRecords ≠ 0) :
    EndsIf (Good W) op.run db (fun _ db' => Done W op db db' mem dur)
      (fun e db' => Stops W op e db db' mem dur) := by
  have flushed : ∀ db' : Database, FlushDone W db db' mem →
      WriteDone W { db.disk with tail := db.disk.tail ++ [] } db db' mem dur ∧
        (db.memtable.isEmpty ∨ Emptied { db.disk with tail := db.disk.tail ++ [] } db'.disk) := by
    intro db' done
    rw [List.append_nil]
    rcases done.left with ⟨none, memtable, log⟩ | ⟨-, emptied⟩
    · refine ⟨⟨done.same, .inl ⟨log, .inl (h.idle none ▸ done.store)⟩, fun calm none => ?_⟩, .inl none⟩
      rw [log.tail]
      exact calm (memtable ▸ none)
    · exact ⟨⟨done.same, .inr ⟨emptied, done.store⟩, fun _ _ => emptied.tail⟩, .inr emptied⟩
  have stopped : ∀ e db', FlushStop W e db.disk db db' mem dur →
      FlushStop W e { db.disk with tail := db.disk.tail ++ [] } db db' mem dur := by
    intro e db' stop
    rw [List.append_nil]
    exact stop
  have read : ∀ db', Reads db db' →
      WriteDone W { db.disk with tail := db.disk.tail ++ [] } db db' mem dur := by
    intro db' reads
    rw [List.append_nil]
    refine ⟨reads.passed.same, .inl ⟨reads.passed.log, .inl (h.reads reads)⟩, fun calm none => ?_⟩
    rw [reads.passed.log.tail]
    exact calm (reads.memtable ▸ none)
  cases op with
  | put key value =>
    refine (h.putInternal room key (some value)).mono
      (fun _ db' _ done => ⟨?_, fun full => .inr ?_⟩) (fun _ _ _ stop => ?_)
    · simpa [logged, start, syncs, records, writes] using done.1
    · simpa [logged, syncs, records] using done.2 (of_decide_eq_true full)
    · simpa [Stops, logged, start, syncs, records, writes] using stop
  | delete key =>
    refine (h.putInternal room key none).mono
      (fun _ db' _ done => ⟨?_, fun full => .inr ?_⟩) (fun _ _ _ stop => ?_)
    · simpa [logged, start, syncs, records, writes] using done.1
    · simpa [logged, syncs, records] using done.2 (of_decide_eq_true full)
    · simpa [Stops, logged, start, syncs, records, writes] using stop
  | commit pending =>
    have h₁ : Store W (start (.commit pending) db) mem dur := h.same rfl rfl rfl rfl rfl
    refine EndsIf.step (y := Database.commitPending db.nextTxId pending)
      (t := start (.commit pending) db) ?_ rfl
    refine (h₁.commitPending room db.nextTxId pending).mono
      (fun _ db' _ done => ⟨done, by simp [flushes]⟩) (fun _ _ _ stop => stop.imp_right And.right)
  | flush =>
    refine (h.flush room).mono (fun _ db' _ done => ?_) (fun e db' _ stop => .inr (stopped e db' stop))
    exact ⟨(flushed db' done).1, fun _ => (flushed db' done).2.imp_left (⟨rfl, ·⟩)⟩
  | compactFull =>
    refine Ends.bind (Ends.mono (h.compactFull room) (fun _ _ h => h) ?_) ?_
    · exact fun e db' stop good => .inr (stopped e db' (stop good))
    · exact fun _ db' done good => ⟨(flushed db' (done good)).1,
        fun _ => (flushed db' (done good)).2.imp_left (⟨rfl, ·⟩)⟩
  | get key =>
    refine Ends.bind ((h.get key).mono (fun _ _ h => h) (fun _ _ => False.elim)) ?_
    exact fun _ db' found _ => ⟨read db' found.2, by simp [flushes]⟩
  | scan start stop =>
    refine Ends.bind ((h.scan start stop).mono (fun _ _ h => h) (fun _ _ => False.elim)) ?_
    exact fun _ db' found _ => ⟨read db' found.2, by simp [flushes]⟩

end Op

section Growing
open Database
variable {R : Database → Database → Prop} [Tolerant R]

theorem lookupTableMoves (id : Nat) (key : Bytes) : Moves R (lookupTable id key) := by
  refine movesGet.bind (fun db => ?_)
  split
  · exact movesLift _
  · exact (openTableMoves id).bind (fun _ => (movesLift _).bind (fun _ =>
      Moves.bind (quietMoves (fun _ => ⟨rfl, rfl, rfl, rfl, le_rfl⟩)) (fun _ => movesPure _)))

theorem lookupFirstMoves (key : Bytes) (ids : List Nat) : Moves R (lookupFirst key ids) := by
  induction ids with
  | nil => exact movesPure _
  | cons id ids ih =>
    refine (lookupTableMoves id key).bind (fun found => ?_)
    split
    · exact movesPure _
    · exact ih

theorem getMoves (key : Bytes) : Moves R (Database.get key) := by
  refine movesGet.bind (fun db => ?_)
  split
  · exact movesPure _
  refine (lookupFirstMoves key _).bind (fun found => ?_)
  split
  · exact movesPure _
  split
  · exact movesPure _
  split
  · exact movesThrow _
  refine (lookupTableMoves _ key).bind (fun found => ?_)
  split <;> exact movesPure _

theorem tableSourcesMoves (start stop : Option Bytes) (ids : List Nat) :
    Moves R (tableSources start stop ids) := by
  induction ids with
  | nil => exact movesPure _
  | cons id ids ih =>
    have reader : Moves R (cachedReader id) := by
      refine movesGet.bind (fun db => ?_)
      split
      · exact movesPure _
      · exact (openTableMoves id).bind (fun _ =>
          Moves.bind (quietMoves (fun _ => ⟨rfl, rfl, rfl, rfl, le_rfl⟩)) (fun _ => movesPure _))
    exact reader.bind (fun _ => ih.bind (fun _ => movesPure _))

theorem scanStreamMoves (start stop : Option Bytes) : Moves R (scanStream start stop) :=
  movesGet.bind (fun _ => (tableSourcesMoves _ _ _).bind (fun _ =>
    (tableSourcesMoves _ _ _).bind (fun _ => movesPure _)))

theorem scanAllMoves (start stop : Option Bytes) : Moves R (Database.scanAll start stop) :=
  (scanStreamMoves start stop).bind (fun _ => movesLift _)

theorem scanMoves (start stop : Option Bytes) : Moves R (Database.scan start stop) :=
  (scanAllMoves start stop).bind (fun _ => movesPure _)

theorem walAppendMoves (bytes : Bytes) : Moves R (walAppend bytes) :=
  effectMoves (fun _ => Tolerant.quiet _ _ rfl rfl rfl rfl le_rfl)
    (fun _ _ => Tolerant.quiet _ _ rfl rfl rfl rfl le_rfl)
    (fun _ _ => Tolerant.quiet _ _ rfl rfl rfl rfl le_rfl)

theorem walSyncMoves : Moves R walSync :=
  effectMoves (fun _ => Tolerant.quiet _ _ rfl rfl rfl rfl le_rfl)
    (fun _ _ => Tolerant.quiet _ _ rfl rfl rfl rfl le_rfl)
    (fun _ _ => Tolerant.quiet _ _ rfl rfl rfl rfl le_rfl)

theorem memPutMoves (key : Bytes) (value : Entry) : Moves R (memPut key value) :=
  quietMoves (fun _ => ⟨rfl, rfl, rfl, rfl, le_rfl⟩)

theorem allocTxIdMoves : Moves R allocTxId :=
  movesGet.bind (fun _ => Moves.bind
    (quietMoves (fun _ => ⟨rfl, rfl, rfl, rfl, Nat.le_succ _⟩)) (fun _ => movesPure _))

variable [Crc32]

theorem putInternalMoves (key : Bytes) (value : Entry) : Moves R (putInternal key value) :=
  (walAppendMoves _).bind (fun _ => (memPutMoves key value).bind (fun _ => flushIfOverLimitMoves))

theorem commitPendingMoves (tx : Nat) (pending : List Rec) :
    Moves R (commitPending tx pending) := by
  have write : ∀ w, Moves R (walTxWrite tx w) := fun w => by
    unfold walTxWrite
    split <;> exact walAppendMoves _
  exact (walAppendMoves _).bind (fun _ => (Moves.forM write pending).bind (fun _ =>
    (walAppendMoves _).bind (fun _ => walSyncMoves.bind (fun _ =>
      (Moves.forM (fun w => memPutMoves w.1 w.2) pending).bind (fun _ =>
        flushIfOverLimitMoves.ignore)))))

theorem Op.runMoves (op : Op) : Moves R op.run := by
  cases op with
  | put key value => exact putInternalMoves key (some value)
  | delete key => exact putInternalMoves key none
  | commit pending => exact allocTxIdMoves.bind (fun tx => commitPendingMoves tx pending)
  | flush => exact flushMoves
  | compactFull => exact compactFullMoves.bind (fun _ => movesPure _)
  | get key => exact (getMoves key).bind (fun _ => movesPure _)
  | scan start stop => exact (scanMoves start stop).bind (fun _ => movesPure _)

end Growing
end MyLsmDb
