import MyLsmDb.CrashPrefix
import MyLsmDb.Gc

/-! A directory over the lifetimes of all processes that open it: every call, wherever it
stops, every end of a process and every new start. -/
namespace MyLsmDb
open ByteOrder (Bytes)
open Effect
open OrderedEntries
open Wal (Crc32)

inductive Call where
  | op (op : Op)
  | close
  | drop
  | gc
  deriving DecidableEq, Repr

inductive Node where
  | up (db : Database)
  | down (d : Disk)

variable [Crc32]

def Call.run : Call → DbM Unit
  | op o => o.run
  | close => Database.close
  | drop => Database.drop
  | gc => do let _ ← Database.gc

section Moving
variable {R : Database → Database → Prop} [Database.Tolerant R]

omit [Crc32] in
theorem closeMoves : Moves R Database.close := by
  refine movesGet.bind (fun db => Moves.ite (movesPure _) ?_)
  refine Database.flushMoves.bind (fun _ => walSyncMoves.bind (fun _ => ?_))
  exact Database.saveManifestMoves.bind
    (fun _ => Database.quietMoves (fun _ => ⟨rfl, rfl, rfl, rfl, le_rfl⟩))

omit [Crc32] in
theorem dropMoves : Moves R Database.drop :=
  movesGet.bind (fun _ => Moves.ite (movesPure _)
    (Database.flushMoves.ignore.bind (fun _ => walSyncMoves.ignore)))

omit [Crc32] in
theorem gcMoves : Moves R Database.gc := by
  have sweep : ∀ refs ids, Moves R (Database.gcLoop refs ids) := by
    intro refs ids
    induction ids with
    | nil => exact movesPure _
    | cons id ids ih =>
      unfold Database.gcLoop
      split
      · exact ih
      · refine Moves.ite ih ?_
        refine Moves.bind ?_ (fun _ => ih.bind (fun _ => movesPure _))
        exact Database.atomicallyMoves (fun db => Database.Tolerant.erased db id)
  refine movesGet.bind (fun db => (sweep _ _).bind (fun _ => ?_))
  exact Moves.bind (Database.quietMoves (fun _ => ⟨rfl, rfl, rfl, rfl, le_rfl⟩))
    (fun _ => movesPure _)

theorem Call.runMoves (call : Call) : Moves R call.run := by
  cases call with
  | op o => exact o.runMoves
  | close => exact closeMoves
  | drop => exact dropMoves
  | gc => exact gcMoves.bind (fun _ => movesPure _)

end Moving

def Call.all : List Call → DbM Unit
  | [] => pure ()
  | call :: calls => do
    call.run
    Call.all calls

theorem Call.allMoves {R : Database → Database → Prop} [Database.Tolerant R] (calls : List Call) :
    Moves R (Call.all calls) := by
  induction calls with
  | nil => exact movesPure _
  | cons call calls ih => exact call.runMoves.bind (fun _ => ih)

/-- The nodes that are reached by calls that meet `P`. -/
inductive Reach (P : Call → Database → Database → Prop) : Node → Prop where
  | fresh : Reach P (.down .empty)
  | opened {d : Disk} {faults : List Fault} {opts : Options} {db : Database}
      (before : Reach P (.down d)) (room : opts.segmentMaxRecords ≠ 0)
      (run : Database.openWith (Database.boot d faults opts) = .ok () db) : Reach P (.up db)
  | refused {d : Disk} {faults : List Fault} {opts : Options} {e : Stop Error} {db : Database}
      (before : Reach P (.down d))
      (run : Database.openWith (Database.boot d faults opts) = .error e db) :
      Reach P (.down db.disk)
  | returned {db db' : Database} {call : Call} (before : Reach P (.up db))
      (run : call.run db = .ok () db') (meets : P call db db') : Reach P (.up db')
  | failed {db db' : Database} {call : Call} {e : Stop Error} (before : Reach P (.up db))
      (run : call.run db = .error e db') (lives : e ≠ .crash) (meets : P call db db') :
      Reach P (.up db')
  | crashed {db db' : Database} {call : Call} {d : Disk} (before : Reach P (.up db))
      (run : call.run db = .error .crash db') (meets : P call db db') (found : db'.disk.Found d) :
      Reach P (.down d)
  | killed {db : Database} {d : Disk} (kept : Nat) (before : Reach P (.up db))
      (found : (db.disk.crashed kept).Found d) : Reach P (.down d)

/-- The tables that are written fit their format, and a collection is not asked for while the
manifest on the medium has tables that the one in memory does not have. -/
structure Lawful (call : Call) (db db' : Database) : Prop where
  fits : Fitting db'
  collectable : call = .gc → Collectable db

structure Alive (db : Database) : Prop where
  store : ∃ mem dur, Store any db mem dur
  version : VersionOk db.disk
  room : db.opts.segmentMaxRecords ≠ 0

structure Idle (d : Disk) : Prop where
  mounted : ∃ md, Mounted d md
  tail : d.tail = []

omit [Crc32] in
theorem Alive.mounted {db : Database} (h : Alive db) : ∃ md, Mounted db.disk md := by
  obtain ⟨mem, dur, vol, ⟨md, views⟩, -⟩ := h.store
  exact ⟨md, h.version, views.saved, views.durable⟩

omit [Crc32] in
theorem Alive.idle {db : Database} (h : Alive db) (tail : db.disk.tail = []) : Idle db.disk :=
  ⟨h.mounted, tail⟩

omit [Crc32] in
theorem Idle.found {d d' : Disk} (h : Idle d) (found : d.Found d') : Idle d' := by
  obtain ⟨⟨md, version, saved, holding⟩, tail⟩ := h
  cases found <;> exact ⟨⟨md, version, saved, holding⟩, tail⟩

omit [Crc32] in
theorem Alive.next {db db' : Database} (h : Alive db) (opts : db'.opts = db.opts)
    (version : db'.disk.version = db.disk.version) (store : ∃ mem dur, Store any db' mem dur) :
    Alive db' := by
  refine ⟨store, ?_, ?_⟩
  · rw [VersionOk, version]
    exact h.version
  · rw [opts]
    exact h.room

/-- Where a call stops, the process lives on, or the medium is as it should be. -/
def Stopping (e : Stop Error) (db : Database) : Prop :=
  (e = .crash → Idle db.disk) ∧ (e ≠ .crash → Alive db)

/-- Where a call of the engine stops, the store is as it was; a machine that went down has
nothing unsynced. -/
structure Halting (e : Stop Error) (db : Database) : Prop where
  alive : Alive db
  tail : e = .crash → db.disk.tail = []

omit [Crc32] in
theorem Halting.stopping {db : Database} {e : Stop Error} (h : Halting e db) : Stopping e db :=
  ⟨fun crash => h.alive.idle (h.tail crash), fun _ => h.alive⟩

omit [Crc32] in
theorem LogStop.tail {e : Stop Error} {d d' : Disk} (h : LogStop e d d') (crash : e = .crash) :
    d'.tail = [] := by
  rcases h with ⟨-, -, -, tail, -⟩ | ⟨other, -⟩
  · exact tail
  · exact absurd crash other

omit [Crc32] in
theorem FlushStop.halting {W : Manifest → Prop} {e : Stop Error} {d : Disk}
    {db₀ db db' : Database} {mem dur : View} (h : Alive db₀) (opts : db.opts = db₀.opts)
    (version : db.disk.version = db₀.disk.version) (stop : FlushStop W e d db db' mem dur) :
    Halting e db' := by
  have store : ∃ mem dur, Store any db' mem dur := by
    rcases stop.left with ⟨-, store | ⟨store, -⟩⟩ | ⟨-, store⟩ <;> exact ⟨_, _, store.any⟩
  refine ⟨h.next (stop.same.opts.trans opts) (stop.same.version.trans version) store, ?_⟩
  intro crash
  rcases stop.left with ⟨log, -⟩ | ⟨emptied, -⟩
  · exact log.tail crash
  · exact emptied.2

theorem AppendStop.halting {W : Manifest → Prop} {e : Stop Error} {rs : List Wal.LogRecord}
    {db₀ db db' : Database} {mem dur : View} (h : Alive db₀) (opts : db.opts = db₀.opts)
    (version : db.disk.version = db₀.disk.version) (stop : AppendStop W e rs db db' mem dur) :
    Halting e db' := by
  obtain ⟨part, -, log⟩ := stop.log
  exact ⟨h.next (stop.same.opts.trans opts) (stop.same.version.trans version)
    ⟨_, _, stop.store.any⟩, log.tail⟩

omit [Crc32] in
theorem WriteDone.alive {W : Manifest → Prop} {d : Disk} {db₀ db db' : Database} {mem dur : View}
    (h : Alive db₀) (opts : db.opts = db₀.opts) (version : db.disk.version = db₀.disk.version)
    (done : WriteDone W d db db' mem dur) : Alive db' := by
  refine h.next (done.same.opts.trans opts) (done.same.version.trans version) ?_
  rcases done.left with ⟨-, store | ⟨store, -⟩⟩ | ⟨-, store⟩ <;> exact ⟨_, _, store.any⟩

theorem Op.stays (op : Op) {db : Database} (h : Alive db) : EndsIf Fitting op.run db
    (fun _ db' => Alive db') (fun e db' => Halting e db') := by
  obtain ⟨mem, dur, store⟩ := h.store
  obtain ⟨-, opts, disk, -⟩ := op.startSame db
  have version : (op.start db).disk.version = db.disk.version := by rw [disk]
  refine Ends.mono (op.ends store h.room) ?_ ?_
  · intro _ db' done fits
    exact (done (goodOfFitting fits)).write.alive h opts version
  · intro e db' stop fits
    rcases stop (goodOfFitting fits) with append | flush
    · exact append.halting h opts version
    · exact flush.halting h opts version

theorem commitStays (tx : Nat) (pending : List Rec) {db : Database} (h : Alive db) :
    EndsIf Fitting (Database.commitPending tx pending) db
      (fun _ db' => Alive db') (fun e db' => Halting e db') := by
  obtain ⟨mem, dur, store⟩ := h.store
  refine Ends.mono (store.commitPending h.room tx pending) ?_ ?_
  · intro _ db' done fits
    exact (done (goodOfFitting fits)).alive h rfl rfl
  · intro e db' stop fits
    rcases stop (goodOfFitting fits) with append | ⟨-, flush⟩
    · exact append.halting h rfl rfl
    · exact flush.halting h rfl rfl

theorem closeRest {db₀ db : Database} (h : Alive db₀) (opts : db.opts = db₀.opts)
    (version : db.disk.version = db₀.disk.version) {mem : View} (store : Store any db mem mem) :
    EndsIf Fitting (do
      Database.walSync
      Database.saveManifest
      modify ({ · with closed := true }) : DbM Unit) db
      (fun _ db' => Alive db') (fun e db' => Halting e db') := by
  refine Ends.bind ((walSyncEnds store).mono (fun _ _ h => h) ?_) ?_
  · intro e db₁ stop _
    obtain ⟨part, -, log⟩ := stop.log
    exact ⟨h.next (stop.same.opts.trans opts) (stop.same.version.trans version)
      ⟨_, _, stop.store⟩, log.tail⟩
  · intro _ db₁ done
    obtain ⟨same₁, -, ⟨vol, ⟨md, views⟩, over_, clean⟩, -⟩ := done
    have next : ∀ {db₂ : Database} {dur : View}, Passed db₁ db₂ ∨ (∃ e, Stopped e db₁ db₂) →
        Views any db₂ vol dur → (db₁.memtable.isEmpty → vol = dur) → Alive db₂ := by
      intro db₂ dur how views₂ clean
      have same : Same db₁ db₂ ∧ db₂.memtable = db₁.memtable := by
        rcases how with passed | ⟨e, stopped⟩
        · exact ⟨passed.same, passed.memtable⟩
        · exact ⟨stopped.same, stopped.memtable⟩
      refine h.next ((same.1.opts.trans same₁.opts).trans opts)
        ((same.1.version.trans same₁.version).trans version) ⟨mem, dur, vol, views₂, ?_, ?_⟩
      · rw [same.2]
        exact over_
      · rw [same.2]
        exact clean
    refine Ends.bind (Ends.mono views.saveManifest (fun _ _ h => h) ?_) ?_
    · intro e db₂ stop fits
      obtain ⟨stopped, left⟩ := stop (goodOfFitting fits)
      have alive : Alive db₂ := by
        rcases left with kept | ⟨new, -⟩
        · exact next (.inr ⟨e, stopped⟩) kept clean
        · exact next (.inr ⟨e, stopped⟩) new (fun _ => rfl)
      exact ⟨alive, stopped.log.tail⟩
    · intro _ db₂ done
      refine endsModify _ (fun fits => ?_)
      obtain ⟨passed, new, -⟩ := done (goodOfFitting fits)
      have alive := next (.inl passed) ⟨_, new⟩ (fun _ => rfl)
      obtain ⟨mem', dur', store⟩ := alive.store
      exact alive.next rfl rfl ⟨mem', dur', store.same rfl rfl rfl rfl rfl⟩

omit [Crc32] in
theorem fittingBack (db db' : Database) (g : Grows db db') (h : Fitting db') : Fitting db :=
  fun r m => h r (g.built.subset m)

theorem Reach.all {calls : List Call} {db db' : Database} (before : Reach Lawful (.up db))
    (run : Call.all calls db = .ok () db') (noGc : .gc ∉ calls) (fits : Fitting db') :
    Reach Lawful (.up db') := by
  induction calls generalizing db with
  | nil =>
    cases run
    exact before
  | cons call calls ih =>
    obtain ⟨_, db₁, first, rest⟩ := ranBind run
    have fits₁ : Fitting db₁ :=
      fittingBack db₁ db' ((endsOfRun rest).mp (Call.allMoves calls db₁)) fits
    refine ih (.returned before first ⟨fits₁, ?_⟩) rest (fun mem => noGc (List.mem_cons_of_mem _ mem))
    rintro rfl
    exact absurd List.mem_cons_self noGc

theorem closeStays {db : Database} (h : Alive db) : EndsIf Fitting Database.close db
    (fun _ db' => Alive db') (fun e db' => Halting e db') := by
  obtain ⟨mem, dur, store⟩ := h.store
  have flushed := store.flush h.room
  have rest : Moves Grows (do
      Database.walSync
      Database.saveManifest
      modify ({ · with closed := true }) : DbM Unit) :=
    walSyncMoves.bind (fun _ => Database.saveManifestMoves.bind (fun _ =>
      Database.quietMoves (fun _ => ⟨rfl, rfl, rfl, rfl, le_rfl⟩)))
  unfold Database.close
  refine endsBindGet (endsIte (fun _ => fun _ => h) (fun _ => ?_))
  refine EndsIf.bind fittingBack (Ends.mono flushed
    (fun _ _ done fits => done (goodOfFitting fits)) ?_) (fun _ => rest) ?_
  · intro e db₁ stop fits
    exact (stop (goodOfFitting fits)).halting h rfl rfl
  · intro _ db₁ fits done
    exact closeRest h done.same.opts done.same.version done.store

omit [Crc32] in
theorem ignoreStays {x : DbM Unit} {db : Database} (h : EndsIf Fitting x db
    (fun _ db' => Alive db') (fun e db' => Halting e db')) : EndsIf Fitting (ignoreError x) db
    (fun _ db' => Alive db') (fun e db' => Halting e db') := by
  refine endsIgnore (Ends.mono h (fun _ _ done => done) ?_)
  intro e db' stop
  cases e with
  | error e => exact fun fits => (stop fits).alive
  | panic => exact stop
  | crash => exact stop

theorem flushStays {db : Database} (h : Alive db) : EndsIf Fitting Database.flush db
    (fun _ db' => Alive db') (fun e db' => Halting e db') := Op.stays .flush h

theorem walSyncStays {db : Database} (h : Alive db) : EndsIf Fitting Database.walSync db
    (fun _ db' => Alive db') (fun e db' => Halting e db') := by
  obtain ⟨mem, dur, store⟩ := h.store
  refine (walSyncEnds store).mono ?_ ?_
  · intro _ db' done _
    obtain ⟨same, -, store', -⟩ := done
    exact h.next same.opts same.version ⟨_, _, store'⟩
  · intro e db' stop _
    obtain ⟨part, -, log⟩ := stop.log
    exact ⟨h.next stop.same.opts stop.same.version ⟨_, _, stop.store⟩, log.tail⟩

theorem dropStays {db : Database} (h : Alive db) : EndsIf Fitting Database.drop db
    (fun _ db' => Alive db') (fun e db' => Halting e db') := by
  unfold Database.drop
  refine endsBindGet (endsIte (fun _ => fun _ => h) (fun _ => ?_))
  refine EndsIf.bind fittingBack (ignoreStays (flushStays h)) (fun _ => walSyncMoves.ignore) ?_
  exact fun _ db₁ _ alive => ignoreStays (walSyncStays alive)

theorem gcStays {db : Database} (h : Alive db) (collectable : Collectable db) :
    Ends (Call.run .gc) db (fun _ db' => Alive db') (fun e db' => Stopping e db') := by
  obtain ⟨mem, dur, vol, ⟨md, views⟩, over_, clean⟩ := h.store
  refine Ends.bind ((Database.gcEnds db).mono (fun _ _ h => h) ?_) ?_
  · intro e db' stop
    obtain ⟨-, fs, t, d, -, pruned, rfl, left⟩ := stop
    have views' := views.pruned collectable pruned fs
    obtain ⟨other, rfl⟩ | ⟨crash, k, rfl⟩ := left
    · exact ⟨fun crash => absurd crash other,
        fun _ => h.next rfl rfl ⟨mem, dur, vol, ⟨md, views'⟩, over_, clean⟩⟩
    · exact ⟨fun _ => ⟨⟨md, h.version, views.saved, views'.durable⟩, rfl⟩,
        fun other => absurd crash other⟩
  · intro _ db' done
    have views' := views.collected collectable done
    obtain ⟨fs, t, -, -, rfl⟩ := done.left
    exact h.next rfl rfl ⟨mem, dur, vol, ⟨md, views'⟩, over_, clean⟩

theorem Call.stays {call : Call} {db : Database} (h : Alive db)
    (collectable : call = .gc → Collectable db) :
    EndsIf Fitting call.run db (fun _ db' => Alive db') (fun e db' => Stopping e db') := by
  cases call with
  | op o => exact (o.stays h).mono (fun _ _ _ => id) (fun _ _ _ => Halting.stopping)
  | close => exact (closeStays h).mono (fun _ _ _ => id) (fun _ _ _ => Halting.stopping)
  | drop => exact (dropStays h).mono (fun _ _ _ => id) (fun _ _ _ => Halting.stopping)
  | gc => exact (gcStays h (collectable rfl)).endsIf

omit [Crc32] in
theorem idleEmpty : Idle .empty := ⟨⟨_, recoverableEmpty.mounted⟩, rfl⟩

theorem Idle.opened {d : Disk} (h : Idle d) {faults : List Fault} {opts : Options}
    (room : opts.segmentMaxRecords ≠ 0) : Ends Database.openWith (Database.boot d faults opts)
      (fun _ db => Alive db) (fun _ db => Idle db.disk) := by
  obtain ⟨⟨md, mounted⟩, tail⟩ := h
  refine (openWithMounted mounted tail).mono ?_ ?_
  · intro _ db done
    refine ⟨⟨_, _, done.1.store.any⟩, done.1.again.version, ?_⟩
    rw [done.1.opts]
    exact room
  · intro e db stop
    exact ⟨⟨md, stop.2⟩, stop.1.tail⟩

def Sound : Node → Prop
  | .up db => Alive db
  | .down d => Idle d

/-- No history of a directory leads out of the sound states. -/
theorem Reach.sound {P : Call → Database → Database → Prop}
    (lawful : ∀ call db db', P call db db' → Lawful call db db') {n : Node} (h : Reach P n) :
    Sound n := by
  induction h with
  | fresh => exact idleEmpty
  | opened before room run ih => exact (endsOfRun run).mp (Idle.opened ih room)
  | @refused d faults opts e db before run ih =>
    obtain ⟨⟨md, mounted⟩, tail⟩ := ih
    have stop := (endsOfError run).mp (openWithMounted mounted tail)
    exact ⟨⟨md, stop.2⟩, stop.1.tail⟩
  | returned before run meets ih =>
    have meets := lawful _ _ _ meets
    exact (endsOfRun run).mp (Call.stays ih meets.collectable) meets.fits
  | failed before run lives meets ih =>
    have meets := lawful _ _ _ meets
    exact ((endsOfError run).mp (Call.stays ih meets.collectable) meets.fits).2 lives
  | crashed before run meets found ih =>
    have meets := lawful _ _ _ meets
    exact (((endsOfError run).mp (Call.stays ih meets.collectable) meets.fits).1 rfl).found found
  | killed kept before found ih =>
    obtain ⟨md, version, saved, holding⟩ := Alive.mounted ih
    have idle : Idle (Disk.crashed _ kept) := ⟨⟨md, version, saved, holding⟩, rfl⟩
    exact idle.found found

end MyLsmDb
