import MyLsmDb.EntityLifetime
import MyLsmDb.Keyed
import MyLsmDb.TransactionView

/-! The engine in a process that meets no fault: what each of the steps that the entity layer
takes does to the map that is shown, and that a close and a new start keep it. -/
namespace MyLsmDb
open ByteOrder (Bytes)
open Effect
open OrderedEntries
open Wal (Crc32)

section Steady
variable [Crc32]

/-- An engine without faults that shows `mem` and holds no keys but those that are `K`; on its
medium is the schema `saved`. -/
structure Steady (K : Bytes → Prop) (saved : Option Text.Chars) (db : Database) (mem : View) : Prop
    where
  store : ∃ dur, Store any db mem dur
  version : VersionOk db.disk
  room : db.opts.segmentMaxRecords ≠ 0
  keyed : Keyed K db
  marked : Marked db
  faults : db.faults = []
  running : db.closed = false
  schema : db.disk.schema = saved

variable {K : Bytes → Prop} {saved : Option Text.Chars} {db : Database} {mem : View}

theorem Steady.reads {db' : Database} (h : Steady K saved db mem) (r : Reads db db') :
    Steady K saved db' mem := by
  obtain ⟨dur, store⟩ := h.store
  have same := r.passed.same
  refine ⟨⟨dur, store.reads r⟩, ?_, ?_, ?_, ?_, ?_, ?_, same.schema.trans h.schema⟩
  · rw [VersionOk, same.version]
    exact h.version
  · rw [same.opts]
    exact h.room
  · exact h.keyed.untouched ⟨r.memtable, r.manifest, fun _ _ => by rw [r.disk]⟩
  · intro none
    rw [r.disk]
    exact h.marked (r.memtable ▸ none)
  · exact List.suffix_nil.mp (h.faults ▸ same.faults)
  · rw [same.closed]
    exact h.running

theorem Steady.get (h : Steady K saved db mem) (key : Bytes) : Completes (Database.get key) db
    (fun found db' => found = mem key ∧ Steady K saved db' mem) := by
  obtain ⟨dur, store⟩ := h.store
  exact (store.get key).imp (fun _ _ done => ⟨done.1, h.reads done.2⟩)

theorem Steady.scan (h : Steady K saved db mem) (start stop : Option Bytes) :
    Completes (Database.scanAll start stop) db (fun rows db' =>
      KeyValue.Lists mem start stop rows ∧ (∀ r ∈ rows, K r.1) ∧ Steady K saved db' mem) := by
  obtain ⟨dur, store⟩ := h.store
  have shown := store.entries
  have opened := store
  obtain ⟨vol, ⟨md, views⟩, -⟩ := opened
  refine (Database.scanAllExact views.cached views.memory.readable start stop).imp ?_
  intro rows db' done
  obtain ⟨rfl, reads⟩ := done
  refine ⟨KeyValue.rangeLists (flattenOrdered _) shown start stop, fun r m => ?_, h.reads reads⟩
  exact h.keyed.entries r (memRange.mp m).1

theorem Steady.written {d : Disk} {db₀ db' : Database} {v : View} (h : Steady K saved db mem)
    (opts : db₀.opts = db.opts) (version : db₀.disk.version = db.disk.version)
    (faults : db₀.faults = db.faults) (closed : db₀.closed = db.closed)
    (schema : db₀.disk.schema = db.disk.schema) {dur : View} (done : WriteDone any d db₀ db' v dur)
    (keyed : Keyed K db') (marked : Marked db') :
    Steady K saved db' v := by
  refine ⟨?_, ?_, ?_, keyed, marked, ?_, ?_, (done.same.schema.trans schema).trans h.schema⟩
  · rcases done.left with ⟨-, store | ⟨store, -⟩⟩ | ⟨-, store⟩ <;> exact ⟨_, store⟩
  · rw [VersionOk, done.same.version, version]
    exact h.version
  · rw [done.same.opts, opts]
    exact h.room
  · exact List.suffix_nil.mp (h.faults ▸ faults ▸ done.same.faults)
  · rw [done.same.closed, closed]
    exact h.running

theorem Steady.put (h : Steady K saved db mem) {key : Bytes} (mine : K key) (value : Entry) :
    EndsIf Fitting (Database.putInternal key value) db
      (fun _ db' => Steady K saved db' (Function.update mem key value)) (fun _ _ => False) := by
  obtain ⟨dur, store⟩ := h.store
  refine Ends.mono (endsBoth (store.putInternal h.room key value)
    (endsBoth (store.putKeys h.room h.keyed mine value) (store.putMarked h.room key value))) ?_ ?_
  · intro _ db' done fits
    have good := goodOfFitting fits
    exact h.written rfl rfl rfl rfl rfl (done.1 good).1 (done.2.1 good) (done.2.2 good)
  · intro e db' stop fits
    exact noInjection (h.faults ▸ stop.2.2 (goodOfFitting fits))

theorem Steady.commit (h : Steady K saved db mem) (tx : Nat) {pending : List Rec}
    (mine : ∀ w ∈ pending, K w.1) : EndsIf Fitting (Database.commitPending tx pending) db
      (fun _ db' => Steady K saved db' (applied pending mem)) (fun _ _ => False) := by
  obtain ⟨dur, store⟩ := h.store
  refine Ends.mono (endsBoth (store.commitPending h.room tx pending)
    (endsBoth (store.commitKeys h.room h.keyed tx mine)
      (store.commitMarked h.room h.marked h.faults tx pending))) ?_ ?_
  · intro _ db' done fits
    have good := goodOfFitting fits
    exact h.written rfl rfl rfl rfl rfl (done.1 good) (done.2.1 good) (done.2.2 good)
  · intro e db' stop fits
    exact stop.2.2 (goodOfFitting fits)

theorem Steady.flush (h : Steady K saved db mem) : EndsIf Fitting Database.flush db
    (fun _ db' => Steady K saved db' mem ∧ db'.memtable.isEmpty) (fun _ _ => False) := by
  obtain ⟨dur, store⟩ := h.store
  refine Ends.mono (endsBoth (store.flush h.room) (endsBoth (store.flushKeys h.room h.keyed)
    (store.flushMarked h.room h.marked))) ?_ ?_
  · intro _ db' done fits
    have good := goodOfFitting fits
    have flushed := done.1 good
    refine ⟨⟨⟨_, flushed.store⟩, ?_, ?_, done.2.1 good, done.2.2 good, ?_, ?_,
      flushed.same.schema.trans h.schema⟩, ?_⟩
    · rw [VersionOk, flushed.same.version]
      exact h.version
    · rw [flushed.same.opts]
      exact h.room
    · exact List.suffix_nil.mp (h.faults ▸ flushed.same.faults)
    · rw [flushed.same.closed]
      exact h.running
    · rcases flushed.left with ⟨none, memtable, -⟩ | ⟨new, -⟩
      · rw [memtable]
        exact none
      · rw [new]
        rfl
  · intro e db' stop fits
    exact noInjection (h.faults ▸ stop.2.2 (goodOfFitting fits))

theorem Steady.same {db' : Database} {saved' : Option Text.Chars} (h : Steady K saved db mem)
    (tables : db'.disk.tables = db.disk.tables)
    (text : db'.disk.manifest = db.disk.manifest) (manifest : db'.manifest = db.manifest)
    (cache : db'.tableCache = db.tableCache) (memtable : db'.memtable = db.memtable)
    (wal : db'.disk.wal = db.disk.wal) (tail : db'.disk.tail = db.disk.tail)
    (version : db'.disk.version = db.disk.version) (opts : db'.opts = db.opts)
    (faults : db'.faults = []) (closed : db'.closed = db.closed)
    (schema : db'.disk.schema = saved') : Steady K saved' db' mem := by
  obtain ⟨dur, store⟩ := h.store
  refine ⟨⟨dur, store.same tables text manifest cache memtable⟩, ?_, ?_, ?_, ?_, faults, ?_, schema⟩
  · rw [VersionOk, version]
    exact h.version
  · rw [opts]
    exact h.room
  · exact h.keyed.untouched ⟨memtable, manifest, fun _ _ => by rw [tables]⟩
  · intro none
    rw [wal, tail]
    exact h.marked (memtable ▸ none)
  · rw [closed]
    exact h.running

theorem Steady.saveText (h : Steady K saved db mem) (text : Text.Chars) :
    Completes (Database.atomically (fun d => { d with schema := some text })) db
      (fun _ db' => Steady K (some text) db' mem ∧ db'.built = db.built) := by
  refine (schemaEnds text db).mono ?_ ?_
  · intro _ db' done
    obtain ⟨fs, suffix, rfl⟩ := done
    have none : fs = [] := List.suffix_nil.mp (h.faults ▸ suffix)
    exact ⟨h.same rfl rfl rfl rfl rfl rfl rfl rfl rfl none rfl rfl, rfl⟩
  · intro e db' stop
    exact noInjection (h.faults ▸ stop.1)

theorem Steady.begin (h : Steady K saved db mem) :
    Steady K saved { db with nextTxId := db.nextTxId + 1 } mem :=
  h.same rfl rfl rfl rfl rfl rfl rfl rfl rfl h.faults rfl h.schema

end Steady

section Closing
variable [Crc32]

/-- A medium from which a new process shows `mem` again. -/
structure Ready (K : Bytes → Prop) (saved : Option Text.Chars) (d : Disk) (mem : View) : Prop where
  mounted : ∃ md, Mounted d md ∧ tablesView d.tables md = mem ∧
    ∀ id ∈ md.allIds, ∀ r ∈ recordsOf d.tables id, K r.1
  log : ∃ log, Marks log ∧ d.wal = Wal.logBytes log
  tail : d.tail = []
  schema : d.schema = saved

variable {K : Bytes → Prop} {saved : Option Text.Chars} {db : Database} {mem : View}

omit [Crc32] in
theorem effectSteady {fully : Disk → Disk} {onFail onCrash : Nat → Disk → Disk}
    (faults : db.faults = []) : Completes (Database.effect fully onFail onCrash) db
      (fun _ db' => db' = { db with disk := fully db.disk }) := by
  refine (Database.effectEnds _ _ _ db).mono ?_ ?_
  · intro _ db' done
    obtain ⟨fs, suffix, rfl⟩ := done
    rw [faults] at suffix
    rw [List.suffix_nil.mp suffix, ← faults]
  · intro e db' stop
    have injected := stop.1
    rw [faults] at injected
    exact noInjection injected

theorem Steady.close (h : Steady K saved db mem) : EndsIf Fitting Database.close db
    (fun _ db' => Ready K saved db'.disk mem) (fun _ _ => False) := by
  have rest : Moves Grows (do
      Database.walSync
      Database.saveManifest
      modify ({ · with closed := true }) : DbM Unit) :=
    walSyncMoves.bind (fun _ => Database.saveManifestMoves.bind (fun _ =>
      Database.quietMoves (fun _ => ⟨rfl, rfl, rfl, rfl, le_rfl⟩)))
  unfold Database.close
  refine endsBindGet (endsIte (fun closed => absurd closed (by simp [h.running])) (fun _ => ?_))
  refine EndsIf.bind fittingBack h.flush (fun _ => rest) ?_
  intro _ db₁ _ flushed
  obtain ⟨quiet, empty⟩ := flushed
  obtain ⟨dur, store⟩ := quiet.store
  obtain ⟨vol, ⟨md, views⟩, over_, -⟩ := store
  obtain ⟨log, marks, bytes⟩ := quiet.marked empty
  refine Ends.endsIf ((effectSteady quiet.faults).bind ?_)
  intro _ db₂ done
  subst done
  set db₂ : Database := { db₁ with
    disk := { db₁.disk with wal := db₁.disk.wal ++ db₁.disk.tail, tail := [], cuts := [] } } with hdb₂
  have saves : Completes Database.saveManifest db₂ (fun _ db' =>
      db'.disk = { db₂.disk with manifest := some db₂.manifest.save }) := by
    refine endsBindGet (endsBindModify (Ends.imp (effectSteady ?_) (fun _ db' same => ?_)))
    · exact quiet.faults
    · rw [same]
  refine Ends.bind (saves.mono (fun _ _ done => done) (fun _ _ => False.elim)) ?_
  intro _ db₃ done
  refine endsModify _ ?_
  change Ready K saved db₃.disk mem
  rw [done]
  refine ⟨⟨db₁.manifest, ⟨quiet.version, .inl rfl, views.memory⟩, ?_, quiet.keyed.tables⟩,
    ⟨log, marks, bytes⟩, rfl, quiet.schema⟩
  rw [← over_, MemTable.overEmpty empty]
  exact views.vol

theorem openFresh {d : Disk} {md : Manifest} (mounted : Mounted d md) (tail : d.tail = [])
    (none : (Wal.replay d.wal).records = []) {opts : Options} :
    Ends Database.openWith (Database.boot d [] opts)
      (fun _ db => db.manifest = md ∧ db.memtable = .new ∧ db.closed = false) (fun _ _ => True) := by
  unfold Database.openWith
  refine Ends.bind ((@openVersionEnds md (Database.boot d [] opts) mounted tail).mono
    (fun _ _ h => h) (fun _ _ _ => trivial)) ?_
  intro version _ done
  obtain ⟨fs, d₁, -, rfl, step, again⟩ := done
  by_cases written : Writable md
  · obtain ⟨m, load, same⟩ := loadRecoverable (again.recoverable written)
    refine endsBindGet ?_
    simp only [load]
    refine endsBindOk rfl (endsBindModify ?_)
    rw [same]
    set db₁ : Database := { Database.boot d [] opts with
      faults := fs, disk := d₁, manifest := md, formatVersion := version } with hdb₁
    obtain ⟨_, _, run, rfl⟩ := (@convertLegacyEnds db₁ again.holding.single).run
    refine endsBindOk run ?_
    obtain ⟨_, _, run, rfl⟩ := (@validateOpenStateEnds db₁ again.holding).run
    refine endsBindOk run (endsBindGet ?_)
    have records : (Wal.replay db₁.disk.wal).records = [] := by
      have wal : db₁.disk.wal = d.wal := step.wal
      rw [wal, none]
    simp only [records]
    exact endsBindOk rfl (endsModify _ ⟨rfl, rfl, rfl⟩)
  · refine endsBindGet ?_
    rcases again.saved with text | ⟨-, rfl⟩
    · dsimp only
      rw [text]
      cases load : Manifest.load (some md.save) with
      | ok m => exact absurd (Manifest.loadWritable load) written
      | error e => exact trivial
    · exact absurd recoverableEmpty.written written

theorem Ready.opens {d : Disk} (h : Ready K saved d mem) {opts : Options}
    (room : opts.segmentMaxRecords ≠ 0) :
    Ends Database.openWith (Database.boot d [] opts)
      (fun _ db => Steady K saved db mem ∧ db.built = []) (fun _ _ => True) := by
  obtain ⟨md, mounted, view, keys⟩ := h.mounted
  obtain ⟨log, marks, wal⟩ := h.log
  have whole := Wal.replayLog marks.fits Wal.readRecordNil
  rw [List.append_nil, marks.none] at whole
  have none : (Wal.replay d.wal).records = [] := by rw [wal, whole]
  refine (endsBoth (@openWithMounted d md _ [] opts mounted h.tail) (@openFresh _ d md mounted h.tail
    none opts)).mono ?_ (fun _ _ _ => trivial)
  intro _ db done
  obtain ⟨⟨just, suffix⟩, manifest, memtable, running⟩ := done
  have store := just.store
  rw [none, view] at store
  refine ⟨⟨⟨_, store.any⟩, just.again.version, ?_, ⟨?_, ?_⟩, ?_, List.suffix_nil.mp suffix, running,
    just.medium.schema.trans h.schema⟩, just.built⟩
  · rw [just.opts]
    exact room
  · intro r m
    rw [memtable] at m
    cases m
  · intro id m r mr
    rw [manifest] at m
    rw [just.medium.tables] at mr
    exact keys id m r mr
  · intro _
    refine ⟨log, marks, ?_⟩
    rw [just.medium.wal, just.medium.tail, List.append_nil, wal]

theorem readyEmpty : Ready K none .empty (fun _ => none) := by
  refine ⟨⟨_, recoverableEmpty.mounted, rfl, fun id m => ?_⟩, ⟨[], fun r m => ?_, rfl⟩, rfl, rfl⟩
  · cases m
  · cases m

end Closing
end MyLsmDb
