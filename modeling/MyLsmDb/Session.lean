import MyLsmDb.Flush

/-! What a session does to the store: reads show it, a put, a delete and a commit change it
and the log, and may stop on the way. -/
namespace MyLsmDb
open ByteOrder (Bytes)
open Effect
open OrderedEntries
open Wal (Crc32 LogRecord logBytes)

variable {W : Manifest → Prop} {db db' : Database} {mem dur : Bytes → Option Bytes}

theorem Store.same (h : Store W db mem dur) (tables : db'.disk.tables = db.disk.tables)
    (saved : db'.disk.manifest = db.disk.manifest) (manifest : db'.manifest = db.manifest)
    (cache : db'.tableCache = db.tableCache) (memtable : db'.memtable = db.memtable) :
    Store W db' mem dur := by
  obtain ⟨vol, ⟨md, views⟩, rfl, clean⟩ := h
  refine ⟨vol, ⟨md, ?_⟩, by rw [memtable], fun none => clean (memtable ▸ none)⟩
  exact views.same (cachedSame views.cached cache tables (by rw [manifest])) tables saved manifest

section Reading

theorem Store.reads {db' : Database} (h : Store W db mem dur) (r : Reads db db') :
    Store W db' mem dur := by
  obtain ⟨vol, ⟨md, views⟩, rfl, clean⟩ := h
  exact ⟨vol, ⟨md, views.reads r⟩, by rw [r.memtable], fun none => clean (r.memtable ▸ none)⟩

/-- `l` lists the pairs of `v` in the range, in ascending order and each key once. -/
structure Lists (v : Bytes → Option Bytes) (start stop : Option Bytes) (l : List Rec) : Prop where
  ascending : Ordered l
  live : ∀ r ∈ l, r.2.isSome
  exact_ : ∀ key value, (key, some value) ∈ l ↔ between start stop key ∧ v key = some value

theorem Readable.scan (cached : Cached db) (h : Readable db.disk.tables db.manifest)
    (start stop : Option Bytes) : Completes (Database.scan start stop) db (fun l db' =>
      Lists (db.memtable.over (tablesView db.disk.tables db.manifest)) start stop l ∧
        Reads db db') := by
  unfold Database.scan
  refine (Database.scanAllExact cached h start stop).bind ?_
  rintro _ db' ⟨rfl, reads⟩
  have ordered : Ordered (Database.entries db) := flattenOrdered _
  have view : ∀ key value, (key, some value) ∈ Database.entries db ↔
      db.memtable.over (tablesView db.disk.tables db.manifest) key = some value := by
    intro key value
    rw [← lookupIff ordered, ← Database.lookupEntries]
    cases (Database.entries db).lookup key <;> simp
  refine ⟨⟨(rangeOrdered ordered).sublist List.filter_sublist, fun r m => (List.mem_filter.mp m).2,
    fun key value => ?_⟩, reads⟩
  rw [← view, List.mem_filter, memRange]
  simp [and_comm]

theorem Store.get (h : Store W db mem dur) (key : Bytes) : Completes (Database.get key) db
    (fun found db' => found = mem key ∧ Reads db db') := by
  obtain ⟨vol, ⟨md, views⟩, rfl, -⟩ := h
  refine (Database.getExact views.cached views.memory.readable key).imp ?_
  rintro _ db' ⟨rfl, reads⟩
  exact ⟨by rw [views.vol], reads⟩

theorem Store.scan (h : Store W db mem dur) (start stop : Option Bytes) :
    Completes (Database.scan start stop) db
      (fun l db' => Lists mem start stop l ∧ Reads db db') := by
  obtain ⟨vol, ⟨md, views⟩, rfl, -⟩ := h
  rw [← views.vol]
  exact views.memory.readable.scan views.cached start stop

end Reading

section Appending
variable [Crc32]

/-- The records `rs` are in the tail of the log, and nothing else has happened. -/
structure Logged (rs : List LogRecord) (db db' : Database) : Prop where
  same : Same db db'
  memtable : db'.memtable = db.memtable
  log : LogSame { db.disk with tail := db.disk.tail ++ logBytes rs } db'.disk
  saved : db'.disk.manifest = db.disk.manifest

/-- A part of the records has been appended at most. -/
structure AppendStop (W : Manifest → Prop) (e : Stop Error) (rs : List LogRecord)
    (db db' : Database) (mem dur : Bytes → Option Bytes) : Prop where
  injected : Injected db.faults e
  same : Same db db'
  memtable : db'.memtable = db.memtable
  saved : db'.disk.manifest = db.disk.manifest
  store : Store W db' mem dur
  log : ∃ part, part <+: logBytes rs ∧
    LogStop e { db.disk with tail := db.disk.tail ++ part } db'.disk

omit [Crc32] in
theorem LogSame.append {a b : Disk} {bytes more : Bytes}
    (h : LogSame { a with tail := a.tail ++ bytes } b) :
    LogSame { a with tail := a.tail ++ (bytes ++ more) } { b with tail := b.tail ++ more } :=
  ⟨h.wal, by simp [h.tail], h.cuts⟩

theorem Logged.refl (db : Database) : Logged [] db db :=
  ⟨.refl db, rfl, ⟨rfl, by simp, rfl⟩, rfl⟩

theorem Logged.trans {a b c : Database} {rs rs' : List LogRecord} (ab : Logged rs a b)
    (bc : Logged rs' b c) : Logged (rs ++ rs') a c := by
  refine ⟨ab.same.trans bc.same, bc.memtable.trans ab.memtable, ?_, bc.saved.trans ab.saved⟩
  rw [Wal.logBytesAppend]
  exact ab.log.append.trans bc.log

theorem Logged.stop {a b c : Database} {rs rs' : List LogRecord} {e : Stop Error}
    (ab : Logged rs a b) (bc : AppendStop W e rs' b c mem dur) :
    AppendStop W e (rs ++ rs') a c mem dur := by
  obtain ⟨part, cut, log⟩ := bc.log
  refine ⟨bc.injected.mono ab.same.faults, ab.same.trans bc.same, bc.memtable.trans ab.memtable,
    bc.saved.trans ab.saved, bc.store, logBytes rs ++ part, ?_, ?_⟩
  · rw [Wal.logBytesAppend]
    exact (List.prefix_append_right_inj _).mpr cut
  · exact ab.log.append.stop log

theorem walAppendEnds (r : LogRecord) (h : Store W db mem dur) :
    Ends (Database.walAppend r.bytes) db (fun _ db' => Logged [r] db db' ∧ Store W db' mem dur)
      (fun e db' => AppendStop W e [r] db db' mem dur) := by
  have single := Wal.logBytesSingle r
  refine (Database.effectEnds _ _ _ db).mono ?_ ?_
  · rintro _ _ ⟨fs, suffix, rfl⟩
    refine ⟨⟨⟨rfl, rfl, rfl, rfl, rfl, rfl, suffix⟩, rfl, ?_, rfl⟩, h.same rfl rfl rfl rfl rfl⟩
    rw [single]
    exact .refl _
  · rintro e _ ⟨injected, fs, suffix, ⟨rfl, n, rfl⟩ | ⟨rfl, n, k, rfl⟩⟩ <;>
      refine ⟨injected, ⟨rfl, rfl, rfl, rfl, rfl, rfl, suffix⟩, rfl, rfl,
        h.same rfl rfl rfl rfl rfl, r.bytes.take n, ?_, ?_⟩
    · rw [single]
      exact List.take_prefix _ _
    · exact .inr ⟨by simp, .refl _⟩
    · rw [single]
      exact List.take_prefix _ _
    · exact .inl ⟨rfl, k, rfl, rfl, rfl⟩

def logAll (rs : List LogRecord) : DbM Unit := rs.forM (fun r => Database.walAppend r.bytes)

theorem logAllEnds (rs : List LogRecord) (h : Store W db mem dur) :
    Ends (logAll rs) db (fun _ db' => Logged rs db db' ∧ Store W db' mem dur)
      (fun e db' => AppendStop W e rs db db' mem dur) := by
  induction rs generalizing db with
  | nil => exact ⟨.refl db, h⟩
  | cons r rs ih =>
    refine Ends.bind ((walAppendEnds r h).mono (fun _ _ h => h) ?_) ?_
    · intro e db' stop
      obtain ⟨part, cut, log⟩ := stop.log
      refine ⟨stop.injected, stop.same, stop.memtable, stop.saved, stop.store, part, ?_, log⟩
      exact cut.trans ⟨logBytes rs, by simp [logBytes]⟩
    · rintro _ db₁ ⟨logged, store⟩
      refine (ih store).mono ?_ (fun e db' stop => logged.stop stop)
      rintro _ db₂ ⟨logged₂, store₂⟩
      exact ⟨logged.trans logged₂, store₂⟩

theorem walSyncEnds (h : Store W db mem dur) : Ends Database.walSync db
    (fun _ db' => Same db db' ∧ db'.memtable = db.memtable ∧ Store W db' mem dur ∧
      LogSame { db.disk with wal := db.disk.wal ++ db.disk.tail, tail := [], cuts := [] } db'.disk ∧
      db'.disk.manifest = db.disk.manifest)
    (fun e db' => AppendStop W e [] db db' mem dur) := by
  refine (Database.effectEnds _ _ _ db).mono ?_ ?_
  · rintro _ _ ⟨fs, suffix, rfl⟩
    exact ⟨⟨rfl, rfl, rfl, rfl, rfl, rfl, suffix⟩, rfl, h.same rfl rfl rfl rfl rfl, .refl _, rfl⟩
  · rintro e _ ⟨injected, fs, suffix, ⟨rfl, n, rfl⟩ | ⟨rfl, n, k, rfl⟩⟩ <;>
      refine ⟨injected, ⟨rfl, rfl, rfl, rfl, rfl, rfl, suffix⟩, rfl, rfl,
        h.same rfl rfl rfl rfl rfl, [], List.nil_prefix, ?_⟩
    · exact .inr ⟨by simp, rfl, by simp, rfl⟩
    · exact .inl ⟨rfl, k, by simp [Disk.crashed], rfl, rfl⟩

end Appending

section Applying

/-- The value a list of writes leaves: the last one for the key counts. -/
def applied (ws : List Rec) (v : Bytes → Option Bytes) : Bytes → Option Bytes :=
  ws.foldl (fun v w => Function.update v w.1 w.2) v

@[simp] theorem appliedNil (v : Bytes → Option Bytes) : applied [] v = v := rfl

@[simp] theorem appliedCons (w : Rec) (ws : List Rec) (v : Bytes → Option Bytes) :
    applied (w :: ws) v = applied ws (Function.update v w.1 w.2) := rfl

theorem appliedAppend (ws ws' : List Rec) (v : Bytes → Option Bytes) :
    applied (ws ++ ws') v = applied ws' (applied ws v) := List.foldl_append

def lastWrite (ws : List Rec) (key : Bytes) : Option Entry := ws.reverse.lookup key

theorem appliedLast (ws : List Rec) (v : Bytes → Option Bytes) (key : Bytes) :
    applied ws v key = (lastWrite ws key).elim (v key) id := by
  induction ws using List.reverseRecOn with
  | nil => rfl
  | append_singleton ws w ih =>
    rw [appliedAppend, lastWrite, List.reverse_append, List.reverse_singleton, List.singleton_append,
      lookupCons]
    by_cases same : key = w.1
    · simp [same]
    · rw [lastWrite] at ih
      simpa [same] using ih

theorem MemTable.putSome (m : MemTable) (key : Bytes) (value : Entry) :
    ¬ (m.put key value).isEmpty := by
  intro none
  have found : (m.put key value).get key = some value := by simp
  rw [MemTable.get, OrderedMap.get, List.isEmpty_iff.mp none] at found
  cases found

theorem Store.memPut (h : Store W db mem dur) (key : Bytes) (value : Entry) :
    Store W { db with memtable := db.memtable.put key value } (Function.update mem key value) dur := by
  obtain ⟨vol, ⟨md, views⟩, rfl, clean⟩ := h
  exact ⟨vol, ⟨md, views.same views.cached rfl rfl rfl⟩, db.memtable.overPut vol key value,
    fun none => absurd none (db.memtable.putSome key value)⟩

theorem memPutAll (ws : List Rec) (h : Store W db mem dur) :
    ∃ m, ws.forM (fun w => Database.memPut w.1 w.2) db = .ok () { db with memtable := m } ∧
      Store W { db with memtable := m } (applied ws mem) dur ∧ 
      (m.isEmpty → ws = [] ∧ db.memtable.isEmpty) := by
  induction ws generalizing db mem with
  | nil => exact ⟨db.memtable, rfl, h, fun none => ⟨rfl, none⟩⟩
  | cons w ws ih =>
    obtain ⟨m, run, store, empty⟩ := ih (h.memPut w.1 w.2)
    refine ⟨m, ?_, store, fun none => ?_⟩
    · exact run
    · exact absurd (empty none).2 (db.memtable.putSome w.1 w.2)

end Applying

section Writing

/-- Where nothing is in memory, nothing waits to be synced. -/
def Settled (db : Database) : Prop := db.memtable.isEmpty → db.disk.tail = []

/-- A write that went through: the log is that of `d`, unless a flush has emptied it. A flush
that fails after a commit is passed over. -/
structure WriteDone (W : Manifest → Prop) (d : Disk) (db db' : Database)
    (mem dur : Bytes → Option Bytes) : Prop where
  same : Same db db'
  left : (LogSame d db'.disk ∧
      (Store W db' mem dur ∨ Store W db' mem mem ∧ ∃ n, Fault.fail n ∈ db.faults)) ∨
    (Emptied d db'.disk ∧ Store W db' mem mem)
  calm : Settled db → Settled db'

theorem Store.flushIfOverLimit (h : Store W db mem dur) (room : db.opts.segmentMaxRecords ≠ 0) :
    EndsIf (Good W) Database.flushIfOverLimit db
      (fun _ db' => WriteDone W db.disk db db' mem dur ∧
        (db.opts.memtableLimit ≤ db.memtable.sizeBytes →
          db.memtable.isEmpty ∨ Emptied db.disk db'.disk))
      (fun e db' => FlushStop W e db.disk db db' mem dur) := by
  unfold Database.flushIfOverLimit
  refine endsBindGet (endsIte (fun _ => ?_) (fun below => fun _ => ?_))
  · refine (h.flush room).mono ?_ (fun _ _ _ => id)
    rintro _ db' - done
    rcases done.left with ⟨none, memtable, log⟩ | ⟨-, emptied⟩
    · refine ⟨⟨done.same, .inl ⟨log, .inl (h.idle none ▸ done.store)⟩, fun calm none => ?_⟩,
        fun _ => .inl none⟩
      rw [log.tail]
      exact calm (memtable ▸ none)
    · exact ⟨⟨done.same, .inr ⟨emptied, done.store⟩, fun _ _ => emptied.tail⟩,
        fun _ => .inr emptied⟩
  · exact ⟨⟨.refl db, .inl ⟨.refl _, .inl h⟩, id⟩, fun over_ => absurd over_ below⟩

theorem WriteDone.since {d : Disk} {db₁ : Database} (h : WriteDone W db₁.disk db₁ db' mem dur)
    (same : Same db db₁) (log : LogSame d db₁.disk) (calm : Settled db₁) :
    WriteDone W d db db' mem dur := by
  refine ⟨same.trans h.same, h.left.imp ?_ (And.imp_left (·.since log)), fun _ => h.calm calm⟩
  rintro ⟨kept, left⟩
  refine ⟨log.trans kept, left.imp_right (And.imp_right ?_)⟩
  rintro ⟨n, mem⟩
  exact ⟨n, same.faults.subset mem⟩

theorem FlushStop.since {d : Disk} {e : Stop Error} {db₁ : Database}
    (h : FlushStop W e db₁.disk db₁ db' mem dur) (same : Same db db₁) (log : LogSame d db₁.disk)
    (saved : db₁.disk.manifest = db.disk.manifest) : FlushStop W e d db db' mem dur := by
  refine ⟨h.injected.mono same.faults, same.trans h.same,
    h.left.imp ?_ (And.imp_left (·.since log))⟩
  rintro ⟨left, how⟩
  exact ⟨log.stop left, how.imp_right (And.imp_right (saved ▸ ·))⟩

variable [Crc32]

theorem Store.putInternal (h : Store W db mem dur) (room : db.opts.segmentMaxRecords ≠ 0)
    (key : Bytes) (value : Entry) :
    EndsIf (Good W) (Database.putInternal key value) db
      (fun _ db' => WriteDone W
        { db.disk with tail := db.disk.tail ++ (LogRecord.plain key value).bytes } db db'
        (Function.update mem key value) dur ∧
          (db.opts.memtableLimit ≤ (db.memtable.put key value).sizeBytes → Emptied
            { db.disk with tail := db.disk.tail ++ (LogRecord.plain key value).bytes } db'.disk))
      (fun e db' => AppendStop W e [.plain key value] db db' mem dur ∨
        FlushStop W e { db.disk with tail := db.disk.tail ++ (LogRecord.plain key value).bytes }
          db db' (Function.update mem key value) dur) := by
  refine Ends.bind ((walAppendEnds (.plain key value) h).mono (fun _ _ h => h)
    (fun e db' stop _ => .inl stop)) ?_
  rintro _ db₁ ⟨logged, store⟩
  refine endsBindModify ?_
  set db₂ : Database := { db₁ with memtable := db₁.memtable.put key value } with hdb₂
  have same : Same db db₂ := logged.same.trans ⟨rfl, rfl, rfl, rfl, rfl, rfl, List.suffix_rfl⟩
  have log : LogSame { db.disk with
      tail := db.disk.tail ++ (LogRecord.plain key value).bytes } db₂.disk := by
    rw [← Wal.logBytesSingle]
    exact logged.log
  have some : ¬ db₂.memtable.isEmpty := db₁.memtable.putSome key value
  have next := (store.memPut key value).flushIfOverLimit (by rw [logged.same.opts]; exact room)
  refine next.mono (fun _ db' _ done => ⟨done.1.since same log (fun none => absurd none some), ?_⟩)
    (fun _ _ _ stop => .inr (stop.since same log logged.saved))
  intro full
  rw [← logged.same.opts, ← logged.memtable] at full
  exact ((done.2 full).resolve_left some).since log

def txRecord (tx : Nat) (w : Rec) : LogRecord :=
  match w.2 with
  | some v => .txPut tx w.1 v
  | none => .txDelete tx w.1

def txLog (tx : Nat) (pending : List Rec) : List LogRecord :=
  .begin tx :: (pending.map (txRecord tx) ++ [.commit tx])

theorem commitUnfold (tx : Nat) (pending : List Rec) : Database.commitPending tx pending = (do
    logAll (txLog tx pending)
    Database.walSync
    pending.forM (fun w => Database.memPut w.1 w.2)
    ignoreError Database.flushIfOverLimit : DbM Unit) := by
  have record : ∀ w, Database.walTxWrite tx w = Database.walAppend (txRecord tx w).bytes := by
    rintro ⟨key, value⟩
    cases value <;> rfl
  have begin : ∀ rs, logAll (.begin tx :: rs) =
      (do Database.walAppend (Wal.appendBegin tx); logAll rs : DbM Unit) := fun _ => rfl
  have all : ∀ rs : List Rec, logAll (rs.map (txRecord tx) ++ [.commit tx]) =
      (do rs.forM (Database.walTxWrite tx); Database.walAppend (Wal.appendCommit tx) : DbM Unit) := by
    intro rs
    induction rs with
    | nil => exact (bind_pure_unit (x := Database.walAppend (Wal.appendCommit tx)))
    | cons w rs ih =>
      change (do Database.walAppend (txRecord tx w).bytes
                 logAll (rs.map (txRecord tx) ++ [.commit tx]) : DbM Unit) =
        (do (do Database.walTxWrite tx w; rs.forM (Database.walTxWrite tx) : DbM Unit)
            Database.walAppend (Wal.appendCommit tx) : DbM Unit)
      rw [ih, ← record, bind_assoc]
  simp only [Database.commitPending, txLog, begin, all, bind_assoc]

theorem Store.commitPending (h : Store W db mem dur) (room : db.opts.segmentMaxRecords ≠ 0)
    (tx : Nat) (pending : List Rec) :
    EndsIf (Good W) (Database.commitPending tx pending) db
      (fun _ db' => WriteDone W
        { db.disk with
          wal := db.disk.wal ++ (db.disk.tail ++ logBytes (txLog tx pending)), tail := [], cuts := [] }
        db db' (applied pending mem) dur)
      (fun e db' => AppendStop W e (txLog tx pending) db db' mem dur ∨
        e = .crash ∧ FlushStop W e { db.disk with
          wal := db.disk.wal ++ (db.disk.tail ++ logBytes (txLog tx pending)), tail := [], cuts := [] }
          db db' (applied pending mem) dur) := by
  rw [commitUnfold]
  refine Ends.bind ((logAllEnds (txLog tx pending) h).mono (fun _ _ h => h)
    (fun e db' stop _ => .inl stop)) ?_
  rintro _ db₁ ⟨logged, store⟩
  refine Ends.bind ((walSyncEnds store).mono (fun _ _ h => h) ?_) ?_
  · intro e db' stop _
    have := logged.stop stop
    rw [List.append_nil] at this
    exact .inl this
  rintro _ db₂ ⟨same₂, memtable, store₂, synced, saved⟩
  obtain ⟨m, run, store₃, -⟩ := memPutAll pending store₂
  refine endsBindOk run ?_
  set db₃ : Database := { db₂ with memtable := m } with hdb₃
  have same : Same db db₃ := (logged.same.trans same₂).trans
    ⟨rfl, rfl, rfl, rfl, rfl, rfl, List.suffix_rfl⟩
  have log : LogSame { db.disk with
      wal := db.disk.wal ++ (db.disk.tail ++ logBytes (txLog tx pending)), tail := [], cuts := [] }
      db₃.disk := ⟨by rw [hdb₃, synced.wal, logged.log.wal, logged.log.tail], synced.tail, synced.cuts⟩
  have next := store₃.flushIfOverLimit (by rw [same.opts]; exact room)
  refine endsIgnore (Ends.mono next
    (fun _ _ done good => (done good).1.since same log (fun _ => synced.tail)) ?_)
  intro e db₄ stop
  have stop := fun good => (stop good).since same log (saved.trans logged.saved)
  cases e with
  | error e =>
    intro good
    obtain ⟨injected, same₄, left⟩ := stop good
    have io : ∃ n, Fault.fail n ∈ db.faults := by
      cases e with
      | io => exact injected
      | _ => exact injected.elim
    rcases left with ⟨⟨crash, -⟩ | ⟨-, log₄⟩, how⟩ | ⟨emptied, store₄⟩
    · cases crash
    · exact ⟨same₄, .inl ⟨log₄, how.imp id (fun s => ⟨s.1, io⟩)⟩, fun _ _ => log₄.tail⟩
    · exact ⟨same₄, .inr ⟨emptied, store₄⟩, fun _ _ => emptied.tail⟩
  | panic => exact fun good => (stop good).injected.elim
  | crash => exact fun good => .inr ⟨rfl, stop good⟩

end Writing
end MyLsmDb
