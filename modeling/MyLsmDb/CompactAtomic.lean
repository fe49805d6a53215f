import MyLsmDb.Lifetime

/-! A compaction that stops: the store shows what it showed before, and so does the next
session, unless the log has something that neither of them shows. -/
namespace MyLsmDb
open ByteOrder (Bytes)
open Effect
open OrderedEntries
open Wal (Crc32)

inductive Compaction where
  | compact
  | compactFull
  deriving DecidableEq, Repr

def Compaction.run : Compaction → DbM Unit
  | compact => Database.compact
  | compactFull => do let _ ← Database.compactFull

variable {W : Manifest → Prop} {db db' : Database} {mem dur v : View}

section Stopping

/-- Where a compaction stops, and what it has not touched. -/
def Compacting (W : Manifest → Prop) (x : DbM Unit) (db : Database) (v : View) : Prop :=
  EndsIf (Good W) x db (fun _ db' => Passed db db' ∧ Store W db' v v)
    (fun e db' => (db' = db ∧ e ≠ .crash ∨ Stopped e db db') ∧ Store W db' v v)

theorem Store.compact (h : Store W db mem dur) (none : db.memtable.isEmpty)
    (room : db.opts.segmentMaxRecords ≠ 0) : Compacting W Database.compact db mem := by
  obtain ⟨vol, ⟨md, views⟩, over_, clean⟩ := h
  obtain rfl := clean none
  have store : ∀ db' : Database, db'.memtable = db.memtable → Views W db' vol vol →
      Store W db' mem mem := fun db' memtable views' => by
    have view : vol = mem := (MemTable.overEmpty none vol).symm.trans over_
    exact ⟨vol, view ▸ views', by rw [memtable, over_], fun _ => view⟩
  by_cases level0 : db.manifest.level0 = []
  · have empty : db.manifest.levels.headD [] = [] := level0
    unfold Compacting Database.compact
    refine endsBindGet (endsIte (fun _ => fun _ => ?_) (fun _ => ?_))
    · exact ⟨.refl db, store db rfl ⟨md, views⟩⟩
    · rw [empty]
      refine endsBindOk rfl ?_
      exact fun _ => ⟨.inl ⟨rfl, by simp⟩, store db rfl ⟨md, views⟩⟩
  · refine Ends.mono (views.compact room level0) ?_ ?_
    · intro _ db' done good
      obtain ⟨passed, views'⟩ := done good
      exact ⟨passed, store db' passed.memtable views'⟩
    · intro e db' stop good
      obtain ⟨stopped, views'⟩ := stop good
      exact ⟨.inr stopped, store db' stopped.memtable (views'.elim id id)⟩

theorem Compaction.passes (c : Compaction) (h : Store W db mem dur) (none : db.memtable.isEmpty)
    (room : db.opts.segmentMaxRecords ≠ 0) : Compacting W c.run db mem := by
  cases c with
  | compact => exact h.compact none room
  | compactFull =>
    change Compacting W (do let _ ← Database.compactFull) db mem
    unfold Compacting Database.compactFull
    have merge := h.mergeAll none room
    refine Ends.bind (endsBindOk (flushIdle none) (Ends.mono merge (fun _ _ h => h) ?_)) ?_
    · intro e db' stop good
      exact (stop good).imp_left .inr
    · exact fun _ db' done good => done good

def Loadable (d : Disk) : Prop := ∃ m, Manifest.load d.manifest = .ok m

theorem Store.loadable (h : Store MyLsmDb.any db mem dur) (loads : Loadable db.disk) :
    Store Writable db mem dur := by
  obtain ⟨vol, ⟨md, views⟩, rest⟩ := h
  refine ⟨vol, ⟨md, { views with written := ?_ }⟩, rest⟩
  obtain ⟨m, loaded⟩ := loads
  rcases views.saved with text | ⟨-, rfl⟩
  · rw [text] at loaded
    exact Manifest.loadWritable loaded
  · exact recoverableEmpty.written

variable [Crc32]

/-- The logs that may be found when the machine is up again: the one that is there, or that before
a truncation that was not synced, with a part of the tail that it has. -/
def Disk.Log (d : Disk) (w : Bytes) : Prop :=
  ∃ log ∈ (d.wal, d.tail) :: d.cuts, ∃ kept, w = log.1 ++ log.2.take kept

/-- The log has nothing that `v` does not show. -/
def Silent (d : Disk) (v : View) : Prop := applied (Wal.replay d.wal).records v = v

/-- The store shows `v`, and where the machine goes down now, `P` is true of what is found. -/
def Intact (P : Disk → Prop) (v : View) (db : Database) : Prop :=
  Shows db v ∧ ∀ kept d, Loadable db.disk → (db.disk.crashed kept).Found d → P d

/-- Whatever has stopped it, the store shows `v`, or `P` is true of what is found. -/
def Unharmed (P : Disk → Prop) (v : View) (e : Stop Error) (db : Database) : Prop :=
  (e = .crash → ∀ d, Loadable db.disk → db.disk.Found d → P d) ∧ (e ≠ .crash → Intact P v db)

/-- What is found has one of the logs of `d`, and it shows `v` just when this log is silent. -/
def Restored (d : Disk) (v : View) (d' : Disk) : Prop :=
  d.Log d'.wal ∧ (Reopens d' v ↔ Silent d' v)

omit [Crc32] in
theorem LogSame.found {d d' d'' : Disk} (h : LogSame d d') {kept : Nat}
    (found : (d'.crashed kept).Found d'') : d.Log d''.wal := by
  cases found with
  | left => exact ⟨_, List.mem_cons_self, kept, by simp [Disk.crashed, h.wal, h.tail]⟩
  | @undone cut mem kept' =>
    have before : cut ∈ d.cuts := by
      rw [← h.cuts]
      exact mem
    exact ⟨cut, List.mem_cons_of_mem _ before, kept', rfl⟩

omit [Crc32] in
theorem LogCut.found {d d' d'' : Disk} (h : LogCut d d') (found : d'.Found d'') :
    d.Log d''.wal := by
  obtain ⟨kept, wal, -, cuts⟩ := h
  cases found with
  | left => exact ⟨_, List.mem_cons_self, kept, wal⟩
  | @undone cut mem kept' => exact ⟨cut, List.mem_cons_of_mem _ (cuts ▸ mem), kept', rfl⟩

theorem Store.restored {d d' : Disk} (h : Store MyLsmDb.any db v v) (version : VersionOk db.disk)
    (tail : db.disk.tail = []) (loads : Loadable db.disk) (found : db.disk.Found d')
    (log : d.Log d'.wal) : Restored d v d' := by
  have reopens := (h.loadable loads).found version tail found rfl
  refine ⟨log, fun shown => ?_, fun silent => ?_⟩
  · obtain ⟨_, db₀, run, shows⟩ := (reopens db.opts).run
    exact shows.unique ((endsOfRun run).mp (shown db.opts))
  · have same : applied (Wal.replay d'.wal).records v = v := silent
    rw [same] at reopens
    exact reopens

theorem Store.intact {d : Disk} (h : Store MyLsmDb.any db v v) (version : VersionOk db.disk)
    (log : LogSame d db.disk) : Intact (Restored d v) v db :=
  ⟨h.shows, fun kept _ loads found =>
    (h.crashed kept).restored version rfl loads found (log.found found)⟩

theorem Compaction.ends (c : Compaction) (alive : Alive db) (none : db.memtable.isEmpty)
    (shows : Shows db v) : EndsIf Fitting c.run db
      (fun _ db' => Intact (Restored db.disk v) v db')
      (fun e db' => Unharmed (Restored db.disk v) v e db') := by
  obtain ⟨⟨mem, dur, store⟩, version, room⟩ := alive
  cases store.shows.unique shows
  have versioned : ∀ {db' : Database}, Same db db' → VersionOk db'.disk := by
    intro db' same
    rw [VersionOk, same.version]
    exact version
  refine Ends.mono (c.passes store none room) ?_ ?_
  · intro _ db' done fits
    obtain ⟨passed, store'⟩ := done (goodOfFitting fits)
    exact store'.intact (versioned passed.same) passed.log
  · intro e db' stop fits
    obtain ⟨⟨rfl, lives⟩ | stopped, store'⟩ := stop (goodOfFitting fits)
    · exact ⟨fun crash => absurd crash lives, fun _ => store'.intact version (.refl _)⟩
    rcases stopped.log with ⟨crash, cut⟩ | ⟨lives, same⟩
    · refine ⟨fun _ d loads found => ?_, fun lives => absurd crash lives⟩
      have tail : db'.disk.tail = [] := by
        obtain ⟨-, -, tail, -⟩ := cut
        exact tail
      exact store'.restored (versioned stopped.same) tail loads found (cut.found found)
    · exact ⟨fun crash => absurd crash lives,
        fun _ => store'.intact (versioned stopped.same) same⟩

end Stopping

section Reading

def readTable (tables : OrderedMap Nat Bytes) (id : Nat) : Fallible (List Rec) :=
  match tables.get id with
  | none => throw (.error .io)
  | some bytes => do
    let reader ← Sstable.TableReader.openFile bytes
    reader.iter

def Compaction.Input (db : Database) : Compaction → Nat → Prop
  | compact, id => ¬ db.manifest.level0.length < db.opts.l0CompactThreshold ∧
      (id ∈ db.manifest.level0 ∨ ∃ lo hi,
        Database.tableBounds none db.manifest.level0 db = .ok (some (lo, hi)) db ∧
        ∃ s ∈ db.manifest.segments, Database.overlaps lo hi s ∧ s.fileId = id)
  | compactFull, id => id ∈ db.manifest.level0 ∨ ∃ s ∈ db.manifest.segments, s.fileId = id

def Unread (tables : OrderedMap Nat Bytes) (ids : List Nat) (e : Stop Error) : Prop :=
  ∃ id ∈ ids, readTable tables id = .error e

theorem openTableReads (id : Nat) (db : Database) : Ends (Database.openTable id) db
    (fun r s => s = db ∧ readTable db.disk.tables id = r.iter)
    (fun e s => s = db ∧ readTable db.disk.tables id = .error e) := by
  unfold readTable
  refine endsBindGet ?_
  cases db.disk.tables.get id with
  | none => exact ⟨rfl, rfl⟩
  | some bytes =>
    refine endsLift _ (fun r opened => ⟨rfl, ?_⟩) (fun e fails => ⟨rfl, ?_⟩)
    · simp only [opened, bind, Except.bind]
    · simp only [fails, bind, Except.bind]

theorem mergeSourcesReads (ids : List Nat) (db : Database) : Ends (Database.mergeSources ids) db
    (fun _ s => s = db ∧ ∀ id ∈ ids, ∃ l, readTable db.disk.tables id = .ok l)
    (fun e s => s = db ∧ Unread db.disk.tables ids e) := by
  induction ids with
  | nil => exact ⟨rfl, fun _ mem => nomatch mem⟩
  | cons id ids ih =>
    unfold Database.mergeSources
    refine Ends.bind ((openTableReads id db).mono (fun _ _ h => h) ?_) ?_
    · exact fun e s stop => ⟨stop.1, id, List.mem_cons_self, stop.2⟩
    rintro r db' ⟨rfl, read⟩
    have records : Ends (lift r.iter) db'
        (fun _ s => s = db' ∧ ∃ l, readTable db'.disk.tables id = .ok l)
        (fun e s => s = db' ∧ Unread db'.disk.tables (id :: ids) e) := by
      refine endsLift _ (fun l ok => ⟨rfl, l, read.trans ok⟩) (fun e fails => ?_)
      exact ⟨rfl, id, List.mem_cons_self, read.trans fails⟩
    refine records.bind ?_
    rintro l _ ⟨rfl, first⟩
    refine Ends.bind (ih.mono (fun _ _ h => h) ?_) ?_
    · rintro e s ⟨same, i, mem, fails⟩
      exact ⟨same, i, List.mem_cons_of_mem _ mem, fails⟩
    · rintro more _ ⟨rfl, rest⟩
      exact ⟨rfl, List.forall_mem_cons.mpr ⟨first, rest⟩⟩

theorem tableBoundsReads (bounds : Option (Bytes × Bytes)) (ids : List Nat) (db : Database) :
    Ends (Database.tableBounds bounds ids) db (fun _ s => s = db)
      (fun e s => s = db ∧ ((∃ err, e = .error err) ∨ Unread db.disk.tables ids e)) := by
  induction ids generalizing bounds with
  | nil => exact rfl
  | cons id ids ih =>
    unfold Database.tableBounds
    refine Ends.bind ((openTableReads id db).mono (fun _ _ h => h) ?_) ?_
    · exact fun e s stop => ⟨stop.1, .inr ⟨id, List.mem_cons_self, stop.2⟩⟩
    rintro r _ ⟨rfl, read⟩
    cases r.keyBounds with
    | none => exact ⟨rfl, .inl ⟨_, rfl⟩⟩
    | some found =>
      refine (ih _).mono (fun _ _ h => h) ?_
      rintro e s ⟨same, err | ⟨i, mem, fails⟩⟩
      · exact ⟨same, .inl err⟩
      · exact ⟨same, .inr ⟨i, List.mem_cons_of_mem _ mem, fails⟩⟩

theorem mergeIntoReads {l0 overlapIds : List Nat} {retained : List SegmentMeta} {id : Nat}
    {e : Stop Error} (mem : id ∈ l0.reverse ++ overlapIds)
    (fails : readTable db.disk.tables id = .error e) :
    Ends (Database.mergeInto l0 overlapIds retained) db (fun _ _ => False)
      (fun e s => s = db ∧ Unread db.disk.tables (l0.reverse ++ overlapIds) e) := by
  have merge : Ends (Database.mergeIds (l0.reverse ++ overlapIds) true) db (fun _ _ => False)
      (fun e s => s = db ∧ Unread db.disk.tables (l0.reverse ++ overlapIds) e) := by
    refine (mergeSourcesReads _ db).bind ?_
    rintro sources s ⟨-, all⟩
    obtain ⟨l, ok⟩ := all id mem
    rw [fails] at ok
    cases ok
  exact merge.bind (fun _ _ none => none.elim)

theorem Compaction.unread {c : Compaction} (none : db.memtable.isEmpty) {id : Nat}
    (input : c.Input db id) {e : Stop Error} (fails : readTable db.disk.tables id = .error e)
    (calm : ∀ i, c.Input db i → ∀ e, readTable db.disk.tables i = .error e → ∃ err, e = .error err) :
    ∃ err, c.run db = .error (.error err) db := by
  have stops : Ends c.run db (fun _ _ => False) (fun e s => s = db ∧ ∃ err, e = .error err) := by
    cases c with
    | compact =>
      obtain ⟨many, input⟩ := input
      have level0 : ∀ {i}, i ∈ db.manifest.level0 → Compaction.Input db .compact i :=
        fun mem => ⟨many, .inl mem⟩
      have bounds := tableBoundsReads Option.none db.manifest.level0 db
      change Ends Database.compact db _ _
      unfold Database.compact
      refine endsBindGet (endsIte (fun few => absurd few many) (fun _ => ?_))
      dsimp only
      cases run : Database.tableBounds Option.none db.manifest.level0 db with
      | error e s =>
        obtain ⟨rfl, why⟩ := (endsOfError run).mp bounds
        have early : Ends (Database.tableBounds Option.none s.manifest.level0) s
            (fun _ _ => False) (fun e t => t = s ∧ ∃ err, e = .error err) := by
          refine (endsOfError run).mpr ⟨rfl, ?_⟩
          rcases why with err | ⟨i, mem, reading⟩
          · exact err
          · exact calm i (level0 mem) e reading
        exact early.bind (fun _ _ none => none.elim)
      | ok found s =>
        obtain rfl := (endsOfRun run).mp bounds
        refine endsBindOk run ?_
        cases found with
        | none => exact ⟨rfl, _, rfl⟩
        | some found =>
          obtain ⟨lo, hi⟩ := found
          have inputs : ∀ i, i ∈ s.manifest.level0.reverse ++
              (s.manifest.segments.filter (Database.overlaps lo hi)).map SegmentMeta.fileId ↔
              i ∈ s.manifest.level0 ∨
                ∃ seg ∈ s.manifest.segments, Database.overlaps lo hi seg ∧ seg.fileId = i := by
            intro i
            simp [and_assoc]
          have mem : id ∈ s.manifest.level0.reverse ++
              (s.manifest.segments.filter (Database.overlaps lo hi)).map SegmentMeta.fileId := by
            refine (inputs id).mpr (input.imp_right ?_)
            rintro ⟨lo', hi', same, seg, mem, inside, file⟩
            cases run.symm.trans same
            exact ⟨seg, mem, inside, file⟩
          refine (mergeIntoReads mem fails).mono (fun _ _ none => none) ?_
          rintro e t ⟨same, i, mem, reading⟩
          refine ⟨same, calm i ⟨many, ?_⟩ e reading⟩
          exact ((inputs i).mp mem).imp_right (fun over_ => ⟨lo, hi, run, over_⟩)
    | compactFull =>
      have inputs : ∀ i, i ∈ db.manifest.level0.reverse ++
          db.manifest.segments.map SegmentMeta.fileId ↔ Compaction.Input db .compactFull i := by
        intro i
        simp [Compaction.Input]
      have full : Ends Database.compactFull db (fun _ _ => False)
          (fun e s => s = db ∧ ∃ err, e = .error err) := by
        unfold Database.compactFull
        refine endsBindOk (flushIdle none) (endsBindGet (Ends.bind ((mergeIntoReads ((inputs id).mpr input)
          fails).mono (fun _ _ none => none) ?_) (fun _ _ none => none.elim)))
        rintro e s ⟨same, i, mem, reading⟩
        exact ⟨same, calm i ((inputs i).mp mem) e reading⟩
      exact full.bind (fun _ _ none => none.elim)
  cases run : c.run db with
  | ok _ s => exact ((endsOfRun run).mp stops).elim
  | error e s =>
    obtain ⟨rfl, err, rfl⟩ := (endsOfError run).mp stops
    exact ⟨err, rfl⟩

end Reading

/-- What a compaction keeps: on a store with nothing in memory it cannot be told where it stopped,
but by what the log has, and without one of its tables it changes nothing. -/
theorem compactionAtomic [Crc32] (c : Compaction) :
    (∀ (db : Database) (v : View), Reach Lawful (.up db) → db.memtable.isEmpty → Shows db v →
      EndsIf Fitting c.run db (fun _ db' => Intact (Restored db.disk v) v db')
        (fun e db' => Unharmed (Restored db.disk v) v e db')) ∧
    ∀ (db : Database) (id : Nat) (e : Stop Error), db.memtable.isEmpty → c.Input db id →
      readTable db.disk.tables id = .error e →
      (∀ i, c.Input db i → ∀ e, readTable db.disk.tables i = .error e → ∃ err, e = .error err) →
      ∃ err, c.run db = .error (.error err) db := by
  constructor
  · intro db v reach none shows
    exact c.ends (reach.sound (fun _ _ _ => id)) none shows
  · intro db id e none input fails calm
    exact Compaction.unread none input fails calm

section Unsynced
attribute [local instance] Wal.ieee

def pairWritten : List Call := [.op (.put [0] [7]), .op .flush, .op (.put [0] [9]), .op .flush]

theorem pairCompacted : ∃ db₀ db, Database.openWith (Database.boot .empty
      (List.replicate 11 .pass ++ [.crash 1 0]) ⟨1000, 4, 1⟩) = .ok () db₀ ∧
    Call.all pairWritten db₀ = .ok () db ∧ db.memtable.isEmpty ∧
    (halts Compaction.compactFull.run db).any (fun p => p.1 = .crash ∧ Fitting p.2) = true := by
  refine ⟨_, _, rfl, rfl, rfl, ?_⟩
  decide +kernel

theorem compactionAtomicPair : (∃ db v dbc, Reach Lawful (.up db) ∧ Shows db v ∧
      Compaction.compactFull.run db = .error .crash dbc ∧
      Unharmed (Restored db.disk v) v .crash dbc) ∧
    ∃ db err, db.manifest.level0 = [1] ∧ Compaction.compactFull.run db = .error (.error err) db := by
  constructor
  · obtain ⟨db₀, db, opened, written, none, crash⟩ := pairCompacted
    obtain ⟨⟨e, dbc⟩, halt, facts⟩ := (Option.any_eq_true _ _).mp crash
    obtain ⟨rfl, fits⟩ := of_decide_eq_true facts
    have stop := haltsSome halt
    have before : Fitting db :=
      fittingBack db dbc ((endsOfError stop).mp (Call.runMoves (.op .compactFull) db)) fits
    have reach : Reach Lawful (.up db) :=
      .all (.opened .fresh (by decide) opened) written (by decide) before
    obtain ⟨⟨v, dur, store⟩, -⟩ := reach.sound (fun _ _ _ => id)
    have ends := (compactionAtomic .compactFull).1 db v reach none store.shows
    exact ⟨db, v, dbc, reach, store.shows, stop, (endsOfError stop).mp ends fits⟩
  · set db : Database := { Database.boot .empty [] ⟨0, 0, 1⟩ with
      manifest := ⟨[[1]], [], 2⟩ } with hdb
    have missing : readTable db.disk.tables 1 = .error (.error .io) := rfl
    obtain ⟨err, run⟩ := (compactionAtomic .compactFull).2 db 1 _ rfl (.inl (by simp [hdb,
      Manifest.level0])) missing (by
        rintro i (mem | ⟨s, mem, -⟩) e fails
        · cases List.mem_singleton.mp mem
          cases missing.symm.trans fails
          exact ⟨_, rfl⟩
        · cases mem)
    exact ⟨db, err, rfl, run⟩

/-- The sync of a commit fails, and the machine goes down in the next compaction: all of the
log arrives. -/
theorem commitUnsynced : ∃ db₀ db dbc, Database.openWith (Database.boot .empty
      [.pass, .pass, .pass, .pass, .fail 0, .crash 0 1000] ⟨1000, 4, 1⟩) = .ok () db₀ ∧
    Call.run (.op (.commit [([0], some [7])])) db₀ = .error (.error .io) db ∧ db.built = [] ∧
    db.memtable.isEmpty ∧ Database.get [0] db = .ok none db ∧
    Compaction.compactFull.run db = .error .crash dbc ∧ dbc.built = [] ∧
    dbc.disk.manifest = none ∧
    readBack { dbc.disk with cuts := [] } ⟨1000, 4, 1⟩ [0] = some (some [7]) := by
  refine ⟨_, _, _, rfl, rfl, rfl, rfl, rfl, rfl, rfl, rfl, ?_⟩
  decide +kernel

theorem compactionRevives : ¬ ∀ (c : Compaction) (db : Database) (v : View),
    Reach Lawful (.up db) → db.memtable.isEmpty → Shows db v →
    EndsIf Fitting c.run db (fun _ db' => Intact (Reopens · v) v db')
      (fun e db' => Unharmed (Reopens · v) v e db') := by
  intro claim
  obtain ⟨db₀, db, dbc, opened, commit, built, none, got, crash, unbuilt, fresh, seven⟩ :=
    commitUnsynced
  have reach : Reach Lawful (.up db) := by
    refine .failed (.opened .fresh (by decide) opened) commit (by simp)
      ⟨?_, fun other => nomatch other⟩
    intro records mem
    rw [built] at mem
    cases mem
  obtain ⟨⟨v, dur, store⟩, -⟩ := reach.sound (fun _ _ _ => id)
  have ends := (endsOfError crash).mp (claim .compactFull db v reach none store.shows)
  have fits : Fitting dbc := by
    intro records mem
    rw [unbuilt] at mem
    cases mem
  have loads : Loadable dbc.disk := ⟨.new, by rw [fresh]; rfl⟩
  have reopens := (ends fits).1 rfl _ loads .left
  have reads := (reopens.readBack ⟨1000, 4, 1⟩ [0]).symm.trans seven
  have absent := (endsOfRun got).mp (store.shows.get [0])
  rw [← absent] at reads
  cases reads

end Unsynced
end MyLsmDb
