import MyLsmDb.TableSet

/-! What an operation on the tables leaves untouched, and the two views it works with: the
tables of the manifest in memory, which reads use, and those of the manifest on the medium,
which the next session will see. -/
namespace MyLsmDb
open ByteOrder (Bytes)
open Effect
open OrderedEntries
open Sstable (TableReader tableFile)

/-- The fault that explains a stop. -/
def Injected (faults : List Fault) : Stop Error → Prop
  | .error .io => ∃ n, Fault.fail n ∈ faults
  | .crash => ∃ n k, Fault.crash n k ∈ faults
  | _ => False

structure LogSame (d d' : Disk) : Prop where
  wal : d'.wal = d.wal
  tail : d'.tail = d.tail
  cuts : d'.cuts = d.cuts

def LogCut (d d' : Disk) : Prop :=
  ∃ kept, d'.wal = d.wal ++ d.tail.take kept ∧ d'.tail = [] ∧ d'.cuts = d.cuts

/-- What no operation on the tables, the memtable and the log changes. -/
structure Same (db db' : Database) : Prop where
  opts : db'.opts = db.opts
  closed : db'.closed = db.closed
  nextTxId : db'.nextTxId = db.nextTxId
  formatVersion : db'.formatVersion = db.formatVersion
  version : db'.disk.version = db.disk.version
  schema : db'.disk.schema = db.disk.schema
  faults : db'.faults <:+ db.faults

/-- Nothing else either, but the tables, the manifests and the cache. -/
structure Passed (db db' : Database) : Prop where
  same : Same db db'
  memtable : db'.memtable = db.memtable
  log : LogSame db.disk db'.disk

/-- What a stop does to the log when nothing is appended or removed. -/
def LogStop (e : Stop Error) (d d' : Disk) : Prop :=
  (e = .crash ∧ LogCut d d') ∨ (e ≠ .crash ∧ LogSame d d')

structure Stopped (e : Stop Error) (db db' : Database) : Prop where
  injected : Injected db.faults e
  same : Same db db'
  memtable : db'.memtable = db.memtable
  log : LogStop e db.disk db'.disk

theorem Injected.mono {faults faults' : List Fault} {e : Stop Error} (s : faults' <:+ faults)
    (h : Injected faults' e) : Injected faults e := by
  rcases e with e | _ | _
  · cases e with
    | io =>
      obtain ⟨n, m⟩ := h
      exact ⟨n, s.subset m⟩
    | _ => exact h.elim
  · exact h
  · obtain ⟨n, k, m⟩ := h
    exact ⟨n, k, s.subset m⟩

theorem Same.refl (db : Database) : Same db db :=
  ⟨rfl, rfl, rfl, rfl, rfl, rfl, List.suffix_rfl⟩

theorem Same.trans {a b c : Database} (ab : Same a b) (bc : Same b c) : Same a c :=
  ⟨bc.opts.trans ab.opts, bc.closed.trans ab.closed,
    bc.nextTxId.trans ab.nextTxId, bc.formatVersion.trans ab.formatVersion,
    bc.version.trans ab.version, bc.schema.trans ab.schema, bc.faults.trans ab.faults⟩

theorem LogSame.refl (d : Disk) : LogSame d d := ⟨rfl, rfl, rfl⟩

theorem LogSame.trans {a b c : Disk} (ab : LogSame a b) (bc : LogSame b c) : LogSame a c :=
  ⟨bc.wal.trans ab.wal, bc.tail.trans ab.tail, bc.cuts.trans ab.cuts⟩

theorem Passed.refl (db : Database) : Passed db db := ⟨.refl db, rfl, .refl _⟩

theorem Passed.trans {a b c : Database} (ab : Passed a b) (bc : Passed b c) : Passed a c :=
  ⟨ab.same.trans bc.same, bc.memtable.trans ab.memtable, ab.log.trans bc.log⟩

theorem LogSame.stop {a b c : Disk} {e : Stop Error} (ab : LogSame a b) (bc : LogStop e b c) :
    LogStop e a c := by
  rcases bc with ⟨crash, kept, wal, tail, cuts⟩ | ⟨other, log⟩
  · exact .inl ⟨crash, kept, by rw [wal, ab.wal, ab.tail], tail, cuts.trans ab.cuts⟩
  · exact .inr ⟨other, ab.trans log⟩

theorem Passed.stopped {a b c : Database} {e : Stop Error} (ab : Passed a b)
    (bc : Stopped e b c) : Stopped e a c :=
  ⟨bc.injected.mono ab.same.faults, ab.same.trans bc.same, bc.memtable.trans ab.memtable,
    ab.log.stop bc.log⟩

theorem Reads.passed {db db' : Database} (h : Reads db db') : Passed db db' := by
  rw [h.1]
  exact ⟨⟨rfl, rfl, rfl, rfl, rfl, rfl, List.suffix_rfl⟩, rfl, .refl _⟩

/-- Every table that was built has room for its lengths, and every manifest that was
written is one of `W`. -/
structure Good (W : Manifest → Prop) (db : Database) : Prop where
  fit : ∀ records ∈ db.built, Sstable.Fits records
  written : ∀ m ∈ db.saves, W m

structure Grows (db db' : Database) : Prop where
  built : db.built <+: db'.built
  saves : db.saves <+: db'.saves

theorem goodBack {W : Manifest → Prop} (db db' : Database) (g : Grows db db') (h : Good W db') :
    Good W db :=
  ⟨fun r m => h.fit r (g.built.subset m), fun r m => h.written r (g.saves.subset m)⟩

namespace Database

/-- A relation that no step of the store leaves. -/
class Tolerant (R : Database → Database → Prop) : Prop extends Std.Refl R, IsTrans Database R where
  quiet : ∀ db db', db'.built = db.built → db'.saves = db.saves →
    db'.disk.tables = db.disk.tables → db'.manifest.nextTableId = db.manifest.nextTableId →
    db.nextTxId ≤ db'.nextTxId → R db db'
  saved : ∀ db m, R db { db with saves := db.saves ++ [m] }
  erased : ∀ db id, R db { db with disk := { db.disk with tables := db.disk.tables.erase id } }
  table : ∀ chunk, Moves R (writeTable chunk)

section Effects
variable {R : Database → Database → Prop} [Tolerant R]

theorem quietMoves {g : Database → Database} (h : ∀ db, (g db).built = db.built ∧
    (g db).saves = db.saves ∧ (g db).disk.tables = db.disk.tables ∧
    (g db).manifest.nextTableId = db.manifest.nextTableId ∧ db.nextTxId ≤ (g db).nextTxId) :
    Moves R (modify g : DbM PUnit) := by
  refine movesModify (fun db => ?_)
  obtain ⟨built, saves, tables, next, txId⟩ := h db
  exact Tolerant.quiet db _ built saves tables next txId

theorem nextFaultMoves : Moves R nextFault := by
  refine movesGet.bind (fun db => ?_)
  split
  · exact movesPure _
  · exact Moves.bind (quietMoves (fun _ => ⟨rfl, rfl, rfl, rfl, le_rfl⟩)) (fun _ => movesPure _)

theorem effectMoves {fully : Disk → Disk} {onFail onCrash : Nat → Disk → Disk}
    (full : ∀ db : Database, R db { db with disk := fully db.disk })
    (fail : ∀ (n : Nat) (db : Database), R db { db with disk := onFail n db.disk })
    (crash : ∀ (n : Nat) (db : Database), R db { db with disk := onCrash n db.disk }) :
    Moves R (effect fully onFail onCrash) := by
  refine nextFaultMoves.bind (fun f => ?_)
  cases f with
  | pass => exact movesModify full
  | fail n => exact Moves.bind (movesModify (fail n)) (fun _ => movesThrow _)
  | crash n k =>
    refine Moves.bind (movesModify (fun db => ?_)) (fun _ => movesThrow _)
    have cut : R { db with disk := onCrash n db.disk }
        { db with disk := (onCrash n db.disk).crashed k } := Tolerant.quiet _ _ rfl rfl rfl rfl le_rfl
    exact trans_of R (crash n db) cut

theorem atomicallyMoves {fully : Disk → Disk}
    (full : ∀ db : Database, R db { db with disk := fully db.disk }) :
    Moves R (atomically fully) := by
  refine effectMoves full (fun _ db => Std.Refl.refl db) (fun n db => ?_)
  cases n with
  | zero => exact Std.Refl.refl db
  | succ n => exact full db

end Effects

theorem nextFaultRun (db : Database) : nextFault db = match db.faults with
    | [] => .ok .pass db
    | f :: rest => .ok f { db with faults := rest } := by
  change (match db.faults with
    | [] => pure Fault.pass
    | f :: rest => do
      modify ({ · with faults := rest })
      return f : DbM Fault) db = _
  cases db.faults <;> rfl

theorem effectEnds (fully : Disk → Disk) (onFail onCrash : Nat → Disk → Disk) (db : Database) :
    Ends (effect fully onFail onCrash) db
      (fun _ db' => ∃ fs, fs <:+ db.faults ∧ db' = { db with faults := fs, disk := fully db.disk })
      (fun e db' => Injected db.faults e ∧ ∃ fs, fs <:+ db.faults ∧
        ((e = .error .io ∧ ∃ n, db' = { db with faults := fs, disk := onFail n db.disk }) ∨
          (e = .crash ∧ ∃ n k,
            db' = { db with faults := fs, disk := (onCrash n db.disk).crashed k }))) := by
  unfold effect
  cases list : db.faults with
  | nil =>
    have next : nextFault db = .ok .pass db := by rw [nextFaultRun, list]
    refine endsBindOk next ⟨[], List.suffix_rfl, ?_⟩
    rw [← list]
  | cons f rest =>
    have next : nextFault db = .ok f { db with faults := rest } := by rw [nextFaultRun, list]
    have suffix : rest <:+ f :: rest := List.suffix_cons f rest
    refine endsBindOk next ?_
    cases f with
    | pass => exact ⟨rest, suffix, rfl⟩
    | fail n => exact ⟨⟨n, List.mem_cons_self⟩, rest, suffix, .inl ⟨rfl, n, rfl⟩⟩
    | crash n k => exact ⟨⟨n, k, List.mem_cons_self⟩, rest, suffix, .inr ⟨rfl, n, k, rfl⟩⟩

/-- A write elsewhere than to the log, the version and the schema. -/
def Keeps (f : Disk → Disk) : Prop := ∀ d,
  LogSame d (f d) ∧ (f d).version = d.version ∧ (f d).schema = d.schema

theorem keepsId : Keeps (fun d => d) := fun d => ⟨.refl d, rfl, rfl⟩

theorem quietEnds {fully : Disk → Disk} {onFail onCrash : Nat → Disk → Disk} (full : Keeps fully)
    (fail : ∀ n, Keeps (onFail n)) (crash : ∀ n, Keeps (onCrash n)) (db : Database) :
    Ends (effect fully onFail onCrash) db
      (fun _ db' => Passed db db' ∧ ∃ fs, db' = { db with faults := fs, disk := fully db.disk })
      (fun e db' => Stopped e db db' ∧ ∃ fs d, db' = { db with faults := fs, disk := d } ∧
        ((e = .error .io ∧ ∃ n, d = onFail n db.disk) ∨
          (e = .crash ∧ ∃ n k, d = (onCrash n db.disk).crashed k))) := by
  refine (effectEnds _ _ _ db).mono ?_ ?_
  · rintro _ _ ⟨fs, suffix, rfl⟩
    obtain ⟨log, version, schema⟩ := full db.disk
    exact ⟨⟨⟨rfl, rfl, rfl, rfl, version, schema, suffix⟩, rfl, log⟩, fs, rfl⟩
  · rintro e _ ⟨injected, fs, suffix, ⟨rfl, n, rfl⟩ | ⟨rfl, n, k, rfl⟩⟩
    · obtain ⟨log, version, schema⟩ := fail n db.disk
      exact ⟨⟨injected, ⟨rfl, rfl, rfl, rfl, version, schema, suffix⟩, rfl, .inr ⟨by simp, log⟩⟩,
        fs, _, rfl, .inl ⟨rfl, n, rfl⟩⟩
    · obtain ⟨log, version, schema⟩ := crash n db.disk
      have cut : LogCut db.disk ((onCrash n db.disk).crashed k) :=
        ⟨k, by simp [Disk.crashed, log.wal, log.tail], rfl, log.cuts⟩
      exact ⟨⟨injected, ⟨rfl, rfl, rfl, rfl, version, schema, suffix⟩, rfl, .inl ⟨rfl, cut⟩⟩,
        fs, _, rfl, .inr ⟨rfl, n, k, rfl⟩⟩

/-- At most the table file `id` differs. -/
structure FileStep (id : Nat) (db db' : Database) : Prop where
  manifest : db'.manifest = db.manifest
  cache : db'.tableCache = db.tableCache
  saved : db'.disk.manifest = db.disk.manifest
  built : db'.built = db.built
  saves : db'.saves = db.saves
  others : ∀ i, i ≠ id → db'.disk.tables.get i = db.disk.tables.get i

theorem fileStep {id : Nat} {db : Database} {fs : List Fault} {d : Disk}
    (saved : d.manifest = db.disk.manifest)
    (others : ∀ i, i ≠ id → d.tables.get i = db.disk.tables.get i) :
    FileStep id db { db with faults := fs, disk := d } := ⟨rfl, rfl, saved, rfl, rfl, others⟩

theorem createTableEnds (id : Nat) (bytes : Bytes) (db : Database) :
    Ends (createTable id bytes) db
      (fun _ db' => Passed db db' ∧ FileStep id db db' ∧ db'.disk.tables.get id = some bytes)
      (fun e db' => Stopped e db db' ∧ FileStep id db db') := by
  have full : Keeps (fun d => { d with tables := d.tables.insert id bytes }) :=
    fun _ => ⟨⟨rfl, rfl, rfl⟩, rfl, rfl⟩
  refine (quietEnds full (fun n d => ?_) (fun n d => ?_) db).mono ?_ ?_
  · cases n <;> exact ⟨⟨rfl, rfl, rfl⟩, rfl, rfl⟩
  · cases n <;> exact ⟨⟨rfl, rfl, rfl⟩, rfl, rfl⟩
  · rintro _ _ ⟨passed, fs, rfl⟩
    exact ⟨passed, fileStep rfl (fun i other => by simp [other]), by simp⟩
  · rintro e _ ⟨stopped, fs, d, rfl, ⟨_, n, rfl⟩ | ⟨_, n, k, rfl⟩⟩ <;>
      refine ⟨stopped, ?_⟩ <;>
      cases n with
      | zero => exact fileStep rfl (fun _ _ => rfl)
      | succ n => exact fileStep rfl (fun i other => by simp [Disk.crashed, other])

/-- Nothing but the faults left and what is said next to it. -/
structure ManifestStep (db db' : Database) : Prop where
  manifest : db'.manifest = db.manifest
  cache : db'.tableCache = db.tableCache
  tables : db'.disk.tables = db.disk.tables
  built : db'.built = db.built
  saves : db'.saves = db.saves ++ [db.manifest]

theorem saveManifestEnds (db : Database) : Ends saveManifest db
    (fun _ db' => Passed db db' ∧ ManifestStep db db' ∧
      db'.disk.manifest = some db.manifest.save)
    (fun e db' => Stopped e db db' ∧ ManifestStep db db' ∧
      (db'.disk.manifest = db.disk.manifest ∨
        e = .crash ∧ db'.disk.manifest = some db.manifest.save)) := by
  have keeps : ∀ n, Keeps (fun d => if n = 0 then d else
      { d with manifest := some db.manifest.save }) := fun n d => by
    dsimp only
    split <;> exact ⟨⟨rfl, rfl, rfl⟩, rfl, rfl⟩
  have full : Keeps (fun d => { d with manifest := some db.manifest.save }) :=
    fun _ => ⟨⟨rfl, rfl, rfl⟩, rfl, rfl⟩
  refine endsBindGet (endsBindModify ?_)
  refine (quietEnds full (fun _ => keepsId) keeps _).mono ?_ ?_
  · rintro _ _ ⟨⟨⟨o, c, t, f, v, s, suffix⟩, m, log⟩, fs, rfl⟩
    exact ⟨⟨⟨o, c, t, f, v, s, suffix⟩, m, log⟩, ⟨rfl, rfl, rfl, rfl, rfl⟩, rfl⟩
  · rintro e _ ⟨⟨injected, ⟨o, c, t, f, v, s, suffix⟩, m, log⟩, fs, d, rfl, how⟩
    refine ⟨⟨injected, ⟨o, c, t, f, v, s, suffix⟩, m, log⟩, ?_⟩
    rcases how with ⟨_, n, rfl⟩ | ⟨rfl, n, k, rfl⟩
    · exact ⟨⟨rfl, rfl, rfl, rfl, rfl⟩, .inl rfl⟩
    · cases n with
      | zero => exact ⟨⟨rfl, rfl, rfl, rfl, rfl⟩, .inl rfl⟩
      | succ n => exact ⟨⟨rfl, rfl, rfl, rfl, rfl⟩, .inr ⟨rfl, rfl⟩⟩

theorem removeFileEnds (id : Nat) (db : Database) : Ends (removeFile id) db
    (fun _ db' => Passed db db' ∧ FileStep id db db')
    (fun e db' => e = .crash ∧ Stopped e db db' ∧ FileStep id db db') := by
  have keeps : ∀ n, Keeps (fun d => if n = 0 then d else { d with tables := d.tables.erase id }) :=
    fun n d => by
      dsimp only
      split <;> exact ⟨⟨rfl, rfl, rfl⟩, rfl, rfl⟩
  have full : Keeps (fun d => { d with tables := d.tables.erase id }) :=
    fun _ => ⟨⟨rfl, rfl, rfl⟩, rfl, rfl⟩
  refine endsIgnore ((quietEnds full (fun _ => keepsId) keeps db).mono ?_ ?_)
  · rintro _ _ ⟨passed, fs, rfl⟩
    exact ⟨passed, fileStep rfl (fun i other => by simp [other])⟩
  · rintro e _ ⟨stopped, fs, d, rfl, ⟨rfl, n, rfl⟩ | ⟨rfl, n, k, rfl⟩⟩
    · obtain ⟨other, log⟩ := stopped.log.resolve_left (fun c => nomatch c.1)
      exact ⟨⟨stopped.same, stopped.memtable, log⟩, fileStep rfl (fun _ _ => rfl)⟩
    · refine ⟨rfl, stopped, ?_⟩
      cases n with
      | zero => exact fileStep rfl (fun _ _ => rfl)
      | succ n => exact fileStep rfl (fun i other => by simp [Disk.crashed, other])

section Growing

/-- One more table was written, or was to be written. -/
structure NewTable (chunk : List Rec) (db db' : Database) : Prop where
  built : db'.built = db.built ++ [chunk]
  saves : db'.saves = db.saves
  next : db'.manifest.nextTableId = db.manifest.nextTableId + 1
  txId : db'.nextTxId = db.nextTxId
  others : ∀ id, id ≠ db.manifest.nextTableId → db'.disk.tables.get id = db.disk.tables.get id

theorem writeTableAny (chunk : List Rec) (db : Database) : Ends (writeTable chunk) db
    (fun _ db' => NewTable chunk db db') (fun _ db' => NewTable chunk db db') := by
  set id := db.manifest.nextTableId with hid
  set db₁ : Database := { db with
    manifest := { db.manifest with nextTableId := id + 1 }, built := db.built ++ [chunk] } with hdb₁
  have write : Ends (do createTable id (tableFile chunk); return id : DbM Nat) db₁
      (fun _ db' => NewTable chunk db db') (fun _ db' => NewTable chunk db db') := by
    have made : ∀ db', Same db₁ db' → FileStep id db₁ db' → NewTable chunk db db' := by
      intro db' same step
      exact ⟨step.built, step.saves, by rw [step.manifest], same.nextTxId, step.others⟩
    refine Ends.bind ((createTableEnds id (tableFile chunk) db₁).mono (fun _ _ h => h) ?_) ?_
    · exact fun _ db' stop => made db' stop.1.same stop.2
    · exact fun _ db' done => made db' done.1.same done.2.1
  exact write.step rfl

instance : Tolerant Grows where
  refl _ := ⟨List.prefix_rfl, List.prefix_rfl⟩
  trans _ _ _ h h' := ⟨h.1.trans h'.1, h.2.trans h'.2⟩
  quiet _ _ built saves _ _ _ := ⟨by rw [built], by rw [saves]⟩
  saved _ _ := ⟨List.prefix_rfl, List.prefix_append _ _⟩
  erased _ _ := ⟨List.prefix_rfl, List.prefix_rfl⟩
  table chunk db := by
    have grows : ∀ db', NewTable chunk db db' → Grows db db' := by
      intro db' new
      refine ⟨?_, ?_⟩
      · rw [new.built]
        exact List.prefix_append _ _
      · rw [new.saves]
    exact (writeTableAny chunk db).mono (fun _ db' new => grows db' new)
      (fun _ db' new => grows db' new)

variable {R : Database → Database → Prop} [Tolerant R]

theorem openTableMoves (id : Nat) : Moves R (openTable id) := by
  refine movesGet.bind (fun db => ?_)
  cases db.disk.tables.get id with
  | none => exact movesThrow _
  | some bytes => exact movesLift _

theorem writeSegmentsMoves (parts : List (List Rec)) : Moves R (writeSegments parts) := by
  induction parts with
  | nil => exact movesPure _
  | cons chunk parts ih =>
    unfold writeSegments
    split
    · exact (Tolerant.table chunk).bind (fun _ => ih.bind (fun _ => movesPure _))
    · exact ih

theorem saveManifestMoves : Moves R saveManifest :=
  movesGet.bind (fun _ => Moves.bind (movesModify (fun db => Tolerant.saved db _))
    (fun _ => atomicallyMoves (fun _ => Tolerant.quiet _ _ rfl rfl rfl rfl le_rfl)))

theorem removeFileMoves (id : Nat) : Moves R (removeFile id) :=
  (atomicallyMoves (fun db => Tolerant.erased db id)).ignore

theorem clearCacheMoves : Moves R clearCache := quietMoves (fun _ => ⟨rfl, rfl, rfl, rfl, le_rfl⟩)

theorem setManifestMoves {f : Manifest → Manifest}
    (same : ∀ m, (f m).nextTableId = m.nextTableId) : Moves R (setManifest f) :=
  quietMoves (fun _ => ⟨rfl, rfl, rfl, same _, le_rfl⟩)

theorem updateLevel0Next (f : List Nat → List Nat) (m : Manifest) :
    (updateLevel0 f m).nextTableId = m.nextTableId := by
  unfold updateLevel0
  split <;> rfl

theorem replaceTablesMoves (segments : List SegmentMeta) (old : List Nat) :
    Moves R (replaceTables segments old) := by
  have same : ∀ m : Manifest,
      (updateLevel0 (fun _ => []) { m with segments }).nextTableId = m.nextTableId :=
    fun m => updateLevel0Next _ { m with segments }
  exact (setManifestMoves same).bind (fun _ => saveManifestMoves.bind (fun _ =>
    clearCacheMoves.bind (fun _ => .forM removeFileMoves old)))

theorem mergeSourcesMoves (ids : List Nat) : Moves R (mergeSources ids) := by
  induction ids with
  | nil => exact movesPure _
  | cons id ids ih =>
    exact (openTableMoves id).bind (fun _ => (movesLift _).bind (fun _ =>
      ih.bind (fun _ => movesPure _)))

theorem mergeIntoMoves (l0 overlapIds : List Nat) (retained : List SegmentMeta) :
    Moves R (mergeInto l0 overlapIds retained) := by
  have merge : Moves R (mergeIds (l0.reverse ++ overlapIds) true) :=
    (mergeSourcesMoves _).bind (fun _ => (movesLift _).bind (fun _ => movesPure _))
  exact merge.bind (fun _ => movesGet.bind (fun _ => (movesLift _).bind (fun _ =>
    (writeSegmentsMoves _).bind (fun _ => replaceTablesMoves _ _))))

theorem tableBoundsMoves (bounds : Option (Bytes × Bytes)) (ids : List Nat) :
    Moves R (tableBounds bounds ids) := by
  induction ids generalizing bounds with
  | nil => exact movesPure _
  | cons id ids ih =>
    refine (openTableMoves id).bind (fun reader => ?_)
    split
    · exact movesThrow _
    · exact ih _

theorem compactMoves : Moves R compact := by
  refine movesGet.bind (fun db => ?_)
  refine Moves.ite (movesPure _) ((tableBoundsMoves _ _).bind (fun bounds => ?_))
  split
  · exact movesThrow _
  · exact mergeIntoMoves _ _ _

theorem walTruncateMoves : Moves R walTruncate :=
  atomicallyMoves (fun _ => Tolerant.quiet _ _ rfl rfl rfl rfl le_rfl)

theorem flushUnfold : flush = (do
    let db ← MonadState.get
    if db.memtable.isEmpty then return ()
    let id ← writeTable db.memtable.iter
    setManifest (updateLevel0 (· ++ [id]))
    saveManifest
    clearCache
    walTruncate
    modify ({ · with memtable := .new })
    let db ← MonadState.get
    if (db.manifest.levels.headD []).length ≥ db.opts.l0CompactThreshold then compact
    : DbM Unit) := by
  simp only [flush, writeTable, bind_assoc, pure_bind]

theorem flushMoves : Moves R flush := by
  rw [flushUnfold]
  refine movesGet.bind (fun db => Moves.ite (movesPure _) ?_)
  refine (Tolerant.table _).bind (fun id => (setManifestMoves (updateLevel0Next _)).bind
    (fun _ => saveManifestMoves.bind (fun _ => clearCacheMoves.bind (fun _ => ?_))))
  refine walTruncateMoves.bind (fun _ => Moves.bind
    (quietMoves (fun _ => ⟨rfl, rfl, rfl, rfl, le_rfl⟩)) (fun _ => movesGet.bind (fun _ => ?_)))
  exact Moves.ite compactMoves (movesPure _)

theorem compactFullMoves : Moves R compactFull :=
  flushMoves.bind (fun _ => movesGet.bind (fun _ => (mergeIntoMoves _ _ _).bind (fun _ =>
    movesGet.bind (fun _ => movesPure _))))

theorem flushIfOverLimitMoves : Moves R flushIfOverLimit :=
  movesGet.bind (fun _ => Moves.ite flushMoves (movesPure _))

end Growing

end Database

variable {W : Manifest → Prop} {md : Manifest} {vol dur : Bytes → Option Bytes}

/-- `md` is the manifest on the medium; a medium without one is a new database. -/
def Saved (d : Disk) (md : Manifest) : Prop :=
  d.manifest = some md.save ∨ d.manifest = none ∧ md = ⟨[[]], [], 1⟩

/-- The two views: `vol` of the manifest in memory, `dur` of the one on the medium, which is
one of `W`. -/
structure ViewsAt (W : Manifest → Prop) (md : Manifest) (db : Database)
    (vol dur : Bytes → Option Bytes) : Prop where
  memory : Holding db.disk.tables db.manifest
  cached : Cached db
  saved : Saved db.disk md
  written : W md
  durable : Holding db.disk.tables md
  older : md.nextTableId ≤ db.manifest.nextTableId
  vol : tablesView db.disk.tables db.manifest = vol
  dur : tablesView db.disk.tables md = dur

def Views (W : Manifest → Prop) (db : Database) (vol dur : Bytes → Option Bytes) : Prop :=
  ∃ md, ViewsAt W md db vol dur

theorem tablesViewSame {tables tables' : OrderedMap Nat Bytes} {m : Manifest}
    (h : Holding tables m) (same : ∀ id ∈ m.allIds, tables'.get id = tables.get id) :
    tablesView tables' m = tablesView tables m := by
  funext key
  rw [tablesView, layersSame h same, tablesView]

theorem ViewsAt.file {db db' : Database} {id : Nat} (h : ViewsAt W md db vol dur)
    (step : Database.FileStep id db db') (memory : id ∉ db.manifest.allIds)
    (durable : id ∉ md.allIds) (cached : db.tableCache.lookup id = none) :
    ViewsAt W md db' vol dur := by
  have same : ∀ m : Manifest, id ∉ m.allIds → ∀ i ∈ m.allIds,
      db'.disk.tables.get i = db.disk.tables.get i := fun m absent i mi =>
    step.others i (fun e => absent (e ▸ mi))
  have here := same _ memory
  have there := same _ durable
  refine ⟨?_, ?_, ?_, h.written, h.durable.same there, ?_, ?_, ?_⟩
  · rw [step.manifest]
    exact h.memory.same here
  · intro i r found
    rw [step.cache] at found
    obtain ⟨fresh, file⟩ := h.cached i r found
    refine ⟨step.manifest ▸ fresh, fun bytes there => file bytes ?_⟩
    rw [← step.others i (fun e => by rw [e, cached] at found; cases found), there]
  · rw [Saved, step.saved]
    exact h.saved
  · rw [step.manifest]
    exact h.older
  · rw [step.manifest, tablesViewSame h.memory here]
    exact h.vol
  · rw [tablesViewSame h.durable there]
    exact h.dur

theorem ViewsAt.same {db db' : Database} (h : ViewsAt W md db vol dur) (cached : Cached db')
    (tables : db'.disk.tables = db.disk.tables) (saved : db'.disk.manifest = db.disk.manifest)
    (manifest : db'.manifest = db.manifest) : ViewsAt W md db' vol dur := by
  refine ⟨?_, cached, ?_, h.written, ?_, ?_, ?_, ?_⟩
  · rw [tables, manifest]
    exact h.memory
  · rw [Saved, saved]
    exact h.saved
  · rw [tables]
    exact h.durable
  · rw [manifest]
    exact h.older
  · rw [tables, manifest]
    exact h.vol
  · rw [tables]
    exact h.dur

theorem ViewsAt.reads {db db' : Database} (h : ViewsAt W md db vol dur) (r : Reads db db') :
    ViewsAt W md db' vol dur :=
  h.same r.2 (by rw [r.disk]) (by rw [r.disk]) r.manifest

theorem cachedSame {db db' : Database} (h : Cached db) (cache : db'.tableCache = db.tableCache)
    (tables : db'.disk.tables = db.disk.tables)
    (next : db.manifest.nextTableId ≤ db'.manifest.nextTableId) : Cached db' := fun i r found => by
  obtain ⟨fresh, file⟩ := h i r (cache ▸ found)
  exact ⟨fresh.trans_le next, tables ▸ file⟩

theorem ViewsAt.replace {db : Database} {m : Manifest} {vol' : Bytes → Option Bytes}
    (h : ViewsAt W md db vol dur) (holding : Holding db.disk.tables m)
    (next : db.manifest.nextTableId ≤ m.nextTableId) (view : tablesView db.disk.tables m = vol') :
    ViewsAt W md { db with manifest := m } vol' dur :=
  ⟨holding, cachedSame h.cached rfl rfl next, h.saved, h.written, h.durable, h.older.trans next,
    view, h.dur⟩

theorem ViewsAt.saveManifest {db : Database} (h : ViewsAt W md db vol dur) :
    EndsIf (Good W) Database.saveManifest db
      (fun _ db' => Passed db db' ∧ ViewsAt W db.manifest db' vol vol ∧
        Database.ManifestStep db db' ∧ db'.disk.manifest = some db.manifest.save)
      (fun e db' => Stopped e db db' ∧ (Views W db' vol dur ∨
        Views W db' vol vol ∧ db'.disk.manifest = some db.manifest.save)) := by
  have moved : ∀ db', Good W db' → Database.ManifestStep db db' →
      db'.disk.manifest = some db.manifest.save → ViewsAt W db.manifest db' vol vol := by
    intro db' good step saved
    have written : W db.manifest := good.written _ (by simp [step.saves])
    refine ⟨?_, ?_, .inl saved, written, ?_, ?_, ?_, ?_⟩
    · rw [step.tables, step.manifest]
      exact h.memory
    · exact cachedSame h.cached step.cache step.tables (by rw [step.manifest])
    · rw [step.tables]
      exact h.memory
    · rw [step.manifest]
    · rw [step.tables, step.manifest]
      exact h.vol
    · rw [step.tables]
      exact h.vol
  refine (Database.saveManifestEnds db).mono ?_ ?_
  · rintro _ db' ⟨passed, step, saved⟩ good
    exact ⟨passed, moved db' good step saved, step, saved⟩
  · rintro e db' ⟨stopped, step, how⟩ good
    refine ⟨stopped, ?_⟩
    rcases how with same | ⟨-, saved⟩
    · refine .inl ⟨md, h.same ?_ step.tables same step.manifest⟩
      exact cachedSame h.cached step.cache step.tables (by rw [step.manifest])
    · exact .inr ⟨⟨_, moved db' good step saved⟩, saved⟩

end MyLsmDb
