import MyLsmDb.Compaction

/-! The store as a whole: what it shows, which is the memtable over the tables, and what it
would show without memtable and log. The operations up to the flush and its compaction,
wherever they stop. -/
namespace MyLsmDb
open ByteOrder (Bytes)
open Effect
open OrderedEntries

variable {W : Manifest → Prop} {db : Database} {mem dur : Bytes → Option Bytes}

namespace MemTable

@[simp] theorem overNew (v : Bytes → Option Bytes) : MemTable.new.over v = v := rfl

theorem overEmpty {m : MemTable} (none : m.isEmpty) (v : Bytes → Option Bytes) : m.over v = v := by
  funext key
  have absent : m.get key = .none := by
    rw [MemTable.get, OrderedMap.get, List.isEmpty_iff.mp none]
    rfl
  rw [MemTable.over, absent, Option.elim_none]

theorem overTwice (m : MemTable) (v : Bytes → Option Bytes) : m.over (m.over v) = m.over v := by
  funext key
  unfold MemTable.over
  cases m.get key <;> rfl

theorem overPut (m : MemTable) (v : Bytes → Option Bytes) (key : Bytes) (value : Entry) :
    (m.put key value).over v = Function.update (m.over v) key value := by
  funext q
  unfold MemTable.over
  rw [getPut]
  by_cases same : q = key
  · subst same
    simp
  · simp [same]

end MemTable

/-- The store shows `mem`; the tables of the manifest on the medium show `dur`. -/
def Store (W : Manifest → Prop) (db : Database) (mem dur : Bytes → Option Bytes) : Prop :=
  ∃ vol, Views W db vol dur ∧ db.memtable.over vol = mem ∧ (db.memtable.isEmpty → vol = dur)

theorem Store.idle (h : Store W db mem dur) (none : db.memtable.isEmpty) : mem = dur := by
  obtain ⟨vol, -, rfl, clean⟩ := h
  rw [MemTable.overEmpty none]
  exact clean none

/-- The log of `l` has been truncated. -/
structure Emptied (l d : Disk) : Prop where
  wal : d.wal = []
  tail : d.tail = []
  cuts : d.cuts = l.cuts ++ [(l.wal, l.tail)]

theorem Emptied.same {l d d' : Disk} (h : Emptied l d) (log : LogSame d d') : Emptied l d' :=
  ⟨log.wal.trans h.wal, log.tail.trans h.tail, log.cuts.trans h.cuts⟩

theorem Emptied.since {l l' d : Disk} (h : Emptied l' d) (log : LogSame l l') : Emptied l d :=
  ⟨h.wal, h.tail, by rw [h.cuts, log.cuts, log.wal, log.tail]⟩

theorem Emptied.stop {l d d' : Disk} {e : Stop Error} (h : Emptied l d) (log : LogStop e d d') :
    Emptied l d' := by
  rcases log with ⟨-, kept, wal, tail, cuts⟩ | ⟨-, log⟩
  · exact ⟨by rw [wal, h.wal, h.tail]; simp, tail, cuts.trans h.cuts⟩
  · exact h.same log

/-- Where a flush may stop: before or behind the save of the manifest the log is that of `d`,
later it is empty. -/
structure FlushStop (W : Manifest → Prop) (e : Stop Error) (d : Disk) (db db' : Database)
    (mem dur : Bytes → Option Bytes) : Prop where
  injected : Injected db.faults e
  same : Same db db'
  left : (LogStop e d db'.disk ∧
      (Store W db' mem dur ∨ Store W db' mem mem ∧ db'.disk.manifest ≠ db.disk.manifest)) ∨
    (Emptied d db'.disk ∧ Store W db' mem mem)

structure FlushDone (W : Manifest → Prop) (db db' : Database) (mem : Bytes → Option Bytes) :
    Prop where
  same : Same db db'
  store : Store W db' mem mem
  left : (db.memtable.isEmpty ∧ db'.memtable = db.memtable ∧ LogSame db.disk db'.disk) ∨
    (db'.memtable = .new ∧ Emptied db.disk db'.disk)

theorem walTruncateEnds (db : Database) : Ends Database.walTruncate db
    (fun _ db' => ∃ fs, fs <:+ db.faults ∧
      db' = { db with faults := fs, disk := { db.disk with
        wal := [], tail := [], cuts := db.disk.cuts ++ [(db.disk.wal, db.disk.tail)] } })
    (fun e db' => Injected db.faults e ∧ ∃ fs d, fs <:+ db.faults ∧
      db' = { db with faults := fs, disk := d } ∧
      (LogStop e db.disk d ∨ Emptied db.disk d) ∧ d.tables = db.disk.tables ∧
      d.manifest = db.disk.manifest ∧ d.version = db.disk.version ∧ d.schema = db.disk.schema) := by
  refine (Database.effectEnds _ _ _ db).mono (fun _ _ h => h) ?_
  rintro e _ ⟨injected, fs, suffix, ⟨rfl, n, rfl⟩ | ⟨rfl, n, k, rfl⟩⟩
  · exact ⟨injected, fs, _, suffix, rfl, .inl (.inr ⟨by simp, .refl _⟩), rfl, rfl, rfl, rfl⟩
  · refine ⟨injected, fs, _, suffix, rfl, ?_⟩
    cases n with
    | zero => exact ⟨.inl (.inl ⟨rfl, k, rfl, rfl, rfl⟩), rfl, rfl, rfl, rfl⟩
    | succ n => exact ⟨.inr ⟨by simp [Disk.crashed], rfl, rfl⟩, rfl, rfl, rfl, rfl⟩

section Flushing
variable {md : Manifest} {vol : Bytes → Option Bytes}

theorem ViewsAt.appendLevel0 {m : MemTable} {id : Nat} (h : ViewsAt W md db vol dur)
    (fresh : id ∉ db.manifest.allIds) (lt : id < db.manifest.nextTableId)
    (table : TableAt db.disk.tables id m.iter) :
    ViewsAt W md { db with manifest := Database.updateLevel0 (· ++ [id]) db.manifest }
      (m.over vol) dur := by
  obtain ⟨single, level0, level1, sorted, nodup, old⟩ := h.memory
  have update : Database.updateLevel0 (· ++ [id]) db.manifest =
      { db.manifest with levels := [db.manifest.level0 ++ [id]] } := by
    rw [Database.updateLevel0, single]
  rw [update]
  have ids : (Manifest.mk [db.manifest.level0 ++ [id]] db.manifest.segments
      db.manifest.nextTableId).allIds.Perm (id :: db.manifest.allIds) := by
    simp only [Manifest.allIds]
    rw [single]
    simp
  refine h.replace ⟨rfl, ?_, level1, sorted, ?_, ?_⟩ le_rfl ?_
  · intro i mi
    rcases List.mem_append.mp mi with mi | mi
    · exact level0 i mi
    · rw [List.mem_singleton.mp mi]
      exact table.hasTable
  · exact ids.nodup_iff.mpr (List.nodup_cons.mpr ⟨fresh, nodup⟩)
  · intro i mi
    rcases List.mem_cons.mp (ids.mem_iff.mp mi) with rfl | mi
    · exact lt
    · exact old i mi
  · funext key
    have newest : layers db.disk.tables { db.manifest with levels := [db.manifest.level0 ++ [id]] } =
        m.iter :: layers db.disk.tables db.manifest := by
      simp [layers, Manifest.level0, recordsOfAt table]
    rw [tablesView, newest, lookupLayersCons, m.getIter, ← h.vol, MemTable.over, tablesView]
    cases m.get key <;> rfl

theorem storeFlushed {db' : Database} {vol dur : Bytes → Option Bytes}
    (views : Views W db' (db.memtable.over vol) dur) (memtable : db'.memtable = db.memtable)
    (some : ¬ db.memtable.isEmpty) : Store W db' (db.memtable.over vol) dur :=
  ⟨_, views, by rw [memtable, MemTable.overTwice], fun none => absurd (memtable ▸ none) some⟩

theorem ViewsAt.flushTail (h : ViewsAt W md db vol vol) (room : db.opts.segmentMaxRecords ≠ 0)
    (level0 : db.manifest.level0 ≠ []) (cache : db.tableCache = [])
    (memtable : db.memtable.over vol = vol) :
    EndsIf (Good W) (do
      Database.walTruncate
      modify ({ · with memtable := .new })
      let db ← MonadState.get
      if (db.manifest.levels.headD []).length ≥ db.opts.l0CompactThreshold then Database.compact
      : DbM Unit) db
      (fun _ db' => Same db db' ∧ Store W db' vol vol ∧ db'.memtable = .new ∧
        Emptied db.disk db'.disk)
      (fun e db' => Injected db.faults e ∧ Same db db' ∧ Store W db' vol vol ∧
        (LogStop e db.disk db'.disk ∧ db'.disk.manifest = db.disk.manifest ∨
          Emptied db.disk db'.disk)) := by
  have cached : ∀ db' : Database, db'.tableCache = [] → Cached db' := fun db' none i r found => by
    rw [none] at found
    cases found
  refine Ends.bind ((walTruncateEnds db).mono (fun _ _ h => h) ?_) ?_
  · rintro e _ ⟨injected, fs, d, suffix, rfl, log, tables, manifest, version, schema⟩ -
    refine ⟨injected, ⟨rfl, rfl, rfl, rfl, version, schema, suffix⟩, ⟨vol, ⟨md, ?_⟩, memtable,
      fun _ => rfl⟩, log.imp_left (fun l => ⟨l, manifest⟩)⟩
    exact h.same (cached _ cache) tables manifest rfl
  · rintro _ _ ⟨fs, suffix, rfl⟩
    refine endsBindModify (endsBindGet ?_)
    set db₂ : Database := { db with
      faults := fs
      disk := { db.disk with
        wal := [], tail := [], cuts := db.disk.cuts ++ [(db.disk.wal, db.disk.tail)] }
      memtable := .new } with hdb₂
    have same : Same db db₂ := ⟨rfl, rfl, rfl, rfl, rfl, rfl, suffix⟩
    have views : ViewsAt W md db₂ vol vol := h.same (cached _ cache) rfl rfl rfl
    have emptied : Emptied db.disk db₂.disk := ⟨rfl, rfl, rfl⟩
    refine endsIte (fun _ => ?_) (fun _ => fun _ => ?_)
    · refine (views.compact room level0).mono ?_ ?_
      · rintro _ db₃ - ⟨passed, views₃⟩
        refine ⟨same.trans passed.same, ⟨vol, views₃, ?_, fun _ => rfl⟩, passed.memtable, ?_⟩
        · rw [passed.memtable]
          rfl
        · exact emptied.same passed.log
      · rintro e db₃ - ⟨stopped, views₃⟩
        refine ⟨stopped.injected.mono suffix, same.trans stopped.same, ⟨vol, ?_, ?_, fun _ => rfl⟩,
          .inr (emptied.stop stopped.log)⟩
        · exact views₃.elim id id
        · rw [stopped.memtable]
          rfl
    · exact ⟨same, ⟨vol, ⟨md, views⟩, rfl, fun _ => rfl⟩, rfl, emptied⟩

theorem flushIdle (none : db.memtable.isEmpty) : Database.flush db = .ok () db := by
  have run : Completes Database.flush db (fun _ s => s = db) := by
    unfold Database.flush
    exact endsBindGet (endsIte (fun _ => rfl) (fun some => absurd none some))
  obtain ⟨⟨⟩, _, run, rfl⟩ := run.run
  exact run

theorem ViewsAt.newer (h : ViewsAt W md db vol dur) {m : Manifest}
    (next : db.manifest.nextTableId < m.nextTableId) {d : Disk} (saved : d.manifest = some m.save) :
    d.manifest ≠ db.disk.manifest := by
  intro same
  rcases h.saved with old | ⟨old, -⟩
  · rw [old, saved] at same
    have equal := Manifest.saveNext (Option.some.inj same)
    have older := h.older
    omega
  · rw [old, saved] at same
    cases same

theorem ViewsAt.flushSaves {db₂ : Database} (h : ViewsAt W md db₂ (db.memtable.over vol) dur)
    (same₂ : Passed db db₂) (some : ¬ db.memtable.isEmpty) (room : db.opts.segmentMaxRecords ≠ 0)
    (level0 : db₂.manifest.level0 ≠ [])
    (newer : ∀ d : Disk, d.manifest = .some db₂.manifest.save → d.manifest ≠ db.disk.manifest) :
    EndsIf (Good W) (do
      Database.saveManifest
      Database.clearCache
      Database.walTruncate
      modify ({ · with memtable := .new })
      let db ← MonadState.get
      if (db.manifest.levels.headD []).length ≥ db.opts.l0CompactThreshold then Database.compact
      : DbM Unit) db₂
      (fun _ db' => FlushDone W db db' (db.memtable.over vol))
      (fun e db' => FlushStop W e db.disk db db' (db.memtable.over vol) dur) := by
  refine EndsIf.bind goodBack (h.saveManifest.mono (fun _ _ _ => id) ?_)
    (fun _ => Database.clearCacheMoves.bind (fun _ => ?_)) ?_
  · rintro e db₃ - ⟨stopped, how⟩
    have memtable : db₃.memtable = db.memtable := stopped.memtable.trans same₂.memtable
    refine ⟨stopped.injected.mono same₂.same.faults, same₂.same.trans stopped.same,
      .inl ⟨same₂.log.stop stopped.log, ?_⟩⟩
    rcases how with kept | ⟨new, saved⟩
    · exact .inl (storeFlushed kept memtable some)
    · exact .inr ⟨storeFlushed new memtable some, newer _ saved⟩
  · exact Database.walTruncateMoves.bind (fun _ => Moves.bind
      (Database.quietMoves (fun _ => ⟨rfl, rfl, rfl, rfl, le_rfl⟩)) (fun _ => movesGet.bind
      (fun _ => Moves.ite Database.compactMoves (movesPure _))))
  · rintro _ db₃ - ⟨passed₃, views₃, step, saved₃⟩
    refine endsBindModify ?_
    set db₄ : Database := { db₃ with tableCache := [] } with hdb₄
    have same₄ : Passed db db₄ := (same₂.trans passed₃).trans
      ⟨⟨rfl, rfl, rfl, rfl, rfl, rfl, List.suffix_rfl⟩, rfl, .refl _⟩
    have views₄ := (views₃.same (fun i r found => by cases found) rfl rfl rfl : ViewsAt W _ db₄ _ _)
    have memtable : db₄.memtable = db.memtable := same₄.memtable
    have room₄ : db₄.opts.segmentMaxRecords ≠ 0 := by
      rw [same₄.same.opts]
      exact room
    have level0₄ : db₄.manifest.level0 ≠ [] := by
      rw [hdb₄, step.manifest]
      exact level0
    refine (views₄.flushTail room₄ level0₄ rfl ?_).mono ?_ ?_
    · rw [memtable, MemTable.overTwice]
    · rintro _ db₅ - ⟨same, store, new, emptied⟩
      exact ⟨same₄.same.trans same, store, .inr ⟨new, emptied.since same₄.log⟩⟩
    · rintro e db₅ - ⟨injected, same, store, ⟨log, saved⟩ | emptied⟩
      · exact ⟨injected.mono same₄.same.faults, same₄.same.trans same,
          .inl ⟨same₄.log.stop log, .inr ⟨store, newer _ (saved.trans saved₃)⟩⟩⟩
      · exact ⟨injected.mono same₄.same.faults, same₄.same.trans same,
          .inr ⟨emptied.since same₄.log, store⟩⟩

theorem Store.flush (h : Store W db mem dur) (room : db.opts.segmentMaxRecords ≠ 0) :
    EndsIf (Good W) Database.flush db (fun _ db' => FlushDone W db db' mem)
      (fun e db' => FlushStop W e db.disk db db' mem dur) := by
  obtain ⟨vol, ⟨md, views⟩, rfl, clean⟩ := h
  rw [Database.flushUnfold]
  refine endsBindGet (endsIte (fun none => fun _ => ?_) (fun some => ?_))
  · refine ⟨.refl db, ⟨vol, ⟨md, ?_⟩, rfl, fun _ => ?_⟩, .inl ⟨none, rfl, .refl _⟩⟩
    · rw [MemTable.overEmpty none]
      convert views using 1
      exact clean none
    · rw [MemTable.overEmpty none]
  have full : db.memtable.iter ≠ [] := fun none => some (List.isEmpty_iff.mpr none)
  have rest : Moves Grows (do
      Database.saveManifest
      Database.clearCache
      Database.walTruncate
      modify ({ · with memtable := .new })
      let db ← MonadState.get
      if (db.manifest.levels.headD []).length ≥ db.opts.l0CompactThreshold then Database.compact
      : DbM Unit) :=
    Database.saveManifestMoves.bind (fun _ => Database.clearCacheMoves.bind (fun _ => Database.walTruncateMoves.bind
      (fun _ => Moves.bind (Database.quietMoves (fun _ => ⟨rfl, rfl, rfl, rfl, le_rfl⟩)) (fun _ => movesGet.bind
        (fun _ => Moves.ite Database.compactMoves (movesPure _))))))
  refine EndsIf.bind goodBack ((views.writeTable db.memtable.iterOrdered full).mono
    (fun _ _ _ => id) ?_) (fun _ => (Database.setManifestMoves (Database.updateLevel0Next _)).bind (fun _ => rest)) ?_
  · rintro e db₁ - ⟨stopped, -, kept⟩
    have store : Store W db₁ (db.memtable.over vol) dur :=
      ⟨vol, ⟨md, kept⟩, by rw [stopped.memtable], fun none => clean (stopped.memtable ▸ none)⟩
    exact ⟨stopped.injected, stopped.same, .inl ⟨stopped.log, .inl store⟩⟩
  · rintro id db₁ - ⟨rfl, next, table, written, views₁⟩
    have fresh : db.manifest.nextTableId ∉ db₁.manifest.allIds := fun mem => by
      rw [written.manifest] at mem
      exact absurd (views.memory.fresh _ mem) (lt_irrefl _)
    have level0 : (Database.updateLevel0 (· ++ [db.manifest.nextTableId]) db₁.manifest).level0 ≠
        [] := by
      rw [Database.updateLevel0, views₁.memory.single]
      simp [Manifest.level0]
    have counted : (Database.updateLevel0 (· ++ [db.manifest.nextTableId])
        db₁.manifest).nextTableId = db₁.manifest.nextTableId := by
      rw [Database.updateLevel0, views₁.memory.single]
    refine endsBindModify ((views₁.appendLevel0 fresh (by omega) table).flushSaves
      (written.passed.trans ⟨⟨rfl, rfl, rfl, rfl, rfl, rfl, List.suffix_rfl⟩, rfl, .refl _⟩) some
      room level0 (fun d saved => views.newer ?_ saved))
    exact (Nat.lt_succ_self _).trans_eq (counted.trans next).symm

theorem FlushDone.room {db' : Database} (h : FlushDone W db db' mem)
    (room : db.opts.segmentMaxRecords ≠ 0) : db'.opts.segmentMaxRecords ≠ 0 := by
  rw [h.same.opts]
  exact room

theorem Store.mergeAll (h : Store W db mem dur) (none : db.memtable.isEmpty)
    (room : db.opts.segmentMaxRecords ≠ 0) : EndsIf (Good W) (do
      let db ← MonadState.get
      Database.mergeInto (db.manifest.levels.headD []) (db.manifest.segments.map SegmentMeta.fileId)
        []
      return (← MonadState.get).manifest.segments.length : DbM Nat) db
      (fun _ db' => Passed db db' ∧ Store W db' mem mem)
      (fun e db' => Stopped e db db' ∧ Store W db' mem mem) := by
  have all : ∀ m : Manifest, m.segments.filter (fun _ => true) = m.segments ∧
      retained m (fun _ => true) = [] := fun m => by simp [retained]
  obtain ⟨vol, ⟨md, views⟩, over_, clean⟩ := h
  obtain rfl := clean none
  have view : vol = mem := (MemTable.overEmpty none vol).symm.trans over_
  have merge := views.mergeInto (p := fun _ => true) room (by simp [(all _).2])
  rw [(all _).1, (all _).2] at merge
  have store : ∀ db' : Database, db'.memtable = db.memtable → Views W db' vol vol →
      Store W db' mem mem := fun db' memtable views' =>
    ⟨vol, view ▸ views', by rw [memtable, over_], fun _ => view⟩
  refine endsBindGet (Ends.bind (Ends.mono merge (fun _ _ h => h) ?_) ?_)
  · intro e db' stop good
    obtain ⟨stopped, views'⟩ := stop good
    exact ⟨stopped, store db' stopped.memtable (views'.elim id id)⟩
  · intro _ db' h good
    obtain ⟨passed, views'⟩ := h good
    exact ⟨passed, store db' passed.memtable views'⟩

theorem Store.compactFull (h : Store W db mem dur) (room : db.opts.segmentMaxRecords ≠ 0) :
    EndsIf (Good W) Database.compactFull db (fun _ db' => FlushDone W db db' mem)
      (fun e db' => FlushStop W e db.disk db db' mem dur) := by
  unfold Database.compactFull
  refine EndsIf.bind goodBack (h.flush room) (fun _ => movesGet.bind (fun _ =>
    (Database.mergeIntoMoves _ _ _).bind (fun _ => movesGet.bind (fun _ => movesPure _)))) ?_
  rintro _ db₁ - done
  have empty : db₁.memtable.isEmpty := by
    rcases done.left with ⟨none, same, -⟩ | ⟨new, -⟩
    · rw [same]
      exact none
    · rw [new]
      rfl
  refine Ends.mono (done.store.mergeAll empty (done.room room)) ?_ ?_
  · intro _ db₂ merged good
    obtain ⟨passed, store₂⟩ := merged good
    refine ⟨done.same.trans passed.same, store₂, ?_⟩
    rcases done.left with ⟨none, memtable, log⟩ | ⟨new, emptied⟩
    · exact .inl ⟨none, passed.memtable.trans memtable, log.trans passed.log⟩
    · exact .inr ⟨passed.memtable.trans new, emptied.same passed.log⟩
  · intro e db₂ stop good
    obtain ⟨stopped, store₂⟩ := stop good
    have injected := stopped.injected.mono done.same.faults
    have same := done.same.trans stopped.same
    rcases done.left with ⟨none, memtable, log⟩ | ⟨-, emptied⟩
    · exact ⟨injected, same, .inl ⟨log.stop stopped.log, .inl (h.idle none ▸ store₂)⟩⟩
    · exact ⟨injected, same, .inr ⟨emptied.stop stopped.log, store₂⟩⟩

end Flushing
end MyLsmDb
