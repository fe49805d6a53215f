import MyLsmDb.PlainMap

/-! The keys that the engine holds, those of tombstones among them: each was written. -/
namespace MyLsmDb
open ByteOrder (Bytes)
open Effect
open OrderedEntries
open Wal (Crc32)

/-- All keys in the memtable and in the tables of the manifest are `K`. -/
structure Keyed (K : Bytes → Prop) (db : Database) : Prop where
  memtable : ∀ r ∈ db.memtable.iter, K r.1
  tables : ∀ id ∈ db.manifest.allIds, ∀ r ∈ recordsOf db.disk.tables id, K r.1

variable {K : Bytes → Prop} {db db' : Database}

theorem memFlatten {layers : List (List Rec)} {r : Rec} (m : r ∈ flatten layers) :
    ∃ l ∈ layers, r ∈ l := by
  have found := memLookup (flattenOrdered layers) m
  rw [lookupFlatten] at found
  obtain ⟨l, ml, here⟩ := List.exists_of_findSome?_eq_some found
  exact ⟨l, ml, lookupMem here⟩

theorem layerOf {tables : OrderedMap Nat Bytes} {m : Manifest} {l : List Rec}
    (mem : l ∈ layers tables m) : ∃ id ∈ m.allIds, l = recordsOf tables id := by
  rcases List.mem_append.mp mem with mem | mem
  · obtain ⟨id, mid, rfl⟩ := List.mem_map.mp mem
    refine ⟨id, List.mem_append_left _ ?_, rfl⟩
    have first := List.mem_reverse.mp mid
    rw [Manifest.level0] at first
    cases levels : m.levels with
    | nil => rw [levels] at first; cases first
    | cons ids rest =>
      rw [levels] at first
      exact List.mem_flatten.mpr ⟨ids, List.mem_cons_self, first⟩
  · obtain ⟨s, ms, rfl⟩ := List.mem_map.mp mem
    exact ⟨s.fileId, List.mem_append_right _ (List.mem_map_of_mem ms), rfl⟩

theorem Keyed.entries (h : Keyed K db) : ∀ r ∈ Database.entries db, K r.1 := by
  intro r m
  obtain ⟨l, ml, mr⟩ := memFlatten m
  rcases List.mem_cons.mp ml with rfl | ml
  · exact h.memtable r mr
  · obtain ⟨id, mid, rfl⟩ := layerOf ml
    exact h.tables id mid r mr

section Untouched

/-- The memtable, the manifest and the tables named are as they were. -/
structure Untouched (ids : List Nat) (db db' : Database) : Prop where
  memtable : db'.memtable = db.memtable
  manifest : db'.manifest = db.manifest
  tables : ∀ id ∈ ids, db'.disk.tables.get id = db.disk.tables.get id

instance (ids : List Nat) : Std.Refl (Untouched ids) := ⟨fun _ => ⟨rfl, rfl, fun _ _ => rfl⟩⟩

instance (ids : List Nat) : IsTrans Database (Untouched ids) := ⟨fun _ _ _ ab bc =>
  ⟨bc.memtable.trans ab.memtable, bc.manifest.trans ab.manifest,
    fun id m => (bc.tables id m).trans (ab.tables id m)⟩⟩

theorem Keyed.untouched (h : Keyed K db) (same : Untouched db.manifest.allIds db db') :
    Keyed K db' := by
  refine ⟨same.memtable ▸ h.memtable, fun id m => ?_⟩
  rw [same.manifest] at m
  rw [recordsOfSame (same.tables id m)]
  exact h.tables id m

variable {ids : List Nat}

theorem untouchedEffect {fully : Disk → Disk} {onFail onCrash : Nat → Disk → Disk}
    (full : ∀ d, ∀ id ∈ ids, (fully d).tables.get id = d.tables.get id)
    (fail : ∀ n d, ∀ id ∈ ids, (onFail n d).tables.get id = d.tables.get id)
    (crash : ∀ n d, ∀ id ∈ ids, (onCrash n d).tables.get id = d.tables.get id) :
    Moves (Untouched ids) (Database.effect fully onFail onCrash) := by
  intro db
  refine (Database.effectEnds _ _ _ db).mono ?_ ?_
  · intro _ db' done
    obtain ⟨fs, -, rfl⟩ := done
    exact ⟨rfl, rfl, full db.disk⟩
  · intro e db' stop
    obtain ⟨-, fs, -, ⟨-, n, rfl⟩ | ⟨-, n, k, rfl⟩⟩ := stop
    · exact ⟨rfl, rfl, fail n db.disk⟩
    · exact ⟨rfl, rfl, crash n db.disk⟩

theorem untouchedAtomically {fully : Disk → Disk}
    (full : ∀ d, ∀ id ∈ ids, (fully d).tables.get id = d.tables.get id) :
    Moves (Untouched ids) (Database.atomically fully) := by
  refine untouchedEffect full (fun _ _ _ _ => rfl) (fun n d id m => ?_)
  split
  · rfl
  · exact full d id m

theorem untouchedModify {g : Database → Database} (memtable : ∀ db, (g db).memtable = db.memtable)
    (manifest : ∀ db, (g db).manifest = db.manifest)
    (tables : ∀ db, (g db).disk.tables = db.disk.tables) :
    Moves (Untouched ids) (modify g : DbM PUnit) :=
  movesModify (fun db => ⟨memtable db, manifest db, fun _ _ => by rw [tables]⟩)

theorem untouchedSave : Moves (Untouched ids) Database.saveManifest :=
  movesGet.bind (fun _ => Moves.bind
    (untouchedModify (fun _ => rfl) (fun _ => rfl) (fun _ => rfl))
    (fun _ => untouchedAtomically (fun _ _ _ => rfl)))

theorem untouchedClear : Moves (Untouched ids) Database.clearCache :=
  untouchedModify (fun _ => rfl) (fun _ => rfl) (fun _ => rfl)

theorem untouchedAppend (bytes : Bytes) : Moves (Untouched ids) (Database.walAppend bytes) :=
  untouchedEffect (fun _ _ _ => rfl) (fun _ _ _ _ => rfl) (fun _ _ _ _ => rfl)

theorem untouchedSync : Moves (Untouched ids) Database.walSync :=
  untouchedEffect (fun _ _ _ => rfl) (fun _ _ _ _ => rfl) (fun _ _ _ _ => rfl)

theorem untouchedRemove {old : Nat} (out : old ∉ ids) :
    Moves (Untouched ids) (Database.removeFile old) := by
  refine (untouchedAtomically (fun d id m => ?_)).ignore
  have other : id ≠ old := fun same => out (same ▸ m)
  simp [other]

end Untouched

section Added

/-- New tables may have been written; nothing else of what the keys depend on has changed. -/
structure Added (db db' : Database) : Prop where
  memtable : db'.memtable = db.memtable
  levels : db'.manifest.levels = db.manifest.levels
  segments : db'.manifest.segments = db.manifest.segments
  next : db.manifest.nextTableId ≤ db'.manifest.nextTableId
  older : ∀ id < db.manifest.nextTableId, db'.disk.tables.get id = db.disk.tables.get id

instance : Std.Refl Added := ⟨fun _ => ⟨rfl, rfl, rfl, le_rfl, fun _ _ => rfl⟩⟩

instance : IsTrans Database Added := ⟨fun _ _ _ ab bc =>
  ⟨bc.memtable.trans ab.memtable, bc.levels.trans ab.levels, bc.segments.trans ab.segments,
    ab.next.trans bc.next, fun id lt =>
      (bc.older id (lt.trans_le ab.next)).trans (ab.older id lt)⟩⟩

theorem addedIds (h : Added db db') : db'.manifest.allIds = db.manifest.allIds := by
  rw [Manifest.allIds, h.levels, h.segments, Manifest.allIds]

theorem Keyed.added (h : Keyed K db) (fresh : ∀ id ∈ db.manifest.allIds,
    id < db.manifest.nextTableId) (more : Added db db') : Keyed K db' := by
  refine ⟨more.memtable ▸ h.memtable, fun id m => ?_⟩
  rw [addedIds more] at m
  rw [recordsOfSame (more.older id (fresh id m))]
  exact h.tables id m

theorem addedTable (chunk : List Rec) : Moves Added (Database.writeTable chunk) := by
  intro db
  set id := db.manifest.nextTableId with hid
  set db₁ : Database := { db with
    manifest := { db.manifest with nextTableId := id + 1 }, built := db.built ++ [chunk] } with hdb₁
  have made : ∀ db' : Database, db'.memtable = db.memtable → Database.FileStep id db₁ db' →
      Added db db' := by
    intro db' memtable step
    have next : db'.manifest = db₁.manifest := step.manifest
    refine ⟨memtable, by rw [next], by rw [next], ?_, fun i less => ?_⟩
    · rw [next]
      exact Nat.le_succ id
    · exact step.others i (by omega)
  have write : Ends (do Database.createTable id (Sstable.tableFile chunk); return id : DbM Nat) db₁
      (fun _ db' => Added db db') (fun _ db' => Added db db') := by
    refine Ends.bind ((Database.createTableEnds id _ db₁).mono (fun _ _ h => h) ?_) ?_
    · exact fun _ db' stop => made db' stop.1.memtable stop.2
    · exact fun _ db' done => made db' done.1.memtable done.2.1
  exact write.step rfl

theorem addedSegments (parts : List (List Rec)) : Moves Added (Database.writeSegments parts) := by
  induction parts with
  | nil => exact movesPure _
  | cons chunk parts ih =>
    unfold Database.writeSegments
    split
    · exact (addedTable chunk).bind (fun _ => ih.bind (fun _ => movesPure _))
    · exact ih

end Added

section Flushing
variable {W : Manifest → Prop} {md : Manifest} {vol dur mem : Bytes → Option Bytes}

/-- Behind it, wherever it stops, all keys are `K`. -/
abbrev KeepsKeys (W : Manifest → Prop) (K : Bytes → Prop) {α : Type} (x : DbM α) (db : Database) :
    Prop := EndsIf (Good W) x db (fun _ db' => Keyed K db') (fun _ db' => Keyed K db')

theorem KeepsKeys.ofMoves {α : Type} {x : DbM α} (h : Keyed K db)
    (moves : Moves (Untouched db.manifest.allIds) x) : KeepsKeys W K x db :=
  Ends.endsIf ((moves db).mono (fun _ _ same => h.untouched same) (fun _ _ same => h.untouched same))

theorem endsAlso {ok : Database → Prop} {α : Type} {x : DbM α} {R : Database → Database → Prop}
    {post : α → Database → Prop} {stop stop' : Stop Error → Database → Prop}
    (h : EndsIf ok x db post stop) (moves : Ends x db (fun _ => R db) (fun _ => R db))
    (stops : ∀ e db', stop e db' ∧ R db db' → stop' e db') :
    EndsIf ok x db (fun a db' => post a db' ∧ R db db') stop' :=
  (endsBoth h moves).mono (fun _ _ done o => ⟨done.1 o, done.2⟩)
    (fun e db' stop o => stops e db' ⟨stop.1 o, stop.2⟩)

theorem ViewsAt.replaceKeys {segments : List SegmentMeta} {old : List Nat} {m : Manifest}
    (manifest : Database.updateLevel0 (fun _ => []) { db.manifest with segments } = m)
    (memtable : ∀ r ∈ db.memtable.iter, K r.1)
    (tables : ∀ id ∈ m.allIds, ∀ r ∈ recordsOf db.disk.tables id, K r.1)
    (gone : ∀ id ∈ old, id ∉ m.allIds) :
    KeepsKeys W K (Database.replaceTables segments old) db := by
  have start : Keyed K { db with manifest := m } := ⟨memtable, tables⟩
  have removes : Moves (Untouched m.allIds) (old.forM Database.removeFile) := by
    clear manifest start
    induction old with
    | nil => exact movesPure _
    | cons id old ih =>
      exact (untouchedRemove (gone id List.mem_cons_self)).bind (fun _ =>
        ih (fun i mi => gone i (List.mem_cons_of_mem _ mi)))
  have rest : Moves (Untouched m.allIds)
      (do Database.saveManifest; Database.clearCache; old.forM Database.removeFile : DbM Unit) :=
    untouchedSave.bind (fun _ => untouchedClear.bind (fun _ => removes))
  refine Ends.step (KeepsKeys.ofMoves start rest) ?_
  rw [← manifest]
  rfl

theorem ViewsAt.mergeKeys {p : SegmentMeta → Bool} (h : ViewsAt W md db vol dur)
    (room : db.opts.segmentMaxRecords ≠ 0) (keyed : Keyed K db)
    (aside : ∀ s ∈ retained db.manifest p, Aside db.disk.tables (mergedIds db.manifest p) s) :
    KeepsKeys W K (Database.mergeInto db.manifest.level0
      ((db.manifest.segments.filter p).map SegmentMeta.fileId) (retained db.manifest p)) db := by
  have tables : ∀ id ∈ mergedIds db.manifest p, HasTable db.disk.tables id :=
    fun id mem => h.memory.hasTable (h.memory.mergedIn mem)
  have merge := mergeIdsRun tables
  set merged := (flatten ((mergedIds db.manifest p).map (recordsOf db.disk.tables))).filter
    (fun r => r.2.isSome) with hmerged
  obtain ⟨parts, cut, whole, full⟩ := chunksRun room merged
  have ordered : ∀ c ∈ parts, Ordered c := fun c mc => by
    refine Ordered.sublist (List.sublist_flatten_of_mem mc) (whole ▸ ?_)
    exact (flattenOrdered _).sublist List.filter_sublist
  have partKeys : ∀ c ∈ parts, ∀ r ∈ c, K r.1 := by
    intro c mc r mr
    have inMerged : r ∈ merged := whole ▸ List.mem_flatten.mpr ⟨c, mc, mr⟩
    obtain ⟨l, ml, here⟩ := memFlatten (List.mem_of_mem_filter inMerged)
    obtain ⟨id, mid, rfl⟩ := List.mem_map.mp ml
    exact keyed.tables id (h.memory.mergedIn mid) r here
  unfold Database.mergeInto
  refine endsBindOk merge (endsBindGet ?_)
  rw [cut]
  refine endsBindOk rfl ?_
  refine EndsIf.bind goodBack (endsAlso (h.writeSegments ordered full) (addedSegments parts db)
      (fun _ db' stop => keyed.added h.memory.fresh stop.2))
    (fun _ => Database.replaceTablesMoves _ _) ?_
  · intro segs db₁ good done
    obtain ⟨⟨made, nodup, ids, written, views⟩, added⟩ := done
    have recut : Recut db.disk.tables db₁.disk.tables db.manifest p parts segs
        db₁.manifest.nextTableId :=
      ⟨h.memory, written.older, whole, made, nodup, ids, written.next, aside⟩
    have manifest : Database.updateLevel0 (fun _ => []) { db₁.manifest with
        segments := Database.sortSegments (retained db.manifest p ++ segs) } =
        recutManifest db.manifest p segs db₁.manifest.nextTableId := by
      have levels : db₁.manifest.levels = [db.manifest.level0] := by
        rw [written.manifest]
        exact h.memory.single
      simp [Database.updateLevel0, levels, recutManifest]
    refine ViewsAt.replaceKeys manifest (added.memtable ▸ keyed.memtable) ?_ ?_
    · intro id m r mr
      rcases List.mem_append.mp ((recutIds _ _ _ _).mem_iff.mp m) with old | new
      · obtain ⟨s, ms, rfl⟩ := List.mem_map.mp old
        have inUse : s.fileId ∈ db.manifest.allIds :=
          (h.memory.idCases _).mpr (.inr ⟨s, retainedIn ms, rfl⟩)
        rw [recordsOfSame (recut.retainedSame ms)] at mr
        exact keyed.tables _ inUse r mr
      · obtain ⟨s, ms, rfl⟩ := List.mem_map.mp new
        obtain ⟨part, mp, segment⟩ := madeOf made ms
        rw [segment.records] at mr
        exact partKeys part mp r mr
    · intro id mem
      exact recut.gone (List.mem_append.mpr ((List.mem_append.mp mem).imp_left List.mem_reverse.mpr))

theorem ViewsAt.compactKeys (h : ViewsAt W md db vol dur) (room : db.opts.segmentMaxRecords ≠ 0)
    (some : db.manifest.level0 ≠ []) (keyed : Keyed K db) : KeepsKeys W K Database.compact db := by
  unfold Database.compact
  refine endsBindGet (endsIte (fun _ => fun _ => keyed) (fun _ => ?_))
  obtain ⟨lo, hi, run, -, inside⟩ := tableBoundsRun h.memory.level0 none (.inl some)
  refine endsBindOk run ?_
  exact h.mergeKeys room keyed (fun s ms => asideOverlaps h.memory inside ms)

theorem ViewsAt.appendKeys {id : Nat} (h : ViewsAt W md db vol dur) (keyed : Keyed K db)
    (table : TableAt db.disk.tables id db.memtable.iter) :
    Keyed K { db with manifest := Database.updateLevel0 (· ++ [id]) db.manifest } := by
  refine ⟨keyed.memtable, fun i m r mr => ?_⟩
  rw [Database.updateLevel0, h.memory.single] at m
  have known : i ∈ db.manifest.allIds ∨ i = id := by
    rw [h.memory.idCases]
    simp only [Manifest.allIds, List.flatten_cons, List.flatten_nil, List.append_nil,
      List.append_assoc, List.mem_append, List.mem_cons, List.not_mem_nil, or_false,
      List.mem_map] at m
    rcases m with old | new | old
    · exact .inl (.inl old)
    · exact .inr new
    · exact .inl (.inr old)
  rcases known with old | rfl
  · exact keyed.tables i old r mr
  · have mr : r ∈ recordsOf db.disk.tables i := mr
    rw [recordsOfAt table] at mr
    exact keyed.memtable r mr

theorem Store.flushKeys (h : Store W db mem dur) (room : db.opts.segmentMaxRecords ≠ 0)
    (keyed : Keyed K db) : KeepsKeys W K Database.flush db := by
  obtain ⟨vol, ⟨md, views⟩, rfl, -⟩ := h
  rw [Database.flushUnfold]
  refine endsBindGet (endsIte (fun _ => fun _ => keyed) (fun some => ?_))
  have full : db.memtable.iter ≠ [] := fun none => some (List.isEmpty_iff.mpr none)
  have tail : Moves Grows (do
      Database.walTruncate
      modify ({ · with memtable := .new })
      let db ← MonadState.get
      if (db.manifest.levels.headD []).length ≥ db.opts.l0CompactThreshold then Database.compact
      : DbM Unit) :=
    Database.walTruncateMoves.bind (fun _ => Moves.bind
      (Database.quietMoves (fun _ => ⟨rfl, rfl, rfl, rfl, le_rfl⟩)) (fun _ => movesGet.bind
        (fun _ => Moves.ite Database.compactMoves (movesPure _))))
  refine EndsIf.bind goodBack (endsAlso (views.writeTable db.memtable.iterOrdered full)
      (addedTable _ db) (fun _ db' stop => keyed.added views.memory.fresh stop.2))
    (fun _ => (Database.setManifestMoves (Database.updateLevel0Next _)).bind (fun _ =>
      Database.saveManifestMoves.bind (fun _ => Database.clearCacheMoves.bind (fun _ => tail)))) ?_
  · intro id db₁ good₁ done
    obtain ⟨⟨rfl, next, table, written, views₁⟩, added⟩ := done
    have fresh : db.manifest.nextTableId ∉ db₁.manifest.allIds := fun mem => by
      rw [written.manifest] at mem
      exact absurd (views.memory.fresh _ mem) (lt_irrefl _)
    have views₂ := views₁.appendLevel0 fresh (by omega) table
    have keyed₁ : Keyed K db₁ := keyed.added views.memory.fresh added
    have keyed₂ := views₁.appendKeys keyed₁ (added.memtable ▸ table)
    have level0 : (Database.updateLevel0 (· ++ [db.manifest.nextTableId]) db₁.manifest).level0 ≠
        [] := by
      rw [Database.updateLevel0, views₁.memory.single]
      simp [Manifest.level0]
    refine endsBindModify ?_
    set db₂ : Database := { db₁ with
      manifest := Database.updateLevel0 (· ++ [db.manifest.nextTableId]) db₁.manifest } with hdb₂
    have room₂ : db₂.opts.segmentMaxRecords ≠ 0 := by
      have same : db₂.opts = db.opts := written.passed.same.opts
      rw [same]
      exact room
    refine EndsIf.bind goodBack (endsAlso views₂.saveManifest (untouchedSave db₂)
        (fun _ db' stop => keyed₂.untouched stop.2))
      (fun _ => Database.clearCacheMoves.bind (fun _ => tail)) ?_
    · intro _ db₃ good₃ done
      obtain ⟨⟨passed, views₃, step, -⟩, same⟩ := done
      have keyed₃ := keyed₂.untouched same
      refine endsBindModify ?_
      set db₄ : Database := { db₃ with tableCache := [] } with hdb₄
      have keyed₄ : Keyed K db₄ := ⟨keyed₃.memtable, keyed₃.tables⟩
      have cached : ∀ db' : Database, db'.tableCache = [] → Cached db' := fun db' none i r found => by
        rw [none] at found
        cases found
      refine Ends.bind ((walTruncateEnds db₄).mono (fun _ _ h => h) ?_) ?_
      · intro e _ stop _
        obtain ⟨-, fs, d, -, rfl, -, tables, -⟩ := stop
        exact keyed₄.untouched ⟨rfl, rfl, fun _ _ => by rw [tables]⟩
      · intro _ _ done
        obtain ⟨fs, -, rfl⟩ := done
        refine endsBindModify (endsBindGet ?_)
        set db₅ : Database := { db₄ with
          faults := fs
          disk := { db₄.disk with
            wal := [], tail := [], cuts := db₄.disk.cuts ++ [(db₄.disk.wal, db₄.disk.tail)] }
          memtable := .new } with hdb₅
        have keyed₅ : Keyed K db₅ := ⟨fun _ m => (by cases m), keyed₄.tables⟩
        have views₅ : ViewsAt W db₂.manifest db₅ (db.memtable.over vol) (db.memtable.over vol) :=
          views₃.same (cached _ rfl) rfl rfl rfl
        refine endsIte (fun _ => ?_) (fun _ => fun _ => keyed₅)
        refine views₅.compactKeys ?_ ?_ keyed₅
        · have same : db₅.opts = db₂.opts := passed.same.opts
          rw [same]
          exact room₂
        · have same : db₅.manifest = db₂.manifest := step.manifest
          rw [same]
          exact level0

theorem Store.limitKeys (h : Store W db mem dur) (room : db.opts.segmentMaxRecords ≠ 0)
    (keyed : Keyed K db) : KeepsKeys W K Database.flushIfOverLimit db :=
  endsBindGet (endsIte (fun _ => h.flushKeys room keyed) (fun _ => fun _ => keyed))

theorem memPutKeys {key : Bytes} (keyed : Keyed K db) (mine : K key) (value : Entry) :
    Keyed K { db with memtable := db.memtable.put key value } := by
  refine ⟨fun r m => ?_, keyed.tables⟩
  rcases insertMem m with rfl | old
  · exact mine
  · exact keyed.memtable r old

theorem memPutAllKeys {ws : List Rec} (keyed : Keyed K db) (mine : ∀ w ∈ ws, K w.1) :
    Completes (ws.forM (fun w => Database.memPut w.1 w.2)) db (fun _ db' => Keyed K db') := by
  induction ws generalizing db with
  | nil => exact keyed
  | cons w ws ih =>
    exact ih (memPutKeys keyed (mine w List.mem_cons_self) w.2)
      (fun x m => mine x (List.mem_cons_of_mem w m))

variable [Crc32]

theorem Store.putKeys (h : Store W db mem dur) (room : db.opts.segmentMaxRecords ≠ 0)
    (keyed : Keyed K db) {key : Bytes} (mine : K key) (value : Entry) :
    KeepsKeys W K (Database.putInternal key value) db := by
  refine Ends.bind ((endsBoth (walAppendEnds (.plain key value) h)
    (untouchedAppend _ db)).mono (fun _ _ done => done)
    (fun _ _ stop _ => keyed.untouched stop.2)) ?_
  intro _ db₁ done
  obtain ⟨⟨logged, store⟩, same⟩ := done
  refine endsBindModify ?_
  refine (store.memPut key value).limitKeys ?_ (memPutKeys (keyed.untouched same) mine value)
  change db₁.opts.segmentMaxRecords ≠ 0
  rw [logged.same.opts]
  exact room

theorem logAllUntouched (rs : List Wal.LogRecord) {ids : List Nat} :
    Moves (Untouched ids) (logAll rs) := Moves.forM (fun _ => untouchedAppend _) rs

theorem Store.commitKeys (h : Store W db mem dur) (room : db.opts.segmentMaxRecords ≠ 0)
    (keyed : Keyed K db) (tx : Nat) {pending : List Rec} (mine : ∀ w ∈ pending, K w.1) :
    KeepsKeys W K (Database.commitPending tx pending) db := by
  rw [commitUnfold]
  refine Ends.bind ((endsBoth (logAllEnds (txLog tx pending) h)
    (logAllUntouched _ db)).mono (fun _ _ done => done)
    (fun _ _ stop _ => keyed.untouched stop.2)) ?_
  intro _ db₁ done
  obtain ⟨⟨logged, store⟩, same₁⟩ := done
  have keyed₁ := keyed.untouched same₁
  refine Ends.bind ((endsBoth (walSyncEnds store) (untouchedSync db₁)).mono (fun _ _ done => done)
    (fun _ _ stop _ => keyed₁.untouched stop.2)) ?_
  intro _ db₂ done
  obtain ⟨⟨same₂, -, store₂, -⟩, untouched₂⟩ := done
  obtain ⟨m, run, store₃, -⟩ := memPutAll pending store₂
  have keyed₃ := (endsOfRun run).mp (memPutAllKeys (keyed₁.untouched untouched₂) mine)
  refine endsBindOk run ?_
  have room₃ : db₂.opts.segmentMaxRecords ≠ 0 := by
    rw [same₂.opts, logged.same.opts]
    exact room
  refine endsIgnore (Ends.mono (store₃.limitKeys room₃ keyed₃) (fun _ _ kept => kept) ?_)
  intro e db₄ kept
  cases e <;> exact kept

end Flushing

section Marks
variable [Crc32] {W : Manifest → Prop} {mem dur : Bytes → Option Bytes}

/-- Records that write nothing. -/
def Marks (log : List Wal.LogRecord) : Prop :=
  ∀ r ∈ log, ∃ tx < 2 ^ 64, r = .begin tx ∨ r = .commit tx

omit [Crc32] in
theorem Marks.fits {log : List Wal.LogRecord} (h : Marks log) : Wal.LogFits log := by
  intro r m
  obtain ⟨tx, small, rfl | rfl⟩ := h r m <;> exact small

omit [Crc32] in
theorem Marks.none {log : List Wal.LogRecord} (h : Marks log) :
    Wal.resolve (Wal.logOps log) = [] := by
  refine List.filterMap_eq_nil_iff.mpr (fun op m => ?_)
  obtain ⟨r, mr, found⟩ := List.mem_filterMap.mp m
  obtain ⟨tx, -, rfl | rfl⟩ := h r mr
  · cases found
  · cases found
    rfl

/-- While nothing is in memory the log has nothing to replay. -/
def Marked (db : Database) : Prop := db.memtable.isEmpty →
  ∃ log, Marks log ∧ db.disk.wal ++ db.disk.tail = Wal.logBytes log

theorem Marked.replay (h : Marked db) (none : db.memtable.isEmpty) (tail : db.disk.tail = []) :
    (Wal.replay db.disk.wal).records = [] := by
  obtain ⟨log, marks, bytes⟩ := h none
  rw [tail, List.append_nil] at bytes
  have whole := Wal.replayLog marks.fits Wal.readRecordNil
  rw [List.append_nil] at whole
  rw [bytes, whole]
  exact marks.none

theorem emptiedMarked {l : Disk} (h : Emptied l db.disk) : Marked db := by
  refine fun _ => ⟨[], ?_, ?_⟩
  · intro r m
    cases m
  · rw [h.wal, h.tail]
    rfl

theorem Store.flushMarked (h : Store W db mem dur) (room : db.opts.segmentMaxRecords ≠ 0)
    (marked : Marked db) : EndsIf (Good W) Database.flush db (fun _ db' => Marked db')
      (fun e _ => Injected db.faults e) := by
  refine (h.flush room).mono ?_ (fun _ _ _ stop => stop.injected)
  intro _ db' _ done
  rcases done.left with ⟨-, memtable, log⟩ | ⟨-, emptied⟩
  · intro none
    rw [log.wal, log.tail]
    exact marked (memtable ▸ none)
  · exact emptiedMarked emptied

theorem Store.limitMarked (h : Store W db mem dur) (room : db.opts.segmentMaxRecords ≠ 0)
    (marked : Marked db) : EndsIf (Good W) Database.flushIfOverLimit db
      (fun _ db' => Marked db') (fun e _ => Injected db.faults e) :=
  endsBindGet (endsIte (fun _ => h.flushMarked room marked) (fun _ => fun _ => marked))

theorem Store.putMarked (h : Store W db mem dur) (room : db.opts.segmentMaxRecords ≠ 0)
    (key : Bytes) (value : Entry) : EndsIf (Good W) (Database.putInternal key value) db
      (fun _ db' => Marked db') (fun e _ => Injected db.faults e) := by
  refine Ends.bind ((walAppendEnds (.plain key value) h).mono (fun _ _ done => done)
    (fun _ _ stop _ => stop.injected)) ?_
  intro _ db₁ done
  obtain ⟨logged, store⟩ := done
  refine endsBindModify (((store.memPut key value).limitMarked ?_ ?_).mono (fun _ _ _ kept => kept)
    (fun _ _ _ stop => stop.mono logged.same.faults))
  · change db₁.opts.segmentMaxRecords ≠ 0
    rw [logged.same.opts]
    exact room
  · exact fun none => absurd none (db₁.memtable.putSome key value)

theorem txLogMarks (tx : Nat) : ∃ log, Marks log ∧ Wal.logBytes (txLog tx []) = Wal.logBytes log := by
  have small : tx % 2 ^ 64 < 2 ^ 64 := Nat.mod_lt _ (by decide)
  have bytes : LittleEndian.leBytes 8 tx = LittleEndian.leBytes 8 (tx % 2 ^ 64) :=
    LittleEndian.leBytesEq.mpr (Nat.mod_mod tx (2 ^ 64)).symm
  refine ⟨txLog (tx % 2 ^ 64) [], ?_, ?_⟩
  · intro r m
    rcases List.mem_cons.mp m with rfl | m
    · exact ⟨_, small, .inl rfl⟩
    · exact ⟨_, small, .inr (List.mem_singleton.mp m)⟩
  · change Wal.writeRecord Wal.tBegin (LittleEndian.leBytes 8 tx) ++
        (Wal.writeRecord Wal.tCommit (LittleEndian.leBytes 8 tx) ++ []) =
      Wal.writeRecord Wal.tBegin (LittleEndian.leBytes 8 (tx % 2 ^ 64)) ++
        (Wal.writeRecord Wal.tCommit (LittleEndian.leBytes 8 (tx % 2 ^ 64)) ++ [])
    rw [← bytes]

theorem Store.commitMarked (h : Store W db mem dur) (room : db.opts.segmentMaxRecords ≠ 0)
    (marked : Marked db) (faults : db.faults = []) (tx : Nat) (pending : List Rec) :
    EndsIf (Good W) (Database.commitPending tx pending) db (fun _ db' => Marked db')
      (fun _ _ => False) := by
  rw [commitUnfold]
  refine Ends.bind ((logAllEnds (txLog tx pending) h).mono (fun _ _ done => done)
    (fun _ _ stop _ => noInjection (faults ▸ stop.injected))) ?_
  intro _ db₁ done
  obtain ⟨logged, store⟩ := done
  have none₁ : db₁.faults = [] := List.suffix_nil.mp (faults ▸ logged.same.faults)
  refine Ends.bind ((walSyncEnds store).mono (fun _ _ done => done)
    (fun _ _ stop _ => noInjection (none₁ ▸ stop.injected))) ?_
  intro _ db₂ done
  obtain ⟨same₂, memtable₂, store₂, synced, -⟩ := done
  obtain ⟨m, run, store₃, empty⟩ := memPutAll pending store₂
  refine endsBindOk run ?_
  have room₃ : db₂.opts.segmentMaxRecords ≠ 0 := by
    rw [same₂.opts, logged.same.opts]
    exact room
  have marked₃ : Marked { db₂ with memtable := m } := by
    intro none
    obtain ⟨rfl, before⟩ := empty none
    obtain ⟨log, marks, bytes⟩ := marked (logged.memtable ▸ memtable₂ ▸ before)
    obtain ⟨more, marks', bytes'⟩ := txLogMarks tx
    refine ⟨log ++ more, fun r m => (List.mem_append.mp m).elim (marks r) (marks' r), ?_⟩
    change db₂.disk.wal ++ db₂.disk.tail = _
    rw [synced.wal, synced.tail, List.append_nil, logged.log.wal, logged.log.tail, ← List.append_assoc,
      bytes, bytes', Wal.logBytesAppend]
  have none₂ : db₂.faults = [] := List.suffix_nil.mp (none₁ ▸ same₂.faults)
  refine endsIgnore (Ends.mono (store₃.limitMarked room₃ marked₃) (fun _ _ kept => kept) ?_)
  intro e db₄ stop
  cases e with
  | error e => exact fun good => (noInjection (none₂ ▸ stop good)).elim
  | panic => exact fun good => noInjection (none₂ ▸ stop good)
  | crash => exact fun good => noInjection (none₂ ▸ stop good)

end Marks
end MyLsmDb
