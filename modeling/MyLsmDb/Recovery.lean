import MyLsmDb.Session

/-! Opening: from the manifest on the medium and the log that is there, the store shows the
tables with the replayed records over them. -/
namespace MyLsmDb
open ByteOrder (Bytes)
open Effect
open OrderedEntries
open Text
open Wal (Crc32)

/-- A manifest that can be read back. -/
abbrev Writable := Manifest.Writable

structure Recoverable (d : Disk) (md : Manifest) : Prop where
  version : d.version = none ∨ ∃ text v, d.version = some text ∧
    Database.parseVersion text = .ok (some v) ∧ Database.checkCompatible v = .ok ()
  saved : Saved d md
  written : Writable md
  holding : Holding d.tables md

structure Mounted (d : Disk) (md : Manifest) : Prop where
  version : d.version = none ∨ ∃ text v, d.version = some text ∧
    Database.parseVersion text = .ok (some v) ∧ Database.checkCompatible v = .ok ()
  saved : Saved d md
  holding : Holding d.tables md

theorem Recoverable.mounted {d : Disk} {md : Manifest} (h : Recoverable d md) : Mounted d md :=
  ⟨h.version, h.saved, h.holding⟩

theorem Mounted.recoverable {d : Disk} {md : Manifest} (h : Mounted d md) (written : Writable md) :
    Recoverable d md := ⟨h.version, h.saved, written, h.holding⟩

theorem recoverableEmpty : Recoverable .empty ⟨[[]], [], 1⟩ := by
  refine ⟨.inl rfl, .inr ⟨rfl, rfl⟩, ⟨by decide, ?_, ?_, ?_⟩, ⟨rfl, ?_, ?_, ?_, ?_, ?_⟩⟩
  all_goals try simp [Manifest.allIds, Manifest.level0]
  exact ⟨List.Pairwise.nil, List.Pairwise.nil, by simp⟩

section Opening
variable {d : Disk} {md : Manifest}

theorem loadRecoverable (h : Recoverable d md) :
    ∃ m, Manifest.load d.manifest = .ok m ∧ Database.updateLevel0 id m = md := by
  rcases h.saved with text | ⟨none, rfl⟩
  · obtain ⟨levels, segments, n⟩ := md
    obtain ⟨ids, rfl⟩ : ∃ ids, levels = [ids] := ⟨_, h.holding.single⟩
    refine ⟨_, by rw [text]; exact Manifest.loadSaved h.written h.holding.sorted h.holding.nodup, ?_⟩
    by_cases none : ids = []
    · simp [none, Database.updateLevel0]
    · simp [none, Database.updateLevel0]
  · exact ⟨.new, by rw [none]; rfl, rfl⟩

/-- What the opened store has in common with the medium it was opened on. -/
structure OpenStep (d d' : Disk) : Prop where
  manifest : d'.manifest = d.manifest
  schema : d'.schema = d.schema
  tables : d'.tables = d.tables
  wal : d'.wal = d.wal
  tail : d'.tail = []
  cuts : d'.cuts = d.cuts

theorem openVersionEnds {db : Database} (h : Mounted db.disk md) (tail : db.disk.tail = []) :
    Ends Database.openVersion db
      (fun _ db' => ∃ fs d, fs <:+ db.faults ∧ db' = { db with faults := fs, disk := d } ∧
        OpenStep db.disk d ∧ Mounted d md)
      (fun e db' => Injected db.faults e ∧ OpenStep db.disk db'.disk ∧ Mounted db'.disk md) := by
  have keep : OpenStep db.disk db.disk := ⟨rfl, rfl, rfl, rfl, tail, rfl⟩
  have stay : ∀ n, Ends (pure n : DbM Nat) db
      (fun _ db' => ∃ fs d, fs <:+ db.faults ∧ db' = { db with faults := fs, disk := d } ∧
        OpenStep db.disk d ∧ Mounted d md)
      (fun e db' => Injected db.faults e ∧ OpenStep db.disk db'.disk ∧ Mounted db'.disk md) :=
    fun n => ⟨db.faults, db.disk, List.suffix_rfl, rfl, keep, h⟩
  unfold Database.openVersion
  refine endsBindGet ?_
  dsimp only
  rcases h.version with none | ⟨text, v, some, parse, compatible⟩
  · have read : Database.readVersion db.disk = .ok .none := by rw [Database.readVersion, none]; rfl
    rw [read]
    refine endsBindOk rfl (endsIte (fun new => ?_) (fun _ => stay 1))
    have versioned : Mounted { db.disk with version := some Database.versionText } md :=
      ⟨.inr ⟨_, 1, rfl, by decide, by decide⟩, h.saved, h.holding⟩
    refine Ends.bind ((Database.effectEnds _ _ _ db).mono (fun _ _ h => h) ?_) ?_
    · rintro e _ ⟨injected, fs, suffix, ⟨rfl, n, rfl⟩ | ⟨rfl, n, k, rfl⟩⟩
      · exact ⟨injected, keep, h⟩
      · cases n with
        | zero => exact ⟨injected, ⟨rfl, rfl, rfl, by simp [Disk.crashed, tail], rfl, rfl⟩,
            h.version, h.saved, h.holding⟩
        | succ n => exact ⟨injected, ⟨rfl, rfl, rfl, by simp [Disk.crashed, tail], rfl, rfl⟩,
            versioned.version, h.saved, h.holding⟩
    · rintro _ _ ⟨fs, suffix, rfl⟩
      exact ⟨fs, _, suffix, rfl, ⟨rfl, rfl, rfl, rfl, tail, rfl⟩, versioned⟩
  · have read : Database.readVersion db.disk = .ok (.some v) := by
      rw [Database.readVersion, some]
      exact parse
    rw [read]
    refine endsBindOk rfl ?_
    simp only [compatible]
    exact stay v

theorem convertLegacyEnds {db : Database} (single : db.manifest.levels = [db.manifest.level0]) :
    Completes Database.convertLegacyL1 db (fun _ db' => db' = db) := by
  have none : db.manifest.levels[1]? = .none := by rw [single]; rfl
  unfold Database.convertLegacyL1
  refine endsBindGet ?_
  dsimp only
  refine endsIte (fun _ => rfl) (fun _ => ?_)
  rw [none]
  rfl

theorem validateSegmentsEnds {db : Database} {segs : List SegmentMeta}
    (h : ∀ s ∈ segs, SegmentAt db.disk.tables s) :
    Completes (Database.validateSegments segs) db (fun _ db' => db' = db) := by
  induction segs with
  | nil => exact rfl
  | cons s segs ih =>
    have at_ := h s List.mem_cons_self
    obtain ⟨r, run, _, opened⟩ := Database.openTableRun at_.table
    have bounds := Sstable.keyBoundsExact opened at_.table.some
    have first : ((recordsOf db.disk.tables s.fileId).head at_.table.some).1 = s.minKey := by
      simpa [List.head?_eq_some_head at_.table.some] using at_.first
    have last : ((recordsOf db.disk.tables s.fileId).getLast at_.table.some).1 = s.maxKey := by
      simpa [List.getLast?_eq_some_getLast at_.table.some] using at_.last
    have file : db.disk.tables.get s.fileId ≠ none := by
      rw [at_.table.file]
      exact Option.some_ne_none _
    unfold Database.validateSegments
    refine endsBindGet (endsIte (fun none => absurd none file) (fun _ => endsBindOk run ?_))
    rw [bounds]
    refine endsIte (fun differ => ?_) (fun _ => ih (fun t mt => h t (List.mem_cons_of_mem _ mt)))
    exact absurd differ (by simp [first, last])

theorem validateOpenStateEnds {db : Database} (h : Holding db.disk.tables db.manifest) :
    Completes Database.validateOpenState db (fun _ db' => db' = db) := by
  have there : db.manifest.levels.flatten.any (fun id => (db.disk.tables.get id).isNone) = false := by
    refine List.any_eq_false.mpr (fun id mid => ?_)
    rw [h.single] at mid
    have file := (h.level0 id (by simpa using mid)).file
    simp [file]
  unfold Database.validateOpenState
  refine endsBindGet ?_
  rw [there]
  exact validateSegmentsEnds h.level1

variable [Crc32]

/-- The state of a store that was just opened. -/
structure JustOpened (d : Disk) (opts : Options) (md : Manifest) (db : Database) : Prop where
  store : Store Writable db (applied (Wal.replay d.wal).records (tablesView d.tables md))
    (tablesView d.tables md)
  medium : OpenStep d db.disk
  again : Recoverable db.disk md
  opts : db.opts = opts
  nextTxId : db.nextTxId = (Wal.replay d.wal).maxTxId + 1
  built : db.built = []
  saves : db.saves = []

theorem openLoaded {faults fs : List Fault} {opts : Options} {d₁ : Disk} {version : Nat}
    (suffix : fs <:+ faults) (step : OpenStep d d₁) (again : Recoverable d₁ md) :
    Completes (do
      let manifest ← lift (Manifest.load (← MonadState.get).disk.manifest)
      let manifest := Database.updateLevel0 id manifest
      modify ({ · with manifest, formatVersion := version })
      Database.convertLegacyL1
      Database.validateOpenState
      let replay := Wal.replay (← MonadState.get).disk.wal
      replay.records.forM (fun r => Database.memPut r.1 r.2)
      modify ({ · with nextTxId := replay.maxTxId + 1 }) : DbM Unit)
      { Database.boot d faults opts with faults := fs, disk := d₁ }
      (fun _ db => JustOpened d opts md db ∧ db.faults <:+ faults) := by
  obtain ⟨m, load, md_⟩ := loadRecoverable again
  refine endsBindGet ?_
  simp only [load]
  refine endsBindOk rfl (endsBindModify ?_)
  rw [md_]
  set db₁ : Database := { Database.boot d faults opts with
    faults := fs, disk := d₁, manifest := md, formatVersion := version } with hdb₁
  obtain ⟨_, _, run, rfl⟩ := (@convertLegacyEnds db₁ again.holding.single).run
  refine endsBindOk run ?_
  obtain ⟨_, _, run, rfl⟩ := (@validateOpenStateEnds db₁ again.holding).run
  refine endsBindOk run (endsBindGet ?_)
  have store : Store Writable db₁ (tablesView d.tables md) (tablesView d.tables md) := by
    have tables : db₁.disk.tables = d.tables := step.tables
    have view : tablesView db₁.disk.tables md = tablesView d.tables md := by rw [tables]
    exact ⟨tablesView d.tables md, ⟨md, again.holding, (fun _ _ found => nomatch found),
      again.saved, again.written, again.holding, le_rfl, view, view⟩, rfl, fun _ => rfl⟩
  obtain ⟨m, run, store₂, -⟩ := memPutAll (Wal.replay db₁.disk.wal).records store
  refine endsBindOk run (endsModify _ ?_)
  have wal : db₁.disk.wal = d.wal := step.wal
  refine ⟨⟨?_, step, again, rfl, ?_, rfl, rfl⟩, suffix⟩
  · rw [← wal]
    exact store₂.same rfl rfl rfl rfl rfl
  · simp only [wal]

theorem openWithEnds {faults : List Fault} {opts : Options} (h : Recoverable d md)
    (tail : d.tail = []) : Ends Database.openWith (Database.boot d faults opts)
      (fun _ db => JustOpened d opts md db ∧ db.faults <:+ faults)
      (fun e db => Injected faults e ∧ OpenStep d db.disk ∧ Recoverable db.disk md) := by
  unfold Database.openWith
  refine Ends.bind ((@openVersionEnds md (Database.boot d faults opts) h.mounted tail).mono
    (fun _ _ h => h) (fun _ _ stop => ⟨stop.1, stop.2.1, stop.2.2.recoverable h.written⟩)) ?_
  rintro version _ ⟨fs, d₁, suffix, rfl, step, again⟩
  exact (openLoaded suffix step (again.recoverable h.written)).mono (fun _ _ h => h)
    (fun _ _ => False.elim)

theorem openWithMounted {faults : List Fault} {opts : Options} (h : Mounted d md)
    (tail : d.tail = []) : Ends Database.openWith (Database.boot d faults opts)
      (fun _ db => JustOpened d opts md db ∧ db.faults <:+ faults)
      (fun _ db => OpenStep d db.disk ∧ Mounted db.disk md) := by
  unfold Database.openWith
  refine Ends.bind ((@openVersionEnds md (Database.boot d faults opts) h tail).mono
    (fun _ _ h => h) (fun _ _ stop => stop.2)) ?_
  rintro version _ ⟨fs, d₁, suffix, rfl, step, again⟩
  by_cases written : Writable md
  · exact (openLoaded suffix step (again.recoverable written)).mono (fun _ _ h => h)
      (fun _ _ => False.elim)
  · refine endsBindGet ?_
    rcases again.saved with text | ⟨-, rfl⟩
    · dsimp only
      rw [text]
      cases load : Manifest.load (some md.save) with
      | ok m => exact absurd (Manifest.loadWritable load) written
      | error e => exact ⟨step, again⟩
    · exact absurd recoverableEmpty.written written

end Opening
end MyLsmDb
