import MyLsmDb.Operation
import MyLsmDb.Recovery

/-! In one session without I/O errors the store is a plain map: whatever sequence of writes,
flushes and compactions ran, `get` and `scan` show the last write of each key. -/
namespace MyLsmDb
open ByteOrder (Bytes)
open Effect
open OrderedEntries
open Wal (Crc32)

/-- Every list of records that went to the table builder fits the format. -/
def Fitting (db : Database) : Prop := ∀ records ∈ db.built, Sstable.Fits records

instance (db : Database) : Decidable (Fitting db) :=
  inferInstanceAs (Decidable (∀ records ∈ db.built, Sstable.Fits records))

abbrev any : Manifest → Prop := fun _ => True

variable {db : Database} {mem dur v : Bytes → Option Bytes}

theorem goodOfFitting (h : Fitting db) : Good any db := ⟨h, fun _ _ => trivial⟩

theorem Store.any {W : Manifest → Prop} (h : Store W db mem dur) : Store any db mem dur := by
  obtain ⟨vol, ⟨md, views⟩, rest⟩ := h
  exact ⟨vol, ⟨md, { views with written := trivial }⟩, rest⟩

theorem noInjection {e : Stop Error} (h : Injected [] e) : False := by
  rcases e with e | _ | _
  · cases e with
    | io => exact nomatch h
    | _ => exact h
  · exact h
  · obtain ⟨_, _, m⟩ := h
    cases m

/-- `get` and `scan` show exactly the pairs of `v`. -/
structure Shows (db : Database) (v : Bytes → Option Bytes) : Prop where
  get : ∀ key, Completes (Database.get key) db (fun found _ => found = v key)
  scan : ∀ start stop, Completes (Database.scan start stop) db (fun l _ => Lists v start stop l)

theorem Store.shows {W : Manifest → Prop} (h : Store W db mem dur) : Shows db mem :=
  ⟨fun key => (h.get key).imp (fun _ _ => And.left),
    fun start stop => (h.scan start stop).imp (fun _ _ => And.left)⟩

theorem Shows.unique {v' : Bytes → Option Bytes} (h : Shows db v) (h' : Shows db v') : v = v' := by
  funext key
  obtain ⟨found, s, run, rfl⟩ := (h.get key).run
  exact (endsOfRun run).mp (h'.get key)

section Run
variable [Crc32]

structure Calm (db : Database) (mem : Bytes → Option Bytes) : Prop where
  store : ∃ dur, Store any db mem dur
  room : db.opts.segmentMaxRecords ≠ 0
  settled : Settled db
  faults : db.faults = []

theorem Calm.step (h : Calm db mem) (op : Op) : EndsIf (Good any) op.run db
    (fun _ db' => Calm db' (applied op.writes mem)) (fun _ _ => False) := by
  obtain ⟨dur, store⟩ := h.store
  have start : (op.start db).faults = [] ∧ (op.start db).opts = db.opts := by
    unfold Op.start
    split <;> exact ⟨h.faults, rfl⟩
  refine (op.ends store h.room).mono ?_ ?_
  · rintro _ db' - ⟨⟨same, left, calm⟩, -⟩
    refine ⟨?_, by rw [same.opts, start.2]; exact h.room,
      calm (op.startSettled h.settled), ?_⟩
    · rcases left with ⟨-, store | ⟨store, -⟩⟩ | ⟨-, store⟩ <;> exact ⟨_, store⟩
    · exact List.suffix_nil.mp (start.1 ▸ same.faults)
  · rintro e db' - (stop | stop)
    · exact noInjection (start.1 ▸ stop.injected)
    · exact noInjection (start.1 ▸ stop.injected)

theorem Calm.run (h : Calm db mem) (ops : List Op) : EndsIf (Good any) (ops.forM Op.run) db
    (fun _ db' => Calm db' (applied (ops.flatMap Op.writes) mem)) (fun _ _ => False) := by
  induction ops generalizing db mem with
  | nil => exact fun _ => h
  | cons op ops ih =>
    refine EndsIf.bind goodBack (h.step op) (fun _ => .forM Op.runMoves ops) ?_
    intro _ db₁ _ h₁
    refine (ih h₁).mono (fun _ _ _ calm => ?_) (fun _ _ _ => id)
    rw [List.flatMap_cons, appliedAppend]
    exact calm

def session (ops : List Op) : DbM Unit := do
  Database.openWith
  ops.forM Op.run

/-- The store of a session is the map its writes make. -/
theorem sessionIsMap (opts : Options) (room : opts.segmentMaxRecords ≠ 0) (ops : List Op) :
    EndsIf Fitting (session ops) (Database.boot .empty [] opts)
      (fun _ db => Shows db (applied (ops.flatMap Op.writes) (fun _ => none)))
      (fun _ _ => False) := by
  have run : EndsIf (Good any) (session ops) (Database.boot .empty [] opts)
      (fun _ db => Calm db (applied (ops.flatMap Op.writes) (fun _ => none)))
      (fun _ _ => False) := by
    refine Ends.bind ((openWithEnds recoverableEmpty rfl).mono (fun _ _ h => h) ?_) ?_
    · rintro e _ ⟨injected, -⟩ -
      exact noInjection injected
    · rintro _ db₁ ⟨opened, faults⟩
      refine Calm.run ⟨⟨_, opened.store.any⟩, by rw [opened.opts]; exact room,
        fun _ => opened.medium.tail, List.suffix_nil.mp faults⟩ ops
  exact Ends.mono run
    (fun _ _ calm fits => by
      obtain ⟨dur, store⟩ := (calm (goodOfFitting fits)).store
      exact store.shows)
    (fun _ _ stop fits => stop (goodOfFitting fits))

end Run

section Overflow

theorem putFlushed (value : Bytes) : ∃ db, @session Wal.ieee [.put [0] value]
    (Database.boot .empty [] ⟨0, 4, 1⟩) = .ok () db ∧ db.memtable = .new ∧
    db.manifest.levels = [[1]] ∧ db.tableCache = [] ∧
    db.disk.tables.get 1 = some (Sstable.tableFile [([0], some value)]) :=
  ⟨_, rfl, rfl, rfl, rfl, rfl⟩

theorem roomOfOne {key value : Bytes} (short : key.length < 2 ^ 31)
    (size : value.length < 2 ^ 63) : Sstable.Room [(key, some value)] := by
  have index : (Sstable.TableBuilder.addAll [(key, some value)]).finalIndex.length =
      key.length + 12 := by
    simp [Sstable.TableBuilder.addAll, Sstable.TableBuilder.add, Sstable.TableBuilder.new,
      Sstable.TableBuilder.finalIndex, Sstable.indexEntry]
    omega
  refine ⟨?_, by rw [index]; omega, ?_⟩
  · simp only [List.mem_singleton, forall_eq]
    omega
  obtain ⟨_, built⟩ := Sstable.builtAll [(key, some value)]
  have bloom : (Sstable.TableBuilder.addAll [(key, some value)]).bloom.toBytes.length = 136 := by
    simp [Sstable.BloomFilter.toBytes, built.bits]
  have footer : (Sstable.TableBuilder.addAll [(key, some value)]).footer.length = 44 := by
    simp [Sstable.TableBuilder.footer]
  rw [Sstable.tableFile, Sstable.TableBuilder.finish, List.length_append, List.length_append,
    List.length_append, index, bloom, footer, built.buf]
  simp [Sstable.recordBytes]
  omega

def compactedOps : List Op :=
  [.put [0] [7], .put [1] [8], .put [0] [9], .delete [1], .put [2] [5], .compactFull, .put [3] [6]]

theorem sessionIsMapCompacted : ∃ db, @session Wal.ieee compactedOps
    (Database.boot .empty [] ⟨0, 2, 1⟩) = .ok () db ∧
    db.manifest.segments.map (fun s => (s.minKey, s.maxKey)) = [([0], [0]), ([2], [2])] ∧
    Fitting db ∧ Shows db (applied (compactedOps.flatMap Op.writes) (fun _ => none)) := by
  have runs : (leaves (@session Wal.ieee compactedOps) (Database.boot .empty [] ⟨0, 2, 1⟩)).any
      (fun db => db.manifest.segments.map (fun s => (s.minKey, s.maxKey)) =
        [([0], [0]), ([2], [2])] ∧ Fitting db) = true := by
    decide +kernel
  obtain ⟨db, left, facts⟩ := (Option.any_eq_true _ _).mp runs
  obtain ⟨segments, fits⟩ := of_decide_eq_true facts
  obtain ⟨_, run⟩ := leavesSome left
  refine ⟨db, run, segments, fits, ?_⟩
  generalize compactedOps = ops at run ⊢
  have shows := @sessionIsMap Wal.ieee ⟨0, 2, 1⟩ (by decide) ops
  exact (endsOfRun run).mp shows fits

theorem getCut {db : Database} {key value : Bytes} (short : key.length < 2 ^ 31)
    (size : value.length < 2 ^ 63) (memtable : db.memtable = .new)
    (levels : db.manifest.levels = [[1]]) (cache : db.tableCache = [])
    (table : db.disk.tables.get 1 = some (Sstable.tableFile [(key, some value)])) :
    Completes (Database.get key) db (fun found _ =>
      found = some (value.take (value.length % 2 ^ 32))) := by
  obtain ⟨r, run, placed⟩ := Sstable.openPlaced (roomOfOne short size)
  have cut := Sstable.lookupCut placed
  have opens : Database.openTable 1 db = .ok r db := by
    rw [Database.openTableSome table, run]
    rfl
  have lookup : Completes (Database.lookupTable 1 key) db (fun found _ =>
      found = some (some (value.take (value.length % 2 ^ 32)))) := by
    unfold Database.lookupTable
    refine endsBindGet ?_
    rw [cache]
    refine endsBindOk opens ?_
    simp only [cut]
    exact rfl
  have first : Completes (Database.lookupFirst key [1]) db (fun found _ =>
      found = some (some (value.take (value.length % 2 ^ 32)))) := by
    refine lookup.bind ?_
    rintro _ db' rfl
    exact rfl
  unfold Database.get
  refine endsBindGet ?_
  rw [memtable, levels]
  refine first.bind ?_
  rintro _ db' rfl
  exact rfl

/-- A value of 2 ^ 32 bytes comes back empty. -/
theorem sessionOverflow : ¬ ∀ (opts : Options) (ops : List Op), opts.segmentMaxRecords ≠ 0 →
    Ends (@session Wal.ieee ops) (Database.boot .empty [] opts)
      (fun _ db => Shows db (applied (ops.flatMap Op.writes) (fun _ => none)))
      (fun _ _ => False) := by
  intro claim
  set value : Bytes := List.replicate (2 ^ 32) 0 with hvalue
  have length : value.length = 2 ^ 32 := List.length_replicate
  have ends := claim ⟨0, 4, 1⟩ [.put [0] value] (by decide)
  obtain ⟨db, run, memtable, levels, cache, table⟩ := putFlushed value
  have shows := (endsOfRun run).mp ends
  obtain ⟨found, _, got, rfl⟩ := (getCut (by decide) (by omega) memtable levels cache table).run
  obtain ⟨found', _, got', eq⟩ := (shows.get [0]).run
  rw [got] at got'
  cases got'
  have last : applied (([.put [0] value] : List Op).flatMap Op.writes) (fun _ => none) [0] =
      some value := by simp [Op.writes]
  rw [last, length, Nat.mod_self, List.take_zero] at eq
  have none := congrArg List.length (Option.some.inj eq)
  rw [length] at none
  exact absurd none (by decide)

end Overflow
end MyLsmDb
