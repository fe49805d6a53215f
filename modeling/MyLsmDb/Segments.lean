import MyLsmDb.Accepted
import MyLsmDb.ManifestTrip
import MyLsmDb.Twins

/-! What always holds of the manifests of a store: their segments are in order and have the
keys of their files, and no table that was given an id is written over. -/
namespace MyLsmDb
open ByteOrder (Bytes)
open Effect
open LittleEndian
open OrderedEntries
open Wal (Crc32)

section Sparing

/-- No file whose id was given before is written again. -/
def Spares (db db' : Database) : Prop := db.manifest.nextTableId ≤ db'.manifest.nextTableId ∧
  ∀ id < db.manifest.nextTableId,
    db'.disk.tables.get id = db.disk.tables.get id ∨ db'.disk.tables.get id = none

theorem Spares.same {db db' : Database} (tables : db'.disk.tables = db.disk.tables)
    (next : db'.manifest.nextTableId = db.manifest.nextTableId) : Spares db db' := by
  refine ⟨next.ge, fun id _ => .inl ?_⟩
  rw [tables]

instance : Database.Tolerant Spares where
  refl _ := .same rfl rfl
  trans a b c ab bc := by
    refine ⟨ab.1.trans bc.1, fun id lt => ?_⟩
    rcases bc.2 id (lt.trans_le ab.1) with same | gone
    · rw [same]
      exact ab.2 id lt
    · exact .inr gone
  quiet _ _ _ _ tables next _ := .same tables next
  saved _ _ := .same rfl rfl
  erased db gone := by
    refine ⟨le_rfl, fun id _ => ?_⟩
    by_cases same : id = gone
    · exact .inr (by simp [same])
    · exact .inl (by simp [same])
  table chunk db := by
    have spares : ∀ db', Database.NewTable chunk db db' → Spares db db' := by
      intro db' new
      refine ⟨by rw [new.next]; exact Nat.le_succ _, fun id lt => .inl ?_⟩
      exact new.others id (ne_of_lt lt)
    exact (Database.writeTableAny chunk db).mono (fun _ db' new => spares db' new)
      (fun _ db' new => spares db' new)

end Sparing

section Keeping
variable {tables : OrderedMap Nat Bytes} {m md : Manifest} {d : Disk}

structure Consistent (tables : OrderedMap Nat Bytes) (m : Manifest) : Prop where
  sorted : Manifest.Sorted m.segments
  first : ∀ s ∈ m.segments, (recordsOf tables s.fileId).head?.map Prod.fst = some s.minKey
  last : ∀ s ∈ m.segments, (recordsOf tables s.fileId).getLast?.map Prod.fst = some s.maxKey
  distinct : m.allIds.Nodup
  fresh : ∀ id ∈ m.allIds, id < m.nextTableId
  valid : m.validate = .ok ()

theorem Holding.consistent (h : Holding tables m) : Consistent tables m :=
  ⟨h.sorted, fun s ms => (h.level1 s ms).first, fun s ms => (h.level1 s ms).last, h.nodup,
    h.fresh, Manifest.validateSorted h.sorted h.nodup⟩

theorem Mounted.loaded (h : Mounted d md) (loaded : Manifest.load d.manifest = .ok m) :
    Recoverable d md ∧ Database.updateLevel0 id m = md := by
  have written : Writable md := by
    rcases h.saved with text | ⟨-, rfl⟩
    · rw [text] at loaded
      exact Manifest.loadWritable loaded
    · exact recoverableEmpty.written
  obtain ⟨m', loaded', update⟩ := loadRecoverable (h.recoverable written)
  cases loaded.symm.trans loaded'
  exact ⟨h.recoverable written, update⟩

theorem Mounted.consistent (h : Mounted d md) (loaded : Manifest.load d.manifest = .ok m) :
    Consistent d.tables m := by
  obtain ⟨ready, update⟩ := h.loaded loaded
  have holding := ready.holding
  have ids : m.allIds = md.allIds := by rw [← update, levelZero]
  have segments : m.segments = md.segments := by
    rw [← update, Database.updateLevel0]
    split <;> rfl
  have next : m.nextTableId = md.nextTableId := by rw [← update, Database.updateLevel0Next]
  have consistent := holding.consistent
  refine ⟨?_, ?_, ?_, ids ▸ consistent.distinct, ?_, Manifest.loadValid loaded⟩
  · rw [segments]
    exact consistent.sorted
  · rw [segments]
    exact consistent.first
  · rw [segments]
    exact consistent.last
  · rw [ids, next]
    exact consistent.fresh

variable [Crc32]

/-- What holds of every node: the manifests are consistent, opening takes them, and no call
writes over a table of theirs. -/
def Tidy : Node → Prop
  | .up db => Consistent db.disk.tables db.manifest ∧
      Database.validateOpenState db = .ok () db ∧
      (∀ m, Manifest.load db.disk.manifest = .ok m →
        Consistent db.disk.tables m ∧ m.nextTableId ≤ db.manifest.nextTableId) ∧
      ∀ call : Call, Ends call.run db (fun _ db' => Spares db db') (fun _ db' => Spares db db')
  | .down d => ∀ m, Manifest.load d.manifest = .ok m → Consistent d.tables m ∧
      ∀ opts, Completes Database.openWith (Database.boot d [] opts) (fun _ _ => True)

theorem Alive.tidy {db : Database} (h : Alive db) : Tidy (.up db) := by
  obtain ⟨⟨mem, dur, vol, ⟨md, views⟩, -⟩, version, -⟩ := h
  refine ⟨views.memory.consistent, ?_, fun m loaded => ?_, fun call => call.runMoves db⟩
  · obtain ⟨⟨⟩, _, run, rfl⟩ := (validateOpenStateEnds views.memory).run
    exact run
  · have mounted : Mounted db.disk md := ⟨version, views.saved, views.durable⟩
    obtain ⟨-, update⟩ := mounted.loaded loaded
    refine ⟨mounted.consistent loaded, ?_⟩
    have next : m.nextTableId = md.nextTableId := by rw [← update, Database.updateLevel0Next]
    exact next.trans_le views.older

theorem Idle.tidy (h : Idle d) : Tidy (.down d) := by
  obtain ⟨⟨md, mounted⟩, tail⟩ := h
  intro m loaded
  refine ⟨mounted.consistent loaded, fun opts => ?_⟩
  obtain ⟨ready, update⟩ := mounted.loaded loaded
  exact (openWithEnds ready tail).mono (fun _ _ _ => trivial) (fun _ _ stop => noInjection stop.1)

/-- The manifests of a directory stay consistent over every history. -/
theorem segmentsTidy {n : Node} (reach : Reach Lawful n) : Tidy n := by
  have sound := reach.sound (fun _ _ _ => id)
  cases n with
  | up db => exact Alive.tidy sound
  | down d => exact Idle.tidy sound

end Keeping

section Misread
attribute [local instance] Wal.ieee

theorem segmentsTidyPair : ∃ db, Reach Lawful (.up db) ∧
    db.manifest = ⟨[[5]], [⟨3, [0], [0], 1⟩, ⟨4, [1], [1], 1⟩], 6⟩ ∧ Tidy (.up db) := by
  obtain ⟨_, db, reach, _, run, fits, manifest⟩ := segmentsClosed
  have closed : Reach Lawful (.up db) :=
    @Reach.returned _ _ _ _ .close reach run ⟨fits, fun other => nomatch other⟩
  exact ⟨db, closed, manifest, segmentsTidy closed⟩

def twoRecords (value : Bytes) : List Rec := [([5], some value), ([6], some [])]

theorem twoFlushed (value : Bytes) : ∃ db₀ db,
    Database.openWith (Database.boot .empty [] ⟨0, 4, 2⟩) = .ok () db₀ ∧
    Call.run (.op (.commit (twoRecords value))) db₀ = .ok () db ∧
    db.faults = [] ∧ db.memtable = .new ∧ db.manifest = ⟨[[1]], [], 2⟩ ∧ db.opts = ⟨0, 4, 2⟩ ∧
    db.disk.tables.get 1 = some (Sstable.tableFile (twoRecords value)) :=
  ⟨_, _, rfl, rfl, rfl, rfl, rfl, rfl, rfl⟩

theorem twoRoom {value : Bytes} (size : value.length < 2 ^ 63) :
    Sstable.Room (twoRecords value) := by
  have index : (Sstable.TableBuilder.addAll (twoRecords value)).finalIndex.length = 26 := by
    simp [twoRecords, Sstable.TableBuilder.addAll, Sstable.TableBuilder.add,
      Sstable.TableBuilder.new, Sstable.TableBuilder.finalIndex, Sstable.indexEntry,
      Sstable.defaultSpacing]
  refine ⟨?_, by rw [index]; decide, ?_⟩
  · simp [twoRecords]
  obtain ⟨_, built⟩ := Sstable.builtAll (twoRecords value)
  have bloom : (Sstable.TableBuilder.addAll (twoRecords value)).bloom.toBytes.length = 136 := by
    simp [Sstable.BloomFilter.toBytes, built.bits]
  have footer : (Sstable.TableBuilder.addAll (twoRecords value)).footer.length = 44 := by
    simp [Sstable.TableBuilder.footer]
  rw [Sstable.tableFile, Sstable.TableBuilder.finish, List.length_append, List.length_append,
    List.length_append, index, bloom, footer, built.buf]
  simp [twoRecords, Sstable.encode, Sstable.recordBytes]
  omega

/-- Where the length of the first value is 0 modulo 2 ^ 32, its bytes are read as the second
record. -/
theorem twoMisread {rest : Bytes} {r : Sstable.TableReader}
    (size : (Sstable.recordBytes [] (some []) ++ rest).length = 2 ^ 32)
    (h : Sstable.Placed (twoRecords (Sstable.recordBytes [] (some []) ++ rest)) r) :
    r.iter = .ok [([5], some []), ([], some [])] := by
  obtain ⟨file, count, bloom, entries, stop⟩ := r
  obtain ⟨q, bytes⟩ : Sstable.encode (twoRecords _) <+: file := h.bytes
  have stops : stop = _ := h.dataEnd
  have counts : count = 2 := h.count
  subst counts
  set value := Sstable.recordBytes [] (some []) ++ rest with hvalue
  set head : Bytes := leBytes 4 1 ++ leBytes 4 (2 ^ 32) ++ [0] ++ [5] with hhead
  have headed : Sstable.recordBytes [5] (some value) = head ++ value := by
    rw [Sstable.recordBytes, hhead]
    simp [size]
  have ten : head.length = 10 := by simp [hhead]
  have long : 10 < stop := by
    have positive : value.length = 2 ^ 32 := size
    rw [stops, twoRecords, Sstable.encode, List.flatMap_cons, headed]
    simp only [List.length_append]
    omega
  obtain ⟨more, place⟩ : ∃ more, file = [] ++ (Sstable.recordBytes [5] (some value) ++ more) := by
    refine ⟨Sstable.recordBytes [6] (some []) ++ q, ?_⟩
    rw [← bytes]
    simp [twoRecords, Sstable.encode]
  have first := Sstable.recordCut (c := 2) (f := bloom) (i := entries) place (by decide)
    (show ([] : Bytes).length < stop by simp only [List.length_nil]; omega)
  have inner : file = head ++ (Sstable.recordBytes [] (some []) ++ (rest ++ more)) := by
    rw [place, headed, hvalue]
    simp
  have second := Sstable.recordCut (c := 2) (f := bloom) (i := entries) inner (by decide)
    (show head.length < stop by omega)
  have zero : value.length % 2 ^ 32 = 0 := by rw [size, Nat.mod_self]
  simp only [List.length_nil, List.length_singleton, Option.map_some, Option.elim_some, zero,
    List.take_zero, Nat.zero_add, Nat.add_zero] at first
  rw [ten] at second
  simp only [Sstable.TableReader.iter, Sstable.TableReader.iterLoop, first, bind, Except.bind,
    second, pure, Except.pure]
  rfl

theorem twoCompacted {db : Database} {value rest : Bytes} (faults : db.faults = [])
    (memtable : db.memtable = .new) (manifest : db.manifest = ⟨[[1]], [], 2⟩)
    (opts : db.opts = ⟨0, 4, 2⟩) (split : value = Sstable.recordBytes [] (some []) ++ rest)
    (size : value.length = 2 ^ 32)
    (table : db.disk.tables.get 1 = some (Sstable.tableFile (twoRecords value))) :
    Completes Database.compactFull db
      (fun _ db' => db'.manifest.segments = [⟨2, [5], [], 2⟩]) := by
  subst split
  obtain ⟨r, run, placed⟩ := Sstable.openPlaced (twoRoom (by rw [size]; decide))
  have read := twoMisread size placed
  have merge : Database.mergeIds [1] true db = .ok [([5], some []), ([], some [])] db := by
    have opens : Database.openTable 1 db = .ok r db := by
      rw [Database.openTableSome table, run]
      rfl
    have done : Completes (Database.mergeIds [1] true) db
        (fun l s => l = [([5], some []), ([], some [])] ∧ s = db) := by
      have sources : Completes (Database.mergeSources [1]) db
          (fun l s => l = [[([5], some []), ([], some [])]] ∧ s = db) := by
        unfold Database.mergeSources
        refine endsBindOk opens ?_
        rw [read]
        exact ⟨rfl, rfl⟩
      have merged : Iterator.mergeVecs [[([5], some []), ([], some [])]] =
          .ok [([5], some []), ([], some [])] := by rfl
      unfold Database.mergeIds
      refine sources.bind ?_
      rintro _ _ ⟨rfl, rfl⟩
      rw [merged]
      exact ⟨rfl, rfl⟩
    obtain ⟨_, _, run, rfl, rfl⟩ := done.run
    exact run
  obtain ⟨disk, _, _, _, _, closed, cache, next, version, built, saves⟩ := db
  subst faults memtable manifest opts
  have idle : Completes Database.flush ⟨disk, [], .new, ⟨[[1]], [], 2⟩, ⟨0, 4, 2⟩, closed, cache,
      next, version, built, saves⟩ (fun _ s => s = ⟨disk, [], .new, ⟨[[1]], [], 2⟩, ⟨0, 4, 2⟩,
        closed, cache, next, version, built, saves⟩) := rfl
  have into : Completes (Database.mergeInto [1] [] []) ⟨disk, [], .new, ⟨[[1]], [], 2⟩, ⟨0, 4, 2⟩,
      closed, cache, next, version, built, saves⟩
      (fun _ db' => db'.manifest.segments = [⟨2, [5], [], 2⟩]) := by
    unfold Database.mergeInto
    exact endsBindOk merge rfl
  unfold Database.compactFull
  refine idle.bind ?_
  rintro _ _ rfl
  exact endsBindGet (into.bind (fun _ _ segments => segments))

/-- A value of 2 ^ 32 bytes in the first of two records: the segment that the compaction
makes of them ends before it begins. -/
theorem segmentsCrossed : ¬ ∀ n, Reach (fun call _ _ => call ≠ .gc) n → Tidy n := by
  intro claim
  obtain ⟨rest, value, split, size⟩ : ∃ rest value : Bytes,
      value = Sstable.recordBytes [] (some []) ++ rest ∧ value.length = 2 ^ 32 := by
    refine ⟨List.replicate (2 ^ 32 - 9) 0, _, rfl, ?_⟩
    rw [List.length_append, List.length_replicate]
    rfl
  obtain ⟨db₀, db, opened, commit, faults, memtable, manifest, opts, table⟩ := twoFlushed value
  obtain ⟨n, db', run, segments⟩ :=
    (twoCompacted faults memtable manifest opts split size table).run
  have full : Call.run (.op .compactFull) db = .ok () db' := by
    change EStateM.bind Database.compactFull _ db = _
    unfold EStateM.bind
    rw [run]
    rfl
  have before : Reach (fun call _ _ => call ≠ .gc) (.up db) :=
    .returned (.opened .fresh (by decide) opened) commit (by simp)
  have tidy := claim _ (.returned before full (by simp))
  have crossed := tidy.1.sorted.ranges ⟨2, [5], [], 2⟩ (by simp [segments])
  exact absurd crossed (by decide)

end Misread
end MyLsmDb
