import MyLsmDb.Database
import MyLsmDb.MergeExact

/-! The tables a manifest refers to, as layers of records: what they must be like, and that
`get` and the scans read exactly the memtable laid over them. -/
namespace MyLsmDb
open BinarySearch (searchList)
open ByteOrder (Bytes)
open Effect
open Iterator
open OrderedEntries
open Sstable (TableReader Opened tableFile)

def recordsOf (tables : OrderedMap Nat Bytes) (id : Nat) : List Rec :=
  match tables.get id with
  | none => []
  | some bytes =>
    match TableReader.openFile bytes >>= TableReader.iter with
    | .ok records => records
    | .error _ => []

structure TableAt (tables : OrderedMap Nat Bytes) (id : Nat) (records : List Rec) : Prop where
  file : tables.get id = some (tableFile records)
  fits : Sstable.Fits records
  ordered : Ordered records
  some : records ≠ []

abbrev HasTable (tables : OrderedMap Nat Bytes) (id : Nat) : Prop :=
  TableAt tables id (recordsOf tables id)

structure SegmentAt (tables : OrderedMap Nat Bytes) (s : SegmentMeta) : Prop where
  table : HasTable tables s.fileId
  first : (recordsOf tables s.fileId).head?.map Prod.fst = some s.minKey
  last : (recordsOf tables s.fileId).getLast?.map Prod.fst = some s.maxKey
  count : s.records = (recordsOf tables s.fileId).length

def Manifest.level0 (m : Manifest) : List Nat := m.levels.headD []

/-- The tables that `m` refers to are there, and its segments are as they should be. -/
structure Holding (tables : OrderedMap Nat Bytes) (m : Manifest) : Prop where
  single : m.levels = [m.level0]
  level0 : ∀ id ∈ m.level0, HasTable tables id
  level1 : ∀ s ∈ m.segments, SegmentAt tables s
  sorted : Manifest.Sorted m.segments
  nodup : m.allIds.Nodup
  fresh : ∀ id ∈ m.allIds, id < m.nextTableId

def layers (tables : OrderedMap Nat Bytes) (m : Manifest) : List (List Rec) :=
  m.level0.reverse.map (recordsOf tables) ++
    m.segments.map (fun s => recordsOf tables s.fileId)

def tablesView (tables : OrderedMap Nat Bytes) (m : Manifest) (key : Bytes) : Option Bytes :=
  (lookupLayers (layers tables m) key).join

def MemTable.over (mem : MemTable) (v : Bytes → Option Bytes) (key : Bytes) : Option Bytes :=
  (mem.get key).elim (v key) id

variable {tables : OrderedMap Nat Bytes} {m : Manifest}

theorem openTableAt {id : Nat} {records : List Rec} (h : TableAt tables id records) :
    ∃ r, TableReader.openFile (tableFile records) = .ok r ∧ Opened records r :=
  Sstable.openBuilt h.fits

theorem recordsOfAt {id : Nat} {records : List Rec} (h : TableAt tables id records) :
    recordsOf tables id = records := by
  obtain ⟨r, run, opened⟩ := openTableAt h
  simp only [recordsOf, h.file, run, bind, Except.bind, Sstable.iterExact opened]

theorem TableAt.hasTable {id : Nat} {records : List Rec} (h : TableAt tables id records) :
    HasTable tables id := by
  unfold HasTable
  rw [recordsOfAt h]
  exact h

theorem recordsOfSame {tables' : OrderedMap Nat Bytes} {id : Nat}
    (same : tables'.get id = tables.get id) : recordsOf tables' id = recordsOf tables id := by
  simp only [recordsOf, same]

theorem HasTable.same {tables' : OrderedMap Nat Bytes} {id : Nat} (h : HasTable tables id)
    (same : tables'.get id = tables.get id) : HasTable tables' id := by
  unfold HasTable
  rw [recordsOfSame same]
  exact ⟨same.trans h.file, h.fits, h.ordered, h.some⟩

theorem Holding.idCases (h : Holding tables m) (id : Nat) :
    id ∈ m.allIds ↔ id ∈ m.level0 ∨ ∃ s ∈ m.segments, s.fileId = id := by
  have flat : m.levels.flatten = m.level0 := by
    rw [h.single]
    simp
  simp [Manifest.allIds, flat]

theorem Holding.hasTable (h : Holding tables m) {id : Nat} (mem : id ∈ m.allIds) :
    HasTable tables id := by
  rcases (h.idCases id).mp mem with m0 | ⟨s, ms, rfl⟩
  · exact h.level0 id m0
  · exact (h.level1 s ms).table

theorem layersSame {tables' : OrderedMap Nat Bytes} (h : Holding tables m)
    (same : ∀ id ∈ m.allIds, tables'.get id = tables.get id) : layers tables' m = layers tables m := by
  unfold layers
  congr 1
  · exact List.map_congr_left (fun id mem =>
      recordsOfSame (same id ((h.idCases id).mpr (.inl (List.mem_reverse.mp mem)))))
  · exact List.map_congr_left (fun s ms =>
      recordsOfSame (same s.fileId ((h.idCases _).mpr (.inr ⟨s, ms, rfl⟩))))

theorem Holding.same {tables' : OrderedMap Nat Bytes} (h : Holding tables m)
    (same : ∀ id ∈ m.allIds, tables'.get id = tables.get id) : Holding tables' m where
  single := h.single
  level0 id mem := (h.level0 id mem).same (same id ((h.idCases id).mpr (.inl mem)))
  level1 s ms := by
    have eq := same s.fileId ((h.idCases _).mpr (.inr ⟨s, ms, rfl⟩))
    have old := h.level1 s ms
    exact ⟨old.table.same eq, by rw [recordsOfSame eq]; exact old.first,
      by rw [recordsOfSame eq]; exact old.last, by rw [recordsOfSame eq]; exact old.count⟩
  sorted := h.sorted
  nodup := h.nodup
  fresh := h.fresh

theorem SegmentAt.inside {s : SegmentMeta} (h : SegmentAt tables s) {x : Rec}
    (mem : x ∈ recordsOf tables s.fileId) : s.minKey ≤ x.1 ∧ x.1 ≤ s.maxKey := by
  have ordered := h.table.ordered
  have first := h.first
  have last := h.last
  generalize recordsOf tables s.fileId = records at mem ordered first last
  constructor
  · obtain _ | ⟨y, rest⟩ := records
    · cases mem
    have eq : y.1 = s.minKey := by simpa using first
    rcases List.mem_cons.mp mem with rfl | mem
    · exact le_of_eq eq.symm
    · exact eq ▸ le_of_lt ((orderedCons.mp ordered).1 x mem)
  · obtain ⟨y, hy, eq⟩ := Option.map_eq_some_iff.mp last
    obtain ⟨front, rfl⟩ := List.getLast?_eq_some_iff.mp hy
    rcases List.mem_append.mp mem with mem | mem
    · exact eq ▸ le_of_lt ((Ordered.append.mp ordered).2.2 x mem y (List.mem_singleton.mpr rfl))
    · cases List.mem_singleton.mp mem
      exact le_of_eq eq

/-- What reads need: the tables they look at are there and the segments keep to their ranges. -/
structure Readable (tables : OrderedMap Nat Bytes) (m : Manifest) : Prop where
  level0 : ∀ id ∈ m.level0, id < m.nextTableId ∧ HasTable tables id
  level1 : ∀ s ∈ m.segments, s.fileId < m.nextTableId ∧ HasTable tables s.fileId
  ranges : ∀ s ∈ m.segments, ∀ x ∈ recordsOf tables s.fileId, s.minKey ≤ x.1 ∧ x.1 ≤ s.maxKey
  sorted : Manifest.Sorted m.segments

theorem Holding.readable (h : Holding tables m) : Readable tables m where
  level0 id mem := ⟨h.fresh id ((h.idCases id).mpr (.inl mem)), h.level0 id mem⟩
  level1 s ms := ⟨h.fresh _ ((h.idCases _).mpr (.inr ⟨s, ms, rfl⟩)), (h.level1 s ms).table⟩
  ranges s ms _ mx := (h.level1 s ms).inside mx
  sorted := h.sorted

theorem Readable.layersOrdered (h : Readable tables m) : ∀ l ∈ layers tables m, Ordered l := by
  intro l mem
  rcases List.mem_append.mp mem with mem | mem
  · obtain ⟨id, mid, rfl⟩ := List.mem_map.mp mem
    exact (h.level0 id (List.mem_reverse.mp mid)).2.ordered
  · obtain ⟨s, ms, rfl⟩ := List.mem_map.mp mem
    exact (h.level1 s ms).2.ordered

theorem lookupSegments (h : Readable tables m) (key : Bytes) :
    lookupLayers (m.segments.map (fun s => recordsOf tables s.fileId)) key =
      (Database.findSegment m.segments key).bind (fun i =>
        (m.segments[i]?).bind (fun s => (recordsOf tables s.fileId).lookup key)) := by
  have absent : ∀ s ∈ m.segments, ¬ (s.minKey ≤ key ∧ key ≤ s.maxKey) →
      (recordsOf tables s.fileId).lookup key = none := fun s ms out =>
    lookupNone.mpr (fun x mx eq => out (eq ▸ h.ranges s ms x mx))
  have mono : m.segments.Pairwise (fun a b => decide (b.minKey ≤ key) → decide (a.minKey ≤ key)) :=
    h.sorted.ascending.imp (fun lt => by simpa using fun le => (le_of_lt lt).trans le)
  obtain ⟨bound, below, above⟩ := searchList mono
  unfold Database.findSegment
  by_cases none : m.segments = []
  · simp [none]
  rw [if_neg none]
  dsimp only at bound below above ⊢
  set lo := BinarySearch.search (fun mid => (m.segments[mid]?).any (fun s => decide (s.minKey ≤ key)))
    m.segments.length 0 m.segments.length
  have late : ∀ s ∈ m.segments.drop lo, (recordsOf tables s.fileId).lookup key = .none := by
    intro s ms
    refine absent s (List.mem_of_mem_drop ms) (fun inside => ?_)
    simpa [inside.1] using above s ms
  by_cases zero : lo = 0
  · rw [if_pos zero, Option.bind_none]
    rw [zero, List.drop_zero] at late
    exact lookupLayersNone.mpr (fun l ml => by
      obtain ⟨s, ms, rfl⟩ := List.mem_map.mp ml
      exact late s ms)
  rw [if_neg zero]
  have lt : lo - 1 < m.segments.length := by omega
  have found := List.getElem?_eq_getElem lt
  set s := m.segments[lo - 1] with hs
  have member : s ∈ m.segments := List.getElem_mem lt
  have split : m.segments = m.segments.take (lo - 1) ++ s :: m.segments.drop lo := by
    conv => lhs; rw [← List.take_append_drop (lo - 1) m.segments, List.drop_eq_getElem_cons lt]
    rw [Nat.sub_add_cancel (by omega)]
  have le : s.minKey ≤ key := by
    simpa using below s (List.mem_take_iff_getElem.mpr ⟨lo - 1, by omega, rfl⟩)
  have early : ∀ t ∈ m.segments.take (lo - 1), (recordsOf tables t.fileId).lookup key = .none := by
    intro t mt
    refine absent t (List.mem_of_mem_take mt) (fun inside => ?_)
    have apart := h.sorted.disjoint
    rw [split] at apart
    have lt := (List.pairwise_append.mp apart).2.2 t mt s List.mem_cons_self
    exact absurd (lt.trans_le le) (not_lt.mpr inside.2)
  have here : lookupLayers (m.segments.map (fun s => recordsOf tables s.fileId)) key =
      (recordsOf tables s.fileId).lookup key := by
    conv => lhs; rw [split, List.map_append, List.map_cons]
    rw [lookupLayersAppend, lookupLayersCons]
    have front : lookupLayers ((m.segments.take (lo - 1)).map
        (fun s => recordsOf tables s.fileId)) key = .none :=
      lookupLayersNone.mpr (fun l ml => by
        obtain ⟨t, mt, rfl⟩ := List.mem_map.mp ml
        exact early t mt)
    have back : lookupLayers ((m.segments.drop lo).map
        (fun s => recordsOf tables s.fileId)) key = .none :=
      lookupLayersNone.mpr (fun l ml => by
        obtain ⟨t, mt, rfl⟩ := List.mem_map.mp ml
        exact late t mt)
    rw [front, back, Option.none_or, Option.or_none]
  rw [here, found, Option.any_some]
  by_cases inside : key ≤ s.maxKey
  · simp [inside, found]
  · simp [inside, absent s member (fun i => inside i.2)]

/-- The readers in the cache are those of the files on the medium, as far as they are there. -/
def Cached (db : Database) : Prop := ∀ id r, db.tableCache.lookup id = some r →
  id < db.manifest.nextTableId ∧ ∀ bytes, db.disk.tables.get id = some bytes →
    TableReader.openFile bytes = .ok r

/-- A read: nothing but the cache has changed. -/
def Reads (db db' : Database) : Prop :=
  db' = { db with tableCache := db'.tableCache } ∧ Cached db'

theorem Reads.refl {db : Database} (h : Cached db) : Reads db db := ⟨rfl, h⟩

theorem Reads.trans {a b c : Database} (ab : Reads a b) (bc : Reads b c) : Reads a c := by
  refine ⟨?_, bc.2⟩
  rw [bc.1, ab.1]

theorem Reads.disk {db db' : Database} (h : Reads db db') : db'.disk = db.disk := by rw [h.1]
theorem Reads.manifest {db db' : Database} (h : Reads db db') : db'.manifest = db.manifest := by
  rw [h.1]
theorem Reads.memtable {db db' : Database} (h : Reads db db') : db'.memtable = db.memtable := by
  rw [h.1]

namespace Database

theorem openTableSome {db : Database} {id : Nat} {bytes : Bytes}
    (there : db.disk.tables.get id = some bytes) :
    openTable id db = (lift (TableReader.openFile bytes) : DbM TableReader) db := by
  rw [openTable, bindGet, there]

theorem openTableNone {db : Database} {id : Nat} (gone : db.disk.tables.get id = none) :
    openTable id db = .error (.error .io) db := by
  rw [openTable, bindGet, gone]
  rfl

theorem openTableRun {db : Database} {id : Nat} (h : HasTable db.disk.tables id) :
    ∃ r, openTable id db = .ok r db ∧
      TableReader.openFile (tableFile (recordsOf db.disk.tables id)) = .ok r ∧
      Opened (recordsOf db.disk.tables id) r := by
  obtain ⟨r, run, opened⟩ := openTableAt h
  refine ⟨r, ?_, run, opened⟩
  rw [openTableSome h.file, run]
  rfl

theorem cachedReads {db : Database} {id : Nat} {r : TableReader} (cached : Cached db)
    (fresh : id < db.manifest.nextTableId) (h : HasTable db.disk.tables id)
    (run : TableReader.openFile (tableFile (recordsOf db.disk.tables id)) = .ok r) :
    Reads db { db with tableCache := (id, r) :: db.tableCache } := by
  refine ⟨rfl, fun i r' found => ?_⟩
  rw [lookupCons] at found
  split at found
  · rename_i same
    cases found
    refine ⟨same ▸ fresh, fun bytes there => ?_⟩
    subst same
    cases h.file.symm.trans there
    exact run
  · exact cached i r' found

theorem cachedOpened {db : Database} {id : Nat} {r : TableReader} (cached : Cached db)
    (h : HasTable db.disk.tables id) (found : db.tableCache.lookup id = some r) :
    Opened (recordsOf db.disk.tables id) r := by
  have run := (cached id r found).2 _ h.file
  obtain ⟨r', run', opened⟩ := openTableAt h
  cases run.symm.trans run'
  exact opened

theorem lookupTableExact {db : Database} {id : Nat} (cached : Cached db)
    (fresh : id < db.manifest.nextTableId) (h : HasTable db.disk.tables id) (key : Bytes) :
    Completes (lookupTable id key) db (fun found db' =>
      found = (recordsOf db.disk.tables id).lookup key ∧ Reads db db') := by
  unfold lookupTable
  refine endsBindGet ?_
  cases found : db.tableCache.lookup id with
  | some r =>
    have exact := Sstable.lookupExact (cachedOpened cached h found) h.ordered key
    simp only [exact]
    exact ⟨rfl, .refl cached⟩
  | none =>
    obtain ⟨r, run, opens, opened⟩ := openTableRun h
    have exact := Sstable.lookupExact opened h.ordered key
    refine endsBindOk run ?_
    simp only [exact]
    exact ⟨rfl, cachedReads cached fresh h opens⟩

theorem lookupFirstExact {db : Database} {ids : List Nat} (cached : Cached db)
    (have_ : ∀ id ∈ ids, id < db.manifest.nextTableId ∧ HasTable db.disk.tables id) (key : Bytes) :
    Completes (lookupFirst key ids) db (fun found db' =>
      found = lookupLayers (ids.map (recordsOf db.disk.tables)) key ∧ Reads db db') := by
  induction ids generalizing db with
  | nil => exact ⟨rfl, .refl cached⟩
  | cons id ids ih =>
    obtain ⟨fresh, table⟩ := have_ id List.mem_cons_self
    unfold lookupFirst
    refine (lookupTableExact cached fresh table key).bind ?_
    rintro _ db₁ ⟨rfl, reads⟩
    rw [List.map_cons, lookupLayersCons]
    cases (recordsOf db.disk.tables id).lookup key with
    | some e => exact ⟨rfl, reads⟩
    | none =>
      have rest := ih reads.2 (by
        rw [reads.manifest, reads.disk]
        exact fun i mi => have_ i (List.mem_cons_of_mem _ mi))
      refine rest.imp ?_
      rintro _ db₂ ⟨rfl, reads₂⟩
      exact ⟨by rw [reads.disk, Option.none_or], reads.trans reads₂⟩

theorem findSegmentInside {segs : List SegmentMeta} {key : Bytes} {i : Nat}
    (h : findSegment segs key = some i) : (segs[i]?).isSome := by
  unfold findSegment at h
  split at h <;> try contradiction
  dsimp only at h
  split at h <;> try contradiction
  split at h <;> try contradiction
  rename_i inside
  cases h
  by_contra none
  rw [Option.not_isSome_iff_eq_none] at none
  rw [none] at inside
  cases inside

theorem getExact {db : Database} (cached : Cached db) (h : Readable db.disk.tables db.manifest)
    (key : Bytes) : Completes (get key) db (fun found db' =>
      found = db.memtable.over (tablesView db.disk.tables db.manifest) key ∧ Reads db db') := by
  unfold Database.get
  refine endsBindGet ?_
  unfold MemTable.over
  cases db.memtable.get key with
  | some e => exact ⟨rfl, .refl cached⟩
  | none =>
    have inL0 : ∀ id ∈ db.manifest.level0.reverse,
        id < db.manifest.nextTableId ∧ HasTable db.disk.tables id := fun id mem =>
      h.level0 id (List.mem_reverse.mp mem)
    refine (lookupFirstExact cached inL0 key).bind ?_
    rintro _ db₁ ⟨rfl, reads⟩
    simp only [tablesView, layers, lookupLayersAppend, Option.elim_none]
    cases lookupLayers (db.manifest.level0.reverse.map (recordsOf db.disk.tables)) key with
    | some e => exact ⟨by cases e <;> rfl, reads⟩
    | none =>
      rw [lookupSegments h, Option.none_or]
      cases found : findSegment db.manifest.segments key with
      | none => exact ⟨rfl, reads⟩
      | some i =>
        cases at_i : db.manifest.segments[i]? with
        | none =>
          have inside := findSegmentInside found
          rw [at_i] at inside
          cases inside
        | some s =>
          have member := List.mem_of_getElem? at_i
          simp only [at_i, Option.bind_some]
          have fresh : s.fileId < db₁.manifest.nextTableId := by
            rw [reads.manifest]
            exact (h.level1 s member).1
          have table : HasTable db₁.disk.tables s.fileId := by
            rw [reads.disk]
            exact (h.level1 s member).2
          refine (lookupTableExact reads.2 fresh table key).bind ?_
          rintro _ db₂ ⟨rfl, reads₂⟩
          simp only [reads.disk]
          cases (recordsOf db.disk.tables s.fileId).lookup key with
          | none => exact ⟨rfl, reads.trans reads₂⟩
          | some e => exact ⟨by cases e <;> rfl, reads.trans reads₂⟩

theorem cachedReaderExact {db : Database} {id : Nat} (cached : Cached db)
    (fresh : id < db.manifest.nextTableId) (h : HasTable db.disk.tables id) :
    Completes (cachedReader id) db (fun r db' =>
      Opened (recordsOf db.disk.tables id) r ∧ Reads db db') := by
  unfold cachedReader
  refine endsBindGet ?_
  cases found : db.tableCache.lookup id with
  | some r => exact ⟨cachedOpened cached h found, .refl cached⟩
  | none =>
    obtain ⟨r, run, opens, opened⟩ := openTableRun h
    refine endsBindOk run ?_
    exact ⟨opened, cachedReads cached fresh h opens⟩

theorem tableSourcesExact {db : Database} {ids : List Nat} (cached : Cached db)
    (present : ∀ id ∈ ids, id < db.manifest.nextTableId ∧ HasTable db.disk.tables id)
    (start stop : Option Bytes) : Completes (tableSources start stop ids) db (fun sources db' =>
      List.Forall₂ Holds (ids.map (fun id => rangeOf start stop (recordsOf db.disk.tables id)))
        sources ∧ Reads db db') := by
  induction ids generalizing db with
  | nil => exact ⟨.nil, .refl cached⟩
  | cons id ids ih =>
    obtain ⟨fresh, table⟩ := present id List.mem_cons_self
    unfold tableSources
    refine (cachedReaderExact cached fresh table).bind ?_
    rintro r db₁ ⟨opened, reads⟩
    have rest := ih reads.2 (by
      rw [reads.manifest, reads.disk]
      exact fun i mi => present i (List.mem_cons_of_mem _ mi))
    refine rest.bind ?_
    rintro sources db₂ ⟨holds, reads₂⟩
    rw [reads.disk] at holds
    exact ⟨.cons (fromReaderHolds opened table.ordered start stop) holds, reads.trans reads₂⟩

/-- The memtable and the tables as one list, a tombstone where a key was deleted. -/
def entries (db : Database) : List Rec :=
  flatten (db.memtable.iter :: layers db.disk.tables db.manifest)

theorem Reads.entries {db db' : Database} (h : Reads db db') : entries db' = entries db := by
  rw [Database.entries, h.disk, h.manifest, h.memtable]
  rfl

theorem scanStreamExact {db : Database} (cached : Cached db)
    (h : Readable db.disk.tables db.manifest) (start stop : Option Bytes) :
    Completes (scanStream start stop) db (fun merge db' =>
      Streams (rangeOf start stop (entries db)) merge ∧ Reads db db') := by
  unfold scanStream
  refine endsBindGet ?_
  have inL0 : ∀ id ∈ db.manifest.level0.reverse,
      id < db.manifest.nextTableId ∧ HasTable db.disk.tables id := fun id mem =>
    h.level0 id (List.mem_reverse.mp mem)
  have inL1 : ∀ id ∈ db.manifest.segments.map SegmentMeta.fileId,
      id < db.manifest.nextTableId ∧ HasTable db.disk.tables id := fun id mem => by
    obtain ⟨s, ms, rfl⟩ := List.mem_map.mp mem
    exact h.level1 s ms
  refine (tableSourcesExact cached inL0 start stop).bind ?_
  rintro s₀ db₁ ⟨holds₀, reads₁⟩
  have inL1' : ∀ id ∈ db.manifest.segments.map SegmentMeta.fileId,
      id < db₁.manifest.nextTableId ∧ HasTable db₁.disk.tables id := by
    rw [reads₁.manifest, reads₁.disk]
    exact inL1
  refine (tableSourcesExact reads₁.2 inL1' start stop).bind ?_
  rintro s₁ db₂ ⟨holds₁, reads₂⟩
  rw [reads₁.disk] at holds₁
  refine ⟨?_, reads₁.trans reads₂⟩
  have all : List.Forall₂ Holds
      ((db.memtable.iter :: layers db.disk.tables db.manifest).map (rangeOf start stop))
      (Source.vec (memtableSource db.memtable start stop) :: (s₀ ++ s₁)) := by
    rw [List.map_cons, layers, List.map_append, List.map_map, List.map_map]
    rw [List.map_map] at holds₁
    exact .cons (memtableHolds db.memtable start stop) (List.rel_append holds₀ holds₁)
  refine ⟨_, _, rfl, all, ?_, flattenRange start stop _⟩
  intro l ranged
  obtain ⟨l', mem, rfl⟩ := List.mem_map.mp ranged
  refine rangeOrdered ?_
  rcases List.mem_cons.mp mem with rfl | mem
  · exact db.memtable.iterOrdered
  · exact h.layersOrdered l' mem

theorem scanAllExact {db : Database} (cached : Cached db)
    (h : Readable db.disk.tables db.manifest) (start stop : Option Bytes) :
    Completes (scanAll start stop) db (fun l db' =>
      l = rangeOf start stop (entries db) ∧ Reads db db') := by
  refine (scanStreamExact cached h start stop).bind ?_
  rintro merge db' ⟨streams, reads⟩
  rw [streams.collect]
  exact ⟨rfl, reads⟩

theorem lookupEntries (db : Database) (key : Bytes) : ((entries db).lookup key).join =
    db.memtable.over (tablesView db.disk.tables db.manifest) key := by
  rw [entries, lookupFlatten, lookupLayersCons, MemTable.getIter]
  unfold MemTable.over tablesView
  cases db.memtable.get key <;> rfl

end Database
end MyLsmDb
