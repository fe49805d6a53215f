import MyLsmDb.Lifetime

/-! What is read depends on the tables the manifest refers to only: two states that agree on
them show the same, and so do the stores that are opened on two such media. -/
namespace MyLsmDb
open ByteOrder (Bytes)
open Effect
open OrderedEntries
open Wal (Crc32)

section Twins

/-- Two states that differ in faults to come, in table files and in the cache, but not for the
tables `ids`. -/
structure Alike (ids : List Nat) (db db' : Database) : Prop where
  same : db' = { db with
    faults := db'.faults, tableCache := db'.tableCache
    disk := { db.disk with tables := db'.disk.tables } }
  sub : db.manifest.allIds ⊆ ids
  tables : ∀ id ∈ ids, db'.disk.tables.get id = db.disk.tables.get id
  cached : ∀ id ∈ ids, db'.tableCache.lookup id = db.tableCache.lookup id

def twinResults {α : Type} (ids : List Nat) : EStateM.Result (Stop Error) Database α →
    EStateM.Result (Stop Error) Database α → Prop
  | .ok a s, .ok b t => b = a ∧ Alike ids s t
  | .error e s, .error e' t => e' = e ∧ Alike ids s t
  | _, _ => False

def Twins {α : Type} (ids : List Nat) (x y : DbM α) (db db' : Database) : Prop :=
  twinResults ids (x db) (y db')

variable {α β : Type} {ids : List Nat} {db db' : Database}

theorem Twins.bind {x y : DbM α} {f g : α → DbM β} (h : Twins ids x y db db')
    (next : ∀ a s t, Alike ids s t → Twins ids (f a) (g a) s t) :
    Twins ids (x >>= f) (y >>= g) db db' := by
  change twinResults ids (EStateM.bind x f db) (EStateM.bind y g db')
  unfold Twins at h
  unfold EStateM.bind
  cases first : x db <;> cases second : y db' <;> simp only [first, second] at h ⊢
  · obtain ⟨rfl, alike⟩ := h
    exact next _ _ _ alike
  · exact h.elim
  · exact h.elim
  · exact h

theorem twinsGet {f g : Database → DbM β} (h : Twins ids (f db) (g db') db db') :
    Twins ids (get >>= f) (get >>= g) db db' := h

theorem twinsOk {f g : α → DbM β} (a : α) (h : Twins ids (f a) (g a) db db') :
    Twins ids (lift (.ok a) >>= f) (lift (.ok a) >>= g) db db' := h

theorem twinsPure (a : α) (h : Alike ids db db') : Twins ids (pure a) (pure a) db db' := ⟨rfl, h⟩

theorem twinsThrow (e : Stop Error) (h : Alike ids db db') :
    Twins ids (throw e : DbM α) (throw e) db db' := ⟨rfl, h⟩

theorem twinsLift (r : Fallible α) (h : Alike ids db db') :
    Twins ids (lift r) (lift r) db db' := by
  cases r with
  | ok a => exact ⟨rfl, h⟩
  | error e => exact ⟨rfl, h⟩

theorem twinsModify {f g : Database → Database} (h : Alike ids (f db) (g db')) :
    Twins ids (modify f : DbM PUnit) (modify g) db db' := ⟨rfl, h⟩

theorem twinsOpen {id : Nat} (mem : id ∈ ids) (h : Alike ids db db') :
    Twins ids (Database.openTable id) (Database.openTable id) db db' := by
  refine twinsGet ?_
  rw [h.tables id mem]
  cases db.disk.tables.get id with
  | none => exact twinsThrow _ h
  | some bytes => exact twinsLift _ h

theorem Alike.cache (h : Alike ids db db') (id : Nat) (r : Sstable.TableReader) :
    Twins ids (Database.cacheReader id r) (Database.cacheReader id r) db db' := by
  refine ⟨rfl, ?_, h.sub, h.tables, ?_⟩
  · rw [h.same]
  · intro i mem
    simp only [lookupCons, h.cached i mem]

theorem twinsLookup {id : Nat} (key : Bytes) (mem : id ∈ ids) (h : Alike ids db db') :
    Twins ids (Database.lookupTable id key) (Database.lookupTable id key) db db' := by
  refine twinsGet ?_
  rw [h.cached id mem]
  cases db.tableCache.lookup id with
  | some r => exact twinsLift _ h
  | none =>
    refine (twinsOpen mem h).bind (fun r s t alike => ?_)
    refine (twinsLift _ alike).bind (fun found s t alike => ?_)
    exact (alike.cache id r).bind (fun _ s t alike => twinsPure _ alike)

theorem twinsFirst {some_ : List Nat} (key : Bytes) (sub : some_ ⊆ ids) (h : Alike ids db db') :
    Twins ids (Database.lookupFirst key some_) (Database.lookupFirst key some_) db db' := by
  induction some_ generalizing db db' with
  | nil => exact twinsPure _ h
  | cons id rest ih =>
    refine (twinsLookup key (sub List.mem_cons_self) h).bind (fun found s t alike => ?_)
    cases found with
    | some entry => exact twinsPure _ alike
    | none => exact ih (fun i mem => sub (List.mem_cons_of_mem _ mem)) alike

theorem levelIds (m : Manifest) : m.levels.headD [] ⊆ m.allIds := by
  intro id mem
  cases levels : m.levels with
  | nil =>
    rw [levels] at mem
    cases mem
  | cons first rest =>
    rw [levels] at mem
    exact List.mem_append_left _ (by simp [levels, show id ∈ first from mem])

theorem twinsRead (key : Bytes) (h : Alike ids db db') :
    Twins ids (Database.get key) (Database.get key) db db' := by
  have manifest : db'.manifest = db.manifest := by rw [h.same]
  have memtable : db'.memtable = db.memtable := by rw [h.same]
  refine twinsGet ?_
  rw [manifest, memtable]
  cases db.memtable.get key with
  | some entry => exact twinsPure _ h
  | none =>
    have level0 : (db.manifest.levels.headD []).reverse ⊆ ids := fun id mem =>
      h.sub (levelIds _ (List.mem_reverse.mp mem))
    refine (twinsFirst key level0 h).bind (fun found s t alike => ?_)
    cases found with
    | some entry => exact twinsPure _ alike
    | none =>
      dsimp only
      cases Database.findSegment db.manifest.segments key with
      | none => exact twinsPure _ alike
      | some i =>
        dsimp only
        cases at_ : db.manifest.segments[i]? with
        | none => exact twinsThrow _ alike
        | some seg =>
          have mem : seg.fileId ∈ ids :=
            h.sub (List.mem_append_right _ (List.mem_map_of_mem (List.mem_of_getElem? at_)))
          refine (twinsLookup key mem alike).bind (fun found s t alike => ?_)
          cases found <;> exact twinsPure _ alike

theorem twinsSources {some_ : List Nat} (start stop : Option Bytes) (sub : some_ ⊆ ids)
    (h : Alike ids db db') : Twins ids (Database.tableSources start stop some_)
      (Database.tableSources start stop some_) db db' := by
  induction some_ generalizing db db' with
  | nil => exact twinsPure _ h
  | cons id rest ih =>
    have reader : Twins ids (Database.cachedReader id) (Database.cachedReader id) db db' := by
      refine twinsGet ?_
      rw [h.cached id (sub List.mem_cons_self)]
      cases db.tableCache.lookup id with
      | some r => exact twinsPure _ h
      | none =>
        refine (twinsOpen (sub List.mem_cons_self) h).bind (fun r s t alike => ?_)
        exact (alike.cache id r).bind (fun _ s t alike => twinsPure _ alike)
    refine reader.bind (fun r s t alike => ?_)
    refine (ih (fun i mem => sub (List.mem_cons_of_mem _ mem)) alike).bind (fun more s t alike => ?_)
    exact twinsPure _ alike

theorem twinsScan (start stop : Option Bytes) (h : Alike ids db db') :
    Twins ids (Database.scan start stop) (Database.scan start stop) db db' := by
  have manifest : db'.manifest = db.manifest := by rw [h.same]
  have memtable : db'.memtable = db.memtable := by rw [h.same]
  have level0 : (db.manifest.levels.headD []).reverse ⊆ ids := fun id mem =>
    h.sub (levelIds _ (List.mem_reverse.mp mem))
  have level1 : db.manifest.segments.map SegmentMeta.fileId ⊆ ids := fun id mem =>
    h.sub (List.mem_append_right _ mem)
  have stream : Twins ids (Database.scanStream start stop)
      (Database.scanStream start stop) db db' := by
    refine twinsGet ?_
    rw [manifest, memtable]
    refine (twinsSources start stop level0 h).bind (fun l0 s t alike => ?_)
    refine (twinsSources start stop level1 alike).bind (fun l1 s t alike => ?_)
    exact twinsPure _ alike
  refine Twins.bind (stream.bind (fun merge s t alike => twinsLift _ alike))
    (fun l s t alike => twinsPure _ alike)

theorem Twins.ends {x : DbM α} {post post' : α → Database → Prop} (h : Twins ids x x db db')
    (done : Completes x db' post) (back : ∀ a s t, Alike ids s t → post a t → post' a s) :
    Completes x db post' := by
  unfold Twins at h
  unfold Completes Ends at *
  cases first : x db <;> cases second : x db' <;> simp only [first, second] at h done ⊢
  · obtain ⟨rfl, alike⟩ := h
    exact back _ _ _ alike done
  · exact h.elim

theorem Alike.symm (h : Alike ids db db') : Alike ids db' db := by
  refine ⟨?_, ?_, fun id mem => (h.tables id mem).symm, fun id mem => (h.cached id mem).symm⟩
  · rw [h.same]
  · rw [h.same]
    exact h.sub

theorem Alike.shows {v : View} (h : Alike ids db db') (shows : Shows db' v) : Shows db v :=
  ⟨fun key => (twinsRead key h).ends (shows.get key) (fun _ _ _ _ => id),
    fun start stop => (twinsScan start stop h).ends (shows.scan start stop) (fun _ _ _ _ => id)⟩

theorem Twins.bindWith {x : DbM α} {f g : α → DbM β} {F : α → Database → Prop}
    (h : Twins ids x x db db') (facts : Ends x db F (fun _ _ => True))
    (next : ∀ a s t, F a s → Alike ids s t → Twins ids (f a) (g a) s t) :
    Twins ids (x >>= f) (x >>= g) db db' := by
  change twinResults ids (EStateM.bind x f db) (EStateM.bind x g db')
  unfold Twins at h
  unfold Ends at facts
  unfold EStateM.bind
  cases first : x db <;> cases second : x db' <;> simp only [first, second] at h facts ⊢
  · obtain ⟨rfl, alike⟩ := h
    exact next _ _ _ facts alike
  · exact h.elim
  · exact h.elim
  · exact h

/-- A write that leaves the tables alone. -/
def OffTables (f : Disk → Disk) : Prop := ∀ d t, f { d with tables := t } = { f d with tables := t }

theorem twinsDisk {f : Disk → Disk} (off : OffTables f) (h : Alike ids db db') :
    Twins ids (Database.modifyDisk f) (Database.modifyDisk f) db db' := by
  have tables : ∀ d, (f d).tables = d.tables := fun d => by
    have same := congrArg Disk.tables (off d d.tables)
    exact same
  refine twinsModify ⟨?_, h.sub, ?_, h.cached⟩
  · rw [h.same]
    simp only [off _ db'.disk.tables]
  · simp only [tables]
    exact h.tables

theorem twinsEffect {fully : Disk → Disk} {onFail onCrash : Nat → Disk → Disk}
    (off : OffTables fully) (calm : db.faults = [] ∧ db'.faults = []) (h : Alike ids db db') :
    Twins ids (Database.effect fully onFail onCrash) (Database.effect fully onFail onCrash) db db' := by
  have next : ∀ db : Database, db.faults = [] →
      Database.effect fully onFail onCrash db = Database.modifyDisk fully db := by
    intro db none
    have pass : Database.nextFault db = .ok .pass db := by rw [Database.nextFaultRun, none]
    change EStateM.bind Database.nextFault _ db = _
    unfold EStateM.bind
    rw [pass]
  unfold Twins
  rw [next db calm.1, next db' calm.2]
  exact twinsDisk off h

theorem twinsVersion (calm : db.faults = [] ∧ db'.faults = []) (h : Alike ids db db') :
    Twins ids Database.openVersion Database.openVersion db db' := by
  have version : db'.disk.version = db.disk.version := by rw [h.same]
  have read : Database.readVersion db'.disk = Database.readVersion db.disk := by
    rw [Database.readVersion, version, Database.readVersion]
  have none : db'.disk.manifest = db.disk.manifest := by rw [h.same]
  refine twinsGet ?_
  dsimp only
  rw [read, none]
  cases Database.readVersion db.disk with
  | error e => exact ⟨rfl, h⟩
  | ok found =>
    refine twinsOk found ?_
    cases found with
    | some v => exact (twinsLift _ h).bind (fun _ s t alike => twinsPure _ alike)
    | none =>
      dsimp only
      split
      · exact (twinsEffect (fun _ _ => rfl) calm h).bind (fun _ s t alike => twinsPure _ alike)
      · exact twinsPure _ h

theorem twinsLegacy {some_ : List Nat} (sub : some_ ⊆ ids) (h : Alike ids db db') :
    Twins ids (Database.legacySegments some_) (Database.legacySegments some_) db db' := by
  induction some_ generalizing db db' with
  | nil => exact twinsPure _ h
  | cons id rest ih =>
    refine (twinsOpen (sub List.mem_cons_self) h).bind (fun r s t alike => ?_)
    cases r.keyBounds with
    | none => exact twinsThrow _ alike
    | some bounds =>
      refine (ih (fun i mem => sub (List.mem_cons_of_mem _ mem)) alike).bind (fun more s t alike => ?_)
      exact twinsPure _ alike

theorem openTableKeeps (id : Nat) (db : Database) :
    Ends (Database.openTable id) db (fun _ s => s = db) (fun _ _ => True) := by
  refine endsBindGet ?_
  cases db.disk.tables.get id with
  | none => exact trivial
  | some bytes => exact endsLift _ (fun _ _ => rfl) (fun _ _ => trivial)

theorem legacyIds (some_ : List Nat) (db : Database) : Ends (Database.legacySegments some_) db
    (fun segs s => segs.map SegmentMeta.fileId = some_ ∧ s = db) (fun _ _ => True) := by
  induction some_ with
  | nil => exact ⟨rfl, rfl⟩
  | cons id rest ih =>
    refine (openTableKeeps id db).bind (fun r s same => ?_)
    subst same
    cases r.keyBounds with
    | none => exact trivial
    | some bounds => exact ih.bind (fun segs s ids => ⟨congrArg (id :: ·) ids.1, ids.2⟩)

theorem twinsConvert (h : Alike ids db db') :
    Twins ids Database.convertLegacyL1 Database.convertLegacyL1 db db' := by
  have manifest : db'.manifest = db.manifest := by rw [h.same]
  refine twinsGet ?_
  dsimp only
  rw [manifest]
  split
  · exact twinsPure _ h
  · split
    · exact twinsPure _ h
    · exact twinsPure _ h
    · rename_i legacy _ at_
      have sub : legacy ⊆ ids := fun id mem =>
        h.sub (List.mem_append_left _ (List.mem_flatten.mpr ⟨legacy, List.mem_of_getElem? at_, mem⟩))
      refine Twins.bindWith (twinsLegacy sub h) (legacyIds legacy db) (fun segs s t facts alike => ?_)
      obtain ⟨named, rfl⟩ := facts
      have perm : ((Database.sortSegments segs).map SegmentMeta.fileId).Perm legacy :=
        named ▸ (sortSegmentsPerm segs).map SegmentMeta.fileId
      refine Twins.bind (twinsModify ⟨?_, ?_, alike.tables, alike.cached⟩) (fun _ s t alike => ?_)
      · rw [alike.same]
      · intro id mem
        rcases List.mem_append.mp mem with level | segment
        · obtain ⟨l, there, inside⟩ := List.mem_flatten.mp level
          rcases List.mem_or_eq_of_mem_set there with old | rfl
          · exact h.sub (List.mem_append_left _ (List.mem_flatten.mpr ⟨l, old, inside⟩))
          · cases inside
        · exact sub (perm.mem_iff.mp segment)
      · refine twinsGet ?_
        have manifest : t.manifest = s.manifest := by rw [alike.same]
        rw [manifest]
        exact twinsLift _ alike

theorem twinsSegments {segs : List SegmentMeta} (sub : segs.map SegmentMeta.fileId ⊆ ids)
    (h : Alike ids db db') : Twins ids (Database.validateSegments segs)
      (Database.validateSegments segs) db db' := by
  induction segs generalizing db db' with
  | nil => exact twinsPure _ h
  | cons seg rest ih =>
    have mem : seg.fileId ∈ ids := sub List.mem_cons_self
    unfold Database.validateSegments
    refine twinsGet ?_
    rw [h.tables _ mem]
    split
    · exact ⟨rfl, h⟩
    · refine (twinsOpen mem h).bind (fun r s t alike => ?_)
      cases r.keyBounds with
      | none => exact twinsThrow _ alike
      | some bounds =>
        dsimp only
        split
        · exact ⟨rfl, alike⟩
        · exact ih (fun id mem => sub (List.mem_cons_of_mem _ mem)) alike

theorem twinsValidate (h : Alike ids db db') :
    Twins ids Database.validateOpenState Database.validateOpenState db db' := by
  have manifest : db'.manifest = db.manifest := by rw [h.same]
  have there : db'.manifest.levels.flatten.any (fun id => (db'.disk.tables.get id).isNone) =
      db.manifest.levels.flatten.any (fun id => (db.disk.tables.get id).isNone) := by
    have each : ∀ l : List Nat, l ⊆ ids → l.any (fun id => (db'.disk.tables.get id).isNone) =
        l.any (fun id => (db.disk.tables.get id).isNone) := by
      intro l
      induction l with
      | nil => exact fun _ => rfl
      | cons id l ih =>
        intro sub
        rw [List.any_cons, List.any_cons, h.tables id (sub List.mem_cons_self),
          ih (fun i mem => sub (List.mem_cons_of_mem _ mem))]
    rw [manifest]
    exact each _ (fun id mem => h.sub (List.mem_append_left _ mem))
  refine twinsGet ?_
  rw [there, manifest]
  have segments : db.manifest.segments.map SegmentMeta.fileId ⊆ ids := fun id mem =>
    h.sub (List.mem_append_right _ mem)
  split
  · exact ⟨rfl, h⟩
  · exact twinsSegments segments h

theorem twinsPut (records : List Rec) (h : Alike ids db db') :
    Twins ids (records.forM (fun r => Database.memPut r.1 r.2))
      (records.forM (fun r => Database.memPut r.1 r.2)) db db' := by
  induction records generalizing db db' with
  | nil => exact twinsPure _ h
  | cons r records ih =>
    have put : Alike ids { db with memtable := db.memtable.put r.1 r.2 }
        { db' with memtable := db'.memtable.put r.1 r.2 } := by
      refine ⟨?_, h.sub, h.tables, h.cached⟩
      rw [h.same]
    exact Twins.bind (twinsModify put) (fun _ s t alike => ih alike)

theorem versionKeeps (db : Database) : Ends Database.openVersion db
    (fun _ s => s.disk.manifest = db.disk.manifest) (fun _ _ => True) := by
  refine endsBindGet ?_
  dsimp only
  cases Database.readVersion db.disk with
  | error e => exact trivial
  | ok found =>
    refine endsBindOk rfl ?_
    cases found with
    | some v =>
      change Ends (lift (Database.checkCompatible v) >>= fun _ => pure v) db _ _
      cases Database.checkCompatible v with
      | error e => exact trivial
      | ok u => exact rfl
    | none =>
      refine endsIte (fun _ => ?_) (fun _ => rfl)
      refine Ends.bind ((Database.effectEnds _ _ _ db).mono (fun _ _ h => h)
        (fun _ _ _ => trivial)) ?_
      intro _ s done
      obtain ⟨fs, -, rfl⟩ := done
      exact rfl

theorem levelZero (m : Manifest) : (Database.updateLevel0 id m).allIds = m.allIds := by
  unfold Database.updateLevel0
  split
  · rename_i none
    simp [Manifest.allIds, none]
  · rename_i first rest levels
    simp [Manifest.allIds, levels]

variable [Crc32]

theorem twinsOpenWith (calm : db.faults = [] ∧ db'.faults = []) (h : Alike ids db db')
    (sub : ∀ m, Manifest.load db.disk.manifest = .ok m → m.allIds ⊆ ids) :
    Twins ids Database.openWith Database.openWith db db' := by
  refine Twins.bindWith (twinsVersion calm h) (versionKeeps db) ?_
  intro version s t saved alike
  have manifest : t.disk.manifest = s.disk.manifest := by rw [alike.same]
  refine twinsGet ?_
  rw [manifest, saved]
  cases load : Manifest.load db.disk.manifest with
  | error e => exact ⟨rfl, alike⟩
  | ok m =>
    have loaded : Alike ids
        { s with manifest := Database.updateLevel0 id m, formatVersion := version }
        { t with manifest := Database.updateLevel0 id m, formatVersion := version } := by
      refine ⟨?_, ?_, alike.tables, alike.cached⟩
      · rw [alike.same]
      · rw [levelZero]
        exact sub m load
    refine twinsOk m (Twins.bind (twinsModify loaded) (fun _ s t alike => ?_))
    refine (twinsConvert alike).bind (fun _ s t alike => ?_)
    refine (twinsValidate alike).bind (fun _ s t alike => twinsGet ?_)
    have wal : t.disk.wal = s.disk.wal := by rw [alike.same]
    dsimp only
    rw [wal]
    refine (twinsPut _ alike).bind (fun _ s t alike => ?_)
    refine twinsModify ⟨?_, alike.sub, alike.tables, alike.cached⟩
    rw [alike.same]

theorem Reopens.alike {d d' : Disk} {v : View} (h : Reopens d v)
    (same : d = { d' with tables := d.tables })
    (tables : ∀ id ∈ ids, d.tables.get id = d'.tables.get id)
    (sub : ∀ m, Manifest.load d'.manifest = .ok m → m.allIds ⊆ ids) : Reopens d' v := by
  intro opts
  have alike : Alike ids (Database.boot d' [] opts) (Database.boot d [] opts) := by
    refine ⟨?_, fun id mem => (nomatch mem), tables, fun _ _ => rfl⟩
    rw [same]
    rfl
  exact (twinsOpenWith ⟨rfl, rfl⟩ alike sub).ends (h opts) (fun _ _ _ alike => alike.shows)

end Twins
end MyLsmDb
