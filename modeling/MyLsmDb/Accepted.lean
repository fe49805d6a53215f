import MyLsmDb.Lifetime

/-! Opening any directory: which manifests and tables are accepted, and what the store that
was opened has of them. -/
namespace MyLsmDb
open ByteOrder (Bytes)
open Effect
open OrderedEntries
open Text
open Wal (Crc32)

namespace Manifest

theorem windowsOk {l : List SegmentMeta} (run : validateWindows l = .ok ())
    (ranges : ∀ s ∈ l, s.minKey ≤ s.maxKey) : Sorted l := by
  induction l with
  | nil => exact ⟨.nil, .nil, ranges⟩
  | cons a l ih =>
    cases l with
    | nil => exact ⟨List.pairwise_singleton _ _, List.pairwise_singleton _ _, ranges⟩
    | cons b l =>
      rw [validateWindows] at run
      split at run
      · cases run
      split at run
      · cases run
      rename_i ascends apart
      have rest := ih run (fun s m => ranges s (List.mem_cons_of_mem _ m))
      have least : ∀ s ∈ b :: l, b.minKey ≤ s.minKey := by
        intro s m
        rcases List.mem_cons.mp m with rfl | m
        · exact le_rfl
        · exact le_of_lt ((List.pairwise_cons.mp rest.ascending).1 s m)
      refine ⟨List.pairwise_cons.mpr ⟨fun s m => ?_, rest.ascending⟩,
        List.pairwise_cons.mpr ⟨fun s m => ?_, rest.disjoint⟩, ranges⟩
      · exact (not_le.mp ascends).trans_le (least s m)
      · exact (not_le.mp apart).trans_le (least s m)

theorem validateOk {m : Manifest} (run : m.validate = .ok ()) :
    Sorted m.segments ∧ m.allIds.Nodup := by
  obtain ⟨_, windows, run⟩ := bindOk run
  by_cases crossed : m.segments.any (fun s => decide (s.maxKey < s.minKey)) = true
  · rw [if_pos crossed] at run
    cases run
  · rw [if_neg crossed] at run
    have ranges : ∀ s ∈ m.segments, s.minKey ≤ s.maxKey := by
      intro s ms
      by_contra lt
      exact crossed (List.any_eq_true.mpr ⟨s, ms, by simpa using lt⟩)
    by_cases unique : m.allIds.Nodup
    · exact ⟨windowsOk windows ranges, unique⟩
    · change (if ¬ m.allIds.Nodup then _ else _) = _ at run
      rw [if_pos unique] at run
      cases run

theorem loadValid {text : Option Chars} {m : Manifest} (run : load text = .ok m) :
    m.validate = .ok () := by
  cases text with
  | none =>
    cases run
    rfl
  | some text =>
    obtain ⟨m', -, run⟩ := bindOk run
    obtain ⟨⟨⟩, valid, run⟩ := bindOk run
    cases run
    exact valid

end Manifest

/-- Every one of the table files, where it is there, is one that the store could have written. -/
def WellFormed (tables : OrderedMap Nat Bytes) (ids : List Nat) : Prop :=
  ∀ id ∈ ids, tables.get id ≠ none → HasTable tables id

theorem WellFormed.mono {tables : OrderedMap Nat Bytes} {ids ids' : List Nat}
    (h : WellFormed tables ids') (sub : ids ⊆ ids') : WellFormed tables ids :=
  fun id mem => h id (sub mem)

def segOf (tables : OrderedMap Nat Bytes) (id : Nat) : SegmentMeta :=
  ⟨id, (recordsOf tables id).head?.elim [] Prod.fst, (recordsOf tables id).getLast?.elim [] Prod.fst,
    (recordsOf tables id).length⟩

def legacyOf (m : Manifest) : List Nat :=
  if m.segments = [] then (m.levels[1]?).getD [] else []

def converted (tables : OrderedMap Nat Bytes) (m : Manifest) : Manifest :=
  if legacyOf m = [] then m
  else { m with
    segments := Database.sortSegments ((legacyOf m).map (segOf tables)), levels := m.levels.set 1 [] }

section Consulted

/-- The tables that reads look at: level 0, the segments, and the tables of level 1 that
become segments. -/
def consulted (m : Manifest) : List Nat :=
  m.level0 ++ (m.segments.map SegmentMeta.fileId ++ legacyOf m)

theorem levelZeroMem (m : Manifest) : m.level0 ⊆ m.levels.flatten := by
  intro id mem
  unfold Manifest.level0 at mem
  cases levels : m.levels with
  | nil =>
    rw [levels] at mem
    cases mem
  | cons first rest =>
    rw [levels] at mem
    exact List.mem_flatten.mpr ⟨first, List.mem_cons_self, mem⟩

theorem legacyMem (m : Manifest) : legacyOf m ⊆ m.levels.flatten := by
  intro id mem
  unfold legacyOf at mem
  split at mem
  · cases found : m.levels[1]? with
    | none =>
      rw [found] at mem
      cases mem
    | some l =>
      rw [found] at mem
      exact List.mem_flatten.mpr ⟨l, List.mem_of_getElem? found, mem⟩
  · cases mem

theorem consultedMem (m : Manifest) : consulted m ⊆ m.allIds := by
  intro id mem
  rcases List.mem_append.mp mem with mem | mem
  · exact List.mem_append_left _ (levelZeroMem m mem)
  · rcases List.mem_append.mp mem with mem | mem
    · exact List.mem_append_right _ mem
    · exact List.mem_append_left _ (legacyMem m mem)

theorem legacyUpdate (m : Manifest) : legacyOf (Database.updateLevel0 id m) = legacyOf m := by
  unfold Database.updateLevel0 legacyOf
  split
  · rename_i none
    rw [none]
    rfl
  · rename_i first rest levels
    rw [levels]
    rfl

variable (tables : OrderedMap Nat Bytes) (m : Manifest)

theorem convertedNext :
    (converted tables (Database.updateLevel0 id m)).nextTableId = m.nextTableId := by
  unfold converted Database.updateLevel0
  split <;> split <;> rfl

theorem convertedLevel0 : (converted tables (Database.updateLevel0 id m)).level0 = m.level0 := by
  have same : (Database.updateLevel0 id m).level0 = m.level0 := by
    unfold Database.updateLevel0 Manifest.level0
    split
    · rename_i none
      rw [none]
      rfl
    · rename_i first rest levels
      rw [levels]
      rfl
  rw [← same]
  unfold converted
  split
  · rfl
  · unfold Manifest.level0
    cases (Database.updateLevel0 id m).levels with
    | nil => rfl
    | cons first rest => rfl

theorem convertedIds (i : Nat) :
    i ∈ (converted tables (Database.updateLevel0 id m)).segments.map SegmentMeta.fileId ↔
      i ∈ m.segments.map SegmentMeta.fileId ++ legacyOf m := by
  have segments : (Database.updateLevel0 id m).segments = m.segments := by
    unfold Database.updateLevel0
    split <;> rfl
  have legacy := legacyUpdate m
  by_cases none : legacyOf m = []
  · rw [converted, if_pos (legacy.trans none), segments, none, List.append_nil]
  · have unsegmented : m.segments = [] := by
      by_contra some_
      exact none (if_neg some_)
    rw [converted, if_neg (legacy ▸ none), legacy, unsegmented, List.map_nil, List.nil_append]
    have perm := (List.perm_insertionSort (fun a b : SegmentMeta => a.minKey ≤ b.minKey)
      ((legacyOf m).map (segOf tables))).map SegmentMeta.fileId
    have ids : ((legacyOf m).map (segOf tables)).map SegmentMeta.fileId = legacyOf m := by
      rw [List.map_map]
      exact List.map_id _
    exact (perm.mem_iff).trans (by rw [ids])

end Consulted

/-- The files of the levels are there, and those of the segments have the ranges listed. -/
structure Present (tables : OrderedMap Nat Bytes) (m : Manifest) : Prop where
  levels : ∀ id ∈ m.levels.flatten, tables.get id ≠ none
  files : ∀ s ∈ m.segments, tables.get s.fileId ≠ none
  first : ∀ s ∈ m.segments, (segOf tables s.fileId).minKey = s.minKey
  last : ∀ s ∈ m.segments, (segOf tables s.fileId).maxKey = s.maxKey

section Steps
variable {db : Database}

theorem boundsOf {tables : OrderedMap Nat Bytes} {id : Nat} {r : Sstable.TableReader}
    (h : HasTable tables id) (opened : Sstable.Opened (recordsOf tables id) r) :
    r.keyBounds = some ((segOf tables id).minKey, (segOf tables id).maxKey) ∧
      r.numRecords = (segOf tables id).records := by
  refine ⟨?_, opened.count⟩
  rw [Sstable.keyBoundsExact opened h.some]
  simp [segOf, List.head?_eq_some_head h.some, List.getLast?_eq_some_getLast h.some]

theorem openTableEnds {id : Nat}
    (formed : db.disk.tables.get id ≠ none → HasTable db.disk.tables id) :
    Ends (Database.openTable id) db
      (fun r s => s = db ∧ db.disk.tables.get id ≠ none ∧
        r.keyBounds = some ((segOf db.disk.tables id).minKey, (segOf db.disk.tables id).maxKey) ∧
        r.numRecords = (segOf db.disk.tables id).records)
      (fun _ _ => db.disk.tables.get id = none) := by
  by_cases none : db.disk.tables.get id = .none
  · exact (endsOfError (Database.openTableNone none)).mpr none
  · have table := formed none
    obtain ⟨r, run, -, opened⟩ := Database.openTableRun table
    exact (endsOfRun run).mpr ⟨rfl, none, boundsOf table opened⟩

theorem legacySegmentsEnds {ids : List Nat} (formed : WellFormed db.disk.tables ids) :
    Ends (Database.legacySegments ids) db
      (fun segs s => s = db ∧ segs = ids.map (segOf db.disk.tables))
      (fun _ _ => ∃ id ∈ ids, db.disk.tables.get id = none) := by
  induction ids with
  | nil => exact ⟨rfl, rfl⟩
  | cons id ids ih =>
    have here := openTableEnds (formed id List.mem_cons_self)
    have rest := ih (formed.mono (List.subset_cons_self _ _))
    refine Ends.bind (here.mono (fun _ _ h => h) ?_) ?_
    · exact fun _ _ none => ⟨id, List.mem_cons_self, none⟩
    · rintro r _ ⟨rfl, -, bounds, count⟩
      rw [bounds]
      refine Ends.bind (rest.mono (fun _ _ h => h) ?_) ?_
      · exact fun _ _ ⟨i, m, missing⟩ => ⟨i, List.mem_cons_of_mem _ m, missing⟩
      · rintro segs _ ⟨rfl, rfl⟩
        refine ⟨rfl, ?_⟩
        rw [count]
        rfl

theorem sortedMem {segs : List SegmentMeta} {s : SegmentMeta} :
    s ∈ Database.sortSegments segs ↔ s ∈ segs := (List.perm_insertionSort _ _).mem_iff

theorem convertEnds (formed : WellFormed db.disk.tables (legacyOf db.manifest))
    (valid : db.manifest.validate = .ok ()) :
    Ends Database.convertLegacyL1 db
      (fun _ s => s = { db with manifest := converted db.disk.tables db.manifest } ∧
        (converted db.disk.tables db.manifest).validate = .ok ())
      (fun _ _ => ¬ Present db.disk.tables (converted db.disk.tables db.manifest) ∨
        (converted db.disk.tables db.manifest).validate ≠ .ok ()) := by
  have stay : legacyOf db.manifest = [] → db = { db with
      manifest := converted db.disk.tables db.manifest } ∧
      (converted db.disk.tables db.manifest).validate = .ok () := by
    intro none
    rw [converted, if_pos none]
    exact ⟨rfl, valid⟩
  unfold Database.convertLegacyL1
  refine endsBindGet (endsIte (fun some_ => ?_) (fun none => ?_))
  · exact stay (if_neg some_)
  · have unsegmented : db.manifest.segments = [] := not_not.mp none
    split
    · rename_i absent
      exact stay (by rw [legacyOf, if_pos unsegmented, absent]; rfl)
    · rename_i empty
      exact stay (by rw [legacyOf, if_pos unsegmented, empty]; rfl)
    · rename_i legacy some_ found
      have ids : legacyOf db.manifest = legacy := by
        rw [legacyOf, if_pos unsegmented, found]
        rfl
      have full : legacyOf db.manifest ≠ [] := ids ▸ fun none => some_ none
      rw [ids] at formed
      refine Ends.bind ((legacySegmentsEnds formed).mono (fun _ _ h => h) ?_) ?_
      · rintro _ _ ⟨id, m, missing⟩
        refine .inl (fun present => ?_)
        have there : segOf db.disk.tables id ∈ (converted db.disk.tables db.manifest).segments := by
          rw [converted, if_neg full, ids]
          exact sortedMem.mpr (List.mem_map_of_mem m)
        exact present.files _ there missing
      · rintro segs s ⟨rfl, rfl⟩
        refine endsBindModify (endsBindGet ?_)
        have after : { s.manifest with
            segments := Database.sortSegments (legacy.map (segOf s.disk.tables))
            levels := s.manifest.levels.set 1 [] } = converted s.disk.tables s.manifest := by
          rw [converted, if_neg full, ids]
        dsimp only
        rw [after]
        refine endsLift _ (fun _ ok => ⟨rfl, ok⟩) (fun e fails => .inr ?_)
        rw [fails]
        exact fun eq => nomatch eq

theorem validateSegmentsAny {segs : List SegmentMeta}
    (formed : WellFormed db.disk.tables (segs.map SegmentMeta.fileId)) :
    Ends (Database.validateSegments segs) db
      (fun _ s => s = db ∧ ∀ seg ∈ segs, db.disk.tables.get seg.fileId ≠ none ∧
        (segOf db.disk.tables seg.fileId).minKey = seg.minKey ∧
        (segOf db.disk.tables seg.fileId).maxKey = seg.maxKey)
      (fun _ _ => ∃ seg ∈ segs, db.disk.tables.get seg.fileId = none ∨
        (segOf db.disk.tables seg.fileId).minKey ≠ seg.minKey ∨
        (segOf db.disk.tables seg.fileId).maxKey ≠ seg.maxKey) := by
  induction segs with
  | nil => exact ⟨rfl, fun _ m => (List.not_mem_nil m).elim⟩
  | cons seg segs ih =>
    unfold Database.validateSegments
    refine endsBindGet (endsIte (fun missing => ?_) (fun there => ?_))
    · exact ⟨seg, List.mem_cons_self, .inl missing⟩
    have here := openTableEnds (formed seg.fileId List.mem_cons_self)
    have rest := ih (formed.mono (List.subset_cons_self _ _))
    refine Ends.bind (here.mono (fun _ _ h => h) ?_) ?_
    · exact fun _ _ missing => ⟨seg, List.mem_cons_self, .inl missing⟩
    rintro r s ⟨rfl, -, bounds, -⟩
    rw [bounds]
    refine endsIte (fun differ => ⟨seg, List.mem_cons_self, .inr differ⟩) (fun same => ?_)
    rw [not_or, not_not, not_not] at same
    refine rest.mono ?_ ?_
    · rintro _ s ⟨rfl, others⟩
      refine ⟨rfl, fun x m => ?_⟩
      rcases List.mem_cons.mp m with rfl | m
      · exact ⟨there, same⟩
      · exact others x m
    · intro _ _ stopped
      obtain ⟨x, m, wrong⟩ := stopped
      exact ⟨x, List.mem_cons_of_mem _ m, wrong⟩

theorem validateAny
    (formed : WellFormed db.disk.tables (db.manifest.segments.map SegmentMeta.fileId)) :
    Ends Database.validateOpenState db
    (fun _ s => s = db ∧ Present db.disk.tables db.manifest)
    (fun _ _ => ¬ Present db.disk.tables db.manifest) := by
  unfold Database.validateOpenState
  refine endsBindGet (endsIte (fun missing => ?_) (fun there => ?_))
  · intro present
    obtain ⟨id, m, none⟩ := List.any_eq_true.mp missing
    exact present.levels id m (Option.isNone_iff_eq_none.mp none)
  · have levels : ∀ id ∈ db.manifest.levels.flatten, db.disk.tables.get id ≠ none := by
      intro id m none
      exact there (List.any_eq_true.mpr ⟨id, m, by rw [none]; rfl⟩)
    refine (validateSegmentsAny formed).mono ?_ ?_
    · rintro _ s ⟨rfl, all⟩
      exact ⟨rfl, levels, fun x m => (all x m).1, fun x m => (all x m).2.1, fun x m => (all x m).2.2⟩
    · rintro _ _ ⟨seg, m, missing | differ | differ⟩ present
      · exact present.files seg m missing
      · exact differ (present.first seg m)
      · exact differ (present.last seg m)

theorem parseVersionSome {text : Chars} {found : Option Nat}
    (run : Database.parseVersion text = .ok found) : ∃ v, found = some v := by
  unfold Database.parseVersion at run
  split at run
  · split at run
    · cases run
    · split at run
      · cases run
      · split at run
        · cases run
          exact ⟨_, rfl⟩
        · cases run
  · cases run

theorem openVersionAny (db : Database) : Ends Database.openVersion db
    (fun _ s => VersionOk db.disk ∧ ∃ fs v, fs <:+ db.faults ∧
      s = { db with faults := fs, disk := { db.disk with version := v } })
    (fun e _ => Injected db.faults e ∨ ¬ VersionOk db.disk) := by
  have stay : db = { db with faults := db.faults, disk := { db.disk with version := db.disk.version } } :=
    rfl
  unfold Database.openVersion
  refine endsBindGet ?_
  dsimp only
  cases version : db.disk.version with
  | none =>
    have ok : VersionOk db.disk := .inl version
    have read : Database.readVersion db.disk = .ok none := by rw [Database.readVersion, version]; rfl
    rw [read]
    refine endsBindOk rfl (endsIte (fun _ => ?_) (fun _ => ⟨ok, _, _, List.suffix_rfl, stay⟩))
    refine Ends.bind ((Database.effectEnds _ _ _ db).mono (fun _ _ h => h) ?_) ?_
    · exact fun _ _ stop => .inl stop.1
    · rintro _ _ ⟨fs, suffix, rfl⟩
      exact ⟨ok, fs, _, suffix, rfl⟩
  | some text =>
    have read : Database.readVersion db.disk = Database.parseVersion text := by
      rw [Database.readVersion, version]
    rw [read]
    have needs : VersionOk db.disk → ∃ v, Database.parseVersion text = .ok (some v) ∧
        Database.checkCompatible v = .ok () := by
      rintro (none | ⟨text', v, same, parse, compatible⟩)
      · rw [version] at none
        cases none
      · rw [version] at same
        cases same
        exact ⟨v, parse, compatible⟩
    cases parse : Database.parseVersion text with
    | error e =>
      refine .inr (fun ok => ?_)
      obtain ⟨v, parsed, -⟩ := needs ok
      rw [parse] at parsed
      cases parsed
    | ok found =>
      obtain ⟨v, rfl⟩ := parseVersionSome parse
      refine endsBindOk rfl ?_
      have check : Ends (lift (Database.checkCompatible v)) db
          (fun _ s => s = db ∧ Database.checkCompatible v = .ok ())
          (fun e _ => Injected db.faults e ∨ ¬ VersionOk db.disk) := by
        refine endsLift _ (fun _ ok => ⟨rfl, ok⟩) (fun e fails => .inr (fun ok => ?_))
        obtain ⟨v', parsed, compatible⟩ := needs ok
        rw [parse] at parsed
        cases parsed
        rw [fails] at compatible
        cases compatible
      refine check.bind ?_
      rintro _ s ⟨rfl, compatible⟩
      exact ⟨.inr ⟨text, v, version, parse, compatible⟩, _, _, List.suffix_rfl, stay⟩

end Steps

section Opening
variable [Crc32] {d : Disk} {m : Manifest}

structure Acceptable (d : Disk) (m : Manifest) : Prop where
  version : VersionOk d
  loaded : Manifest.load d.manifest = .ok m
  valid : (converted d.tables (Database.updateLevel0 id m)).validate = .ok ()
  present : Present d.tables (converted d.tables (Database.updateLevel0 id m))

structure OpenedAs (d : Disk) (m : Manifest) (db : Database) : Prop where
  acceptable : Acceptable d m
  manifest : db.manifest = converted d.tables (Database.updateLevel0 id m)
  tables : db.disk.tables = d.tables
  cache : db.tableCache = []
  over_ : ∀ v, db.memtable.over v = applied (Wal.replay d.wal).records v

omit [Crc32] in
theorem putAll (ws : List Rec) (db : Database) :
    ∃ mt, ws.forM (fun w => Database.memPut w.1 w.2) db = .ok () { db with memtable := mt } ∧
      ∀ v, mt.over v = applied ws (db.memtable.over v) := by
  induction ws generalizing db with
  | nil => exact ⟨db.memtable, rfl, fun _ => rfl⟩
  | cons w ws ih =>
    obtain ⟨mt, run, over_⟩ := ih { db with memtable := db.memtable.put w.1 w.2 }
    refine ⟨mt, run, fun v => ?_⟩
    rw [over_, appliedCons, db.memtable.overPut v w.1 w.2]

omit [Crc32] in
theorem updateValid (loaded : Manifest.load d.manifest = .ok m) :
    (Database.updateLevel0 id m).validate = .ok () := by
  have valid := Manifest.loadValid loaded
  unfold Database.updateLevel0
  split
  · rename_i none
    obtain ⟨levels, segments, next⟩ := m
    cases none
    exact valid
  · rename_i first rest levels
    obtain ⟨_, segments, next⟩ := m
    cases levels
    exact valid

/-- Whatever is on the medium: the store is opened as its files say, or the directory is not
acceptable. -/
theorem openAny {faults : List Fault} {opts : Options}
    (formed : ∀ m, Manifest.load d.manifest = .ok m → WellFormed d.tables (consulted m)) :
    Ends Database.openWith (Database.boot d faults opts) (fun _ db => ∃ m, OpenedAs d m db)
      (fun e _ => Injected faults e ∨ ∀ m, ¬ Acceptable d m) := by
  unfold Database.openWith
  refine Ends.bind ((openVersionAny (Database.boot d faults opts)).mono (fun _ _ h => h) ?_) ?_
  · exact fun _ _ stop => stop.imp id (fun bad m ok => bad ok.version)
  rintro version _ ⟨ok, fs, v, -, rfl⟩
  refine endsBindGet ?_
  have load : Ends (lift (Manifest.load d.manifest))
      { Database.boot d faults opts with faults := fs, disk := { d with version := v } }
      (fun m s => s = { Database.boot d faults opts with
        faults := fs, disk := { d with version := v } } ∧ Manifest.load d.manifest = .ok m)
      (fun e _ => Injected faults e ∨ ∀ m, ¬ Acceptable d m) := by
    refine endsLift _ (fun m loaded => ⟨rfl, loaded⟩) (fun e fails => .inr (fun m ok => ?_))
    rw [ok.loaded] at fails
    cases fails
  refine load.bind ?_
  rintro m _ ⟨rfl, loaded⟩
  refine endsBindModify ?_
  have only : ∀ {m'}, Acceptable d m' → m' = m := by
    intro m' other
    have loaded' := other.loaded
    rw [loaded] at loaded'
    cases loaded'
    rfl
  set db₁ : Database := { Database.boot d faults opts with
    faults := fs, disk := { d with version := v }, manifest := Database.updateLevel0 id m
    formatVersion := version } with hdb₁
  have legacy : WellFormed d.tables (legacyOf db₁.manifest) := by
    have same : legacyOf db₁.manifest = legacyOf m := legacyUpdate m
    rw [same]
    exact (formed m loaded).mono (fun _ mem => List.mem_append_right _ (List.mem_append_right _ mem))
  refine Ends.bind ((@convertEnds db₁ legacy (updateValid loaded)).mono (fun _ _ h => h) ?_) ?_
  · rintro _ _ stop
    refine .inr (fun m' other => ?_)
    cases only other
    rcases stop with absent | invalid
    · exact absent other.present
    · exact invalid other.valid
  rintro _ _ ⟨rfl, valid⟩
  set db₂ : Database := { db₁ with manifest := converted db₁.disk.tables db₁.manifest } with hdb₂
  have segments : WellFormed d.tables (db₂.manifest.segments.map SegmentMeta.fileId) := by
    refine (formed m loaded).mono (fun id mem => List.mem_append_right _ ?_)
    exact (convertedIds d.tables m id).mp mem
  refine Ends.bind ((@validateAny db₂ segments).mono (fun _ _ h => h) ?_) ?_
  · rintro _ _ absent
    refine .inr (fun m' other => ?_)
    cases only other
    exact absent other.present
  rintro _ _ ⟨rfl, present⟩
  refine endsBindGet ?_
  obtain ⟨mt, run, over_⟩ := putAll (Wal.replay d.wal).records db₂
  refine endsBindOk run (endsModify _ ?_)
  exact ⟨m, ⟨ok, loaded, valid, present⟩, rfl, rfl, rfl, over_⟩

end Opening
end MyLsmDb
