import MyLsmDb.Lifetime

/-! The manifest through its text and back: all of it, unless a segment is bounded by the
empty key, of which the text keeps nothing. -/
namespace MyLsmDb
open ByteOrder (Bytes)
open Effect
open Text
open Wal (Crc32)

namespace Manifest

def fullLevels (m : Manifest) : List (List Nat × Nat) := m.levels.zipIdx.filter (fun l => !l.1.isEmpty)

/-- What `load` makes of the text of `m` is `m`, up to levels without tables. -/
def RoundTrips (m : Manifest) : Prop := ∃ m', load (some m.save) = .ok m' ∧
  m'.nextTableId = m.nextTableId ∧ m'.fullLevels = m.fullLevels ∧ m'.segments = m.segments

/-- Every number is one of its 64-bit type. -/
structure InRange (m : Manifest) : Prop where
  next : m.nextTableId < 2 ^ 64
  ids : ∀ id ∈ m.allIds, id < 2 ^ 64
  records : ∀ s ∈ m.segments, s.records < 2 ^ 64
  levels : m.levels.length < 2 ^ 64

def KeysNamed (m : Manifest) : Prop := ∀ s ∈ m.segments, s.minKey ≠ [] ∧ s.maxKey ≠ []

def trim (levels : List (List Nat)) : List (List Nat) := levels.rdropWhile List.isEmpty

theorem trimSnoc (levels : List (List Nat)) (ids : List Nat) :
    trim (levels ++ [ids]) = if ids = [] then trim levels else levels ++ [ids] := by
  rw [trim, List.rdropWhile_concat]
  simp [trim]

theorem trimRest (levels : List (List Nat)) :
    trim levels ++ List.replicate (levels.length - (trim levels).length) [] = levels := by
  induction levels using List.reverseRecOn with
  | nil => rfl
  | append_singleton levels ids ih =>
    rw [trimSnoc]
    by_cases none : ids = []
    · have short : (trim levels).length ≤ levels.length :=
        (List.rdropWhile_prefix _ levels).length_le
      have more : (levels ++ [ids]).length - (trim levels).length =
          levels.length - (trim levels).length + 1 := by
        rw [List.length_append, List.length_singleton]
        omega
      rw [if_pos none, more, List.replicate_succ', ← List.append_assoc, ih, none]
    · rw [if_neg none, Nat.sub_self, List.replicate_zero, List.append_nil]

theorem setLevelTrim (levels : List (List Nat)) (ids : List Nat) :
    setLevel (trim levels) levels.length ids = levels ++ [ids] := by
  have short : (trim levels).length ≤ levels.length := (List.rdropWhile_prefix _ levels).length_le
  have more : levels.length + 1 - (trim levels).length =
      levels.length - (trim levels).length + 1 := by omega
  rw [setLevel, more, List.replicate_succ', ← List.append_assoc, trimRest]
  simp

theorem levelLinesSnoc (levels : List (List Nat)) (ids : List Nat) :
    levelLines (levels ++ [ids]) = levelLines levels ++
      if ids = [] then [] else [['L'] :: decimal levels.length :: ids.map decimal] := by
  unfold levelLines
  rw [List.zipIdx_append, List.filter_append, List.map_append]
  by_cases none : ids = [] <;> simp [none]

theorem loadLevels {levels : List (List Nat)} (small : levels.length < 2 ^ 64)
    (ids : ∀ id ∈ levels.flatten, id < 2 ^ 64) (n : Nat) :
    (levelLines levels).foldlM loadLine ⟨[], [], n⟩ = .ok ⟨trim levels, [], n⟩ := by
  induction levels using List.reverseRecOn with
  | nil => rfl
  | append_singleton levels last ih =>
    have lt : levels.length < 2 ^ 64 := by
      rw [List.length_append] at small
      omega
    have before := ih lt (fun id mem => ids id (by simp [List.mem_flatten.mp mem]))
    rw [levelLinesSnoc, List.foldlM_append, before, trimSnoc]
    change List.foldlM loadLine _ _ = _
    by_cases none : last = []
    · rw [if_pos none, if_pos none]
      rfl
    · have level : number "manifest L level" "manifest level"
          (decimal levels.length :: last.map decimal) = .ok (levels.length, last.map decimal) :=
        numberDecimal _ _ lt _
      have fits : ∀ id ∈ last, id < 2 ^ 64 := fun id mem => ids id (by simp [mem])
      have line : loadLine ⟨trim levels, [], n⟩ (['L'] :: decimal levels.length :: last.map decimal) =
          .ok ⟨levels ++ [last], [], n⟩ := by
        simp only [loadLine]
        rw [if_neg (by decide), if_pos trivial]
        simp only [level, numbersDecimal fits, bind, Except.bind, pure, Except.pure, setLevelTrim]
      rw [if_neg none, if_neg none, List.foldlM_cons, line]
      rfl

theorem trimFlatten (levels : List (List Nat)) : (trim levels).flatten = levels.flatten := by
  have flat := congrArg List.flatten (trimRest levels)
  rw [List.flatten_append, List.flatten_replicate_nil, List.append_nil] at flat
  exact flat

theorem trimFull (levels : List (List Nat)) :
    (trim levels).zipIdx.filter (fun l => !l.1.isEmpty) =
      levels.zipIdx.filter (fun l => !l.1.isEmpty) := by
  conv => rhs; rw [← trimRest levels]
  rw [List.zipIdx_append, List.filter_append]
  refine (List.append_right_eq_self.mpr (List.filter_eq_nil_iff.mpr ?_)).symm
  intro l mem
  have none : l.1 = [] := List.eq_of_mem_replicate (List.fst_mem_of_mem_zipIdx mem)
  simp [none]

theorem validateSame {m m' : Manifest} (ids : m'.allIds = m.allIds)
    (segments : m'.segments = m.segments) : m'.validate = m.validate := by
  unfold validate
  rw [ids, segments]

theorem loadNamed {m : Manifest} (range : InRange m) (named : KeysNamed m) :
    load (some m.save) = (do m.validate; return { m with levels := trim m.levels }) := by
  have fileIds : ∀ s ∈ m.segments, s.fileId < 2 ^ 64 := fun s ms =>
    range.ids _ (List.mem_append_right _ (List.mem_map_of_mem ms))
  have full : ∀ ws ∈ savedLines m, words ws = ws := by
    intro ws mem
    refine List.filter_eq_self.mpr (fun v mv => ?_)
    simp only [savedLines, levelLines, List.mem_cons, List.mem_append, List.mem_map] at mem
    rcases mem with rfl | ⟨l, _, rfl⟩ | ⟨s, ms, rfl⟩
    · rcases List.mem_pair.mp mv with rfl | rfl <;> simp [decimalSome]
    · simp only [List.mem_cons, List.mem_map] at mv
      rcases mv with rfl | rfl | ⟨i, _, rfl⟩ <;> simp [decimalSome]
    · have keys := named s ms
      simp only [segmentLine, List.mem_cons, List.not_mem_nil, or_false] at mv
      rcases mv with rfl | rfl | rfl | rfl | rfl | rfl <;>
        simp [decimalSome, hexSome keys.1, hexSome keys.2]
  have first : loadLine new [['N'], decimal m.nextTableId] = .ok ⟨[], [], m.nextTableId⟩ := by
    simp only [loadLine, if_true, numberDecimal _ _ range.next, bind, Except.bind, pure,
      Except.pure]
    rfl
  have read : (savedLines m).foldlM loadLine new = .ok { m with levels := trim m.levels } := by
    rw [savedLines, List.foldlM_cons, first]
    change List.foldlM loadLine _ _ = _
    rw [List.foldlM_append, loadLevels range.levels
      (fun id mem => range.ids id (List.mem_append_left _ mem))]
    change List.foldlM loadLine _ _ = _
    rw [loadSegments fileIds range.records]
    simp
  have valid : validate { m with levels := trim m.levels } = m.validate :=
    validateSame (by simp only [allIds, trimFlatten]) rfl
  unfold load
  simp only [foldSaved]
  rw [List.map_congr_left full, List.map_id', read]
  simp only [bind, Except.bind, valid]

theorem roundTripsIff {m : Manifest} (range : InRange m) :
    RoundTrips m ↔ KeysNamed m ∧ m.validate = .ok () := by
  constructor
  · intro trip
    obtain ⟨m', run, -⟩ := trip
    have named : KeysNamed m := (loadWritable run).keys
    refine ⟨named, ?_⟩
    rw [loadNamed range named] at run
    cases valid : m.validate with
    | ok => rfl
    | error e =>
      rw [valid] at run
      cases run
  · intro h
    obtain ⟨named, valid⟩ := h
    refine ⟨{ m with levels := trim m.levels }, ?_, rfl, trimFull m.levels, rfl⟩
    rw [loadNamed range named, valid]
    rfl

theorem InRange.writable {m : Manifest} (range : InRange m) : Writable m ↔ KeysNamed m :=
  ⟨fun w => w.keys, fun named => ⟨range.next, range.ids, range.records, named⟩⟩

end Manifest

section Closing
variable [Crc32]

omit [Crc32] in
theorem Alive.valid {db : Database} (h : Alive db) : db.manifest.validate = .ok () := by
  obtain ⟨_, _, _, ⟨md, views⟩, -⟩ := h.store
  exact Manifest.validateSorted views.memory.sorted views.memory.nodup

omit [Crc32] in
theorem closeSaves (db : Database) (running : db.closed = false) : Ends Database.close db
    (fun _ db' => db'.disk.manifest = some db'.manifest.save ∧ db'.disk.tail = [])
    (fun _ _ => True) := by
  unfold Database.close
  refine endsBindGet (endsIte (fun closed => absurd closed (by simp [running])) (fun _ => ?_))
  have any_ : Ends Database.flush db (fun _ _ => True) (fun _ _ => True) := by
    unfold Ends
    split <;> trivial
  refine any_.bind (fun _ db₁ _ => ?_)
  refine Ends.bind ((Database.effectEnds _ _ _ db₁).mono (fun _ _ h => h) (fun _ _ _ => trivial)) ?_
  intro _ db₂ done
  obtain ⟨fs, -, rfl⟩ := done
  refine Ends.bind ((Database.saveManifestEnds _).mono (fun _ _ h => h) (fun _ _ _ => trivial)) ?_
  intro _ db₃ done
  obtain ⟨passed, step, saved⟩ := done
  refine endsModify _ ⟨?_, passed.log.2⟩
  rw [saved, step.manifest]

/-- The directory of a store that was closed opens again, unless the manifest has a segment
that is bounded by the empty key. -/
theorem Alive.reopens {db : Database} (h : Alive db)
    (saved : db.disk.manifest = some db.manifest.save) (tail : db.disk.tail = [])
    (range : db.manifest.InRange) (opts : Options) :
    (∃ db', Database.openWith (Database.boot db.disk [] opts) = .ok () db') ↔
      db.manifest.KeysNamed := by
  obtain ⟨_, _, _, ⟨md, views⟩, -⟩ := h.store
  have mounted : Mounted db.disk db.manifest := ⟨h.version, .inl saved, views.memory⟩
  constructor
  · intro opens
    obtain ⟨db', run⟩ := opens
    exact ((endsOfRun run).mp (openWithMounted mounted tail)).1.again.written.keys
  · intro named
    have ready := mounted.recoverable (range.writable.mpr named)
    have opens : Completes Database.openWith (Database.boot db.disk [] opts) (fun _ _ => True) :=
      (openWithEnds ready tail).mono (fun _ _ _ => trivial) (fun _ _ stop => noInjection stop.1)
    obtain ⟨_, db', run, -⟩ := opens.run
    exact ⟨db', run⟩

/-- When a manifest survives its text, and when a closed store opens again. -/
theorem manifestTrips :
    (∀ m : Manifest, m.InRange → (m.RoundTrips ↔ m.KeysNamed ∧ m.validate = .ok ())) ∧
    (∀ db, Reach Lawful (.up db) → db.manifest.validate = .ok ()) ∧
    ∀ db db' opts, Reach Lawful (.up db) → db.closed = false → Database.close db = .ok () db' →
      Fitting db' → db'.manifest.InRange →
      ((∃ db₂, Database.openWith (Database.boot db'.disk [] opts) = .ok () db₂) ↔
        db'.manifest.KeysNamed) := by
  refine ⟨fun m range => Manifest.roundTripsIff range, ?_, ?_⟩
  · intro db reach
    exact (Reach.sound (fun _ _ _ => id) reach : Alive db).valid
  · intro db db' opts reach running run fits range
    have alive : Alive db := Reach.sound (fun _ _ _ => id) reach
    have after : Alive db' := (endsOfRun run).mp (closeStays alive) fits
    obtain ⟨saved, tail⟩ := (endsOfRun run).mp (closeSaves db running)
    exact after.reopens saved tail range opts

end Closing

section Fixed
attribute [local instance] Wal.ieee

def segmentWrites : List Call :=
  [.op (.put [0] [7]), .op .flush, .op (.put [1] [8]), .op .flush, .op .compactFull,
    .op (.put [2] [9])]

theorem segmentsClosed : ∃ db db', Reach Lawful (.up db) ∧ db.closed = false ∧
    Database.close db = .ok () db' ∧ Fitting db' ∧
    db'.manifest = ⟨[[5]], [⟨3, [0], [0], 1⟩, ⟨4, [1], [1], 1⟩], 6⟩ := by
  obtain ⟨db₀, opened, writes⟩ : ∃ db₀,
      Database.openWith (Database.boot .empty [] ⟨1000, 4, 1⟩) = .ok () db₀ ∧
      (leaves (Call.all segmentWrites) db₀).any (fun db => Fitting db ∧ db.closed = false ∧
        (leaves Database.close db).any (fun db' => Fitting db' ∧
          db'.manifest = ⟨[[5]], [⟨3, [0], [0], 1⟩, ⟨4, [1], [1], 1⟩], 6⟩) = true) = true := by
    refine ⟨_, rfl, ?_⟩
    decide +kernel
  obtain ⟨db, left, facts⟩ := (Option.any_eq_true _ _).mp writes
  obtain ⟨fits, running, closes⟩ := of_decide_eq_true facts
  obtain ⟨db', left', facts⟩ := (Option.any_eq_true _ _).mp closes
  obtain ⟨fits', manifest⟩ := of_decide_eq_true facts
  obtain ⟨⟨⟩, written⟩ := leavesSome left
  obtain ⟨⟨⟩, run⟩ := leavesSome left'
  exact ⟨db, db', .all (.opened .fresh (by decide) opened) written (by decide) fits, running,
    run, fits', manifest⟩

theorem manifestTripsClosed : ∃ db db', Database.close db = .ok () db' ∧
    db'.manifest = ⟨[[5]], [⟨3, [0], [0], 1⟩, ⟨4, [1], [1], 1⟩], 6⟩ ∧
    db'.manifest.RoundTrips ∧
    ∃ db₂, Database.openWith (Database.boot db'.disk [] ⟨0, 1, 1⟩) = .ok () db₂ := by
  obtain ⟨db, db', reach, running, run, fits, manifest⟩ := segmentsClosed
  have range : db'.manifest.InRange := by
    rw [manifest]
    exact ⟨by decide, by decide, by simp, by decide⟩
  have named : db'.manifest.KeysNamed := by
    rw [manifest]
    simp [Manifest.KeysNamed]
  have valid : db'.manifest.validate = .ok () := by
    rw [manifest]
    rfl
  exact ⟨db, db', run, manifest, (manifestTrips.1 _ range).mpr ⟨named, valid⟩,
    (manifestTrips.2.2 db db' ⟨0, 1, 1⟩ reach running run fits range).mpr named⟩

theorem emptyKeyBounds : ∃ db, Reach (fun _ _ _ => True) (.up db) ∧
    db.manifest = ⟨[[]], [⟨2, [], [], 1⟩], 3⟩ := by
  obtain ⟨db₀, opened, run⟩ : ∃ db₀,
      Database.openWith (Database.boot .empty [] ⟨0, 1, 1⟩) = .ok () db₀ ∧
      (leaves (Call.run (.op (.put [] [7]))) db₀).map Database.manifest =
        some ⟨[[]], [⟨2, [], [], 1⟩], 3⟩ := by
    refine ⟨_, rfl, ?_⟩
    decide +kernel
  obtain ⟨db, left, manifest⟩ := Option.map_eq_some_iff.mp run
  obtain ⟨_, run⟩ := leavesSome left
  exact ⟨db, .returned (.opened .fresh (by decide) opened) run trivial, manifest⟩

theorem emptyKeyLost : ¬ ∀ db, Reach (fun _ _ _ => True) (.up db) → db.manifest.RoundTrips := by
  intro claim
  obtain ⟨db, reach, manifest⟩ := emptyKeyBounds
  have range : db.manifest.InRange := by
    rw [manifest]
    exact ⟨by decide, by decide, by simp, by decide⟩
  have named := ((Manifest.roundTripsIff range).mp (claim db reach)).1
  rw [manifest] at named
  exact (named ⟨2, [], [], 1⟩ List.mem_cons_self).1 rfl

end Fixed
end MyLsmDb
