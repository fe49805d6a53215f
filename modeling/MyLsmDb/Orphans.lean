import MyLsmDb.Twins

/-! What a collection deletes: exactly the orphans, as long as the manifest on the medium has
no tables that the one in memory does not have and the file names have six digits. -/
namespace MyLsmDb
open ByteOrder (Bytes)
open Effect
open OrderedEntries
open Wal (Crc32)

/-- The manifest that was saved to the medium, or the one that is loaded from it. -/
def OnDisk (d : Disk) (m : Manifest) : Prop := Saved d m ∨ Manifest.load d.manifest = .ok m

/-- The manifest in memory or the one on the medium refers to the table. -/
def Referenced (db : Database) (id : Nat) : Prop :=
  id ∈ db.manifest.allIds ∨ ∃ m, OnDisk db.disk m ∧ id ∈ m.allIds

section Collecting
variable [Crc32]

/-- What `gc` promises, whatever faults are to come. -/
structure GcRight (db : Database) : Prop where
  keeps : ∀ faults, Ends Database.gc { db with faults }
    (fun _ db' => ∀ id, Referenced db id → db'.disk.tables.get id = db.disk.tables.get id)
    (fun _ db' => ∀ id, Referenced db id → db'.disk.tables.get id = db.disk.tables.get id)
  shows : ∀ faults v, Shows db v → Ends Database.gc { db with faults }
    (fun _ db' => Shows db' v) (fun e db' => e ≠ .crash → Shows db' v)
  reopens : ∀ faults, Ends Database.gc { db with faults }
    (fun _ db' => ∀ kept v, Reopens (db.disk.crashed kept) v → Reopens (db'.disk.crashed kept) v)
    (fun e db' => (e ≠ .crash → ∀ kept v, Reopens (db.disk.crashed kept) v →
        Reopens (db'.disk.crashed kept) v) ∧
      (e = .crash → ∃ kept, ∀ v, Reopens (db.disk.crashed kept) v → Reopens db'.disk v))
  orphans : ∀ faults, Ends Database.gc { db with faults }
    (fun _ db' => ∀ id, ¬ Referenced db id → db'.disk.tables.get id = none) (fun _ _ => True)

/-- Every table file that is referred to is one the manifest in memory refers to, or its name
is longer; every other has a name of six digits. -/
structure Collects (db : Database) : Prop where
  covered : ∀ id, Referenced db id → db.disk.tables.get id ≠ none →
    id ∈ db.manifest.allIds ∨ 10 ^ 6 ≤ id
  named : ∀ id, db.disk.tables.get id ≠ none → ¬ Referenced db id → id < 10 ^ 6

omit [Crc32] in
theorem prunedKeeps {db : Database} (h : Collects db) {t : OrderedMap Nat Bytes}
    (pruned : Database.Pruned db.manifest.allIds db.disk.tables t) {id : Nat}
    (referenced : Referenced db id) : t.get id = db.disk.tables.get id := by
  rcases pruned id with same | ⟨none, other, small⟩
  · exact same
  · by_cases there : db.disk.tables.get id = .none
    · rw [none, there]
    · rcases h.covered id referenced there with inside | large
      · exact absurd inside other
      · omega

omit [Crc32] in
theorem Collects.shows {db : Database} (h : Collects db) {fs : List Fault}
    {t : OrderedMap Nat Bytes} {cache : List (Nat × Sstable.TableReader)}
    (pruned : Database.Pruned db.manifest.allIds db.disk.tables t)
    (cached : ∀ id ∈ db.manifest.allIds, cache.lookup id = db.tableCache.lookup id) {v : View}
    (shows : Shows db v) :
    Shows { db with faults := fs, disk := { db.disk with tables := t }, tableCache := cache } v := by
  have alike : Alike db.manifest.allIds
      { db with faults := fs, disk := { db.disk with tables := t }, tableCache := cache } db :=
    ⟨rfl, List.Subset.refl _, fun id mem => (prunedKeeps h pruned (.inl mem)).symm,
      fun id mem => (cached id mem).symm⟩
  exact alike.shows shows

theorem Collects.reopens {db : Database} (h : Collects db) {t : OrderedMap Nat Bytes}
    (pruned : Database.Pruned db.manifest.allIds db.disk.tables t) {kept : Nat} {v : View}
    (opens : Reopens (db.disk.crashed kept) v) :
    Reopens (Disk.crashed { db.disk with tables := t } kept) v := by
  by_cases loads : ∃ m, Manifest.load db.disk.manifest = .ok m
  · obtain ⟨m, load⟩ := loads
    have sub : ∀ m', Manifest.load db.disk.manifest = .ok m' → m'.allIds ⊆ m.allIds := by
      intro m' load'
      rw [load] at load'
      cases load'
      exact List.Subset.refl _
    have same : ∀ id ∈ m.allIds, db.disk.tables.get id = t.get id := fun id mem =>
      (prunedKeeps h pruned (.inr ⟨m, .inr load, mem⟩)).symm
    exact opens.alike rfl same sub
  · have none : ∀ id ∈ ([] : List Nat), db.disk.tables.get id = t.get id :=
      fun id mem => nomatch mem
    refine opens.alike rfl none ?_
    intro m load
    exact absurd ⟨m, load⟩ loads

omit [Crc32] in
theorem lookupKept {db : Database} {id : Nat} (mem : id ∈ db.manifest.allIds) :
    (Database.retained db).lookup id = db.tableCache.lookup id := by
  unfold Database.retained
  generalize db.tableCache = cache
  induction cache with
  | nil => rfl
  | cons e cache ih =>
    by_cases keep : e.1 ∈ db.manifest.allIds
    · rw [List.filter_cons_of_pos (by simpa using keep), lookupCons, lookupCons, ih]
    · have elsewhere : id ≠ e.1 := by
        intro here
        exact keep (here ▸ mem)
      rw [List.filter_cons_of_neg (by simpa using keep), lookupCons, if_neg elsewhere, ih]

theorem GcRight.collects {db : Database} (right : GcRight db) : Collects db := by
  have run : Completes Database.gc { db with faults := [] } (fun _ db' =>
      Database.Collected { db with faults := [] } db') :=
    (Database.gcEnds { db with faults := [] }).mono (fun _ _ h => h)
      (fun _ _ stop => noInjection stop.injected)
  obtain ⟨n, db', run, ⟨fs, t, -, pruned, rfl⟩, gone⟩ := run.run
  have keeps := (endsOfRun run).mp (right.keeps [])
  have orphans := (endsOfRun run).mp (right.orphans [])
  refine ⟨?_, ?_⟩
  · intro id referenced there
    by_contra none
    rw [not_or, not_le] at none
    exact there ((keeps id referenced).symm.trans (gone id none.2 none.1))
  · intro id there other
    by_contra large
    rcases pruned id with same | absent
    · exact there (same.symm.trans (orphans id other))
    · exact large absent.2.2

/-- A collection is right exactly where the manifest in memory covers the one on the medium and
no orphan has a longer name. -/
theorem gcExact (db : Database) : GcRight db ↔ Collects db := by
  constructor
  · exact GcRight.collects
  · intro h
    refine ⟨?_, ?_, ?_, ?_⟩
    · intro faults
      refine (Database.gcEnds { db with faults }).mono ?_ ?_
      · intro _ db' done id referenced
        obtain ⟨fs, t, -, pruned, rfl⟩ := done.left
        exact prunedKeeps h pruned referenced
      · intro e db' stop id referenced
        obtain ⟨-, fs, t, d, -, pruned, rfl, ⟨-, rfl⟩ | ⟨-, k, rfl⟩⟩ := stop
        · exact prunedKeeps h pruned referenced
        · exact prunedKeeps h pruned referenced
    · intro faults v shows
      refine (Database.gcEnds { db with faults }).mono ?_ ?_
      · intro _ db' done
        obtain ⟨fs, t, -, pruned, rfl⟩ := done.left
        exact h.shows pruned (fun id mem => lookupKept mem) shows
      · intro e db' stop lives
        obtain ⟨-, fs, t, d, -, pruned, rfl, ⟨-, rfl⟩ | ⟨crash, -⟩⟩ := stop
        · exact h.shows pruned (fun id mem => rfl) shows
        · exact absurd crash lives
    · intro faults
      refine (Database.gcEnds { db with faults }).mono ?_ ?_
      · intro _ db' done kept v opens
        obtain ⟨fs, t, -, pruned, rfl⟩ := done.left
        exact h.reopens pruned opens
      · intro e db' stop
        obtain ⟨-, fs, t, d, -, pruned, rfl, ⟨lives, rfl⟩ | ⟨crash, k, rfl⟩⟩ := stop
        · exact ⟨fun _ kept v opens => h.reopens pruned opens, fun crash => absurd crash lives⟩
        · exact ⟨fun lives => absurd crash lives, fun _ => ⟨k, fun v opens => h.reopens pruned opens⟩⟩
    · intro faults
      refine (Database.gcEnds { db with faults }).mono ?_ (fun _ _ _ => trivial)
      intro _ db' done id other
      by_cases there : db.disk.tables.get id = none
      · obtain ⟨fs, t, -, pruned, rfl⟩ := done.left
        rcases pruned id with same | absent
        · exact same.trans there
        · exact absent.1
      · exact done.gone id (h.named id there other) (fun mem => other (.inl mem))

end Collecting

section Drift
attribute [local instance] Wal.ieee

/-- The manifest of a compaction could not be saved: the one on the medium still has table 1. -/
theorem saveFailed : ∃ db, Reach (fun _ _ _ => True) (.up db) ∧ db.manifest.allIds = [2] ∧
    (Manifest.load db.disk.manifest).toOption = some ⟨[[1]], [], 2⟩ ∧
    (db.disk.tables.get 1).isSome := by
  obtain ⟨db₀, db₁, opened, put, stop⟩ : ∃ db₀ db₁,
      Database.openWith (Database.boot .empty
        [.pass, .pass, .pass, .pass, .pass, .pass, .fail 0] ⟨1000, 1, 10⟩) = .ok () db₀ ∧
      (Call.op (.put [0] [7])).run db₀ = .ok () db₁ ∧
      (halts (Call.op .flush).run db₁).map (fun s => (s.1, s.2.manifest.allIds,
        (Manifest.load s.2.disk.manifest).toOption, (s.2.disk.tables.get 1).isSome)) =
      some (.error .io, [2], some ⟨[[1]], [], 2⟩, true) := by
    refine ⟨_, _, rfl, rfl, ?_⟩
    decide +kernel
  obtain ⟨⟨e, db⟩, halt, seen⟩ := Option.map_eq_some_iff.mp stop
  injection seen with error seen
  injection seen with ids seen
  injection seen with loaded there
  have run : (Call.op .flush).run db₁ = .error (.error .io) db := error ▸ haltsSome halt
  exact ⟨db, .failed (.returned (.opened .fresh (by decide) opened) put trivial) run (by simp)
    trivial, ids, loaded, there⟩

theorem gcDrifts : ¬ ∀ db, Reach (fun _ _ _ => True) (.up db) → GcRight db := by
  intro claim
  obtain ⟨db, reach, ids, loaded, there⟩ := saveFailed
  have collects := (claim db reach).collects
  have load : Manifest.load db.disk.manifest = .ok ⟨[[1]], [], 2⟩ := by
    cases run : Manifest.load db.disk.manifest with
    | ok m =>
      rw [run] at loaded
      cases loaded
      rfl
    | error e =>
      rw [run] at loaded
      cases loaded
  have referenced : Referenced db 1 := .inr ⟨_, .inr load, by decide⟩
  rcases collects.covered 1 referenced (Option.isSome_iff_ne_none.mp there) with inside | large
  · rw [ids] at inside
    exact absurd inside (by decide)
  · exact absurd large (by decide)

end Drift
end MyLsmDb
