import MyLsmDb.Faithful
import MyLsmDb.HintCover
import MyLsmDb.Twins

/-! Which backups can be restored: the store must have a manifest on the medium that refers to
no table but those of the one in memory, and its schema must be the one that was saved. -/
namespace MyLsmDb
open ByteOrder (Bytes)
open Effect
open OrderedEntries
open Text
open Wal (Crc32)

section Copies
variable {c : Copying} {d : Disk}

theorem Copying.nextFaultRun : Copying.nextFault c = .ok (c.faults.headD .pass)
    { c with faults := c.faults.tail } := by
  obtain ⟨faults, source, dest⟩ := c
  cases faults <;> rfl

theorem Copying.effectEnds (fully : Disk → Option Disk → Option Disk)
    (partly : Nat → Disk → Option Disk → Option Disk) (c : Copying) :
    Ends (Copying.effect fully partly) c
      (fun _ c' => ∃ fs, c' = ⟨fs, c.source, fully c.source c.dest⟩ ∧ fs <:+ c.faults)
      (fun e c' => Injected c.faults e ∧ (e ≠ .crash → c'.source = c.source) ∧
        c'.faults <:+ c.faults) := by
  have suffix : c.faults.tail <:+ c.faults := List.tail_suffix _
  unfold Copying.effect
  refine endsBindOk Copying.nextFaultRun ?_
  cases list : c.faults with
  | nil => exact ⟨_, rfl, list ▸ suffix⟩
  | cons f rest =>
    cases f with
    | pass => exact ⟨_, rfl, list ▸ suffix⟩
    | fail arrived => exact ⟨⟨arrived, List.mem_cons_self⟩, fun _ => rfl, list ▸ suffix⟩
    | crash arrived kept =>
      exact ⟨⟨arrived, kept, List.mem_cons_self⟩, fun other => absurd rfl other, list ▸ suffix⟩

/-- Stopped without harm to the directory that is copied. -/
def SourceSafe (c : Copying) (e : Stop Error) (c' : Copying) : Prop :=
  e ≠ .crash → c'.source = c.source

theorem SourceSafe.after {a b c : Copying} {e : Stop Error} (ab : b.source = a.source)
    (bc : SourceSafe b e c) : SourceSafe a e c := fun other => (bc other).trans ab

def Cut (c : Copying) (e : Stop Error) (c' : Copying) : Prop :=
  Injected c.faults e ∧ SourceSafe c e c'

def Went (c c' : Copying) : Prop := c'.source = c.source ∧ c'.faults <:+ c.faults

theorem Cut.after {a b c : Copying} {e : Stop Error} (ab : Went a b) (bc : Cut b e c) :
    Cut a e c := ⟨bc.1.mono ab.2, bc.2.after ab.1⟩

theorem Went.trans {a b c : Copying} (ab : Went a b) (bc : Went b c) : Went a c :=
  ⟨bc.1.trans ab.1, bc.2.trans ab.2⟩

theorem ignoredEnds (fully : Option Disk → Option Disk) (c : Copying) :
    Ends (ignoreError (Copying.atomically fully)) c (fun _ => Went c) (Cut c) := by
  have shorter : ∀ c' : Copying, c'.source = c.source → c'.faults <:+ c.faults → Went c c' :=
    fun _ same suffix => ⟨same, suffix⟩
  refine endsIgnore ((Copying.effectEnds _ _ c).mono ?_ ?_)
  · rintro _ _ ⟨fs, rfl, suffix⟩
    exact ⟨rfl, suffix⟩
  · intro e c' stop
    cases e with
    | error e => exact ⟨stop.2.1 (by simp), stop.2.2⟩
    | panic => exact ⟨stop.1, stop.2.1⟩
    | crash => exact ⟨stop.1, stop.2.1⟩

theorem cleanupEnds (copied : List FileName) (c : Copying) :
    Ends (Copying.cleanup copied) c (fun _ => Went c) (Cut c) := by
  have round : ∀ (f : FileName) (rest : List FileName) (c₁ : Copying), Went c c₁ →
      Ends (ignoreError (Copying.atomically (Option.map (·.without f)))) c₁ (fun _ => Went c)
        (Cut c) := fun f rest c₁ went =>
    (ignoredEnds _ c₁).mono (fun _ _ next => went.trans next) (fun _ _ stop => stop.after went)
  refine (endsForM (fun _ => Went c) round copied ⟨rfl, List.suffix_rfl⟩).bind (fun _ c₁ went => ?_)
  exact (ignoredEnds _ c₁).mono (fun _ _ next => went.trans next) (fun _ _ stop => stop.after went)

/-- The target can be made anew. -/
def Free (dest : Option Disk) : Prop := ∀ d ∈ dest, d.bare

theorem prepareEnds (occupied : String) (c : Copying) : Ends (Copying.prepare occupied) c
    (fun _ c' => Free c.dest ∧ ∃ fs, c' = ⟨fs, c.source, some .empty⟩ ∧ fs <:+ c.faults)
    (fun e c' => (Injected c.faults e ∨ ¬ Free c.dest) ∧ SourceSafe c e c') := by
  have make : ∀ c₁ : Copying, Free c.dest → c₁.source = c.source → c₁.faults <:+ c.faults →
      Ends (Copying.atomically (fun _ => some .empty)) c₁
        (fun _ c' => Free c.dest ∧ ∃ fs, c' = ⟨fs, c.source, some .empty⟩ ∧ fs <:+ c.faults)
        (fun e c' => (Injected c.faults e ∨ ¬ Free c.dest) ∧ SourceSafe c e c') := by
    intro c₁ free same suffix
    refine (Copying.effectEnds _ _ c₁).mono ?_ ?_
    · rintro _ _ ⟨fs, rfl, shorter⟩
      exact ⟨free, fs, by rw [same], shorter.trans suffix⟩
    · exact fun e c' stop => ⟨.inl (stop.1.mono suffix), SourceSafe.after same stop.2.1⟩
  obtain ⟨faults, source, dest⟩ := c
  unfold Copying.prepare
  refine endsBindGet ?_
  cases dest with
  | none => exact make _ (fun _ mem => nomatch mem) rfl List.suffix_rfl
  | some d =>
    refine endsIte (fun bare => ?_) (fun full => ?_)
    · have free : Free (some d) := by
        intro d' mem
        cases mem
        exact bare
      refine Ends.bind ((Copying.effectEnds _ _ _).mono (fun _ _ h => h) ?_) ?_
      · exact fun e c' stop => ⟨.inl stop.1, stop.2.1⟩
      · rintro _ _ ⟨fs, rfl, suffix⟩
        exact make ⟨fs, source, none⟩ free rfl suffix
    · exact ⟨.inr (fun free => full (free d rfl)), fun _ => rfl⟩

theorem copyFileEnds {f : FileName} (there : c.dest = some d) : Ends (Copying.copyFile f) c
    (fun _ c' => c.source.has f ∧ ∃ fs,
      c' = ⟨fs, c.source, some (c.source.withCopy f none d)⟩ ∧ fs <:+ c.faults)
    (fun e c' => (Injected c.faults e ∨ c.source.has f = false) ∧ SourceSafe c e c' ∧
      c'.faults <:+ c.faults) := by
  unfold Copying.copyFile
  refine endsBindGet (endsIte (fun has => ?_) (fun missing => ?_))
  · refine (Copying.effectEnds _ _ c).mono ?_ ?_
    · rintro _ _ ⟨fs, rfl, suffix⟩
      refine ⟨has, fs, ?_, suffix⟩
      rw [there]
      rfl
    · exact fun e c' stop => ⟨.inl stop.1, stop.2.1, stop.2.2⟩
  · exact ⟨.inr (by simpa using missing), fun _ => rfl, List.suffix_rfl⟩

def copied (src : Disk) (files : List FileName) (d : Disk) : Disk :=
  files.foldl (fun d f => src.withCopy f none d) d

theorem copyAllEnds (files : List FileName) (done : List FileName) (there : c.dest = some d) :
    Ends (Copying.copyAll done files) c
      (fun _ c' => (∀ f ∈ files, c.source.has f) ∧ ∃ fs,
        c' = ⟨fs, c.source, some (copied c.source files d)⟩)
      (fun e c' => (Injected c.faults e ∨ ∃ f ∈ files, c.source.has f = false) ∧
        SourceSafe c e c') := by
  induction files generalizing c d done with
  | nil =>
    refine ⟨fun _ m => (nomatch m), c.faults, ?_⟩
    obtain ⟨faults, source, dest⟩ := c
    cases there
    rfl
  | cons f files ih =>
    have first := copyFileEnds (f := f) there
    unfold Ends Copying.copyAll
    cases run : Copying.copyFile f c with
    | ok u c₁ =>
      obtain ⟨has, fs, rfl, suffix⟩ := (endsOfRun run).mp first
      refine Ends.mono (ih (done ++ [f]) rfl) ?_ ?_
      · rintro _ _ ⟨all, fs', rfl⟩
        refine ⟨fun g m => ?_, fs', rfl⟩
        rcases List.mem_cons.mp m with rfl | m
        · exact has
        · exact all g m
      · rintro e c' ⟨why, safe⟩
        refine ⟨why.imp (fun i => i.mono suffix) ?_, safe⟩
        rintro ⟨g, m, missing⟩
        exact ⟨g, List.mem_cons_of_mem _ m, missing⟩
    | error e c₁ =>
      obtain ⟨why, safe, suffix⟩ := (endsOfError run).mp first
      have why : Injected c.faults e ∨ ∃ g ∈ f :: files, c.source.has g = false :=
        why.imp_right (fun missing => ⟨f, List.mem_cons_self, missing⟩)
      cases e with
      | error e =>
        have went : Went c c₁ := ⟨safe (by simp), suffix⟩
        refine Ends.bind ((cleanupEnds done c₁).mono (fun _ _ h => h) ?_) ?_
        · exact fun e' c' stop => ⟨.inl (stop.after went).1, (stop.after went).2⟩
        · exact fun _ c' clean => ⟨why, fun _ => (went.trans clean).1⟩
      | panic => exact ⟨why, safe⟩
      | crash => exact ⟨why, safe⟩

end Copies

section Saving

def Kept (db : Database) : Prop :=
  db.disk.manifest = some db.manifest.save ∧ db.manifest ∈ db.saves

/-- Nothing changes that a saved manifest is about. -/
def Leaves (db db' : Database) : Prop :=
  db'.disk.manifest = db.disk.manifest ∧ db'.manifest = db.manifest ∧ db'.saves = db.saves

instance : Std.Refl Leaves := ⟨fun _ => ⟨rfl, rfl, rfl⟩⟩

instance : IsTrans Database Leaves :=
  ⟨fun _ _ _ ab bc => ⟨bc.1.trans ab.1, bc.2.1.trans ab.2.1, bc.2.2.trans ab.2.2⟩⟩

theorem Leaves.kept {db db' : Database} (h : Leaves db db') (kept : Kept db) : Kept db' := by
  obtain ⟨disk, manifest, saves⟩ := h
  rw [Kept, disk, manifest, saves]
  exact kept

theorem leavesAtomically {fully : Disk → Disk} (same : ∀ d, (fully d).manifest = d.manifest) :
    Moves Leaves (Database.atomically fully) := by
  intro db
  refine (Database.effectEnds _ _ _ db).mono ?_ ?_
  · rintro _ _ ⟨fs, -, rfl⟩
    exact ⟨same _, rfl, rfl⟩
  · rintro e _ ⟨-, fs, -, ⟨-, n, rfl⟩ | ⟨-, n, k, rfl⟩⟩
    · exact ⟨rfl, rfl, rfl⟩
    · refine ⟨?_, rfl, rfl⟩
      dsimp only [Disk.crashed]
      split
      · rfl
      · exact same _

theorem endsAny {α : Type} (x : DbM α) (db : Database) :
    Ends x db (fun _ _ => True) (fun _ _ => True) := by
  unfold Ends
  split <;> trivial

theorem saveKept (db : Database) : Ends Database.saveManifest db (fun _ db' => Kept db')
    (fun _ _ => True) := by
  refine (Database.saveManifestEnds db).mono ?_ (fun _ _ _ => trivial)
  rintro _ db' ⟨-, step, saved⟩
  rw [Kept, step.manifest, step.saves]
  exact ⟨saved, List.mem_append_right _ (List.mem_singleton.mpr rfl)⟩

theorem replaceKept (segments : List SegmentMeta) (old : List Nat) (db : Database) :
    Ends (Database.replaceTables segments old) db (fun _ db' => Kept db') (fun _ _ => True) := by
  have remove : ∀ id, Moves Leaves (Database.removeFile id) := by
    intro id
    refine Moves.ignore (leavesAtomically ?_)
    exact fun _ => rfl
  have removes : Moves Leaves (old.forM Database.removeFile) := Moves.forM remove old
  unfold Database.replaceTables
  refine endsBindModify ((saveKept _).bind (fun _ db₁ kept => endsBindModify ?_))
  exact (removes _).mono (fun _ _ left => left.kept kept) (fun _ _ _ => trivial)

theorem mergeKept (l0 overlapIds : List Nat) (retained : List SegmentMeta) (db : Database) :
    Ends (Database.mergeInto l0 overlapIds retained) db (fun _ db' => Kept db')
      (fun _ _ => True) := by
  unfold Database.mergeInto
  refine (endsAny _ _).bind (fun _ _ _ => endsBindGet ((endsAny _ _).bind (fun _ _ _ => ?_)))
  exact (endsAny _ _).bind (fun _ _ _ => replaceKept _ _ _)

theorem compactKept {db : Database} (kept : Kept db) : Ends Database.compact db
    (fun _ db' => Kept db') (fun _ _ => True) := by
  unfold Database.compact
  refine endsBindGet (endsIte (fun _ => kept) (fun _ => (endsAny _ _).bind (fun bounds _ _ => ?_)))
  cases bounds with
  | none => exact trivial
  | some bounds => exact mergeKept _ _ _ _

theorem flushKept (db : Database) : Ends Database.flush db
    (fun _ db' => db.memtable.isEmpty ∧ db' = db ∨ ¬ db.memtable.isEmpty ∧ Kept db')
    (fun _ _ => True) := by
  unfold Database.flush
  refine endsBindGet (endsIte (fun none => .inl ⟨none, rfl⟩) (fun some_ => ?_))
  refine Ends.bind (Ends.mono (endsAny _ _) (fun _ _ h => h) (fun _ _ h => h)) (fun _ _ _ => ?_)
  refine (endsAny _ _).bind (fun _ _ _ => (endsAny _ _).bind (fun _ _ _ => ?_))
  refine (saveKept _).bind (fun _ db₁ kept => endsBindModify ?_)
  have truncates : Moves Leaves Database.walTruncate := by
    refine leavesAtomically ?_
    exact fun _ => rfl
  refine Ends.bind ((truncates _).mono (fun _ _ h => h) (fun _ _ _ => trivial)) ?_
  intro _ db₂ left
  refine endsBindModify (endsBindGet (endsIte (fun _ => ?_) (fun _ => ?_)))
  · have kept' : Kept { db₂ with memtable := .new } := left.kept kept
    refine (compactKept kept').mono (fun _ _ done => ?_) (fun _ _ _ => trivial)
    exact .inr ⟨some_, done⟩
  · exact .inr ⟨some_, left.kept kept⟩

end Saving

section Roots
variable {d root : Disk} {m : Manifest} {ids : List Nat}

/-- The directory has the files of `src` beside the log, and of its tables those named. -/
structure CopyOf (src : Disk) (ids : List Nat) (root : Disk) : Prop where
  version : root.version = src.version
  manifest : root.manifest = src.manifest
  schema : root.schema = src.schema
  tables : ∀ id, root.tables.get id = if id ∈ ids then src.tables.get id else none
  wal : root.wal = []
  tail : root.tail = []

theorem copiedWith (src : Disk) (files : List FileName) (d : Disk) :
    (copied src files d).version = (if .version ∈ files then src.version else d.version) ∧
    (copied src files d).manifest = (if .manifest ∈ files then src.manifest else d.manifest) ∧
    (copied src files d).schema = (if .schema ∈ files then src.schema else d.schema) ∧
    (∀ id, (copied src files d).tables.get id =
      if .table id ∈ files ∧ src.tables.get id ≠ none then src.tables.get id
      else d.tables.get id) ∧
    (copied src files d).wal = d.wal ∧ (copied src files d).tail = d.tail := by
  induction files generalizing d with
  | nil => simp [copied]
  | cons f files ih =>
    obtain ⟨version, manifest, schema, tables, wal, tail⟩ := ih (src.withCopy f none d)
    rw [copied, List.foldl_cons, ← copied, version, manifest, schema, wal, tail]
    cases f with
    | table id =>
      cases file : src.tables.get id with
      | none =>
        have skip : src.withCopy (.table id) none d = d := by simp [Disk.withCopy, file]
        rw [skip] at tables ⊢
        refine ⟨by simp, by simp, by simp, fun i => ?_, rfl, rfl⟩
        rw [tables]
        by_cases same : i = id
        · simp [same, file]
        · simp [same]
      | some bytes =>
        have add : src.withCopy (.table id) none d =
            { d with tables := d.tables.insert id bytes } := by simp [Disk.withCopy, file]
        rw [add] at tables ⊢
        refine ⟨by simp, by simp, by simp, fun i => ?_, rfl, rfl⟩
        rw [tables, OrderedMap.getInsert]
        by_cases same : i = id
        · simp [same, file]
        · simp [same]
    | _ =>
      refine ⟨by simp [Disk.withCopy], by simp [Disk.withCopy], by simp [Disk.withCopy],
        fun i => (tables i).trans (by simp [Disk.withCopy]), rfl, rfl⟩

theorem copyOf (src : Disk) (ids : List Nat) :
    CopyOf src ids (copied src (Copying.plainFiles src ++ ids.map .table) .empty) := by
  obtain ⟨version, manifest, schema, tables, wal, tail⟩ :=
    copiedWith src (Copying.plainFiles src ++ ids.map .table) .empty
  refine ⟨version.trans ?_, manifest.trans ?_, schema.trans ?_, fun id => (tables id).trans ?_, wal,
    tail⟩
  · cases file : src.version <;> simp [Copying.plainFiles, Disk.has, file, Disk.empty]
  · cases file : src.manifest <;> simp [Copying.plainFiles, Disk.has, file, Disk.empty]
  · cases file : src.schema <;> simp [Copying.plainFiles, Disk.has, file, Disk.empty]
  · have empty : Disk.empty.tables.get id = none := rfl
    rw [empty]
    cases file : src.tables.get id <;> simp [Copying.plainFiles]

theorem presentIds {tables : OrderedMap Nat Bytes}
    (h : Present tables (converted tables (Database.updateLevel0 id m))) :
    ∀ i ∈ m.allIds, tables.get i ≠ none := by
  intro i mem
  rw [← levelZero] at mem
  generalize Database.updateLevel0 id m = m at h mem
  by_cases none : legacyOf m = []
  · rw [converted, if_pos none] at h
    rcases List.mem_append.mp mem with level | segment
    · exact h.levels i level
    · obtain ⟨s, ms, rfl⟩ := List.mem_map.mp segment
      exact h.files s ms
  · have listed : ∀ j ∈ legacyOf m, tables.get j ≠ .none := by
      intro j mj
      have inside : segOf tables j ∈ (converted tables m).segments := by
        rw [converted, if_neg none]
        exact sortedMem.mpr (List.mem_map_of_mem mj)
      exact h.files _ inside
    have unsegmented : m.segments = [] := by
      by_contra some_
      exact none (by rw [legacyOf, if_neg some_])
    have level : i ∈ m.levels.flatten := by
      rcases List.mem_append.mp mem with level | segment
      · exact level
      · rw [unsegmented] at segment
        cases segment
    obtain ⟨l, there, inside⟩ := List.mem_flatten.mp level
    obtain ⟨k, bound, rfl⟩ := List.mem_iff_getElem.mp there
    by_cases first : k = 1
    · subst first
      refine listed i ?_
      rw [legacyOf, if_pos unsegmented, List.getElem?_eq_getElem bound]
      exact inside
    · refine h.levels i ?_
      rw [converted, if_neg none]
      refine List.mem_flatten.mpr ⟨_, ?_, inside⟩
      refine List.mem_iff_getElem.mpr ⟨k, by simpa using bound, ?_⟩
      exact List.getElem_set_ne (fun eq => first eq.symm) _

/-- What `restore` takes for a copy of a store. -/
structure Root (d : Disk) (m : Manifest) : Prop where
  version : VersionOk d
  there : d.manifest ≠ none
  loaded : Manifest.load d.manifest = .ok m

theorem checkVersionEnds (d : Disk) (c : Copying) : Ends (Copying.checkVersion d) c
    (fun _ c' => c' = c ∧ VersionOk d) (fun _ c' => c' = c ∧ ¬ VersionOk d) := by
  have read : Ends (lift (Database.readVersion d) : CopyM (Option Nat)) c
      (fun found c' => c' = c ∧ Database.readVersion d = .ok found)
      (fun _ c' => c' = c ∧ ¬ VersionOk d) := by
    refine endsLift _ (fun found ok => ⟨rfl, ok⟩) (fun e fails => ⟨rfl, fun version => ?_⟩)
    rcases version with none | ⟨text, v, some_, parse, -⟩
    · rw [Database.readVersion, none] at fails
      cases fails
    · rw [Database.readVersion, some_] at fails
      cases parse.symm.trans fails
  refine read.bind ?_
  rintro found _ ⟨rfl, ok⟩
  cases found with
  | none =>
    refine ⟨rfl, .inl ?_⟩
    by_contra some_
    obtain ⟨text, some_⟩ := Option.ne_none_iff_exists'.mp some_
    rw [Database.readVersion, some_] at ok
    obtain ⟨v, same⟩ := parseVersionSome ok
    cases same
  | some v =>
    obtain ⟨text, some_⟩ : ∃ text, d.version = some text := by
      refine Option.ne_none_iff_exists'.mp (fun none => ?_)
      rw [Database.readVersion, none] at ok
      cases ok
    have parse : Database.parseVersion text = .ok (some v) := by
      rw [Database.readVersion, some_] at ok
      exact ok
    refine endsLift _ (fun _ compatible => ⟨rfl, .inr ⟨text, v, some_, parse, compatible⟩⟩) ?_
    refine fun e fails => ⟨rfl, fun version => ?_⟩
    rcases version with none | ⟨text', v', same, parse', compatible⟩
    · rw [some_] at none
      cases none
    · rw [some_] at same
      cases same
      rw [parse] at parse'
      cases parse'
      rw [fails] at compatible
      cases compatible

def restored (root : Disk) (m : Manifest) : Disk :=
  copied root (Copying.plainFiles root ++ (m.allIds.map .table).filter (fun f => root.has f)) .empty

theorem restoredOf (root : Disk) (m : Manifest) : CopyOf root m.allIds (restored root m) := by
  have there : ∃ ids : List Nat, (m.allIds.map FileName.table).filter (fun f => root.has f) =
      ids.map .table ∧ ∀ id, id ∈ ids ↔ id ∈ m.allIds ∧ root.tables.get id ≠ none := by
    refine ⟨m.allIds.filter (fun id => root.has (.table id)), ?_, fun id => ?_⟩
    · rw [List.filter_map]
      rfl
    · simp [Disk.has, Option.isSome_iff_ne_none]
  obtain ⟨ids, same, mem⟩ := there
  have copy := copyOf root ids
  rw [restored, same]
  refine ⟨copy.version, copy.manifest, copy.schema, fun id => ?_, copy.wal, copy.tail⟩
  rw [copy.tables]
  by_cases file : root.tables.get id = none
  · simp [file]
  · simp [mem, file]

theorem restoreEnds (c : Copying) : Ends Copying.restore c
    (fun _ c' => ∃ m, Root c.source m ∧ Free c.dest ∧ ∃ fs,
      c' = ⟨fs, c.source, some (restored c.source m)⟩)
    (fun e _ => Injected c.faults e ∨ ¬ Free c.dest ∨ ∀ m, ¬ Root c.source m) := by
  unfold Copying.restore
  refine endsBindGet ?_
  refine Ends.bind ((checkVersionEnds c.source c).mono (fun _ _ h => h) ?_) ?_
  · exact fun _ _ bad => .inr (.inr (fun m root => bad.2 root.version))
  rintro _ c' ⟨rfl, version⟩
  refine endsIte (fun none => ?_) (fun there => ?_)
  · exact .inr (.inr (fun m root => root.there none))
  refine Ends.bind ((prepareEnds _ c').mono (fun _ _ h => h) ?_) ?_
  · exact fun e _ stop => stop.1.imp id .inl
  rintro _ _ ⟨free, fs, rfl, suffix⟩
  have load : Ends (lift (Manifest.load c'.source.manifest) : CopyM Manifest)
      ⟨fs, c'.source, some .empty⟩
      (fun m c => c = ⟨fs, c'.source, some .empty⟩ ∧ Manifest.load c'.source.manifest = .ok m)
      (fun e _ => Injected c'.faults e ∨ ¬ Free c'.dest ∨ ∀ m, ¬ Root c'.source m) := by
    refine endsLift _ (fun m ok => ⟨rfl, ok⟩) (fun e fails => .inr (.inr (fun m root => ?_)))
    exact nomatch root.loaded.symm.trans fails
  refine load.bind ?_
  rintro m _ ⟨rfl, loaded⟩
  refine (copyAllEnds _ [] rfl).mono ?_ ?_
  · rintro _ _ ⟨-, fs', rfl⟩
    exact ⟨m, ⟨version, there, loaded⟩, free, fs', rfl⟩
  · rintro e _ ⟨injected | ⟨f, mem, missing⟩, -⟩
    · exact .inl (injected.mono suffix)
    · have has : c'.source.has f := by
        rcases List.mem_append.mp mem with plain | table
        · exact (List.mem_filter.mp plain).2
        · exact (List.mem_filter.mp table).2
      rw [missing] at has
      cases has

theorem backupEnds (db : Database) (dest : Option Disk) : Ends Database.backup (db, dest)
    (fun _ s => ∃ db₁ fs root, Database.flush db = .ok () db₁ ∧
      s = ({ db₁ with faults := fs }, some root) ∧ CopyOf db₁.disk db₁.manifest.allIds root)
    (fun _ _ => True) := by
  unfold Database.backup
  have flush : Ends (onSource Database.flush) (db, dest)
      (fun _ s => ∃ db₁, Database.flush db = .ok () db₁ ∧ s = (db₁, dest)) (fun _ _ => True) := by
    refine endsZoom ?_
    cases run : Database.flush db with
    | ok _ db₁ => exact (endsOfRun run).mpr ⟨db₁, rfl, rfl⟩
    | error e db₁ => exact (endsOfError run).mpr trivial
  refine flush.bind ?_
  rintro _ _ ⟨db₁, run, rfl⟩
  refine @Ends.bind _ _ _ _ _ _ _ (fun _ s => ∃ fs, s = ({ db₁ with faults := fs }, some .empty))
    _ _ ?_ ?_
  · refine endsZoom ((prepareEnds _ _).mono ?_ (fun _ _ _ => trivial))
    rintro _ _ ⟨-, fs, rfl, -⟩
    exact ⟨fs, rfl⟩
  rintro _ _ ⟨fs, rfl⟩
  refine endsBindGet (endsZoom ((copyAllEnds _ [] rfl).mono ?_ (fun _ _ _ => trivial)))
  rintro _ _ ⟨-, fs', rfl⟩
  exact ⟨db₁, fs', _, run, rfl, copyOf _ _⟩

end Roots

section Reproducing
variable [Crc32] {db db' : Database} {d root : Disk} {m md : Manifest} {mem dur v : View}

/-- What a program that only reads answers on every listing of `v`, it answers here. -/
def Answering (v : View) (s : EntityStore) : Prop :=
  ∀ {α : Type} (p : KvProg α) (post : α → Prop) (refused : Stop Error → Prop), p.ReadOnly →
    p.Meets (fun _ => True) (fun _ => True) (fun a _ => post a) (fun e _ => refused e) v →
    Ends (p.run EntityStore.machine) s (fun a _ => post a) (fun e _ => refused e)

theorem Store.answering {s : EntityStore} (h : Store MyLsmDb.any s.db v dur) : Answering v s := by
  intro α p post refused only meets
  induction p generalizing s with
  | done a => exact meets
  | halt e => exact meets
  | get key next ih =>
    have got : Completes (EntityStore.machine.get key) s
        (fun found s' => found = v key ∧ Store MyLsmDb.any s'.db v dur) :=
      endsZoom ((h.get key).imp (fun _ _ done => ⟨done.1, h.reads done.2⟩))
    refine Ends.bind (got.mono (fun _ _ done => done) (fun _ _ => False.elim)) (fun found s' done => ?_)
    obtain ⟨rfl, store⟩ := done
    exact ih _ store (only _) meets
  | scan start stop next ih =>
    obtain ⟨vol, ⟨md, views⟩, -⟩ := id h
    have read := Database.scanAllExact views.cached views.memory.readable start stop
    have scanned : Completes (EntityStore.machine.scan start stop) s
        (fun rows s' => KeyValue.Lists v start stop rows ∧ Store MyLsmDb.any s'.db v dur) := by
      refine endsZoom (read.imp (fun rows db' done => ?_))
      obtain ⟨rfl, reads⟩ := done
      exact ⟨KeyValue.rangeLists (flattenOrdered _) h.entries start stop, h.reads reads⟩
    refine Ends.bind (scanned.mono (fun _ _ done => done) (fun _ _ => False.elim))
      (fun rows s' done => ?_)
    exact ih rows done.2 (only rows) (meets rows done.1 (fun _ _ => trivial))
  | write key entry next ih => exact only.elim

/-- What an entity store shows: its map, its schema, up to the mark that it was changed since it was
saved, and the answers of its queries. -/
structure Content (v : View) (schema : Schema) (s : EntityStore) : Prop where
  shows : Shows s.db v
  schema : s.schema.saved = schema.saved
  answers : Answering v s

theorem Store.content {s : EntityStore} (h : Store MyLsmDb.any s.db v dur) {schema : Schema}
    (same : s.schema.saved = schema.saved) : Content v schema s := ⟨h.shows, same, h.answering⟩

/-- The copy `root` of a store gives a store with the same content, and the first one still
has it. -/
def Reproduced (s s' : EntityStore) (root : Disk) : Prop :=
  ∃ v, Content v s.schema s ∧ Content v s.schema s' ∧ ∀ faults dest, Free dest →
    Ends Copying.restore ⟨faults, root, dest⟩
      (fun _ c => ∃ r, c.dest = some r ∧ ∀ opts, opts.segmentMaxRecords ≠ 0 →
        Completes EntityStore.openWith (EntityStore.boot r [] opts)
          (fun _ t => Content v s.schema t))
      (fun e _ => Injected faults e)

/-- What was written is in memory, or there is a manifest on the medium without other tables
than those of the manifest in memory. -/
def Portable (db : Database) : Prop :=
  ¬ db.memtable.isEmpty ∨ ∃ m, Root db.disk m ∧ m.allIds ⊆ db.manifest.allIds

/-- The schema on the medium is the one in memory. -/
def SchemaKept (s : EntityStore) : Prop :=
  ∃ loaded, Schema.load s.db.disk.schema = .ok loaded ∧ loaded.saved = s.schema.saved

/-- No index is being built according to the schema on the medium. -/
def Finished (d : Disk) : Prop :=
  ∀ loaded, Schema.load d.schema = .ok loaded → loaded.buildingIndexes = []

theorem openRestored {r : Disk} (ready : Recoverable r md) (wal : r.wal = []) (tail : r.tail = [])
    (view : tablesView r.tables md = v) (finished : Finished r) {opts : Options} :
    Ends EntityStore.openWith (EntityStore.boot r [] opts)
      (fun _ t => (∃ dur, Store any t.db v dur) ∧ Schema.load r.schema = .ok t.schema)
      (fun _ _ => ∀ loaded, Schema.load r.schema ≠ .ok loaded) := by
  have engine : Completes (EntityStore.onDb Database.openWith) (EntityStore.boot r [] opts)
      (fun _ t => (∃ dur, Store any t.db v dur) ∧ t.db.disk.schema = r.schema) := by
    refine endsZoom ((openWithEnds ready tail).mono (fun _ db done => ?_) (fun e db stop => ?_))
    · have store := done.1.store
      rw [wal, view] at store
      exact ⟨⟨_, store.any⟩, done.1.medium.schema⟩
    · exact noInjection stop.1
  refine Ends.bind (engine.mono (fun _ _ done => done) (fun _ _ => False.elim)) (fun _ t done => ?_)
  obtain ⟨store, same⟩ := done
  have load : Ends EntityStore.loadSchema t
      (fun _ t' => ∃ schema, Schema.load r.schema = .ok schema ∧ t' = t.setSchema schema)
      (fun _ _ => ∀ schema, Schema.load r.schema ≠ .ok schema) := by
    have lifted : Ends (lift (Schema.load t.db.disk.schema)) t
        (fun schema t' => Schema.load r.schema = .ok schema ∧ t' = t)
        (fun _ _ => ∀ schema, Schema.load r.schema ≠ .ok schema) := by
      refine endsLift _ (fun schema ok => ⟨same ▸ ok, rfl⟩) (fun e fails schema ok => ?_)
      rw [← same, fails] at ok
      cases ok
    refine endsBindGet (lifted.bind ?_)
    rintro schema t' ⟨ok, rfl⟩
    exact ⟨schema, ok, rfl⟩
  have recovers : ∀ t', Schema.load r.schema = .ok t'.schema →
      EntityStore.recoverIndexes t' = .ok () t' := by
    intro t' ok
    change t'.schema.buildingIndexes.forM EntityStore.recoverIndex t' = _
    rw [finished _ ok]
    rfl
  refine endsTryCatch (Ends.bind (load.mono (fun _ _ done => done) (fun e t' fails => ?_)) ?_)
  · have thrown : ∀ {α : Type} (x : StoreM α), Ends x t' (fun _ _ => True)
        (fun _ _ => ∀ schema, Schema.load r.schema ≠ .ok schema) := by
      intro α x
      unfold Ends
      split
      · trivial
      · exact fails
    exact endsIte (fun _ => (thrown _).bind (fun _ _ _ => fails)) (fun _ => fails)
  · rintro _ _ ⟨schema, ok, rfl⟩
    exact (endsOfRun (recovers (t.setSchema schema) ok)).mpr ⟨store, ok⟩

omit [Crc32] in
theorem CopyOf.restores (copy : CopyOf d db.manifest.allIds root) (ready : Recoverable d md)
    (text : d.manifest = some md.save) (sub : md.allIds ⊆ db.manifest.allIds) (faults : List Fault)
    {dest : Option Disk} (free : Free dest) : Ends Copying.restore ⟨faults, root, dest⟩
      (fun _ c => ∃ r, c.dest = some r ∧ Recoverable r md ∧ r.wal = [] ∧ r.tail = [] ∧
        tablesView r.tables md = tablesView d.tables md ∧ r.schema = d.schema)
      (fun e _ => Injected faults e) := by
  obtain ⟨m, loaded, update⟩ := loadRecoverable ready
  have version : ∀ {r : Disk}, r.version = d.version → VersionOk r := by
    intro r same
    rw [VersionOk, same]
    exact ready.version
  have isRoot : Root root m := by
    refine ⟨version copy.version, ?_, copy.manifest ▸ loaded⟩
    rw [copy.manifest, text]
    exact Option.some_ne_none _
  refine (restoreEnds _).mono ?_ ?_
  · rintro _ _ ⟨m', other, -, fs, rfl⟩
    cases other.loaded.symm.trans isRoot.loaded
    have again := restoredOf root m
    have ids : m.allIds = md.allIds := by rw [← update, levelZero]
    have same : ∀ id ∈ md.allIds, (restored root m).tables.get id = d.tables.get id := by
      intro id mem
      rw [again.tables, if_pos (ids ▸ mem), copy.tables, if_pos (sub mem)]
    have ready' : Recoverable (restored root m) md := by
      refine ⟨version (again.version.trans copy.version), ?_, ready.written,
        ready.holding.same same⟩
      exact .inl ((again.manifest.trans copy.manifest).trans text)
    exact ⟨_, rfl, ready', again.wal, again.tail, tablesViewSame ready.holding same,
      again.schema.trans copy.schema⟩
  · rintro e _ (injected | full | none)
    · exact injected
    · exact absurd free full
    · exact absurd isRoot (none m)

omit [Crc32] in
theorem Portable.ready (portable : Portable db) (store : Store any db mem dur)
    (version : VersionOk db.disk) (room : db.opts.segmentMaxRecords ≠ 0)
    (run : Database.flush db = .ok () db') (good : Good Writable db') :
    ∃ md, Recoverable db'.disk md ∧ db'.disk.manifest = some md.save ∧
      md.allIds ⊆ db'.manifest.allIds ∧ tablesView db'.disk.tables md = mem := by
  have done := (endsOfRun run).mp (store.flush room) ⟨good.fit, fun _ _ => trivial⟩
  have version' : VersionOk db'.disk := by
    rw [VersionOk, done.same.version]
    exact version
  obtain ⟨vol, ⟨md, views⟩, over_, -⟩ := done.store
  rcases (endsOfRun run).mp (flushKept db) with ⟨none, rfl⟩ | ⟨some_, text, saved⟩
  · obtain ⟨m, isRoot, sub⟩ := portable.resolve_left (not_not.mpr none)
    have text : db'.disk.manifest = some md.save := by
      rcases views.saved with text | ⟨none, -⟩
      · exact text
      · exact absurd none isRoot.there
    have loaded := isRoot.loaded
    rw [text] at loaded
    have ready : Recoverable db'.disk md :=
      ⟨version', views.saved, Manifest.loadWritable loaded, views.durable⟩
    obtain ⟨m', loaded', update⟩ := loadRecoverable ready
    rw [text] at loaded'
    cases loaded.symm.trans loaded'
    refine ⟨md, ready, text, ?_, views.dur⟩
    rw [← update, levelZero]
    exact sub
  · have memtable : db'.memtable = .new := by
      rcases done.left with ⟨none, -⟩ | ⟨new, -⟩
      · exact absurd none some_
      · exact new
    refine ⟨db'.manifest, ⟨version', .inl text, good.written _ saved, views.memory⟩, text,
      List.Subset.refl _, ?_⟩
    rw [views.vol, ← over_, memtable]
    rfl

theorem CopyOf.portable (memory : Holding db.disk.tables db.manifest)
    (copy : CopyOf db.disk db.manifest.allIds root) (version : VersionOk db.disk)
    (restores : Completes Copying.restore ⟨[], root, none⟩ (fun _ c => ∃ r, c.dest = some r ∧
      ∃ db₂, Database.openWith (Database.boot r [] ⟨0, 0, 1⟩) = .ok () db₂)) : Portable db := by
  obtain ⟨_, c, run, r, there, db₂, opened⟩ := restores.run
  obtain ⟨m, isRoot, -, fs, rfl⟩ := (endsOfRun run).mp (restoreEnds _)
  cases there
  have again := restoredOf root m
  have files : ∀ id, (restored root m).tables.get id ≠ none →
      id ∈ db.manifest.allIds ∧ (restored root m).tables.get id = db.disk.tables.get id := by
    intro id some_
    rw [again.tables, copy.tables] at some_ ⊢
    by_cases listed : id ∈ m.allIds
    · by_cases known : id ∈ db.manifest.allIds
      · exact ⟨known, by rw [if_pos listed, if_pos known]⟩
      · exact absurd (by rw [if_pos listed, if_neg known]) some_
    · exact absurd (if_neg listed) some_
  have formed : ∀ m', Manifest.load (restored root m).manifest = .ok m' →
      WellFormed (restored root m).tables (consulted m') := fun m' _ id _ some_ =>
    (memory.hasTable (files id some_).1).same (files id some_).2
  obtain ⟨m', acceptable, -⟩ := (endsOfRun opened).mp (openAny formed)
  have loaded := acceptable.loaded
  rw [again.manifest] at loaded
  cases loaded.symm.trans isRoot.loaded
  refine .inr ⟨m, ⟨version, ?_, ?_⟩, fun id mem => ?_⟩
  · exact copy.manifest ▸ isRoot.there
  · exact copy.manifest ▸ isRoot.loaded
  · exact (files id (presentIds acceptable.present id mem)).1

/-- A restore that returns has restored all tables of the manifest. -/
def Complete (root : Disk) : Prop := ∀ faults dest n c m,
  Copying.restore ⟨faults, root, dest⟩ = .ok n c → Manifest.load root.manifest = .ok m →
    ∀ id ∈ m.allIds, root.tables.get id ≠ none

omit [Crc32] in
theorem restoreComplete (root : Disk) :
    Complete root ↔ ∀ m, Root root m → ∀ id ∈ m.allIds, root.tables.get id ≠ none := by
  constructor
  · intro complete m isRoot
    have completes : Completes Copying.restore ⟨[], root, none⟩ (fun _ _ => True) := by
      refine (restoreEnds _).mono (fun _ _ _ => trivial) ?_
      rintro e _ (injected | full | none)
      · exact noInjection injected
      · exact full (fun _ mem => nomatch mem)
      · exact none m isRoot
    obtain ⟨n, c, run, -⟩ := completes.run
    exact complete [] none n c m run isRoot.loaded
  · intro all faults dest n c m run loaded
    obtain ⟨m', isRoot, -⟩ := (endsOfRun run).mp (restoreEnds _)
    cases loaded.symm.trans isRoot.loaded
    exact all m isRoot

omit [Crc32] in
theorem backupEngine {s s' : EntityStore} {dest dest' : Option Disk} {n : Nat}
    (run : EntityStore.backup (s, dest) = .ok n (s', dest')) :
    Database.backup (s.db, dest) = .ok n (s'.db, dest') ∧ s' = { s with db := s'.db } := by
  unfold EntityStore.backup zoom at run
  dsimp only at run
  split at run
  · rename_i copied
    cases run
    exact ⟨copied, rfl⟩
  · cases run

theorem openEngine {r : Disk} {opts : Options} {t : EntityStore}
    (run : EntityStore.openWith (EntityStore.boot r [] opts) = .ok () t) :
    ∃ db, Database.openWith (Database.boot r [] opts) = .ok () db := by
  cases engine : Database.openWith (Database.boot r [] opts) with
  | ok _ db => exact ⟨db, rfl⟩
  | error e db =>
    have fails : Ends (EntityStore.onDb Database.openWith) (EntityStore.boot r [] opts)
        (fun _ _ => False) (fun _ _ => True) := endsZoom ((endsOfError engine).mpr trivial)
    have none : Ends EntityStore.openWith (EntityStore.boot r [] opts) (fun _ _ => False)
        (fun _ _ => True) := fails.bind (fun _ _ none => none.elim)
    exact ((endsOfRun run).mp none).elim

/-- When a backup gives the store again, and when a restore gives all of a backup. -/
theorem backupRestores :
    (∀ (s s' : EntityStore) (dest : Option Disk) (n : Nat) (root : Disk), Reached Fits (.up s) →
      EntityStore.backup (s, dest) = .ok n (s', some root) → Good Writable s'.db →
      Finished s.db.disk → (Reproduced s s' root ↔ Portable s.db ∧ SchemaKept s)) ∧
    ∀ root, Complete root ↔ ∀ m, Root root m → ∀ id ∈ m.allIds, root.tables.get id ≠ none := by
  refine ⟨fun s s' dest n root reach run good finished => ?_, restoreComplete⟩
  obtain ⟨⟨mem, dur, store⟩, version, room⟩ := reach.sound (fun _ _ _ fits => fits)
  obtain ⟨run, rest⟩ := backupEngine run
  obtain ⟨db₁, fs, _, flush, same, copy⟩ := (endsOfRun run).mp (backupEnds s.db dest)
  obtain ⟨db₂, schema, hint⟩ := s'
  cases same
  cases rest
  have good₁ : Good Writable db₁ := ⟨good.fit, good.written⟩
  have done := (endsOfRun flush).mp (store.flush room) ⟨good₁.fit, fun _ _ => trivial⟩
  have free : Free none := fun _ mem => nomatch mem
  constructor
  · rintro ⟨v, -, -, restores⟩
    have restores := restores [] none free
    have opens : Completes Copying.restore ⟨[], root, none⟩ (fun _ c => ∃ r, c.dest = some r ∧
        ∃ db, Database.openWith (Database.boot r [] ⟨0, 0, 1⟩) = .ok () db) := by
      refine restores.mono ?_ (fun _ _ stop => noInjection stop)
      rintro _ c ⟨r, there, opens⟩
      obtain ⟨_, t, run, -⟩ := (opens ⟨0, 0, 1⟩ (by decide)).run
      exact ⟨r, there, openEngine run⟩
    have portable : Portable s.db := by
      by_cases none : s.db.memtable.isEmpty
      · rcases (endsOfRun flush).mp (flushKept s.db) with ⟨-, rfl⟩ | ⟨some_, -⟩
        · obtain ⟨vol, ⟨md, views⟩, -⟩ := store
          exact copy.portable views.memory version opens
        · exact absurd none some_
      · exact .inl none
    refine ⟨portable, ?_⟩
    obtain ⟨md, ready, text, sub, view⟩ := portable.ready store version room flush good₁
    obtain ⟨_, c, run, r, there, -⟩ := opens.run
    obtain ⟨r', there', opens⟩ := (endsOfRun run).mp restores
    obtain ⟨r'', there'', ready', wal, tail, -, kept⟩ :=
      (endsOfRun run).mp (copy.restores ready text sub [] free)
    cases there.symm.trans there'
    cases there.symm.trans there''
    have saved : r.schema = s.db.disk.schema := kept.trans done.same.schema
    obtain ⟨_, t, run, content⟩ := (opens ⟨0, 0, 1⟩ (by decide)).run
    obtain ⟨-, loaded⟩ := (endsOfRun run).mp
      (openRestored ready' wal tail rfl (fun l ok => finished l (saved ▸ ok)))
    exact ⟨t.schema, saved ▸ loaded, content.schema⟩
  · rintro ⟨portable, loaded, load, kept⟩
    obtain ⟨md, ready, text, sub, view⟩ := portable.ready store version room flush good₁
    have after : Store any { db₁ with faults := fs } mem mem := done.store.same rfl rfl rfl rfl rfl
    refine ⟨mem, store.content rfl, after.content rfl, fun faults dest' free => ?_⟩
    refine (copy.restores ready text sub faults free).mono ?_ (fun _ _ stop => stop)
    rintro _ c ⟨r, there, ready', wal, tail, same, schema⟩
    have saved : r.schema = s.db.disk.schema := schema.trans done.same.schema
    refine ⟨r, there, fun opts _ => ?_⟩
    refine (openRestored ready' wal tail (same.trans view)
      (fun l ok => finished l (saved ▸ ok))).mono ?_ ?_
    · rintro _ t ⟨⟨dur', store'⟩, ok⟩
      rw [saved, load] at ok
      cases ok
      exact store'.content kept
    · intro e t none
      exact none loaded (saved ▸ load)

end Reproducing

section Empty
attribute [local instance] Wal.ieee

theorem emptyBackedUp : ∃ s n s' root,
    EntityStore.openWith (EntityStore.boot .empty [] ⟨1000, 4, 1⟩) = .ok () s ∧
    EntityStore.backup (s, none) = .ok n (s', some root) ∧ s.db.built = [] ∧ s'.db.built = [] ∧
    s'.db.saves = [] ∧ root.manifest = none :=
  ⟨_, _, _, _, rfl, rfl, rfl, rfl, rfl, rfl⟩

theorem emptyNotRestored : ¬ ∀ (s s' : EntityStore) (dest : Option Disk) (n : Nat) (root : Disk),
    Reached Fits (.up s) → EntityStore.backup (s, dest) = .ok n (s', some root) →
    Good Writable s'.db → Reproduced s s' root := by
  intro claim
  obtain ⟨s, n, s', root, opened, backup, unbuilt, built, saves, missing⟩ := emptyBackedUp
  have reach : Reached Fits (.up s) := .opened .fresh (by decide) opened (fittingNone unbuilt)
  have good : Good Writable s'.db := by
    refine ⟨fittingNone built, ?_⟩
    rw [saves]
    exact fun _ mem => nomatch mem
  obtain ⟨v, -, -, restores⟩ := claim s s' none n root reach backup good
  have completes : Completes Copying.restore ⟨[], root, none⟩ (fun _ _ => True) :=
    (restores [] none (fun _ mem => nomatch mem)).mono (fun _ _ _ => trivial)
      (fun _ _ stop => noInjection stop)
  obtain ⟨_, _, run, -⟩ := completes.run
  obtain ⟨m, isRoot, -⟩ := (endsOfRun run).mp (restoreEnds _)
  exact isRoot.there missing

def halfFlushed : List StoreCall :=
  [.collection ['u'], .putEntity 0 [97] ⟨[(['x'], .bool true)]⟩, .flush,
    .putEntity 0 [98] ⟨[(['x'], .bool false)]⟩]

theorem backupRestoresPair : ∃ s n s' root, Reached Fits (.up s) ∧
    EntityStore.backup (s, none) = .ok n (s', some root) ∧ Good Writable s'.db ∧
    s'.db.manifest.levels = [[1, 2]] ∧
    (Reproduced s s' root ↔ Portable s.db ∧ SchemaKept s) ∧ Portable s.db ∧ SchemaKept s := by
  obtain ⟨s₀, opened, calls⟩ : ∃ s₀,
      EntityStore.openWith (EntityStore.boot .empty [] ⟨1000, 4, 1⟩) = .ok () s₀ ∧
      (leaves (StoreCall.all halfFlushed) s₀).any (fun s => Fitting s.db ∧
        s.db.memtable.isEmpty = false ∧ Schema.load s.db.disk.schema = .ok s.schema ∧
        s.schema.buildingIndexes = [] ∧
        (leaves EntityStore.backup (s, none)).any (fun p => p.2.isSome ∧ Fitting p.1.db ∧
          p.1.db.manifest.levels = [[1, 2]] ∧
          p.1.db.saves = [⟨[[1]], [], 2⟩, ⟨[[1, 2]], [], 3⟩]) = true) = true := by
    refine ⟨_, rfl, ?_⟩
    decide +kernel
  obtain ⟨s, left, facts⟩ := (Option.any_eq_true _ _).mp calls
  obtain ⟨fits, waiting, saved, ready, backup⟩ := of_decide_eq_true facts
  obtain ⟨⟨⟩, run⟩ := leavesSome left
  obtain ⟨⟨s', dest⟩, left', facts⟩ := (Option.any_eq_true _ _).mp backup
  obtain ⟨there, fits', levels, saves⟩ := of_decide_eq_true facts
  obtain ⟨root, rfl⟩ := Option.isSome_iff_exists.mp there
  obtain ⟨n, copied⟩ := leavesSome left'
  have reach := reachedAll (by decide) opened run fits
  have good : Good Writable s'.db := by
    refine ⟨fits', fun m mem => ?_⟩
    rw [saves] at mem
    rcases List.mem_pair.mp mem with rfl | rfl
    all_goals exact ⟨by decide, by decide, by simp, by simp⟩
  have finished : Finished s.db.disk := by
    intro loaded load
    cases saved.symm.trans load
    exact ready
  have portable : Portable s.db := .inl (by rw [waiting]; simp)
  exact ⟨s, n, s', root, reach, copied, good, levels,
    backupRestores.1 s s' none n root reach copied good finished, portable, s.schema, saved, rfl⟩

end Empty
end MyLsmDb
