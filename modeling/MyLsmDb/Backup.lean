import MyLsmDb.Database

/-! Backup and restore: a directory is copied file by file into one that does not exist or
is empty. The copy of a store has the files of its manifest and no log. -/
namespace MyLsmDb
open ByteOrder (Bytes)
open Effect
open OrderedEntries
open Text
open Wal (Crc32)

inductive FileName where
  | version
  | manifest
  | schema
  | table (id : Nat)
  deriving DecidableEq, Repr

namespace Disk

def has (d : Disk) : FileName → Bool
  | .version => d.version.isSome
  | .manifest => d.manifest.isSome
  | .schema => d.schema.isSome
  | .table id => (d.tables.get id).isSome

def bare (d : Disk) : Bool :=
  d.version.isNone && d.manifest.isNone && d.schema.isNone && d.tables.entries.isEmpty &&
    d.wal.isEmpty && d.tail.isEmpty

def withCopy (src : Disk) (f : FileName) (arrived : Option Nat) (d : Disk) : Disk :=
  let cut {α : Type} (l : List α) : List α := arrived.elim l l.take
  match f with
  | .version => { d with version := src.version.map cut }
  | .manifest => { d with manifest := src.manifest.map cut }
  | .schema => { d with schema := src.schema.map cut }
  | .table id =>
    match src.tables.get id with
    | none => d
    | some bytes => { d with tables := d.tables.insert id (cut bytes) }

def without (d : Disk) : FileName → Disk
  | .version => { d with version := none }
  | .manifest => { d with manifest := none }
  | .schema => { d with schema := none }
  | .table id => { d with tables := d.tables.erase id }

end Disk

structure Copying where
  faults : List Fault
  source : Disk
  dest : Option Disk

abbrev CopyM := Act Error Copying

namespace Copying

def nextFault : CopyM Fault := do
  match (← get).faults with
  | [] => return .pass
  | f :: rest =>
    modify ({ · with faults := rest })
    return f

def effect (fully : Disk → Option Disk → Option Disk)
    (partly : Nat → Disk → Option Disk → Option Disk) : CopyM Unit := do
  match ← nextFault with
  | .pass => modify (fun c => { c with dest := fully c.source c.dest })
  | .fail arrived =>
    modify (fun c => { c with dest := partly arrived c.source c.dest })
    throw (.error .io)
  | .crash arrived kept =>
    modify (fun c => { c with
      source := c.source.crashed kept, dest := partly arrived c.source c.dest })
    throw .crash

def atomically (fully : Option Disk → Option Disk) : CopyM Unit :=
  effect (fun _ => fully) (fun _ _ dest => dest)

/-- `std::fs::copy` -/
def copyFile (f : FileName) : CopyM Unit := do
  if (← get).source.has f then
    effect (fun src dest => dest.map (src.withCopy f none))
      (fun arrived src dest => match arrived with
        | 0 => dest
        | n + 1 => dest.map (src.withCopy f (some n)))
  else throw (.error .io)

def prepare (occupied : String) : CopyM Unit := do
  match (← get).dest with
  | none => pure ()
  | some d =>
    if d.bare then atomically (fun _ => none)
    else throw (.error (.invalidArgument occupied))
  atomically (fun _ => some .empty)

/-- What is copied is removed when a later file cannot be: best effort. -/
def cleanup (copied : List FileName) : CopyM Unit := do
  copied.forM (fun f => ignoreError (atomically (Option.map (·.without f))))
  ignoreError (atomically (Option.filter (fun d => !d.bare)))

def copyAll (copied : List FileName) : List FileName → CopyM Nat
  | [] => return copied.length
  | f :: rest => fun c =>
    match copyFile f c with
    | .ok _ c' => copyAll (copied ++ [f]) rest c'
    | .error (.error e) c' => (do cleanup copied; throw (.error e) : CopyM Nat) c'
    | .error e c' => .error e c'

def plainFiles (d : Disk) : List FileName := [.version, .manifest, .schema].filter (fun f => d.has f)

def checkVersion (src : Disk) : CopyM Unit := do
  match ← lift (Database.readVersion src) with
  | some v => lift (Database.checkCompatible v)
  | none => pure ()

def restore : CopyM Nat := do
  let src := (← get).source
  checkVersion src
  if src.manifest = none then throw (.error (.invalidFormat "backup missing MANIFEST"))
  prepare "restore target exists and is not empty"
  let manifest ← lift (Manifest.load src.manifest)
  let tables := (manifest.allIds.map FileName.table).filter (fun f => src.has f)
  copyAll [] (plainFiles src ++ tables)

end Copying

abbrev BackupM := Act Error (Database × Option Disk)

def onSource {α : Type} (x : DbM α) : BackupM α := zoom Prod.fst (fun db s => (db, s.2)) x

def copying {α : Type} (x : CopyM α) : BackupM α :=
  zoom (fun s => ⟨s.1.faults, s.1.disk, s.2⟩)
    (fun c s => ({ s.1 with faults := c.faults, disk := c.source }, c.dest)) x

def Database.backup : BackupM Nat := do
  onSource Database.flush
  copying (Copying.prepare "backup destination exists and is not empty")
  let (db, _) ← MonadState.get
  copying (Copying.copyAll [] (Copying.plainFiles db.disk ++ db.manifest.allIds.map FileName.table))

section Sparing

/-- What a copy does to the directory that is copied: nothing, unless the machine goes down. -/
structure Spared (faults left : List Fault) (d d' : Disk) : Prop where
  shorter : left <:+ faults
  disk : d' = d ∨ faults ≠ [] ∧ ∃ kept, d' = d.crashed kept

theorem Spared.refl (faults : List Fault) (d : Disk) : Spared faults faults d d :=
  ⟨List.suffix_rfl, .inl rfl⟩

theorem Disk.crashedTwice (d : Disk) (kept kept' : Nat) :
    (d.crashed kept).crashed kept' = d.crashed kept := by
  simp [Disk.crashed]

theorem Spared.trans {fs fs' fs'' : List Fault} {d d' d'' : Disk} (h : Spared fs fs' d d')
    (h' : Spared fs' fs'' d' d'') : Spared fs fs'' d d'' := by
  refine ⟨h'.shorter.trans h.shorter, ?_⟩
  rcases h.disk, h'.disk with ⟨rfl | ⟨some, kept, rfl⟩, rfl | ⟨some', kept', rfl⟩⟩
  · exact .inl rfl
  · refine .inr ⟨fun none => some' ?_, kept', rfl⟩
    exact List.suffix_nil.mp (none ▸ h.shorter)
  · exact .inr ⟨some, kept, rfl⟩
  · exact .inr ⟨some, kept, d.crashedTwice kept kept'⟩

def Copying.Spares (c c' : Copying) : Prop := Spared c.faults c'.faults c.source c'.source

instance : Std.Refl Copying.Spares := ⟨fun c => .refl c.faults c.source⟩
instance : IsTrans Copying Copying.Spares := ⟨fun _ _ _ => Spared.trans⟩

namespace Copying

theorem effectSpares (fully : Disk → Option Disk → Option Disk)
    (partly : Nat → Disk → Option Disk → Option Disk) : Moves Spares (effect fully partly) := by
  rintro ⟨faults, source, dest⟩
  cases faults with
  | nil => exact Spared.refl [] source
  | cons f rest =>
    have shorter : rest <:+ f :: rest := List.suffix_cons f rest
    cases f with
    | pass => exact ⟨shorter, .inl rfl⟩
    | fail arrived => exact ⟨shorter, .inl rfl⟩
    | crash arrived kept => exact ⟨shorter, .inr ⟨List.cons_ne_nil _ _, kept, rfl⟩⟩

theorem copyFileSpares (f : FileName) : Moves Spares (copyFile f) :=
  movesGet.bind (fun _ => Moves.ite (effectSpares _ _) (movesThrow _))

theorem prepareSpares (occupied : String) : Moves Spares (prepare occupied) := by
  refine movesGet.bind (fun c => ?_)
  cases c.dest with
  | none => exact effectSpares _ _
  | some d =>
    exact Moves.ite ((effectSpares _ _).bind (fun _ => effectSpares _ _))
      ((movesThrow _).bind (fun _ => effectSpares _ _))

theorem cleanupSpares (copied : List FileName) : Moves Spares (cleanup copied) :=
  Moves.bind (Moves.forM (fun _ => (effectSpares _ _).ignore) copied)
    (fun _ => (effectSpares _ _).ignore)

theorem copyAllSpares (copied files : List FileName) : Moves Spares (copyAll copied files) := by
  induction files generalizing copied with
  | nil => exact movesPure _
  | cons f files ih =>
    intro c
    cases run : copyFile f c with
    | ok _ c' =>
      have first : Spares c c' := (endsOfRun run).mp (copyFileSpares f c)
      have rest := (ih (copied ++ [f]) c').mono (fun _ _ => Spared.trans first)
        (fun _ _ => Spared.trans first)
      exact rest.step (by rw [copyAll]; simp only [run])
    | error e c' =>
      have first : Spares c c' := (endsOfError run).mp (copyFileSpares f c)
      cases e with
      | error e =>
        have cleans : Moves Spares (do cleanup copied; throw (.error e) : CopyM Nat) :=
          (cleanupSpares copied).bind (fun _ => movesThrow _)
        have rest := (cleans c').mono (fun _ _ => Spared.trans first)
          (fun _ _ => Spared.trans first)
        exact rest.step (by rw [copyAll]; simp only [run])
      | panic =>
        have stops : copyAll copied (f :: files) c = .error .panic c' := by rw [copyAll]; simp only [run]
        exact (endsOfError stops).mpr first
      | crash =>
        have stops : copyAll copied (f :: files) c = .error .crash c' := by rw [copyAll]; simp only [run]
        exact (endsOfError stops).mpr first

end Copying

def Copied (db db' : Database) : Prop :=
  ∃ fs d, Spared db.faults fs db.disk d ∧ db' = { db with faults := fs, disk := d }

theorem backupMoves {R : Database → Database → Prop} [Std.Refl R] [IsTrans Database R]
    (flush : Moves R Database.flush) (copied : ∀ db db', Copied db db' → R db db') :
    Moves (fun a b : Database × Option Disk => R a.1 b.1) Database.backup := by
  have : Std.Refl (fun a b : Database × Option Disk => R a.1 b.1) := ⟨fun a => Std.Refl.refl a.1⟩
  have : IsTrans _ (fun a b : Database × Option Disk => R a.1 b.1) := ⟨fun _ _ _ => trans_of R⟩
  have copies : ∀ {α : Type} {x : CopyM α}, Moves Copying.Spares x →
      Moves (fun a b : Database × Option Disk => R a.1 b.1) (copying x) := by
    intro α x spares s
    refine endsZoom ((spares _).mono ?_ ?_) <;>
      exact fun _ c spared => copied _ _ ⟨c.faults, c.source, spared, rfl⟩
  have flushes : Moves (fun a b : Database × Option Disk => R a.1 b.1) (onSource Database.flush) :=
    fun s => endsZoom ((flush s.1).mono (fun _ _ r => r) (fun _ _ r => r))
  exact flushes.bind (fun _ => (copies (Copying.prepareSpares _)).bind (fun _ =>
    movesGet.bind (fun _ => copies (Copying.copyAllSpares _ _))))

end Sparing
end MyLsmDb
