import MyLsmDb.EntityStore
import MyLsmDb.Lifetime

/-! An entity store over the lifetimes of all processes that open it. Each call is a sequence
of steps of the engine, so what every such step keeps holds behind every call. -/
namespace MyLsmDb
open ByteOrder (Bytes)
open Effect
open KeyValue (Prog)
open OrderedEntries
open Text
open Wal (Crc32)

/-- What the steps of the engine that the entity layer takes do to it. -/
class EngineStep (R : Database → Database → Prop) [Crc32] : Prop
    extends Std.Refl R, IsTrans Database R where
  get : ∀ key, Moves R (Database.get key)
  scan : ∀ start stop, Moves R (Database.scanAll start stop)
  stream : ∀ start stop, Moves R (Database.scanStream start stop)
  put : ∀ key value, Moves R (Database.putInternal key value)
  commit : ∀ tx pending, Moves R (Database.commitPending tx pending)
  flush : Moves R Database.flush
  begin : ∀ db : Database, R db { db with nextTxId := db.nextTxId + 1 }
  schema : ∀ text, Moves R (Database.atomically (fun d => { d with schema := some text }))
  copied : ∀ db db', Copied db db' → R db db'

section Zooming
variable {ε σ τ α : Type} {x : Act ε σ α} {R : σ → σ → Prop} {S : τ → τ → Prop}

theorem movesZoom {get : τ → σ} {put : σ → τ → τ} (h : Moves R x)
    (lifts : ∀ t s, R (get t) s → S t (put s t)) : Moves S (zoom get put x) := fun t =>
  endsZoom ((h (get t)).mono (fun _ s r => lifts t s r) (fun _ s r => lifts t s r))

end Zooming

def OnDb (R : Database → Database → Prop) (s s' : EntityStore) : Prop := R s.db s'.db
def InTx (R : Database → Database → Prop) (t t' : Transaction) : Prop := R t.store.db t'.store.db
def InView (R : Database → Database → Prop) (m m' : TxMutator) : Prop := R m.db m'.db

section Moving
variable {R : Database → Database → Prop}

instance [Std.Refl R] : Std.Refl (OnDb R) := ⟨fun s => Std.Refl.refl s.db⟩
instance [IsTrans Database R] : IsTrans EntityStore (OnDb R) := ⟨fun _ _ _ => trans_of R⟩
instance [Std.Refl R] : Std.Refl (InTx R) := ⟨fun t => Std.Refl.refl t.store.db⟩
instance [IsTrans Database R] : IsTrans Transaction (InTx R) := ⟨fun _ _ _ => trans_of R⟩
instance [Std.Refl R] : Std.Refl (InView R) := ⟨fun m => Std.Refl.refl m.db⟩
instance [IsTrans Database R] : IsTrans TxMutator (InView R) := ⟨fun _ _ _ => trans_of R⟩

/-- A side whose machine `S` covers, and whose schema and hint do not matter to it. -/
structure Covers {σ : Type} (S : σ → σ → Prop) (side : Side σ) : Prop where
  get : ∀ key, Moves S (side.machine.get key)
  scan : ∀ start stop, Moves S (side.machine.scan start stop)
  write : ∀ key value, Moves S (side.machine.write key value)
  schema : ∀ schema s, S s (side.setSchema schema s)
  hint : ∀ c e ids s, S s (side.setHint c e ids s)

section Core
variable {σ α : Type} {S : σ → σ → Prop} [Std.Refl S] [IsTrans σ S] {side : Side σ}

theorem Covers.run (h : Covers S side) (p : KvProg α) : Moves S (p.run side.machine) :=
  p.runMoves h.get h.scan h.write

theorem Covers.put (h : Covers S side) (c : UInt32) (e : Bytes) (entity : Entity) :
    Moves S (corePutEntity side c e entity) := by
  have valid : Moves S (requireUtf8 e : Act Error σ Unit) :=
    Moves.ite (movesPure _) (movesThrow _)
  exact valid.bind (fun _ => movesGet.bind (fun _ => (movesModify (h.schema _)).bind (fun _ =>
    movesGet.bind (fun _ => (h.run _).bind (fun _ => movesModify (h.hint _ _ _))))))

theorem Covers.cas (h : Covers S side) (c : UInt32) (e : Bytes) (expected : Expected)
    (patch : List Patch) : Moves S (coreCasEntity side c e expected patch) :=
  movesGet.bind (fun _ => (h.run _).bind (fun entity =>
    (h.put c e entity).bind (fun _ => movesPure _)))

theorem Covers.collectionId (h : Covers S side) (name : Chars) :
    Moves S (collectionIdOf side name) :=
  movesGet.bind (fun _ => (movesModify (h.schema _)).bind (fun _ => movesPure _))

end Core

variable [Crc32] [EngineStep R]

namespace EntityStore

omit [Crc32] [EngineStep R] in
theorem onDbMoves {α : Type} {x : DbM α} (h : Moves R x) : Moves (OnDb R) (onDb x) :=
  movesZoom h (fun _ _ r => r)

omit [Crc32] [EngineStep R] in
theorem keptMoves [Std.Refl R] {g : EntityStore → EntityStore} (same : ∀ s, (g s).db = s.db) :
    Moves (OnDb R) (modify g : StoreM PUnit) := by
  refine movesModify (fun s => ?_)
  unfold OnDb
  rw [same]
  exact Std.Refl.refl _

theorem covers : Covers (OnDb R) side where
  get key := onDbMoves (EngineStep.get key)
  scan start stop := onDbMoves (EngineStep.scan start stop)
  write key value := onDbMoves (EngineStep.put key value)
  schema _ s := Std.Refl.refl s.db
  hint _ _ _ s := Std.Refl.refl s.db

theorem backupMoves : Moves (fun p q : EntityStore × Option Disk => OnDb R p.1 q.1) backup :=
  fun p => endsZoom ((MyLsmDb.backupMoves EngineStep.flush EngineStep.copied (p.1.db, p.2)).mono
    (fun _ _ r => r) (fun _ _ r => r))

theorem saveSchemaMoves : Moves (OnDb R) saveSchema :=
  movesGet.bind (fun _ => (onDbMoves (EngineStep.schema _)).bind (fun _ =>
    keptMoves (fun _ => rfl)))

theorem persistSchemaMoves : Moves (OnDb R) persistSchema :=
  movesGet.bind (fun _ => Moves.ite saveSchemaMoves (movesPure _))

theorem collectionMoves (name : Chars) : Moves (OnDb R) (collection name) :=
  (covers.collectionId name).bind (fun _ => persistSchemaMoves.bind (fun _ => movesPure _))

theorem putEntityMoves (c : UInt32) (e : Bytes) (entity : Entity) :
    Moves (OnDb R) (putEntity c e entity) :=
  (covers.put c e entity).bind (fun _ => persistSchemaMoves)

theorem casUpdateMoves (name : Chars) (e : Utf8) (expected : Expected) (patch : List Patch) :
    Moves (OnDb R) (casUpdate name e expected patch) :=
  (covers.collectionId name).bind (fun c => (covers.cas c e.bytes expected patch).bind (fun _ =>
    persistSchemaMoves.bind (fun _ => movesPure _)))

theorem deleteEntityMoves (c : UInt32) (e : Bytes) : Moves (OnDb R) (deleteEntity c e) :=
  movesGet.bind (fun _ => (covers.run _).bind (fun _ => keptMoves (fun _ => rfl)))

theorem scanCollectionMoves (name : Chars) : Moves (OnDb R) (scanCollection name) := by
  refine movesGet.bind (fun s => ?_)
  dsimp only
  split
  · exact movesPure _
  · exact covers.run _

theorem buildIndexMoves (id : UInt32) (build : KvProg Unit) :
    Moves (OnDb R) (buildIndex id build) :=
  saveSchemaMoves.bind (fun _ => (covers.run build).bind (fun _ =>
    Moves.bind (keptMoves (fun _ => rfl)) (fun _ => saveSchemaMoves)))

theorem createIndexMoves (c f : UInt32) : Moves (OnDb R) (createIndex c f) :=
  movesGet.bind (fun _ => Moves.bind (keptMoves (fun _ => rfl)) (fun _ => buildIndexMoves _ _))

theorem createCompositeIndexMoves (c : UInt32) (fields : List UInt32) :
    Moves (OnDb R) (createCompositeIndex c fields) :=
  movesGet.bind (fun _ => Moves.bind (keptMoves (fun _ => rfl)) (fun _ => buildIndexMoves _ _))

theorem removeIndexMoves (id : UInt32) (clear : KvProg Unit) :
    Moves (OnDb R) (removeIndex id clear) :=
  (covers.run clear).bind (fun _ => Moves.bind (keptMoves (fun _ => rfl)) (fun _ =>
    saveSchemaMoves))

theorem dropIndexMoves (c f : UInt32) : Moves (OnDb R) (dropIndex c f) := by
  refine movesGet.bind (fun s => ?_)
  split
  · exact movesPure _
  · exact removeIndexMoves _ _

theorem dropCompositeIndexMoves (c : UInt32) (fields : List UInt32) :
    Moves (OnDb R) (dropCompositeIndex c fields) := by
  refine movesGet.bind (fun s => ?_)
  split
  · exact movesPure _
  · exact removeIndexMoves _ _

theorem fieldIdsMoves (c : UInt32) (names : List Chars) : Moves (OnDb R) (fieldIds c names) := by
  induction names with
  | nil => exact movesPure _
  | cons name names ih =>
    exact movesGet.bind (fun _ => Moves.bind (keptMoves (fun _ => rfl)) (fun _ =>
      ih.bind (fun _ => movesPure _)))

theorem loadSchemaMoves : Moves (OnDb R) loadSchema :=
  movesGet.bind (fun _ => (movesLift _).bind (fun _ => keptMoves (fun _ => rfl)))

theorem recoverIndexesMoves : Moves (OnDb R) recoverIndexes := by
  refine movesGet.bind (fun s => Moves.forM (fun i => ?_) _)
  unfold recoverIndex
  split
  · exact createIndexMoves _ _
  · exact createCompositeIndexMoves _ _

omit [Crc32] [EngineStep R] in
theorem dropOnErrorMoves [Std.Refl R] [IsTrans Database R] {x : StoreM Unit}
    (h : Moves (OnDb R) x) (dropped : Moves R Database.drop) : Moves (OnDb R) (dropOnError x) :=
  h.tryCatch (fun _ => Moves.ite ((onDbMoves dropped).bind (fun _ => movesThrow _))
    (movesThrow _))

end EntityStore

namespace Transaction

omit [Crc32] [EngineStep R] in
theorem onStoreMoves {α : Type} {x : StoreM α} (h : Moves (OnDb R) x) :
    Moves (InTx R) (onStore x) := movesZoom h (fun _ _ r => r)

omit [Crc32] [EngineStep R] in
theorem onViewMoves {α : Type} {x : TxM α} (h : Moves (InView R) x) :
    Moves (InTx R) (onView x) := movesZoom h (fun _ _ r => r)

omit [Crc32] [EngineStep R] in
theorem keptMoves [Std.Refl R] {g : Transaction → Transaction}
    (same : ∀ t, (g t).store.db = t.store.db) :
    Moves (InTx R) (modify g : TransactionM PUnit) := by
  refine movesModify (fun t => ?_)
  unfold InTx
  rw [same]
  exact Std.Refl.refl _

theorem viewGetMoves (key : Bytes) : Moves (InView R) (TxMutator.get key) := by
  refine movesGet.bind (fun m => ?_)
  split
  · exact movesPure _
  · exact movesZoom (EngineStep.get key) (fun _ _ r => r)

theorem viewScanMoves (start stop : Option Bytes) : Moves (InView R) (TxMutator.scan start stop) :=
  Moves.bind (movesZoom (EngineStep.stream start stop) (fun _ _ r => r)) (fun _ =>
    movesGet.bind (fun _ => movesLift _))

theorem covers : Covers (InTx R) side where
  get key := onViewMoves (viewGetMoves key)
  scan start stop := onViewMoves (viewScanMoves start stop)
  write _ _ := onViewMoves (movesModify (fun m => Std.Refl.refl m.db))
  schema _ t := Std.Refl.refl t.store.db
  hint _ _ _ t := Std.Refl.refl t.store.db

theorem checkActiveMoves : Moves (InTx R) checkActive :=
  movesGet.bind (fun _ => Moves.ite (movesThrow _) (movesPure _))

theorem commitMoves : Moves (InTx R) commit :=
  checkActiveMoves.bind (fun _ => (onStoreMoves EntityStore.persistSchemaMoves).bind (fun _ =>
    movesGet.bind (fun _ => (onStoreMoves (EntityStore.onDbMoves (EngineStep.commit _ _))).bind
      (fun _ => keptMoves (fun _ => rfl)))))

end Transaction

theorem TxCall.moves {S : Transaction → Transaction → Prop} [Std.Refl S] [IsTrans Transaction S]
    (covers : Covers S Transaction.side)
    (dropped : ∀ t : Transaction, S t { t with pending := .empty, state := .aborted })
    (call : TxCall) (commit : call = .commit → Moves S Transaction.commit) : Moves S call.run := by
  have active : Moves S Transaction.checkActive :=
    movesGet.bind (fun _ => Moves.ite (movesThrow _) (movesPure _))
  cases call with
  | update name e entity =>
    exact active.bind (fun _ => (covers.collectionId name).bind (fun c => covers.put c _ entity))
  | casUpdate name e expected patch =>
    refine Moves.bind ?_ (fun _ => movesPure _)
    exact active.bind (fun _ => (covers.collectionId name).bind (fun c => covers.cas c _ _ _))
  | delete name e =>
    exact active.bind (fun _ => (covers.collectionId name).bind (fun c =>
      movesGet.bind (fun _ => covers.run _)))
  | getEntity name e =>
    refine Moves.bind (active.bind (fun _ => movesGet.bind (fun t => ?_))) (fun _ => movesPure _)
    dsimp only
    split
    · exact movesPure _
    · exact (covers.scan _ _).bind (fun _ => movesLift _)
  | scanCollection name =>
    refine Moves.bind (active.bind (fun _ => movesGet.bind (fun t => ?_))) (fun _ => movesPure _)
    dsimp only
    split
    · exact movesPure _
    · exact (covers.scan _ _).bind (fun _ => movesLift _)
  | query q => exact active.bind (fun _ => movesGet.bind (fun _ => covers.run _))
  | commit => exact commit rfl
  | abort => exact active.bind (fun _ => movesModify dropped)

theorem TxCall.runMoves (call : TxCall) : Moves (InTx R) call.run :=
  call.moves Transaction.covers (fun t => Std.Refl.refl t.store.db)
    (fun _ => Transaction.commitMoves)

theorem StoreCall.transactMoves (calls : List TxCall) : Moves (OnDb R) (runTransact calls) :=
  movesZoom (Moves.forM (fun call => (TxCall.runMoves call).ignore) calls)
    (fun s _ r => trans_of R (EngineStep.begin s.db) r)

theorem StoreCall.runMoves (call : StoreCall) : Moves (OnDb R) call.run := by
  cases call with
  | collection name => exact (EntityStore.collectionMoves name).bind (fun _ => movesPure _)
  | putEntity c e entity => exact EntityStore.putEntityMoves c e entity
  | casUpdate name e expected patch =>
    exact (EntityStore.casUpdateMoves name e expected patch).bind (fun _ => movesPure _)
  | deleteEntity c e => exact EntityStore.deleteEntityMoves c e
  | getEntity c e =>
    exact (movesGet.bind (fun _ => EntityStore.covers.run _)).bind (fun _ => movesPure _)
  | scanCollection name =>
    exact (EntityStore.scanCollectionMoves name).bind (fun _ => movesPure _)
  | query q => exact movesGet.bind (fun _ => EntityStore.covers.run _)
  | createIndex c f => exact EntityStore.createIndexMoves c f
  | createCompositeIndex c fields => exact EntityStore.createCompositeIndexMoves c fields
  | dropIndex c f => exact EntityStore.dropIndexMoves c f
  | dropCompositeIndex c fields => exact EntityStore.dropCompositeIndexMoves c fields
  | fieldIds c names => exact (EntityStore.fieldIdsMoves c names).bind (fun _ => movesPure _)
  | transact calls => exact transactMoves calls
  | flush => exact EntityStore.onDbMoves EngineStep.flush
  | backup dest =>
    have ends := EntityStore.backupMoves (R := R)
    exact fun s => endsZoom ((ends (s, dest)).bind (fun _ _ r => r))

end Moving

section Living

/-- A later state of an engine, of which `P` is true if it was of the earlier one and all tables
fit. -/
structure Carries (P : Database → Prop) (db db' : Database) : Prop where
  grows : Grows db db'
  holds : Fitting db' → P db → P db'

instance (P : Database → Prop) : Std.Refl (Carries P) := ⟨fun db => ⟨Std.Refl.refl db, fun _ => id⟩⟩

instance (P : Database → Prop) : IsTrans Database (Carries P) := by
  refine ⟨fun a b c ab bc => ⟨trans_of Grows ab.grows bc.grows, fun fits h => ?_⟩⟩
  exact bc.holds fits (ab.holds (fittingBack b c bc.grows fits) h)

theorem carriesOf {P : Database → Prop} {α : Type} {x : DbM α} (grows : Moves Grows x)
    (holds : ∀ db, P db → EndsIf Fitting x db (fun _ db' => P db') (fun _ db' => P db')) :
    Moves (Carries P) x := by
  intro db
  have later := grows db
  by_cases here : P db
  · have stays := holds db here
    unfold EndsIf Ends at *
    split
    · rename_i a db' run
      rw [run] at later stays
      exact ⟨later, fun fits _ => stays fits⟩
    · rename_i e db' run
      rw [run] at later stays
      exact ⟨later, fun fits _ => stays fits⟩
  · exact later.mono (fun _ _ grown => ⟨grown, fun _ yes => absurd yes here⟩)
      (fun _ _ grown => ⟨grown, fun _ yes => absurd yes here⟩)

theorem backupCarries {P : Database → Prop}
    (flush : ∀ db, P db → EndsIf Fitting Database.flush db (fun _ db' => P db') (fun _ db' => P db'))
    (copied : ∀ db db', Copied db db' → P db → P db') :
    Moves (fun p q : Database × Option Disk => Carries P p.1 q.1) Database.backup := by
  refine backupMoves (carriesOf Database.flushMoves flush) (fun db db' here => ⟨?_, fun _ => ?_⟩)
  · obtain ⟨fs, d, -, rfl⟩ := here
    exact ⟨List.prefix_rfl, List.prefix_rfl⟩
  · exact copied db db' here

abbrev Lives := Carries Alive

variable [Crc32]

theorem opLives (op : Op) : Moves Lives op.run :=
  carriesOf op.runMoves (fun _ alive => (op.stays alive).mono (fun _ _ _ => id)
    (fun _ _ _ => Halting.alive))

omit [Crc32] in
theorem readsLive {α : Type} {x : DbM α} (grows : Moves Grows x) {post : Database → α → Prop}
    (reads : ∀ db, Cached db → Readable db.disk.tables db.manifest →
      Completes x db (fun a db' => post db a ∧ Reads db db')) : Moves Lives x := by
  refine carriesOf grows (fun db alive => ?_)
  obtain ⟨mem, dur, store⟩ := alive.store
  have shown := store
  obtain ⟨vol, ⟨md, views⟩, -⟩ := shown
  refine ((reads db views.cached views.memory.readable).mono (fun _ db' done => ?_)
    (fun _ _ => False.elim)).endsIf
  exact alive.next done.2.passed.same.opts done.2.passed.same.version ⟨mem, dur, store.reads done.2⟩

omit [Crc32] in
theorem schemaEnds (text : Chars) (db : Database) :
    Ends (Database.atomically (fun d => { d with schema := some text })) db
      (fun _ db' => ∃ fs, fs <:+ db.faults ∧
        db' = { db with faults := fs, disk := { db.disk with schema := some text } })
      (fun e db' => Injected db.faults e ∧ ∃ fs schema d, fs <:+ db.faults ∧
        db' = { db with faults := fs, disk := { d with schema } } ∧
        (schema = db.disk.schema ∨ e = .crash ∧ schema = some text) ∧
        (e ≠ .crash ∧ d = db.disk ∨ e = .crash ∧ ∃ kept, d = db.disk.crashed kept)) := by
  refine (Database.effectEnds _ _ _ db).mono (fun _ _ done => done) ?_
  intro e db' stop
  obtain ⟨injected, fs, suffix, ⟨rfl, n, rfl⟩ | ⟨rfl, n, kept, rfl⟩⟩ := stop
  · exact ⟨injected, fs, _, _, suffix, rfl, .inl rfl, .inl ⟨by simp, rfl⟩⟩
  · cases n with
    | zero => exact ⟨injected, fs, _, _, suffix, rfl, .inl rfl, .inr ⟨rfl, kept, rfl⟩⟩
    | succ n => exact ⟨injected, fs, _, _, suffix, rfl, .inr ⟨rfl, rfl⟩, .inr ⟨rfl, kept, rfl⟩⟩

omit [Crc32] in
theorem schemaAlive {db : Database} (h : Alive db) {fs : List Fault} {d : Disk}
    {schema : Option Chars} (how : d = db.disk ∨ ∃ kept, d = db.disk.crashed kept) :
    Alive { db with faults := fs, disk := { d with schema } } := by
  obtain ⟨mem, dur, store⟩ := h.store
  rcases how with rfl | ⟨kept, rfl⟩ <;>
    exact h.next rfl rfl ⟨mem, dur, store.same rfl rfl rfl rfl rfl⟩

instance : EngineStep Lives where
  get key := readsLive (getMoves key) (fun _ cached readable =>
    Database.getExact cached readable key)
  scan start stop := readsLive (scanAllMoves start stop) (fun _ cached readable =>
    Database.scanAllExact cached readable start stop)
  stream start stop := readsLive (scanStreamMoves start stop) (fun _ cached readable =>
    Database.scanStreamExact cached readable start stop)
  put key value := by
    cases value with
    | some value => exact opLives (.put key value)
    | none => exact opLives (.delete key)
  commit tx pending := carriesOf (commitPendingMoves tx pending) (fun _ alive =>
    (commitStays tx pending alive).mono (fun _ _ _ => id) (fun _ _ _ => Halting.alive))
  flush := opLives .flush
  begin db := by
    refine ⟨⟨List.prefix_rfl, List.prefix_rfl⟩, fun _ alive => ?_⟩
    obtain ⟨mem, dur, store⟩ := alive.store
    exact alive.next rfl rfl ⟨mem, dur, store.same rfl rfl rfl rfl rfl⟩
  schema text := by
    refine carriesOf (Database.atomicallyMoves (fun _ =>
      Database.Tolerant.quiet _ _ rfl rfl rfl rfl le_rfl)) (fun db alive => ?_)
    refine (schemaEnds text db).mono ?_ ?_
    · intro _ db' done _
      obtain ⟨fs, -, rfl⟩ := done
      exact schemaAlive alive (.inl rfl)
    · intro e db' stop _
      obtain ⟨-, fs, schema, d, -, rfl, -, how⟩ := stop
      exact schemaAlive alive (how.imp And.right And.right)
  copied db db' := by
    rintro ⟨fs, d, spared, rfl⟩
    have how := spared.disk.imp_right And.right
    have schema : ({ d with schema := db.disk.schema } : Disk) = d := by
      rcases how with rfl | ⟨kept, rfl⟩ <;> rfl
    refine ⟨⟨List.prefix_rfl, List.prefix_rfl⟩, fun _ alive => ?_⟩
    have next : Alive { db with faults := fs, disk := { d with schema := db.disk.schema } } :=
      schemaAlive alive how
    rw [schema] at next
    exact next

theorem closeLives : Moves Lives Database.close :=
  carriesOf closeMoves (fun _ alive => (closeStays alive).mono (fun _ _ _ => id)
    (fun _ _ _ => Halting.alive))

theorem dropLives : Moves Lives Database.drop :=
  carriesOf dropMoves (fun _ alive => (dropStays alive).mono (fun _ _ _ => id)
    (fun _ _ _ => Halting.alive))

end Living

inductive Stage where
  | up (s : EntityStore)
  | down (d : Disk)

section Reaching
variable [Crc32]

/-- The stages that are reached by steps that meet `P`; a step without a call is an opening. -/
inductive Reached (P : Option StoreCall → EntityStore → EntityStore → Prop) : Stage → Prop where
  | fresh : Reached P (.down .empty)
  | opened {d : Disk} {faults : List Fault} {opts : Options} {s : EntityStore}
      (before : Reached P (.down d)) (room : opts.segmentMaxRecords ≠ 0)
      (run : EntityStore.openWith (EntityStore.boot d faults opts) = .ok () s)
      (meets : P none (EntityStore.boot d faults opts) s) : Reached P (.up s)
  | refused {d d' : Disk} {faults : List Fault} {opts : Options} {e : Stop Error} {s : EntityStore}
      (kept : Nat) (before : Reached P (.down d)) (room : opts.segmentMaxRecords ≠ 0)
      (run : EntityStore.openWith (EntityStore.boot d faults opts) = .error e s)
      (meets : P none (EntityStore.boot d faults opts) s)
      (found : (s.db.disk.crashed kept).Found d') : Reached P (.down d')
  | returned {s s' : EntityStore} {call : StoreCall} (before : Reached P (.up s))
      (run : call.run s = .ok () s') (meets : P (some call) s s') : Reached P (.up s')
  | failed {s s' : EntityStore} {call : StoreCall} {e : Stop Error} (before : Reached P (.up s))
      (run : call.run s = .error e s') (lives : e ≠ .crash) (meets : P (some call) s s') :
      Reached P (.up s')
  | crashed {s s' : EntityStore} {call : StoreCall} {d : Disk} (kept : Nat)
      (before : Reached P (.up s)) (run : call.run s = .error .crash s')
      (meets : P (some call) s s') (found : (s'.db.disk.crashed kept).Found d) :
      Reached P (.down d)
  | left {s s' : EntityStore} {how : Leave} {d : Disk} (kept : Nat) (before : Reached P (.up s))
      (run : how.run s = .ok () s' ∨ ∃ e, how.run s = .error e s') (fits : Fitting s'.db)
      (found : (s'.db.disk.crashed kept).Found d) : Reached P (.down d)
  | killed {s : EntityStore} {d : Disk} (kept : Nat) (before : Reached P (.up s))
      (found : (s.db.disk.crashed kept).Found d) : Reached P (.down d)

def Fits (_ : Option StoreCall) (_ s : EntityStore) : Prop := Fitting s.db

def Stage.Sound : Stage → Prop
  | .up s => Alive s.db
  | .down d => Idle d

omit [Crc32] in
theorem Alive.crashed {db : Database} (h : Alive db) (kept : Nat) : Idle (db.disk.crashed kept) := by
  obtain ⟨md, version, saved, holding⟩ := h.mounted
  exact ⟨⟨md, version, saved, holding⟩, rfl⟩

omit [Crc32] in
theorem Idle.crashed {d : Disk} (h : Idle d) (kept : Nat) : Idle (d.crashed kept) := by
  obtain ⟨⟨md, version, saved, holding⟩, -⟩ := h
  exact ⟨⟨md, version, saved, holding⟩, rfl⟩

theorem openStays {d : Disk} (h : Idle d) {faults : List Fault} {opts : Options}
    (room : opts.segmentMaxRecords ≠ 0) :
    EndsIf (fun s : EntityStore => Fitting s.db) EntityStore.openWith
      (EntityStore.boot d faults opts) (fun _ s => Alive s.db)
      (fun _ s => ∀ kept, Idle (s.db.disk.crashed kept)) := by
  have engine : Ends (EntityStore.onDb Database.openWith) (EntityStore.boot d faults opts)
      (fun _ s => Alive s.db) (fun _ s => Idle s.db.disk) :=
    endsZoom (h.opened room)
  refine Ends.bind (engine.mono (fun _ _ alive => alive) (fun _ _ idle _ kept => idle.crashed kept))
    ?_
  intro _ s alive
  have rest : Moves (OnDb Lives) (EntityStore.dropOnError (do
      EntityStore.loadSchema
      EntityStore.recoverIndexes)) :=
    EntityStore.dropOnErrorMoves (EntityStore.loadSchemaMoves.bind (fun _ =>
      EntityStore.recoverIndexesMoves)) dropLives
  exact (rest s).mono (fun _ _ lives fits => lives.holds fits alive)
    (fun _ _ lives fits kept => (lives.holds fits alive).crashed kept)

theorem Leave.runMoves (how : Leave) : Moves (OnDb Lives) how.run := by
  cases how with
  | close =>
    exact EntityStore.dropOnErrorMoves (EntityStore.persistSchemaMoves.bind (fun _ =>
      EntityStore.onDbMoves closeLives)) dropLives
  | drop => exact EntityStore.onDbMoves dropLives

theorem StoreCall.allMoves (calls : List StoreCall) : Moves (OnDb Lives) (StoreCall.all calls) := by
  induction calls with
  | nil => exact movesPure _
  | cons call calls ih => exact call.runMoves.bind (fun _ => ih)

theorem Reached.all {s s' : EntityStore} {calls : List StoreCall} (before : Reached Fits (.up s))
    (run : StoreCall.all calls s = .ok () s') (fits : Fitting s'.db) : Reached Fits (.up s') := by
  induction calls generalizing s with
  | nil =>
    cases run
    exact before
  | cons call calls ih =>
    obtain ⟨_, s₁, first, rest⟩ := ranBind run
    have lives : Lives s₁.db s'.db := (endsOfRun rest).mp (StoreCall.allMoves calls s₁)
    exact ih (.returned before first (fittingBack s₁.db s'.db lives.grows fits)) rest

theorem reachedAll {opts : Options} {faults : List Fault} {s s' : EntityStore}
    {calls : List StoreCall} (room : opts.segmentMaxRecords ≠ 0)
    (opened : EntityStore.openWith (EntityStore.boot .empty faults opts) = .ok () s)
    (run : StoreCall.all calls s = .ok () s') (fits : Fitting s'.db) : Reached Fits (.up s') := by
  have lives : Lives s.db s'.db := (endsOfRun run).mp (StoreCall.allMoves calls s)
  exact Reached.all (.opened .fresh room opened (fittingBack s.db s'.db lives.grows fits)) run fits

/-- No history leads out of the sound stages, as long as all tables fit. -/
theorem Reached.sound {P : Option StoreCall → EntityStore → EntityStore → Prop}
    (fits : ∀ call s s', P call s s' → Fitting s'.db) {n : Stage} (h : Reached P n) : n.Sound := by
  induction h with
  | fresh => exact idleEmpty
  | opened before room run meets ih =>
    exact (endsOfRun run).mp (openStays ih room) (fits _ _ _ meets)
  | refused kept before room run meets found ih =>
    exact ((endsOfError run).mp (openStays ih room) (fits _ _ _ meets) kept).found found
  | @returned s s' call before run meets ih =>
    have lives : Lives s.db s'.db := (endsOfRun run).mp (call.runMoves s)
    exact lives.holds (fits _ _ _ meets) ih
  | @failed s s' call e before run lives meets ih =>
    have lives_ : Lives s.db s'.db := (endsOfError run).mp (call.runMoves s)
    exact lives_.holds (fits _ _ _ meets) ih
  | @crashed s s' call d kept before run meets found ih =>
    have lives : Lives s.db s'.db := (endsOfError run).mp (call.runMoves s)
    exact ((lives.holds (fits _ _ _ meets) ih).crashed kept).found found
  | @left s s' how d kept before run fit found ih =>
    have lives : Lives s.db s'.db := by
      rcases run with run | ⟨e, run⟩
      · exact (endsOfRun run).mp (how.runMoves s)
      · exact (endsOfError run).mp (how.runMoves s)
    exact ((lives.holds fit ih).crashed kept).found found
  | killed kept before found ih => exact (Alive.crashed ih kept).found found

end Reaching
end MyLsmDb
