import MyLsmDb.EntityLifetime
import MyLsmDb.PlainMap

/-! What a transaction sees is its pending writes over the committed map, and that is what the
store shows once it has committed. -/
namespace MyLsmDb
open ByteOrder (Bytes)
open Effect
open OrderedEntries
open Wal (Crc32)

section Views
variable {db : Database} {pending : OrderedMap Bytes Entry} {mem dur : View}

theorem Store.entries {W : Manifest → Prop} (h : Store W db mem dur) (key : Bytes) :
    ((Database.entries db).lookup key).join = mem key := by
  obtain ⟨vol, ⟨md, views⟩, rfl, -⟩ := h
  rw [Database.lookupEntries, views.vol]

theorem Store.overlayGet {W : Manifest → Prop} (h : Store W db mem dur) (key : Bytes) :
    Completes (TxMutator.get key) ⟨db, pending⟩ (fun found m =>
      found = overlaid pending mem key ∧ m.pending = pending ∧ Reads db m.db) := by
  obtain ⟨vol, ⟨md, views⟩, rfl, -⟩ := h
  rw [← views.vol]
  exact TxMutator.getExact views.cached views.memory.readable key

theorem Store.overlayScan {W : Manifest → Prop} (h : Store W db mem dur)
    (start stop : Option Bytes) : Completes (TxMutator.scan start stop) ⟨db, pending⟩
      (fun rows m => KeyValue.Lists (overlaid pending mem) start stop rows ∧
        m.pending = pending ∧ Reads db m.db) := by
  have reads := h.entries
  obtain ⟨vol, ⟨md, views⟩, rfl, -⟩ := h
  refine (TxMutator.scanExact views.cached views.memory.readable start stop).imp ?_
  intro rows m done
  obtain ⟨rfl, rest⟩ := done
  have ordered : Ordered (Database.entries db) := flattenOrdered _
  exact ⟨KeyValue.rangeLists (overlayOrdered ordered)
    (TxMutator.lookupOverlaid ordered reads) start stop, rest⟩

theorem lastWriteOrdered {ws : List Rec} (ordered : Ordered ws) (key : Bytes) :
    lastWrite ws key = ws.lookup key := by
  have keys : (ws.reverse.map Prod.fst).Nodup := by
    rw [List.map_reverse, List.nodup_reverse]
    exact ordered.nodupKeys
  refine Option.ext (fun value => ?_)
  rw [lookupIff ordered, ← List.mem_reverse]
  constructor
  · exact lookupMem
  · exact Registry.lookupUnique keys

theorem appliedPending (pending : OrderedMap Bytes Entry) (v : View) :
    applied pending.entries v = overlaid pending v := by
  funext key
  rw [appliedLast, lastWriteOrdered pending.ordered]
  rfl

end Views

section Committing
variable [Crc32]

/-- What holds of a transaction that has begun on a store which shows `committed`. -/
structure Overlays (ok : Transaction → Prop) (t : Transaction) (committed : View) : Prop where
  get : ∀ key, Completes (TxMutator.get key) ⟨t.store.db, t.pending⟩ (fun found _ =>
    found = overlaid t.pending committed key)
  scan : ∀ start stop, Completes (TxMutator.scan start stop) ⟨t.store.db, t.pending⟩
    (fun rows _ => KeyValue.Lists (overlaid t.pending committed) start stop rows)
  commit : EndsIf ok Transaction.commit t
    (fun _ t' => Shows t'.store.db (overlaid t.pending committed)) (fun _ _ => True)

omit [Crc32] in
theorem persistShows {s : EntityStore} {mem dur : View} (h : Store any s.db mem dur) :
    Ends EntityStore.persistSchema s
      (fun _ s' => Store any s'.db mem dur ∧ s'.db.opts = s.db.opts) (fun _ _ => True) := by
  unfold EntityStore.persistSchema
  refine endsBindGet (endsIte (fun _ => ?_) (fun _ => ⟨h, rfl⟩))
  unfold EntityStore.saveSchema
  have saved : Ends (EntityStore.onDb (Database.atomically fun d => { d with schema := some s.schema.save })) s
      (fun _ s' => Store any s'.db mem dur ∧ s'.db.opts = s.db.opts) (fun _ _ => True) := by
    apply endsZoom
    refine (schemaEnds _ s.db).mono ?_ (fun _ _ _ => trivial)
    intro _ db' done
    obtain ⟨fs, -, rfl⟩ := done
    exact ⟨h.same rfl rfl rfl rfl rfl, rfl⟩
  refine endsBindGet (saved.bind ?_)
  intro _ s' done
  exact done

theorem commitShows {t : Transaction} {mem dur : View} (h : Store any t.store.db mem dur)
    (room : t.store.db.opts.segmentMaxRecords ≠ 0) :
    EndsIf (fun t' => Fitting t'.store.db) Transaction.commit t
      (fun _ t' => Shows t'.store.db (overlaid t.pending mem)) (fun _ _ => True) := by
  unfold Transaction.commit
  have active : Ends Transaction.checkActive t (fun _ t' => t' = t) (fun _ _ => True) :=
    endsBindGet (endsIte (fun _ => trivial) (fun _ => rfl))
  refine Ends.bind (active.mono (fun _ _ same => same) (fun _ _ _ _ => trivial)) ?_
  intro _ t' same
  rw [same]
  have persist : Ends (Transaction.onStore EntityStore.persistSchema) t
      (fun _ t' => (Store any t'.store.db mem dur ∧ t'.store.db.opts = t.store.db.opts) ∧
        t'.pending = t.pending) (fun _ _ => True) :=
    endsZoom ((persistShows h).mono (fun _ _ done => ⟨done, rfl⟩) (fun _ _ _ => trivial))
  refine Ends.bind (persist.mono (fun _ _ done => done) (fun _ _ _ _ => trivial)) ?_
  intro _ t₁ done
  obtain ⟨⟨store, opts⟩, pending⟩ := done
  refine endsBindGet ?_
  have room₁ : t₁.store.db.opts.segmentMaxRecords ≠ 0 := opts ▸ room
  have write : Ends (Transaction.onStore (EntityStore.onDb
      (Database.commitPending t₁.id t₁.pending.entries))) t₁
      (fun _ t' => Fitting t'.store.db → Shows t'.store.db (overlaid t.pending mem))
      (fun _ _ => True) := by
    refine endsZoom (endsZoom ?_)
    refine Ends.mono (store.commitPending room₁ t₁.id t₁.pending.entries) ?_
      (fun _ _ _ => trivial)
    intro _ db' done fits
    have left := (done (goodOfFitting fits)).left
    rw [appliedPending, pending] at left
    rcases left with ⟨-, store | ⟨store, -⟩⟩ | ⟨-, store⟩ <;> exact store.shows
  refine Ends.bind (write.mono (fun _ _ done => done) (fun _ _ _ _ => trivial)) ?_
  intro _ t₂ shows
  exact shows

def InTransaction (s : EntityStore) (calls : List TxCall) (t : Transaction) : Prop :=
  (calls.forM (fun call => ignoreError call.run)) (Transaction.begin s) = .ok () t

theorem transactionAlive {s : EntityStore} (h : Alive s.db) {calls : List TxCall} {t : Transaction}
    (run : InTransaction s calls t) (fits : Fitting t.store.db) : Alive t.store.db := by
  have moves : Moves (InTx Lives) (calls.forM (fun call => ignoreError call.run)) :=
    Moves.forM (fun call => (TxCall.runMoves call).ignore) calls
  have lives : Lives (Transaction.begin s).store.db t.store.db := (endsOfRun run).mp (moves _)
  have begun : Lives s.db (Transaction.begin s).store.db := (instEngineStepLives).begin s.db
  exact (trans_of Lives begun lives).holds fits h

/-- A transaction sees the overlay, whatever is pending, and its commit makes it the map. -/
theorem overlayExact {s : EntityStore} (h : Reached Fits (.up s)) {calls : List TxCall}
    {t : Transaction} (run : InTransaction s calls t) (fits : Fitting t.store.db) :
    ∃ committed, Shows t.store.db committed ∧ ∀ id pending,
      Overlays (fun t' => Fitting t'.store.db) ⟨t.store, id, pending, .active⟩ committed := by
  have alive := transactionAlive (h.sound (fun _ _ _ fit => fit)) run fits
  obtain ⟨mem, dur, store⟩ := alive.store
  refine ⟨mem, store.shows, fun id pending => ⟨?_, ?_, ?_⟩⟩
  · exact fun key => (store.overlayGet key).imp (fun _ _ done => done.1)
  · exact fun start stop => (store.overlayScan start stop).imp (fun _ _ done => done.1)
  · exact commitShows (t := ⟨t.store, id, pending, .active⟩) store alive.room

end Committing

section Flushing
attribute [local instance] Wal.ieee

def committedCalls : List StoreCall :=
  [.collection ['u'], .putEntity 0 [97] ⟨[(['x'], .bool true)]⟩,
    .putEntity 0 [98] ⟨[(['x'], .bool true)]⟩, .flush, .deleteEntity 0 [97],
    .putEntity 0 [99] ⟨[(['x'], .bool true)]⟩]

def pendingCalls : List TxCall :=
  [.update ['u'] (.ofBytes [98]) ⟨[(['x'], .bool false)]⟩, .delete ['u'] (.ofBytes [99]),
    .update ['u'] (.ofBytes [100]) ⟨[(['x'], .bool true)]⟩]

theorem overlayExactFlushed : ∃ s t, s.db.manifest.levels = [[1]] ∧
    s.db.memtable.iter = [(encodeEntityKey 0 [97] 0, none),
      (encodeEntityKey 0 [99] 0, some (Value.bool true).encode)] ∧
    InTransaction s pendingCalls t ∧
    t.pending.entries = [(encodeEntityKey 0 [98] 0, some (Value.bool false).encode),
      (encodeEntityKey 0 [99] 0, none), (encodeEntityKey 0 [100] 0, some (Value.bool true).encode)] ∧
    ∃ committed, Shows t.store.db committed ∧ ∀ id pending,
      Overlays (fun t' => Fitting t'.store.db) ⟨t.store, id, pending, .active⟩ committed := by
  obtain ⟨s₀, opened, calls⟩ : ∃ s₀,
      EntityStore.openWith (EntityStore.boot .empty [] ⟨1000, 4, 1⟩) = .ok () s₀ ∧
      (leaves (StoreCall.all committedCalls) s₀).any (fun s => Fitting s.db ∧
        s.db.manifest.levels = [[1]] ∧
        s.db.memtable.iter = [(encodeEntityKey 0 [97] 0, none),
          (encodeEntityKey 0 [99] 0, some (Value.bool true).encode)] ∧
        (leaves (pendingCalls.forM (fun call => ignoreError call.run)) (Transaction.begin s)).any
          (fun t => Fitting t.store.db ∧ t.pending.entries =
            [(encodeEntityKey 0 [98] 0, some (Value.bool false).encode),
              (encodeEntityKey 0 [99] 0, none),
              (encodeEntityKey 0 [100] 0, some (Value.bool true).encode)]) = true) = true := by
    refine ⟨_, rfl, ?_⟩
    decide +kernel
  obtain ⟨s, left, facts⟩ := (Option.any_eq_true _ _).mp calls
  obtain ⟨fits, levels, memtable, transaction⟩ := of_decide_eq_true facts
  obtain ⟨t, left', facts⟩ := (Option.any_eq_true _ _).mp transaction
  obtain ⟨fits', pending⟩ := of_decide_eq_true facts
  obtain ⟨⟨⟩, run⟩ := leavesSome left
  obtain ⟨⟨⟩, began⟩ := leavesSome left'
  have reach := reachedAll (by decide) opened run fits
  exact ⟨s, t, levels, memtable, began, pending, overlayExact reach began fits'⟩

theorem pendingFlushed (value : Bytes) : ∃ s t t',
    EntityStore.openWith (EntityStore.boot .empty [] ⟨0, 4, 1⟩) = .ok () s ∧
    InTransaction s [] t ∧
    Transaction.commit ⟨t.store, 1, OrderedMap.empty.insert [0] (some value), .active⟩ = .ok () t' ∧
    t'.store.db.memtable = .new ∧ t'.store.db.manifest.levels = [[1]] ∧
    t'.store.db.tableCache = [] ∧
    t'.store.db.disk.tables.get 1 = some (Sstable.tableFile [([0], some value)]) :=
  ⟨_, _, _, rfl, rfl, rfl, rfl, rfl, rfl, rfl⟩

/-- A pending value of 2 ^ 32 bytes is empty once it is committed. -/
theorem overlayCut : ¬ ∀ (s : EntityStore) (calls : List TxCall) (t : Transaction),
    Reached (fun _ _ _ => True) (.up s) → InTransaction s calls t →
    ∃ committed, Shows t.store.db committed ∧ ∀ id pending,
      Overlays (fun _ => True) ⟨t.store, id, pending, .active⟩ committed := by
  intro claim
  set value : Bytes := List.replicate (2 ^ 32) 0 with hvalue
  have length : value.length = 2 ^ 32 := List.length_replicate
  obtain ⟨s, t, t', opened, began, commit, memtable, levels, cache, table⟩ :=
    pendingFlushed value
  obtain ⟨committed, -, overlays⟩ := claim s [] t (.opened .fresh (by decide) opened trivial) began
  have shows := (endsOfRun commit).mp (overlays 1 _).commit trivial
  obtain ⟨found, _, got, rfl⟩ := (getCut (by decide) (by omega) memtable levels cache table).run
  obtain ⟨found', _, got', eq⟩ := (shows.get [0]).run
  rw [got] at got'
  cases got'
  have visible : overlaid (OrderedMap.empty.insert [0] (some value)) committed [0] = some value := by
    rfl
  rw [visible, length, Nat.mod_self, List.take_zero] at eq
  have none := congrArg List.length (Option.some.inj eq)
  rw [length] at none
  exact absurd none (by decide)

end Flushing
end MyLsmDb
