import MyLsmDb.History
import MyLsmDb.PlainMap

/-! One crash at any point of a session: the reopened store shows a prefix of the writes
that contains all acknowledged ones, unless a record was left in the log whose key a lost
record and the new tables have a later value for. -/
namespace MyLsmDb
open ByteOrder (Bytes)
open Effect
open OrderedEntries
open Wal (Crc32 LogRecord LogFits logBytes logOps resolve)

abbrev View := Bytes → Option Bytes

section Reopening
variable [Crc32]

/-- The next session shows `v`, whatever its options. -/
def Reopens (d : Disk) (v : View) : Prop :=
  ∀ opts, Completes Database.openWith (Database.boot d [] opts) (fun _ db => Shows db v)

def VersionOk (d : Disk) : Prop :=
  d.version = none ∨ ∃ text v, d.version = some text ∧
    Database.parseVersion text = .ok (some v) ∧ Database.checkCompatible v = .ok ()

omit [Crc32] in
theorem Store.recoverable {db : Database} {mem dur : View} (h : Store Writable db mem dur)
    (version : VersionOk db.disk) :
    ∃ md, Recoverable db.disk md ∧ tablesView db.disk.tables md = dur := by
  obtain ⟨vol, ⟨md, views⟩, -⟩ := h
  exact ⟨md, ⟨version, views.saved, views.written, views.durable⟩, views.dur⟩

theorem Recoverable.reopens {d : Disk} {md : Manifest} {v : View} (h : Recoverable d md)
    (tail : d.tail = [])
    (view : applied (Wal.replay d.wal).records (tablesView d.tables md) = v) : Reopens d v := by
  intro opts
  have opens := @openWithEnds d md _ [] opts h tail
  refine opens.mono ?_ ?_
  · intro _ db' done
    have store := done.1.store
    rw [view] at store
    exact store.shows
  · intro e db' stop
    exact noInjection stop.1

omit [Crc32] in
theorem Recoverable.found {d d' : Disk} {md : Manifest} (h : Recoverable d md) (found : d.Found d') :
    Recoverable d' md := by
  cases found <;> exact ⟨h.version, h.saved, h.written, h.holding⟩

omit [Crc32] in
theorem Disk.Found.same {d d' : Disk} (found : d.Found d') :
    d'.manifest = d.manifest ∧ d'.tables = d.tables ∧ d'.tail = d.tail := by
  cases found <;> exact ⟨rfl, rfl, rfl⟩

theorem Store.found {db : Database} {mem dur v : View} {d : Disk} (h : Store Writable db mem dur)
    (version : VersionOk db.disk) (tail : db.disk.tail = []) (found : db.disk.Found d)
    (view : applied (Wal.replay d.wal).records dur = v) : Reopens d v := by
  obtain ⟨md, ready, same⟩ := h.recoverable version
  obtain ⟨-, tables, kept⟩ := found.same
  refine (ready.found found).reopens (kept.trans tail) ?_
  rw [tables, same]
  exact view

end Reopening

section Tracking

def shown (base : View) (H : List (Op × Nat)) : View := applied (writesOf H) base

theorem shownAppend (base : View) (H : List (Op × Nat)) (g : Op × Nat) :
    shown base (H ++ [g]) = applied g.1.writes (shown base H) := by
  simp [shown, writesOf, appliedAppend]

/-- How many operations are synced: all up to the last one that syncs. -/
def syncedOps (ops : List Op) : Nat := (ops.reverse.dropWhile (fun op => !op.syncs)).length

theorem syncedOpsSnoc (ops : List Op) (op : Op) : syncedOps (ops ++ [op]) =
    if op.syncs then ops.length + 1 else syncedOps ops := by
  unfold syncedOps
  rw [List.reverse_append, List.reverse_singleton, List.singleton_append, List.dropWhile_cons]
  by_cases syncs : op.syncs <;> simp [syncs]

theorem appliedSame {ws : List Rec} {v : View}
    (same : ∀ key entry, lastWrite ws key = some entry → v key = entry) : applied ws v = v := by
  funext key
  rw [appliedLast]
  cases found : lastWrite ws key with
  | none => rfl
  | some entry => exact (same key entry found).symm

variable [Crc32]

/-- A log with the part `t` of it unsynced: some older records `P` and those of the operations `H`
but for the first `i`. All up to the `D`th are synced. -/
structure LogOf (H : List (Op × Nat)) (D i : Nat) (P S T : List LogRecord) (w t : Bytes) : Prop where
  done : i ≤ H.length
  acked : D ≤ H.length
  wal : w = logBytes S
  tail : t = logBytes T
  whole : S ++ T = P ++ recs (H.drop i)
  synced : P ++ recs ((H.drop i).take (D - i)) <+: S
  fits : LogFits (S ++ T)
  order : Ascending H
  below : ∀ g ∈ H.drop i, Below g.2 (logOps P)

/-- A log that was truncated behind some of the operations, with the first `C` of them synced. -/
def Undone (base : View) (H : List (Op × Nat)) (C : Nat) (cut : Bytes × Bytes) : Prop :=
  ∃ n D i P S T, n ≤ H.length ∧ C ≤ D ∧ (i = 0 ∨ P = []) ∧
    applied (resolve (logOps P)) base = base ∧ LogOf (H.take n) D i P S T cut.1 cut.2

/-- Behind the operations `H` of which the first `D` are acknowledged: the tables on the
medium have the first `i` of them, the log the others behind some older records `P`, the
part `S` of it synced. Where the tables have some, nothing is left of `P`. -/
structure Tracks (base : View) (H : List (Op × Nat)) (D i : Nat) (P S T : List LogRecord)
    (dur : View) (db : Database) : Prop extends LogOf H D i P S T db.disk.wal db.disk.tail where
  store : Store Writable db (shown base H) dur
  room : db.opts.segmentMaxRecords ≠ 0
  calm : Settled db
  version : VersionOk db.disk
  noFail : ∀ n, Fault.fail n ∉ db.faults
  lone : i = 0 ∨ P = []
  old : applied (resolve (logOps P)) dur = shown base (H.take i)
  oldIds : Below db.nextTxId (logOps P)
  ids : ∀ g ∈ H, g.1.next g.2 ≤ db.nextTxId
  durable : syncedOps (H.map Prod.fst) ≤ D
  undone : ∀ cut ∈ db.disk.cuts, Undone base H (syncedOps (H.map Prod.fst)) cut
  inTables : db.disk.cuts ≠ [] → ∃ n, D ≤ n ∧ n ≤ H.length ∧ dur = shown base (H.take n)

omit [Crc32] in
theorem Op.startSame (op : Op) (db : Database) : (op.start db).faults = db.faults ∧
    (op.start db).opts = db.opts ∧ (op.start db).disk = db.disk ∧
    (op.start db).nextTxId = op.next db.nextTxId := by
  unfold Op.start Op.next
  split <;> exact ⟨rfl, rfl, rfl, rfl⟩

omit [Crc32] in
theorem recsSingle (op : Op) (tx : Nat) : recs [(op, tx)] = op.records tx :=
  List.flatMap_singleton _ _

theorem Tracks.snoc {base dur : View} {H : List (Op × Nat)} {D i : Nat} {P S T : List LogRecord}
    {db : Database} (h : Tracks base H D i P S T dur db) (op : Op) :
    Ascending (H ++ [(op, db.nextTxId)]) := by
  refine List.pairwise_append.mpr ⟨h.order, List.pairwise_singleton _ _, fun g mem g' mem' => ?_⟩
  cases List.mem_singleton.mp mem'
  exact h.ids g mem

theorem Tracks.belowSingle {base dur : View} {H : List (Op × Nat)} {D i : Nat}
    {P S T : List LogRecord} {db : Database} (h : Tracks base H D i P S T dur db) (op : Op) :
    ∀ g ∈ [(op, db.nextTxId)], Below g.2 (logOps P) := by
  intro g mem
  cases List.mem_singleton.mp mem
  exact h.oldIds

theorem Tracks.oldSame {base dur : View} {H : List (Op × Nat)} {D i : Nat} {P S T : List LogRecord}
    {db : Database} (h : Tracks base H D i P S T dur db) :
    applied (resolve (logOps P)) base = base := by
  rcases h.lone with none | none
  · have old := h.old
    rw [none, List.take_zero] at old
    have base_ : applied (resolve (logOps P)) dur = base := old
    refine appliedSame (fun key value found => ?_)
    rw [← base_, appliedLast, found]
    rfl
  · rw [none]
    rfl

/-- Returning from it says that all before it is durable. -/
def Op.durable (db : Database) (op : Op) : Bool := op.syncs || op.flushes db

theorem logBytesNone {log : List LogRecord} (none : logBytes log = []) : log = [] := by
  cases log with
  | nil => rfl
  | cons r log =>
    have positive := Wal.bytesPositive r
    rw [logBytes, List.flatMap_cons, List.append_eq_nil_iff] at none
    simp [none.1] at positive

/-- The condition on a step: its records fit the log, its tables and manifests the format. -/
structure Allowed (op : Op) (db db' : Database) : Prop where
  fits : LogFits (op.records db.nextTxId)
  good : Good Writable db'

section Growing
variable {base dur : View} {H : List (Op × Nat)} {C D i : Nat} {P S T S' T' : List LogRecord}
  {w t w' t' : Bytes} {db : Database}

theorem LogOf.snoc (h : LogOf H D i P S T w t) {op : Op} {tx : Nat}
    (order : Ascending (H ++ [(op, tx)])) (old : Below tx (logOps P))
    (fits : LogFits (op.records tx)) (whole : S' ++ T' = S ++ T ++ op.records tx)
    (more : S <+: S') (wal : w' = logBytes S') (tail : t' = logBytes T') :
    LogOf (H ++ [(op, tx)]) D i P S' T' w' t' := by
  have drop : (H ++ [(op, tx)]).drop i = H.drop i ++ [(op, tx)] :=
    List.drop_append_of_le_length h.done
  have length : (H ++ [(op, tx)]).length = H.length + 1 := by simp
  refine ⟨length ▸ h.done.trans (Nat.le_succ _), length ▸ h.acked.trans (Nat.le_succ _), wal, tail,
    ?_, ?_, ?_, order, ?_⟩
  · rw [whole, h.whole, drop, recs, recs, List.flatMap_append, List.append_assoc, ← recsSingle]
    rfl
  · have inside : D - i ≤ (H.drop i).length := by
      have := h.acked
      rw [List.length_drop]
      omega
    rw [drop, List.take_append_of_le_length inside]
    exact h.synced.trans more
  · rw [whole]
    intro r mem
    rcases List.mem_append.mp mem with before | new
    · exact h.fits r before
    · exact fits r new
  · rw [drop]
    intro g mem
    rcases List.mem_append.mp mem with before | new
    · exact h.below g before
    · cases List.mem_singleton.mp new
      exact old

theorem LogOf.all (h : LogOf H D i P S [] w t) : LogOf H H.length i P S [] w t := by
  refine { h with acked := le_rfl, synced := ?_ }
  rw [← List.length_drop, List.take_length, ← h.whole, List.append_nil]

theorem logEmpty (order : Ascending H) (acked : D ≤ H.length) :
    LogOf H D H.length [] [] [] [] [] := by
  refine ⟨le_rfl, acked, rfl, rfl, ?_, ?_, fun r mem => (nomatch mem), order, ?_⟩
  · rw [List.drop_length]
    rfl
  · rw [List.drop_length, List.take_nil]
    exact List.prefix_rfl
  · rw [List.drop_length]
    exact fun g mem => (nomatch mem)

theorem Undone.snoc {cut : Bytes × Bytes} (h : Undone base H C cut) (g : Op × Nat) :
    Undone base (H ++ [g]) C cut := by
  obtain ⟨n, D, i, P, S, T, inside, low, lone, same, log⟩ := h
  refine ⟨n, D, i, P, S, T, ?_, low, lone, same, ?_⟩
  · rw [List.length_append]
    omega
  · rw [List.take_append_of_le_length inside]
    exact log

theorem Tracks.logged (h : Tracks base H D i P S T dur db) {op : Op}
    (fits : LogFits (op.records db.nextTxId)) : ∃ S' T',
      LogOf (H ++ [(op, db.nextTxId)]) D i P S' T' (op.logged db).wal (op.logged db).tail ∧
        (op.syncs → T' = []) ∧ (op.records db.nextTxId = [] → T = [] → T' = []) := by
  have before := h.wal
  have behind := h.tail
  have grown : ∀ {S' T' : List LogRecord} {w' t' : Bytes},
      S' ++ T' = S ++ T ++ op.records db.nextTxId → S <+: S' → w' = logBytes S' →
        t' = logBytes T' → LogOf (H ++ [(op, db.nextTxId)]) D i P S' T' w' t' :=
    h.toLogOf.snoc (h.snoc op) h.oldIds fits
  by_cases syncs : op.syncs
  · refine ⟨S ++ T ++ op.records db.nextTxId, [], grown (List.append_nil _) ?_ ?_ ?_,
      fun _ => rfl, fun _ _ => rfl⟩
    · rw [List.append_assoc]
      exact List.prefix_append _ _
    · unfold Op.logged
      rw [if_pos syncs]
      simp [before, behind]
    · unfold Op.logged
      rw [if_pos syncs]
      rfl
  · refine ⟨S, T ++ op.records db.nextTxId, grown (List.append_assoc _ _ _).symm List.prefix_rfl
      ?_ ?_, fun now => absurd now syncs, fun none idle => ?_⟩
    · unfold Op.logged
      rw [if_neg syncs]
      exact before
    · unfold Op.logged
      rw [if_neg syncs]
      simp [behind]
    · rw [none, idle]
      rfl

omit [Crc32] in
theorem syncedOpsStep (op : Op) (tx : Nat) : syncedOps ((H ++ [(op, tx)]).map Prod.fst) =
    if op.syncs then H.length + 1 else syncedOps (H.map Prod.fst) := by
  rw [List.map_append, List.map_singleton, syncedOpsSnoc, List.length_map]

theorem Tracks.undoneBefore (h : Tracks base H D i P S T dur db) (op : Op) :
    ∀ cut ∈ (op.logged db).cuts, Undone base (H ++ [(op, db.nextTxId)])
      (syncedOps ((H ++ [(op, db.nextTxId)]).map Prod.fst)) cut := by
  intro cut mem
  unfold Op.logged at mem
  by_cases syncs : op.syncs
  · rw [if_pos syncs] at mem
    cases mem
  · rw [if_neg syncs] at mem
    rw [syncedOpsStep, if_neg syncs]
    exact (h.undone cut mem).snoc _

theorem Tracks.undoneNow (h : Tracks base H D i P S T dur db) {op : Op}
    (fits : LogFits (op.records db.nextTxId)) : Undone base (H ++ [(op, db.nextTxId)])
      (syncedOps ((H ++ [(op, db.nextTxId)]).map Prod.fst))
      ((op.logged db).wal, (op.logged db).tail) := by
  obtain ⟨S', T', log, synced, -⟩ := h.logged fits
  have whole := List.take_length (l := H ++ [(op, db.nextTxId)])
  rw [syncedOpsStep]
  by_cases syncs : op.syncs
  · rw [if_pos syncs]
    obtain rfl := synced syncs
    refine ⟨_, _, i, P, S', [], le_rfl, ?_, h.lone, h.oldSame, whole.symm ▸ log.all⟩
    rw [whole, List.length_append]
    rfl
  · rw [if_neg syncs]
    exact ⟨_, D, i, P, S', T', le_rfl, h.durable, h.lone, h.oldSame, whole.symm ▸ log⟩

theorem Tracks.undoneAny (h : Tracks base H D i P S T dur db) {op : Op}
    (fits : LogFits (op.records db.nextTxId)) :
    ∀ cut ∈ (op.logged db).cuts ++ [((op.logged db).wal, (op.logged db).tail)],
      Undone base (H ++ [(op, db.nextTxId)])
        (syncedOps ((H ++ [(op, db.nextTxId)]).map Prod.fst)) cut := by
  intro cut mem
  rcases List.mem_append.mp mem with before | now
  · exact h.undoneBefore op cut before
  · cases List.mem_singleton.mp now
    exact h.undoneNow fits

end Growing

section Stepping
variable {base dur dur' : View} {H : List (Op × Nat)} {D i : Nat} {P S T : List LogRecord}
  {db db' : Database} {op : Op}

/-- What an operation that returns keeps, whether or not it has emptied the log; `C` is how many are
acknowledged behind it. -/
structure Stepped (H : List (Op × Nat)) (C : Nat) (op : Op) (db db' : Database) : Prop where
  room : db'.opts.segmentMaxRecords ≠ 0
  calm : Settled db'
  version : VersionOk db'.disk
  noFail : ∀ n, Fault.fail n ∉ db'.faults
  grown : db.nextTxId ≤ db'.nextTxId
  ids : ∀ g ∈ H ++ [(op, db.nextTxId)], g.1.next g.2 ≤ db'.nextTxId
  acked : C ≤ (H ++ [(op, db.nextTxId)]).length
  durable : syncedOps ((H ++ [(op, db.nextTxId)]).map Prod.fst) ≤ C

theorem Tracks.stepped (h : Tracks base H D i P S T dur db) (same : Same (op.start db) db')
    (calm : Settled db') :
    Stepped H (if op.durable db then H.length + 1 else D) op db db' := by
  obtain ⟨faults, opts, disk, next⟩ := op.startSame db
  have ids : db'.nextTxId = op.next db.nextTxId := same.nextTxId.trans next
  have grown : db.nextTxId ≤ db'.nextTxId := ids ▸ nextLe op db.nextTxId
  have inside := h.acked
  have synced := h.durable
  refine ⟨?_, calm, ?_, fun n mem => h.noFail n (faults ▸ same.faults.subset mem), grown,
    fun g mem => ?_, ?_, ?_⟩
  · rw [same.opts, opts]
    exact h.room
  · rw [VersionOk, same.version, disk]
    exact h.version
  · rcases List.mem_append.mp mem with old | new
    · exact (h.ids g old).trans grown
    · cases List.mem_singleton.mp new
      exact ids.ge
  · rw [List.length_append, List.length_singleton]
    split <;> omega
  · rw [syncedOpsStep]
    by_cases syncs : op.syncs
    · simp [Op.durable, syncs]
    · rw [if_neg syncs]
      split <;> omega

/-- Where an operation that is acknowledged leaves the log alone, it has synced it or had nothing to
write. -/
theorem Tracks.idles (h : Tracks base H D i P S T dur db)
    (flush : op.flushes db → op.records db.nextTxId = [] ∧ db.memtable.isEmpty)
    (now : op.durable db) : op.syncs ∨ T = [] ∧ op.records db.nextTxId = [] ∧
      applied op.writes (shown base H) = dur := by
  refine (Bool.or_eq_true_iff.mp now).imp_right (fun flushes => ?_)
  obtain ⟨none, empty⟩ := flush flushes
  have writes : op.writes = [] := by
    rw [← resolveRecords op db.nextTxId, none]
    rfl
  refine ⟨logBytesNone (h.tail ▸ h.calm empty), none, ?_⟩
  rw [writes, h.store.idle empty]
  rfl

theorem Tracks.besideLog (h : Tracks base H D i P S T dur db)
    (fits : LogFits (op.records db.nextTxId)) (log : LogSame (op.logged db) db'.disk)
    (flush : op.flushes db → op.records db.nextTxId = [] ∧ db.memtable.isEmpty)
    (store : Store Writable db' (shown base (H ++ [(op, db.nextTxId)])) dur)
    (stepped : Stepped H (if op.durable db then H.length + 1 else D) op db db') :
    ∃ S' T', Tracks base (H ++ [(op, db.nextTxId)])
      (if op.durable db then H.length + 1 else D) i P S' T' dur db' := by
  obtain ⟨S', T', logOf, synced, idle⟩ := h.logged fits
  have length : (H ++ [(op, db.nextTxId)]).length = H.length + 1 := by simp
  refine ⟨S', T', ⟨?_, store, stepped.room, stepped.calm, stepped.version, stepped.noFail,
    h.lone, ?_, h.oldIds.mono stepped.grown, stepped.ids, stepped.durable, ?_, ?_⟩⟩
  · rw [log.wal, log.tail]
    by_cases now : op.durable db
    · obtain rfl : T' = [] := by
        rcases h.idles flush now with syncs | ⟨tail, none, -⟩
        · exact synced syncs
        · exact idle none tail
      rw [if_pos now, ← length]
      exact logOf.all
    · rw [if_neg now]
      exact logOf
  · rw [List.take_append_of_le_length h.done]
    exact h.old
  · rw [log.cuts]
    exact h.undoneBefore op
  · rw [log.cuts]
    intro some
    have plain : ¬ op.syncs := by
      intro syncs
      rw [Op.logged, if_pos syncs] at some
      exact some rfl
    by_cases now : op.durable db
    · obtain ⟨-, -, same⟩ := (h.idles flush now).resolve_left plain
      refine ⟨H.length + 1, (if_pos now).le, length.ge, ?_⟩
      rw [← length, List.take_length, shownAppend]
      exact same.symm
    · rw [Op.logged, if_neg plain] at some
      obtain ⟨n, low, high, view⟩ := h.inTables some
      refine ⟨n, (if_neg now).trans_le low, by omega, ?_⟩
      rw [List.take_append_of_le_length high]
      exact view

theorem Tracks.withoutLog (h : Tracks base H D i P S T dur db)
    (fits : LogFits (op.records db.nextTxId)) (emptied : Emptied (op.logged db) db'.disk) {C : Nat}
    (store : Store Writable db' (shown base (H ++ [(op, db.nextTxId)]))
      (shown base (H ++ [(op, db.nextTxId)]))) (stepped : Stepped H C op db db') :
    Tracks base (H ++ [(op, db.nextTxId)]) C (H ++ [(op, db.nextTxId)]).length [] [] []
      (shown base (H ++ [(op, db.nextTxId)])) db' := by
  refine ⟨?_, store, stepped.room, stepped.calm, stepped.version, stepped.noFail, .inr rfl, ?_,
    fun o mem => absurd mem List.not_mem_nil, stepped.ids, stepped.durable, ?_, fun _ => ?_⟩
  · rw [emptied.wal, emptied.tail]
    exact logEmpty (h.snoc op) stepped.acked
  · rw [List.take_length]
    rfl
  · rw [emptied.cuts]
    exact h.undoneAny fits
  · refine ⟨_, stepped.acked, le_rfl, ?_⟩
    rw [List.take_length]

theorem Tracks.step (h : Tracks base H D i P S T dur db) (run : op.run db = .ok () db')
    (allowed : Allowed op db db') : ∃ i' P' S' T' dur', Tracks base (H ++ [(op, db.nextTxId)])
      (if op.durable db then H.length + 1 else D) i' P' S' T' dur' db' := by
  have done := (endsOfRun run).mp (op.ends h.store h.room) allowed.good
  obtain ⟨⟨same, left, calm⟩, flush⟩ := done
  have stepped := h.stepped same (calm (op.startSettled h.calm))
  rw [← shownAppend base H (op, db.nextTxId)] at left
  rcases left with ⟨log, store | ⟨-, n, fail⟩⟩ | ⟨emptied, store⟩
  · -- a flush that leaves the log alone had nothing to do
    have flushed : op.flushes db → op.records db.nextTxId = [] ∧ db.memtable.isEmpty := by
      refine fun flushes => (flush flushes).resolve_right (fun emptied => ?_)
      have cuts := congrArg List.length (emptied.cuts.symm.trans log.cuts)
      simp at cuts
    obtain ⟨S', T', tracks⟩ := h.besideLog allowed.fits log flushed store stepped
    exact ⟨i, P, S', T', dur, tracks⟩
  · obtain ⟨faults, -⟩ := op.startSame db
    exact absurd (faults ▸ fail) (h.noFail n)
  · exact ⟨_, [], [], [], _, h.withoutLog allowed.fits emptied store stepped⟩

end Stepping

/-- Whatever part of the unsynced records is there, what is replayed of them is some prefix
of the operations behind the older records. -/
theorem LogOf.replayed {H : List (Op × Nat)} {D i : Nat} {P S T : List LogRecord} {w t : Bytes}
    (h : LogOf H D i P S T w t) {X : List (Op × Nat)} (fits : LogFits (recs X))
    (order : Ascending (H ++ X)) (below : ∀ g ∈ X, Below g.2 (logOps P)) {bytes : Bytes}
    (cut : bytes <+: t ++ logBytes (recs X)) :
    ∃ j, D - i ≤ j ∧ i + j ≤ (H ++ X).length ∧
      (bytes = t ++ logBytes (recs X) → i + j = (H ++ X).length) ∧
      (Wal.replay (w ++ bytes)).records =
        resolve (logOps P) ++ writesOf (((H ++ X).drop i).take j) := by
  rw [h.tail, ← Wal.logBytesAppend] at cut ⊢
  have unsynced : LogFits (T ++ recs X) := by
    intro r mem
    rcases List.mem_append.mp mem with old | new
    · exact h.fits r (List.mem_append_right _ old)
    · exact fits r new
  obtain ⟨b, a, torn, split, rfl, stops⟩ := Wal.cutLog unsynced cut
  have kept : LogFits (S ++ b) := by
    intro r mem
    rcases List.mem_append.mp mem with old | new
    · exact h.fits r (List.mem_append_left _ old)
    · exact unsynced r (split ▸ List.mem_append_left _ new)
  have file : w ++ (logBytes b ++ torn) = logBytes (S ++ b) ++ torn := by
    rw [h.wal, Wal.logBytesAppend, List.append_assoc]
  have drop : (H ++ X).drop i = H.drop i ++ X := List.drop_append_of_le_length h.done
  have whole : S ++ (T ++ recs X) = P ++ recs ((H ++ X).drop i) := by
    rw [← List.append_assoc, h.whole, drop, recs, recs, recs, List.flatMap_append,
      List.append_assoc]
  have inside : D - i ≤ (H.drop i).length := by
    have := h.acked
    rw [List.length_drop]
    omega
  have synced : P ++ recs (((H ++ X).drop i).take (D - i)) <+: S ++ b := by
    rw [drop, List.take_append_of_le_length inside]
    exact h.synced.trans (List.prefix_append _ _)
  obtain ⟨K, eq⟩ : P <+: S ++ b := (List.prefix_append _ _).trans synced
  rw [← eq] at synced
  have least := (List.prefix_append_right_inj _).mp synced
  have most : K <+: recs ((H ++ X).drop i) := by
    refine (List.prefix_append_right_inj P).mp ?_
    rw [eq, ← whole, split, ← List.append_assoc]
    exact List.prefix_append _ _
  have order : Ascending ((H ++ X).drop i) := order.sublist (List.drop_sublist _ _)
  have below : ∀ g ∈ (H ++ X).drop i, Below g.2 (logOps P) := by
    rw [drop]
    intro g mem
    exact (List.mem_append.mp mem).elim (h.below g) (below g)
  have length : ((H ++ X).drop i).length = (H ++ X).length - i := List.length_drop
  have i_le : i ≤ (H ++ X).length := by
    have := h.done
    rw [List.length_append]
    omega
  rw [file, Wal.replayLog kept stops, ← eq, logOpsAppend]
  by_cases all : K = recs ((H ++ X).drop i)
  · obtain ⟨j, low, high, view⟩ :=
      replayCut order below most le_rfl (by rw [List.take_length, all])
    refine ⟨j, ?_, by omega, fun _ => by omega, view⟩
    rw [drop, List.length_append] at low
    omega
  · have enough : D - i ≤ ((H ++ X).drop i).length := by
      rw [drop, List.length_append]
      omega
    obtain ⟨j, low, high, view⟩ := replayCut order below most enough least
    refine ⟨j, low, by omega, fun same => absurd ?_ all, view⟩
    -- a whole record that was kept would have been read
    have none : a = [] := by
      rw [split, Wal.logBytesAppend] at same
      have tail := List.append_cancel_left same
      cases a with
      | nil => rfl
      | cons r a =>
        rw [tail, Wal.logBytes, List.flatMap_cons] at stops
        obtain ⟨t, payload, read, -⟩ :=
          Wal.readRecordWhole (unsynced r (split ▸ by simp)) (a.flatMap LogRecord.bytes)
        cases stops.symm.trans read
    rw [none, List.append_nil] at split
    rw [← split, whole] at eq
    exact List.append_cancel_left eq

theorem Tracks.cut {base dur : View} {H : List (Op × Nat)} {D i : Nat} {P S T : List LogRecord}
    {db : Database} (h : Tracks base H D i P S T dur db) {X : List (Op × Nat)}
    (fits : LogFits (recs X)) (order : Ascending (H ++ X)) (below : ∀ g ∈ X, Below g.2 (logOps P))
    {bytes : Bytes} (cut : bytes <+: db.disk.tail ++ logBytes (recs X)) :
    ∃ n, D ≤ n ∧ n ≤ (H ++ X).length ∧
      applied (Wal.replay (db.disk.wal ++ bytes)).records dur = shown base ((H ++ X).take n) := by
  obtain ⟨j, low, high, -, view⟩ := h.toLogOf.replayed fits order below cut
  refine ⟨i + j, by omega, high, ?_⟩
  have take : (H ++ X).take i = H.take i := List.take_append_of_le_length h.done
  rw [view, appliedAppend, h.old, ← take, List.take_add]
  simp [shown, writesOf, appliedAppend]

/-- The machine goes down between two operations or inside one. -/
inductive Down (db : Database) : List Op → Database → Prop where
  | idle (kept : Nat) : Down db [] { db with disk := db.disk.crashed kept }
  | inside {op : Op} {dbc : Database} (run : op.run db = .error .crash dbc) : Down db [op] dbc

/-- The last record that is left in the log for a key has the value that the tables have: none that
was kept is overwritten by a lost one. -/
def Unshadowed (d : Disk) : Prop := ∀ m, Manifest.load d.manifest = .ok m → ∀ key entry,
  lastWrite (Wal.replay d.wal).records key = some entry →
    tablesView d.tables (Database.updateLevel0 id m) key = entry

omit [Crc32] in
theorem Store.crashed {W : Manifest → Prop} {db : Database} {mem dur : View} (h : Store W db mem dur)
    (kept : Nat) : Store W { db with disk := db.disk.crashed kept } mem dur := by
  obtain ⟨vol, ⟨md, views⟩, rest⟩ := h
  exact ⟨vol, ⟨md, views.same views.cached rfl rfl rfl⟩, rest⟩

/-- A truncation of the log is undone. -/
def Reverted (d d' : Disk) : Prop := ∃ cut ∈ d.cuts, ∃ kept, d'.wal = cut.1 ++ cut.2.take kept

theorem Store.unshadowed {db : Database} {mem dur : View} {d : Disk} (h : Store Writable db mem dur)
    (version : VersionOk db.disk) (found : db.disk.Found d) (fresh : Unshadowed d) :
    applied (Wal.replay d.wal).records dur = dur := by
  obtain ⟨md, ready, same⟩ := h.recoverable version
  obtain ⟨manifest, tables, -⟩ := found.same
  obtain ⟨m, load, rfl⟩ := loadRecoverable ready
  refine appliedSame (fun key entry last => ?_)
  rw [← same, ← tables]
  exact fresh m (manifest ▸ load) key entry last

theorem Tracks.all {base dur : View} {H : List (Op × Nat)} {D i : Nat} {P S T : List LogRecord}
    {db dbc : Database} {d : Disk} (h : Tracks base H D i P S T dur db) (op : Op)
    (version : VersionOk dbc.disk) (tail : dbc.disk.tail = []) (found : dbc.disk.Found d)
    (store : Store Writable dbc (applied op.writes (shown base H)) (applied op.writes (shown base H)))
    (same : applied (Wal.replay d.wal).records (applied op.writes (shown base H)) =
      applied op.writes (shown base H)) : ∃ n, D ≤ n ∧ n ≤ H.length + 1 ∧
      Reopens d (shown base ((H ++ [(op, db.nextTxId)]).take n)) := by
  refine ⟨H.length + 1, h.acked.trans (Nat.le_succ _), le_rfl, store.found version tail found ?_⟩
  rw [same, List.take_of_length_le (by simp), shownAppend]

theorem Op.loggedCut (op : Op) (db : Database) (kept : Nat) :
    ∃ bytes, bytes <+: db.disk.tail ++ logBytes (op.records db.nextTxId) ∧
      (op.logged db).wal ++ (op.logged db).tail.take kept = db.disk.wal ++ bytes ∧
      (op.syncs → bytes = db.disk.tail ++ logBytes (op.records db.nextTxId)) := by
  unfold Op.logged
  dsimp only
  split
  · exact ⟨_, List.prefix_rfl, by simp, fun _ => rfl⟩
  · rename_i unsynced
    exact ⟨_, List.take_prefix kept _, rfl, fun syncs => absurd syncs unsynced⟩

theorem Op.loggedCuts (op : Op) (db : Database) : (op.logged db).cuts ⊆ db.disk.cuts := by
  unfold Op.logged
  split
  · exact List.nil_subset _
  · exact List.Subset.refl _

/-- What a crash inside an operation leaves: the tables that were there and a part of the log,
or the tables with all of it, beside which a part of the log may still be there. -/
inductive Halted (op : Op) (db dbc : Database) (mem dur : View) : Prop where
  | cut {v : View} {bytes : Bytes} (store : Store Writable dbc v dur)
      (part : bytes <+: db.disk.tail ++ logBytes (op.records db.nextTxId))
      (wal : dbc.disk.wal = db.disk.wal ++ bytes) (cuts : dbc.disk.cuts ⊆ db.disk.cuts)
  | switched {bytes : Bytes}
      (store : Store Writable dbc (applied op.writes mem) (applied op.writes mem))
      (saved : dbc.disk.manifest ≠ db.disk.manifest)
      (part : bytes <+: db.disk.tail ++ logBytes (op.records db.nextTxId))
      (wal : dbc.disk.wal = db.disk.wal ++ bytes)
      (whole : op.syncs → bytes = db.disk.tail ++ logBytes (op.records db.nextTxId))
      (cuts : dbc.disk.cuts = (op.logged db).cuts)
  | emptied (store : Store Writable dbc (applied op.writes mem) (applied op.writes mem))
      (log : Emptied (op.logged db) dbc.disk)

theorem Op.halted {op : Op} {db dbc : Database} {mem dur : View} (h : Store Writable db mem dur)
    (room : db.opts.segmentMaxRecords ≠ 0) (version : VersionOk db.disk)
    (run : op.run db = .error .crash dbc) (good : Good Writable dbc) :
    Halted op db dbc mem dur ∧ VersionOk dbc.disk ∧ dbc.disk.tail = [] := by
  have stop := (endsOfError run).mp (op.ends h room) good
  obtain ⟨faults, opts, disk, next⟩ := op.startSame db
  have versioned : Same (op.start db) dbc → VersionOk dbc.disk := by
    intro same
    rw [VersionOk, same.version, disk]
    exact version
  rcases stop with append | flush
  · obtain ⟨part, cut, ⟨-, kept, wal, tail, cuts⟩ | ⟨other, -⟩⟩ := append.log
    · rw [disk] at wal cuts
      refine ⟨.cut append.store ((List.take_prefix _ _).trans ?_) wal
        (cuts ▸ List.Subset.refl _), versioned append.same, tail⟩
      exact (List.prefix_append_right_inj _).mpr cut
    · exact absurd rfl other
  · have version := versioned flush.same
    rcases flush.left with ⟨⟨-, kept, wal, tail, cuts⟩ | ⟨other, -⟩, left⟩ | ⟨emptied, store⟩
    · obtain ⟨bytes, cut, found, whole⟩ := op.loggedCut db kept
      rcases left with store | ⟨store, saved⟩
      · exact ⟨.cut store cut (wal.trans found) (cuts ▸ op.loggedCuts db), version, tail⟩
      · rw [disk] at saved
        exact ⟨.switched store saved cut (wal.trans found) whole cuts, version, tail⟩
    · exact absurd rfl other
    · exact ⟨.emptied store emptied, version, emptied.tail⟩

theorem Tracks.inside {base dur : View} {H : List (Op × Nat)} {D i : Nat} {P S T : List LogRecord}
    {db dbc : Database} {d : Disk} (h : Tracks base H D i P S T dur db) {op : Op}
    (run : op.run db = .error .crash dbc) (allowed : Allowed op db dbc) (found : dbc.disk.Found d)
    (fresh : d.manifest ≠ db.disk.manifest ∨ Reverted dbc.disk d → Unshadowed d) :
    ∃ n, D ≤ n ∧ n ≤ H.length + 1 ∧
      Reopens d (shown base ((H ++ [(op, db.nextTxId)]).take n)) := by
  obtain ⟨halted, version, tail⟩ := Op.halted h.store h.room h.version run allowed.good
  have same := found.same
  cases halted with
  | cut store part wal cuts =>
    cases found with
    | left =>
      rw [← recsSingle] at part
      obtain ⟨n, low, high, view⟩ :=
        h.cut (recsSingle op _ ▸ allowed.fits) (h.snoc op) (h.belowSingle op) part
      rw [← wal] at view
      exact ⟨n, low, by simpa using high, store.found version tail .left view⟩
    | undone mem kept =>
      obtain ⟨n, low, high, view⟩ := h.inTables (List.ne_nil_of_mem (cuts mem))
      have back := store.unshadowed version (.undone mem kept) (fresh (.inr ⟨_, mem, kept, rfl⟩))
      refine ⟨n, low, by omega, store.found version tail (.undone mem kept) (back.trans ?_)⟩
      rw [List.take_append_of_le_length high]
      exact view
  | switched store saved part wal whole cuts =>
    refine h.all op version tail found store (store.unshadowed version found (fresh (.inl ?_)))
    rw [same.1]
    exact saved
  | emptied store log =>
    refine h.all op version tail found store ?_
    cases found with
    | left =>
      change applied (Wal.replay dbc.disk.wal).records _ = _
      rw [log.wal]
      rfl
    | undone mem kept =>
      exact store.unshadowed version (.undone mem kept) (fresh (.inr ⟨_, mem, kept, rfl⟩))

theorem LogOf.quiet {H : List (Op × Nat)} {D i : Nat} {P S T : List LogRecord} {w t : Bytes}
    (h : LogOf H D i P S T w t) (kept : Nat) : ∃ j, D ≤ i + j ∧ i + j ≤ H.length ∧
      (Wal.replay (w ++ t.take kept)).records =
        resolve (logOps P) ++ writesOf ((H.drop i).take j) := by
  have cut : t.take kept <+: t ++ logBytes (recs []) :=
    (List.take_prefix _ _).trans (List.prefix_append _ _)
  have fits : LogFits (recs []) := by
    intro r mem
    cases mem
  have none : ∀ g ∈ ([] : List (Op × Nat)), Below g.2 (logOps P) := by
    intro g mem
    cases mem
  obtain ⟨j, low, high, -, view⟩ := h.replayed fits ((List.append_nil H).symm ▸ h.order) none cut
  rw [List.append_nil] at high view
  exact ⟨j, by omega, high, view⟩

theorem Tracks.kept {base dur : View} {H : List (Op × Nat)} {D i : Nat} {P S T : List LogRecord}
    {db : Database} (h : Tracks base H D i P S T dur db) (kept : Nat) :
    ∃ n, D ≤ n ∧ n ≤ H.length ∧
      Reopens { db.disk.crashed kept with cuts := [] } (shown base (H.take n)) := by
  obtain ⟨j, low, high, view⟩ := h.toLogOf.quiet kept
  refine ⟨i + j, low, high, (h.store.crashed kept).found h.version rfl .left ?_⟩
  change applied (Wal.replay (db.disk.wal ++ db.disk.tail.take kept)).records dur = _
  rw [view, appliedAppend, h.old, List.take_add]
  simp [shown, writesOf, appliedAppend]

theorem Tracks.idle {base dur : View} {H : List (Op × Nat)} {D i : Nat} {P S T : List LogRecord}
    {db : Database} {d : Disk} (h : Tracks base H D i P S T dur db) {kept : Nat}
    (found : (db.disk.crashed kept).Found d)
    (fresh : Reverted (db.disk.crashed kept) d → Unshadowed d) :
    ∃ n, D ≤ n ∧ n ≤ H.length ∧ Reopens d (shown base (H.take n)) := by
  cases found with
  | left => exact h.kept kept
  | undone mem kept' =>
    have store := h.store.crashed kept
    obtain ⟨n, low, high, view⟩ := h.inTables (List.ne_nil_of_mem mem)
    have back := store.unshadowed h.version (.undone mem kept') (fresh ⟨_, mem, kept', rfl⟩)
    exact ⟨n, low, high, store.found h.version rfl (.undone mem kept') (back.trans view)⟩

theorem Tracks.down {base dur : View} {H : List (Op × Nat)} {D i : Nat} {P S T : List LogRecord}
    {db dbc : Database} {d : Disk} (h : Tracks base H D i P S T dur db) {last : List Op}
    (down : Down db last dbc) (allowed : ∀ op ∈ last, Allowed op db dbc) (found : dbc.disk.Found d)
    (fresh : d.manifest ≠ db.disk.manifest ∨ Reverted dbc.disk d → Unshadowed d) :
    ∃ n, D ≤ n ∧ n ≤ H.length + last.length ∧
      Reopens d (shown base ((H ++ last.map (·, db.nextTxId)).take n)) := by
  cases down with
  | idle kept =>
    rw [List.map_nil, List.append_nil]
    exact h.idle found (fun reverted => fresh (.inr reverted))
  | inside run => exact h.inside run (allowed _ List.mem_cons_self) found fresh

/-- A run of operations, each step of which meets `R`. What the last durable one of them has
returned, and all before it, is acknowledged. -/
inductive Steps (R : Op → Database → Database → Prop) (db : Database) :
    List Op → Nat → Database → Prop where
  | start : Steps R db [] 0 db
  | step {ops : List Op} {acked : Nat} {db₁ db₂ : Database} {op : Op}
    (before : Steps R db ops acked db₁) (run : op.run db₁ = .ok () db₂) (meets : R op db₁ db₂) :
    Steps R db (ops ++ [op]) (if op.durable db₁ then ops.length + 1 else acked) db₂

theorem Tracks.steps {base dur : View} {P S : List LogRecord} {db db' : Database} {ops : List Op}
    {acked : Nat} (h : Tracks base [] 0 0 P S [] dur db) (run : Steps Allowed db ops acked db') :
    ∃ H i P' S' T' dur', H.map Prod.fst = ops ∧ Tracks base H acked i P' S' T' dur' db' := by
  induction run with
  | start => exact ⟨[], 0, P, S, [], dur, rfl, h⟩
  | @step ops acked db₁ db₂ op before run meets ih =>
    obtain ⟨H, i, P', S', T', dur', rfl, tracks⟩ := ih
    obtain ⟨i₂, P₂, S₂, T₂, dur₂, tracks₂⟩ := tracks.step run meets
    refine ⟨H ++ [(op, db₁.nextTxId)], i₂, P₂, S₂, T₂, dur₂, by simp, ?_⟩
    rw [List.length_map]
    exact tracks₂

omit [Crc32] in
theorem recordTx {r : LogRecord} {o : Wal.RawOp} {id : Nat} (op : r.op = some o)
    (tx : txOf o = some id) : r.tx = some id := by
  cases r with
  | plain key value => cases value <;> cases op <;> cases tx
  | txPut => cases op; exact tx
  | txDelete => cases op; exact tx
  | commit => cases op; exact tx
  | _ => cases op

omit [Crc32] in
theorem belowMax (log : List LogRecord) : Below (Wal.logMaxTx log + 1) (logOps log) := by
  induction log with
  | nil =>
    intro o mem
    cases mem
  | cons r log ih =>
    have max : Wal.logMaxTx (r :: log) = max (r.tx.getD 0) (Wal.logMaxTx log) := rfl
    have split : logOps (r :: log) = logOps [r] ++ logOps log := logOpsAppend [r] log
    rw [split, max]
    refine Below.append ?_ (ih.mono (by omega))
    intro o mem id eq
    obtain ⟨r', mr, found⟩ := List.mem_filterMap.mp mem
    cases List.mem_singleton.mp mr
    rw [recordTx found eq, Option.getD_some]
    omega

structure Clean (d : Disk) : Prop where
  ready : ∃ md, Recoverable d md
  log : ∃ log, LogFits log ∧ d.wal = logBytes log
  tail : d.tail = []
  cuts : d.cuts = []

theorem cleanEmpty : Clean .empty :=
  ⟨⟨_, recoverableEmpty⟩, ⟨[], fun _ mem => (nomatch mem), rfl⟩, rfl, rfl⟩

theorem Clean.tracks {d : Disk} (h : Clean d) {opts : Options} (room : opts.segmentMaxRecords ≠ 0)
    {faults : List Fault} (noFail : ∀ n, Fault.fail n ∉ faults) {db : Database}
    (opened : Database.openWith (Database.boot d faults opts) = .ok () db) :
    ∃ base dur log, Tracks base [] 0 0 log log [] dur db := by
  obtain ⟨⟨md, ready⟩, ⟨log, fits, wal⟩, tail, cuts⟩ := h
  obtain ⟨just, left⟩ := (endsOfRun opened).mp (openWithEnds ready tail)
  have replay := Wal.replayLog fits (Wal.readRecordNil)
  rw [List.append_nil, ← wal] at replay
  have next : db.nextTxId = Wal.logMaxTx log + 1 := by rw [just.nextTxId, replay]
  have logOf : LogOf [] 0 0 log log [] db.disk.wal db.disk.tail := by
    refine ⟨le_rfl, le_rfl, just.medium.wal.trans wal, just.medium.tail, ?_, ?_, ?_,
      List.Pairwise.nil, fun g mem => absurd mem List.not_mem_nil⟩
    · simp [recs]
    · simp [recs]
    · rw [List.append_nil]
      exact fits
  have none : db.disk.cuts = [] := just.medium.cuts.trans cuts
  refine ⟨_, _, log, ⟨logOf, just.store, ?_, fun _ => just.medium.tail, just.again.version,
    fun n mem => noFail n (left.subset mem), .inl rfl, ?_, ?_,
    fun g mem => absurd mem List.not_mem_nil, le_rfl, ?_, ?_⟩⟩
  · rw [just.opts]
    exact room
  · rw [replay]
    rfl
  · rw [next]
    exact belowMax log
  · rw [none]
    exact fun cut mem => absurd mem List.not_mem_nil
  · exact fun some => absurd none some

end Tracking

section Cut
attribute [local instance] Wal.ieee

end Cut

section Shadowed

def readBack [Crc32] (d : Disk) (opts : Options) (key : Bytes) : Option (Option Bytes) :=
  match (do Database.openWith; Database.get key : DbM (Option Bytes)) (Database.boot d [] opts) with
  | .ok found _ => some found
  | .error _ _ => none

theorem Reopens.readBack [Crc32] {d : Disk} {v : View} (h : Reopens d v) (opts : Options)
    (key : Bytes) : readBack d opts key = some (v key) := by
  have run : Completes (do Database.openWith; Database.get key : DbM (Option Bytes))
      (Database.boot d [] opts) (fun found _ => found = v key) :=
    (h opts).bind (fun _ _ shows => shows.get key)
  obtain ⟨found, db, eq, rfl⟩ := run.run
  rw [MyLsmDb.readBack, eq]

attribute [local instance] Wal.ieee

end Shadowed
end MyLsmDb
