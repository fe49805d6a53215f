import MyLsmDb.Lifetime

/-! Transactions across one crash: after the next start a transaction is there as a whole or
not at all, and no id of the log is handed out again. -/
namespace MyLsmDb
open ByteOrder (Bytes)
open Effect
open OrderedEntries
open Wal (Crc32 LogRecord LogFits logBytes logOps resolve)

/-- What a session does: an operation, or a transaction that is aborted or dropped. While a
transaction lives it holds the store alone, so nothing comes between. -/
inductive Deed where
  | op (op : Op)
  | discard (pending : List Rec)
  deriving DecidableEq, Repr

namespace Deed

def op? : Deed → Option Op
  | op o => some o
  | discard _ => none

def writes : Deed → List Rec
  | op o => o.writes
  | discard _ => []

variable [Crc32]

/- Pending writes of a transaction are in memory only: what is left of it is its id. -/
def run : Deed → DbM Unit
  | op o => o.run
  | discard _ => do let _ ← Database.allocTxId

end Deed

section Fates

/-- Each key of the transaction has its value, or that of a later write. -/
def Visible (pending later : List Rec) (v : View) : Prop :=
  ∀ key value, lastWrite pending key = some value → v key = value ∨ (key, v key) ∈ later

/-- The other writes account for each value there is. -/
def Explained (base : View) (others : List Rec) (v : View) : Prop :=
  ∀ key, v key = base key ∨ (key, v key) ∈ others

theorem lastWriteMem {ws : List Rec} {key : Bytes} {value : Entry}
    (found : lastWrite ws key = some value) : (key, value) ∈ ws :=
  List.mem_reverse.mp (lookupMem found)

theorem explainedApplied {base v : View} {ws others : List Rec} (h : Explained base others v)
    (sub : ws ⊆ others) : Explained base others (applied ws v) := by
  intro key
  have last := appliedLast ws v key
  cases found : lastWrite ws key with
  | none =>
    rw [found, Option.elim_none] at last
    rw [last]
    exact h key
  | some value =>
    rw [found, Option.elim_some, id] at last
    rw [last]
    exact .inr (sub (lastWriteMem found))

theorem visibleLater {pending ws later : List Rec} {v : View} (h : Visible pending later v)
    (sub : ws ⊆ later) : Visible pending later (applied ws v) := by
  intro key value mine
  have last := appliedLast ws v key
  cases found : lastWrite ws key with
  | none =>
    rw [found, Option.elim_none] at last
    rw [last]
    exact h key value mine
  | some other =>
    rw [found, Option.elim_some, id] at last
    rw [last]
    exact .inr (sub (lastWriteMem found))

theorem visibleApplied (pending later : List Rec) (v : View) :
    Visible pending later (applied pending v) := by
  intro key value mine
  left
  rw [appliedLast, mine]
  rfl

theorem visibleBehind {before pending after later : List Rec} {v : View} (sub : after ⊆ later) :
    Visible pending later (applied (before ++ pending ++ after) v) := by
  rw [appliedAppend, appliedAppend]
  exact visibleLater (visibleApplied _ _ _) sub

end Fates

section Left

/-- What a crash may leave of a history of which the first `D` operations are synced: a prefix,
or tables that have these, with some part of the log over them. -/
inductive Remains (base : View) (H : List (Op × Nat)) (D : Nat) : View → Prop where
  | first {n : Nat} (low : D ≤ n) : Remains base H D (shown base (H.take n))
  | logged {i j k : Nat} {old : List Rec} (low : D ≤ i + j) (tables : D ≤ k)
      (lone : i = 0 ∨ old = []) (same : applied old base = base) :
      Remains base H D (applied (old ++ writesOf ((H.drop i).take j)) (shown base (H.take k)))

variable {base v : View} {H : List (Op × Nat)} {D : Nat}

theorem writesOfAppend (H H' : List (Op × Nat)) :
    writesOf (H ++ H') = writesOf H ++ writesOf H' := List.flatMap_append

theorem writesOfPart {H H' : List (Op × Nat)} (part : H.Sublist H') : writesOf H ⊆ writesOf H' := by
  intro w mem
  obtain ⟨g, mg, mw⟩ := List.mem_flatMap.mp mem
  exact List.mem_flatMap.mpr ⟨g, part.subset mg, mw⟩

theorem oldSame {old : List Rec} (same : applied old base = base) (key : Bytes) (value : Entry)
    (found : lastWrite old key = some value) : base key = value := by
  rw [← same, appliedLast, found]
  rfl

theorem Remains.explained (h : Remains base H D v) : Explained base (writesOf H) v := by
  have all : Explained base (writesOf H) base := fun _ => .inl rfl
  cases h with
  | first low => exact explainedApplied all (writesOfPart (List.take_sublist _ _))
  | @logged i j k old low tables lone same =>
    rw [appliedAppend]
    refine explainedApplied ?_
      (writesOfPart ((List.take_sublist _ _).trans (List.drop_sublist _ _)))
    intro key
    rw [appliedLast]
    cases found : lastWrite old key with
    | none => exact explainedApplied all (writesOfPart (List.take_sublist _ _)) key
    | some value => exact .inl (oldSame same key value found).symm

theorem Remains.mono {C : Nat} (h : Remains base H D v) (low : C ≤ D) : Remains base H C v := by
  cases h with
  | first more => exact .first (low.trans more)
  | logged more tables lone same => exact .logged (low.trans more) (low.trans tables) lone same

theorem Remains.visible (h : Remains base H D v) {before after : List (Op × Nat)} {op : Op}
    {tx : Nat} (split : H = before ++ (op, tx) :: after) (acked : before.length < D) :
    Visible op.writes (writesOf after) v := by
  have upTo : ∀ {n : Nat}, before.length < n →
      H.take n = before ++ (op, tx) :: after.take (n - (before.length + 1)) := by
    intro n more
    obtain ⟨m, rfl⟩ := Nat.exists_eq_add_of_lt more
    rw [split, Nat.add_assoc, List.take_length_add_append, List.take_succ_cons]
    congr 3
    omega
  have writes : ∀ n, writesOf (before ++ (op, tx) :: after.take n) =
      writesOf before ++ op.writes ++ writesOf (after.take n) := by
    intro n
    rw [writesOfAppend, List.append_assoc]
    rfl
  have later : ∀ n, writesOf (after.take n) ⊆ writesOf after := fun n =>
    writesOfPart (List.take_sublist _ _)
  have behind : ∀ {n : Nat}, before.length < n →
      Visible op.writes (writesOf after) (shown base (H.take n)) := by
    intro n more
    rw [upTo more, shown, writes]
    exact visibleBehind (later _)
  cases h with
  | first low => exact behind (acked.trans_le low)
  | @logged i j k old low tables lone same =>
    rcases Nat.lt_or_ge before.length i with inTables | inLog
    · -- the log starts behind the transaction
      have none : old = [] := lone.resolve_left (by omega)
      rw [none, List.nil_append]
      refine visibleLater (behind (acked.trans_le tables)) ?_
      obtain ⟨m, rfl⟩ := Nat.exists_eq_add_of_lt inTables
      have behind : H.drop (before.length + m + 1) = after.drop m := by
        rw [split, Nat.add_assoc, List.drop_length_add_append, List.drop_succ_cons]
      rw [behind]
      exact writesOfPart ((List.take_sublist _ _).trans (List.drop_sublist _ _))
    · have part : (H.drop i).take j = before.drop i ++
          (op, tx) :: after.take (i + j - (before.length + 1)) := by
        rw [List.take_drop, upTo (by omega), List.drop_append_of_le_length inLog]
      rw [part, writesOfAppend, ← List.append_assoc]
      have cons : ∀ G : List (Op × Nat), writesOf ((op, tx) :: G) = op.writes ++ writesOf G :=
        fun _ => List.flatMap_cons
      rw [cons, ← List.append_assoc]
      exact visibleBehind (later _)

section Ending
variable [Crc32]

theorem Undone.remains {cut : Bytes × Bytes} (h : Undone base H D cut) {k : Nat} (tables : D ≤ k)
    (kept : Nat) : Remains base H D
      (applied (Wal.replay (cut.1 ++ cut.2.take kept)).records (shown base (H.take k))) := by
  obtain ⟨n, D', i, P, S, T, inside, low, lone, same, log⟩ := h
  obtain ⟨j, enough, most, view⟩ := log.quiet kept
  have part : ((H.take n).drop i).take j = (H.drop i).take j := by
    rw [List.length_take] at most
    rw [List.drop_take, List.take_take, min_eq_left (by omega)]
  rw [view, part]
  refine .logged (low.trans enough) tables (lone.imp_right (fun none => ?_)) same
  rw [none]
  rfl

/-- What a crash inside an operation leaves. One that syncs is there as a whole, or what is
there is of the operations before it. -/
def Interrupted (base : View) (H : List (Op × Nat)) (op : Op) (tx : Nat) (v : View) : Prop :=
  Remains base (H ++ [(op, tx)]) (syncedOps (H.map Prod.fst)) v ∧
    (op.syncs → Remains base (H ++ [(op, tx)]) (H.length + 1) v ∨
      Remains base H (syncedOps (H.map Prod.fst)) v)

omit [Crc32] in
theorem shownAll (base : View) (H : List (Op × Nat)) (op : Op) (tx : Nat) :
    applied op.writes (shown base H) = shown base ((H ++ [(op, tx)]).take (H.length + 1)) := by
  have length : (H ++ [(op, tx)]).length = H.length + 1 := by simp
  rw [List.take_of_length_le length.le, shownAppend]

/-- Where the log comes back that the operation has truncated, or one before it. -/
theorem Undone.interrupted {cut : Bytes × Bytes} {op : Op} {tx : Nat}
    (h : Undone base (H ++ [(op, tx)]) (syncedOps ((H ++ [(op, tx)]).map Prod.fst)) cut)
    (synced : syncedOps (H.map Prod.fst) ≤ H.length) (kept : Nat) :
    Interrupted base H op tx (applied (Wal.replay (cut.1 ++ cut.2.take kept)).records
      (applied op.writes (shown base H))) := by
  rw [shownAll base H op tx]
  rw [syncedOpsStep] at h
  by_cases syncs : op.syncs
  · rw [if_pos syncs] at h
    have remains := h.remains le_rfl kept
    exact ⟨remains.mono (by omega), fun _ => .inl remains⟩
  · rw [if_neg syncs] at h
    exact ⟨h.remains (by omega) kept, fun now => absurd now syncs⟩

theorem Tracks.interrupted {base dur : View} {H : List (Op × Nat)} {D i : Nat} {P S T : List LogRecord}
    {db dbc : Database} {d : Disk} (h : Tracks base H D i P S T dur db) {op : Op}
    (run : op.run db = .error .crash dbc) (allowed : Allowed op db dbc) (found : dbc.disk.Found d) :
    ∃ v, Reopens d v ∧ Interrupted base H op db.nextTxId v := by
  obtain ⟨halted, version, tail⟩ := Op.halted h.store h.room h.version run allowed.good
  have fits : LogFits (recs [(op, db.nextTxId)]) := recsSingle op _ ▸ allowed.fits
  have length : (H ++ [(op, db.nextTxId)]).length = H.length + 1 := by simp
  have durable := h.durable
  have acked := h.acked
  have all := shownAll base H op db.nextTxId
  cases halted with
  | cut store part wal cuts =>
    cases found with
    | left =>
      rw [← recsSingle] at part
      obtain ⟨n, low, high, view⟩ := h.cut fits (h.snoc op) (h.belowSingle op) part
      rw [← wal] at view
      refine ⟨_, store.found version tail .left view, .first (durable.trans low), fun _ => ?_⟩
      rcases Nat.lt_or_ge H.length n with new | old
      · exact .inl (.first new)
      · rw [List.take_append_of_le_length old]
        exact .inr (.first (durable.trans low))
    | undone mem kept =>
      obtain ⟨n, low, high, view⟩ := h.inTables (List.ne_nil_of_mem (cuts mem))
      have undone := h.undone _ (cuts mem)
      refine ⟨_, store.found version tail (.undone mem kept) rfl, ?_, fun _ => .inr ?_⟩
      · rw [view, ← List.take_append_of_le_length high]
        exact (undone.snoc _).remains (durable.trans low) kept
      · rw [view]
        exact undone.remains (durable.trans low) kept
  | @switched bytes store saved part wal whole cuts =>
    cases found with
    | left =>
      rw [← recsSingle] at part whole
      obtain ⟨j, low, high, full, view⟩ :=
        h.toLogOf.replayed fits (h.snoc op) (h.belowSingle op) part
      rw [← wal] at view
      have none := h.lone.imp_right (fun none => show resolve (logOps P) = [] by rw [none]; rfl)
      have reached : Interrupted base H op db.nextTxId
          (applied (Wal.replay dbc.disk.wal).records (applied op.writes (shown base H))) := by
        rw [view, all]
        refine ⟨.logged (by omega) (by omega) none h.oldSame,
          fun syncs => .inl (.logged ?_ le_rfl none h.oldSame)⟩
        exact (full (whole syncs)).symm.le.trans' length.symm.le
      exact ⟨_, store.found version tail .left rfl, reached⟩
    | undone mem kept =>
      rw [cuts] at mem
      exact ⟨_, store.found version tail (.undone (cuts ▸ mem) kept) rfl,
        (h.undoneBefore op _ mem).interrupted (durable.trans acked) kept⟩
  | emptied store log =>
    cases found with
    | left =>
      have same : applied (Wal.replay dbc.disk.wal).records (applied op.writes (shown base H)) =
          shown base ((H ++ [(op, db.nextTxId)]).take (H.length + 1)) := by
        rw [log.wal, ← all]
        rfl
      exact ⟨_, store.found version tail .left same, .first (by omega),
        fun _ => .inl (.first le_rfl)⟩
    | undone mem kept =>
      exact ⟨_, store.found version tail (.undone mem kept) rfl,
        (h.undoneAny allowed.fits _ (log.cuts ▸ mem)).interrupted (durable.trans acked) kept⟩

theorem Tracks.idleRemains {base dur : View} {H : List (Op × Nat)} {D i : Nat}
    {P S T : List LogRecord} {db : Database} {d : Disk} (h : Tracks base H D i P S T dur db)
    {kept : Nat} (found : (db.disk.crashed kept).Found d) :
    ∃ v, Reopens d v ∧ Remains base H (syncedOps (H.map Prod.fst)) v := by
  cases found with
  | left =>
    obtain ⟨n, low, -, reopens⟩ := h.kept kept
    exact ⟨_, reopens, .first (h.durable.trans low)⟩
  | undone mem kept' =>
    obtain ⟨n, low, high, view⟩ := h.inTables (List.ne_nil_of_mem mem)
    refine ⟨_, (h.store.crashed kept).found h.version rfl (.undone mem kept') rfl, ?_⟩
    rw [view]
    exact (h.undone _ mem).remains (h.durable.trans low) kept'

theorem Halted.recoverable {op : Op} {db dbc : Database} {mem dur : View}
    (h : Halted op db dbc mem dur) (version : VersionOk dbc.disk) : ∃ md, Recoverable dbc.disk md := by
  have of : ∀ {mem' dur' : View}, Store Writable dbc mem' dur' → ∃ md, Recoverable dbc.disk md :=
    fun store => (store.recoverable version).imp (fun _ => And.left)
  cases h with
  | cut store part wal => exact of store
  | switched store saved part wal whole => exact of store
  | emptied store none => exact of store

theorem Tracks.recoverable {base dur : View} {H : List (Op × Nat)} {D i : Nat}
    {P S T : List LogRecord} {db dbc : Database} {d : Disk} (h : Tracks base H D i P S T dur db)
    {last : List Op} (down : Down db last dbc) (allowed : ∀ op ∈ last, Allowed op db dbc)
    (found : dbc.disk.Found d) : (∃ md, Recoverable d md) ∧ d.tail = [] := by
  obtain ⟨-, -, kept⟩ := found.same
  have left : (∃ md, Recoverable dbc.disk md) ∧ dbc.disk.tail = [] := by
    cases down with
    | idle kept =>
      obtain ⟨md, ready, -⟩ := h.store.recoverable h.version
      exact ⟨⟨md, ready.version, ready.saved, ready.written, ready.holding⟩, rfl⟩
    | inside run =>
      obtain ⟨halted, version, tail⟩ :=
        Op.halted h.store h.room h.version run (allowed _ List.mem_cons_self).good
      exact ⟨halted.recoverable version, tail⟩
  exact ⟨left.1.imp (fun _ ready => ready.found found), kept.trans left.2⟩

end Ending
end Left

section Ids
variable [Crc32]

/-- The ids of all records that the loop of `replay` takes. -/
def Wal.idsFound : Nat → Bytes → List Nat
  | 0, _ => []
  | fuel + 1, rest =>
    match Wal.readRecord rest with
    | none => []
    | some (t, payload, rest) =>
      match Wal.decodeOp t payload with
      | none => []
      | some (_, txn) => txn.toList ++ Wal.idsFound fuel rest

theorem idsLeMax (fuel : Nat) (rest : Bytes) :
    ∀ id ∈ Wal.idsFound fuel rest, id ≤ (Wal.readLog fuel rest).2 := by
  induction fuel generalizing rest with
  | zero =>
    intro id mem
    cases mem
  | succ fuel ih =>
    intro id mem
    unfold Wal.idsFound at mem
    unfold Wal.readLog
    cases read : Wal.readRecord rest with
    | none =>
      rw [read] at mem
      cases mem
    | some record =>
      obtain ⟨t, payload, rest'⟩ := record
      simp only [read] at mem ⊢
      cases decoded : Wal.decodeOp t payload with
      | none =>
        rw [decoded] at mem
        cases mem
      | some taken =>
        obtain ⟨op, txn⟩ := taken
        simp only [decoded] at mem ⊢
        rcases List.mem_append.mp mem with mine | later
        · rw [Option.mem_toList.mp mine, Option.getD_some]
          exact le_max_left _ _
        · exact (ih rest' id later).trans (le_max_right _ _)

/-- A further deed of the session, also one that fails. -/
def Goes (db db' : Database) : Prop :=
  ∃ deed : Deed, deed.run db = .ok () db' ∨ ∃ e, deed.run db = .error e db'

/-- No id that replay finds in the log is handed out in the next session, unless the counter has
come to the end of its 64 bits. -/
def FreshIds (d : Disk) : Prop :=
  ∀ faults opts db db' db'' tx, Database.openWith (Database.boot d faults opts) = .ok () db →
    Relation.ReflTransGen Goes db db' → db'.nextTxId < 2 ^ 64 →
    Database.allocTxId db' = .ok tx db'' →
    ∀ id ∈ Wal.idsFound d.wal.length d.wal, id < tx

def IdsGrow (db db' : Database) : Prop := db.nextTxId ≤ db'.nextTxId

instance : Database.Tolerant IdsGrow where
  refl db := le_refl db.nextTxId
  trans _ _ _ := le_trans
  quiet _ _ _ _ _ _ next := next
  saved _ _ := le_rfl
  erased _ _ := le_rfl
  table chunk db := (Database.writeTableAny chunk db).mono (fun _ _ new => new.txId.ge)
    (fun _ _ new => new.txId.ge)

theorem goesGrow {db db' : Database} (h : Relation.ReflTransGen Goes db db') :
    db.nextTxId ≤ db'.nextTxId := by
  have moves : ∀ deed : Deed, Moves IdsGrow deed.run := by
    intro deed
    cases deed with
    | op o => exact o.runMoves
    | discard pending => exact allocTxIdMoves.bind (fun _ => movesPure _)
  induction h with
  | refl => exact le_rfl
  | tail before step ih =>
    obtain ⟨deed, run | ⟨e, run⟩⟩ := step
    · exact ih.trans ((endsOfRun run).mp (moves deed _))
    · exact ih.trans ((endsOfError run).mp (moves deed _))

theorem freshIds {d : Disk} {md : Manifest} (ready : Recoverable d md) (tail : d.tail = []) :
    FreshIds d := by
  intro faults opts db db' db'' tx opened goes _ alloc id found
  obtain ⟨just, -⟩ := (endsOfRun opened).mp (openWithEnds ready tail)
  have most : id ≤ (Wal.replay d.wal).maxTxId := idsLeMax _ _ id found
  have grown := goesGrow goes
  have handed : tx = db'.nextTxId := by
    cases alloc
    rfl
  rw [just.nextTxId] at grown
  omega

end Ids

section Sessions
variable [Crc32]

/-- A run of deeds, each operation of which meets `R`. -/
inductive Deeds (R : Op → Database → Database → Prop) (db : Database) :
    List Deed → Database → Prop where
  | start : Deeds R db [] db
  | step {ds : List Deed} {db₁ db₂ : Database} {deed : Deed} (before : Deeds R db ds db₁)
    (run : deed.run db₁ = .ok () db₂) (meets : ∀ op, deed = .op op → R op db₁ db₂) :
    Deeds R db (ds ++ [deed]) db₂

/-- What the next session shows of the transactions of this one: those whose `commit`
returned, the one that may have been in it, and the others. -/
structure Atomic (base : View) (ds : List Deed) (last : List Op) (v : View) : Prop where
  committed : ∀ before pending after, ds = before ++ .op (.commit pending) :: after →
    Visible pending ((after ++ last.map Deed.op).flatMap Deed.writes) v
  committing : ∀ pending, last = [.commit pending] →
    Visible pending [] v ∨ Explained base (ds.flatMap Deed.writes) v
  discarded : ∀ before pending after, ds = before ++ .discard pending :: after →
    Explained base ((before ++ after ++ last.map Deed.op).flatMap Deed.writes) v

theorem Tracks.discard {base dur : View} {H : List (Op × Nat)} {D i : Nat} {P S T : List LogRecord}
    {db : Database} (h : Tracks base H D i P S T dur db) :
    Tracks base H D i P S T dur { db with nextTxId := db.nextTxId + 1 } :=
  { h with
    store := h.store.same rfl rfl rfl rfl rfl
    oldIds := h.oldIds.mono (Nat.le_succ _)
    ids := fun g mem => (h.ids g mem).trans (Nat.le_succ _) }

theorem Tracks.deeds {base dur : View} {P S : List LogRecord} {db db' : Database} {ds : List Deed}
    (h : Tracks base [] 0 0 P S [] dur db) (run : Deeds Allowed db ds db') :
    ∃ H D i P' S' T' dur', H.map Prod.fst = ds.filterMap Deed.op? ∧
      Tracks base H D i P' S' T' dur' db' := by
  induction run with
  | start => exact ⟨[], 0, 0, P, S, [], dur, rfl, h⟩
  | @step ds db₁ db₂ deed before run meets ih =>
    obtain ⟨H, D, i, P', S', T', dur', same, tracks⟩ := ih
    rw [List.filterMap_append]
    cases deed with
    | op o =>
      obtain ⟨i₂, P₂, S₂, T₂, dur₂, tracks₂⟩ := tracks.step run (meets o rfl)
      refine ⟨H ++ [(o, db₁.nextTxId)], _, i₂, P₂, S₂, T₂, dur₂, ?_, tracks₂⟩
      rw [List.map_append, same]
      rfl
    | discard pending =>
      have none : [Deed.discard pending].filterMap Deed.op? = [] := rfl
      rw [none, List.append_nil]
      cases run
      exact ⟨H, D, i, P', S', T', dur', same, tracks.discard⟩

omit [Crc32] in
theorem syncedBefore (before after : List Op) {op : Op} (syncs : op.syncs) :
    before.length < syncedOps (before ++ op :: after) := by
  induction after using List.reverseRecOn with
  | nil =>
    rw [syncedOpsSnoc, if_pos syncs]
    exact Nat.lt_succ_self _
  | append_singleton after last ih =>
    have assoc : before ++ op :: (after ++ [last]) = (before ++ op :: after) ++ [last] := by simp
    rw [assoc, syncedOpsSnoc]
    split
    · rw [List.length_append]
      omega
    · exact ih

omit [Crc32] in
theorem deedWrites (ds : List Deed) :
    ds.flatMap Deed.writes = (ds.filterMap Deed.op?).flatMap Op.writes := by
  induction ds with
  | nil => rfl
  | cons deed ds ih =>
    rw [List.flatMap_cons, ih]
    cases deed <;> rfl

omit [Crc32] in
theorem historyWrites {H : List (Op × Nat)} {ds : List Deed}
    (same : H.map Prod.fst = ds.filterMap Deed.op?) : writesOf H = ds.flatMap Deed.writes := by
  rw [deedWrites, ← same, List.flatMap_map]
  rfl

omit [Crc32] in
/-- What a crash leaves of a history, for the transactions in it. -/
theorem Remains.atomic {base v : View} {H : List (Op × Nat)} {ds : List Deed} {last : List Op}
    {tx : Nat} (same : H.map Prod.fst = ds.filterMap Deed.op?)
    (left : Remains base (H ++ last.map (·, tx)) (syncedOps (ds.filterMap Deed.op?)) v)
    (ended : ∀ pending, last = [.commit pending] →
      Remains base (H ++ last.map (·, tx)) (H.length + 1) v ∨
        Remains base H (syncedOps (ds.filterMap Deed.op?)) v) : Atomic base ds last v := by
  have ops : ∀ last : List Op, (last.map Deed.op).filterMap Deed.op? = last := by
    intro last
    induction last with
    | nil => rfl
    | cons op last ih =>
      rw [List.map_cons, List.filterMap_cons, ih]
      rfl
  have whole : (H ++ last.map (·, tx)).map Prod.fst =
      (ds ++ last.map Deed.op).filterMap Deed.op? := by
    rw [List.map_append, List.filterMap_append, ops, same, List.map_map]
    exact congrArg _ (List.map_id last)
  refine ⟨?_, ?_, ?_⟩
  · intro before pending after split
    have order : (H ++ last.map (·, tx)).map Prod.fst = before.filterMap Deed.op? ++
        .commit pending :: (after ++ last.map Deed.op).filterMap Deed.op? := by
      rw [whole, split, List.append_assoc, List.filterMap_append]
      rfl
    obtain ⟨H₁, H₂, all, first, rest⟩ := List.map_eq_append_iff.mp order
    obtain ⟨g, H₃, rfl, is, third⟩ := List.map_eq_cons_iff.mp rest
    obtain ⟨op, tx'⟩ := g
    cases is
    have acked : H₁.length < syncedOps (ds.filterMap Deed.op?) := by
      rw [← List.length_map (f := Prod.fst), first, split, List.filterMap_append]
      exact syncedBefore _ _ rfl
    have visible := left.visible all acked
    rw [historyWrites third] at visible
    exact visible
  · intro pending is
    rcases ended pending is with committed | before
    · left
      rw [is] at committed
      have split : H ++ [(Op.commit pending, tx)] = H ++ (Op.commit pending, tx) :: [] := rfl
      exact committed.visible split (Nat.lt_succ_self _)
    · right
      rw [← historyWrites same]
      exact before.explained
  · intro before pending after split
    have explained := left.explained
    rw [historyWrites whole, split] at explained
    have skipped : (before ++ .discard pending :: after ++ last.map Deed.op).flatMap Deed.writes =
        (before ++ after ++ last.map Deed.op).flatMap Deed.writes := by
      simp [Deed.writes]
    rw [skipped] at explained
    exact explained

theorem transactionsAtomic {d d' : Disk} (clean : Clean d) {opts : Options}
    (room : opts.segmentMaxRecords ≠ 0) {faults : List Fault}
    (noFail : ∀ n, Fault.fail n ∉ faults) {db₀ db dbc : Database} {ds : List Deed} {last : List Op}
    (opened : Database.openWith (Database.boot d faults opts) = .ok () db₀)
    (run : Deeds Allowed db₀ ds db) (down : Down db last dbc)
    (allowed : ∀ op ∈ last, Allowed op db dbc) (found : dbc.disk.Found d') :
    (∃ base v, Shows db₀ base ∧ Reopens d' v ∧ Atomic base ds last v) ∧ FreshIds d' := by
  obtain ⟨base, dur, log, tracks⟩ := clean.tracks room noFail opened
  have shows := tracks.store.shows
  obtain ⟨H, D, i, P, S, T, dur', same, behind⟩ := tracks.deeds run
  obtain ⟨⟨md, ready⟩, tail⟩ := behind.recoverable down allowed found
  refine ⟨?_, freshIds ready tail⟩
  cases down with
  | idle kept =>
    obtain ⟨v, reopens, left⟩ := behind.idleRemains found
    have none : H ++ ([] : List Op).map (·, db.nextTxId) = H := List.append_nil H
    have idle : Remains base (H ++ ([] : List Op).map (·, db.nextTxId))
        (syncedOps (ds.filterMap Deed.op?)) v := none.symm ▸ same ▸ left
    refine ⟨base, v, shows, reopens, Remains.atomic same idle ?_⟩
    intro pending is
    cases is
  | inside stop =>
    obtain ⟨v, reopens, left, ended⟩ :=
      behind.interrupted stop (allowed _ List.mem_cons_self) found
    rw [same] at left ended
    refine ⟨base, v, shows, reopens, Remains.atomic same left ?_⟩
    intro pending is
    cases is
    exact ended rfl

end Sessions

section Interrupted

theorem txLogFits {tx : Nat} (small : tx < 2 ^ 64) {pending : List Rec}
    (short : ∀ w ∈ pending, w.1.length < 2 ^ 32 ∧ ∀ v, w.2 = some v → v.length < 2 ^ 32) :
    LogFits (txLog tx pending) := by
  intro r mem
  rcases List.mem_cons.mp mem with rfl | inside
  · exact small
  rcases List.mem_append.mp inside with write | last
  · obtain ⟨⟨key, value⟩, mw, rfl⟩ := List.mem_map.mp write
    obtain ⟨shortKey, shortValue⟩ := short _ mw
    cases value with
    | none => exact ⟨small, shortKey⟩
    | some v => exact ⟨small, shortKey, shortValue v rfl⟩
  · cases List.mem_singleton.mp last
    exact small

attribute [local instance] Wal.ieee

theorem commitInterrupted : ∃ db₀ db dbc,
    Database.openWith (Database.boot .empty
      [.pass, .pass, .pass, .pass, .pass, .pass, .crash 0 40] ⟨1000, 4, 1⟩) = .ok () db₀ ∧
    Deeds Allowed db₀ [.op (.commit [([0], some [7])]), .discard [([1], some [5])]] db ∧
    Down db [.commit [([1], some [8]), ([2], some [9])]] dbc ∧
    Allowed (.commit [([1], some [8]), ([2], some [9])]) db dbc := by
  have fits : ∀ {tx tx' : Nat} (keys : List UInt8), tx = tx' → tx' < 2 ^ 64 →
      LogFits (txLog tx (keys.map (fun k => ([k], some [k + 7])))) := by
    intro tx tx' keys same small
    refine txLogFits (same ▸ small) (fun w mem => ?_)
    obtain ⟨k, -, rfl⟩ := List.mem_map.mp mem
    refine ⟨by simp, fun v eq => ?_⟩
    cases eq
    simp
  have fresh : ∀ {db : Database}, db.built = [] → db.saves = [] → Good Writable db := by
    intro db built saves
    exact ⟨built ▸ fun _ mem => (nomatch mem), saves ▸ fun _ mem => (nomatch mem)⟩
  refine ⟨_, _, _, rfl, .step (.step .start rfl ?_) rfl ?_, .inside rfl, ?_, fresh rfl rfl⟩
  · intro op eq
    cases eq
    exact ⟨fits [0] rfl (by decide : 1 < 2 ^ 64), fresh rfl rfl⟩
  · intro op eq
    cases eq
  · exact fits [1, 2] rfl (by decide : 3 < 2 ^ 64)

theorem transactionsAtomicCut : ∃ db₀ db dbc d',
    Deeds Allowed db₀ [.op (.commit [([0], some [7])]), .discard [([1], some [5])]] db ∧
    Down db [.commit [([1], some [8]), ([2], some [9])]] dbc ∧ dbc.disk.Found d' ∧
    (∃ base v, Shows db₀ base ∧ Reopens d' v ∧
      Atomic base [.op (.commit [([0], some [7])]), .discard [([1], some [5])]]
        [.commit [([1], some [8]), ([2], some [9])]] v) ∧ FreshIds d' := by
  obtain ⟨db₀, db, dbc, opened, run, down, allowed⟩ := commitInterrupted
  exact ⟨db₀, db, dbc, _, run, down, .left, transactionsAtomic cleanEmpty (by decide) (by simp)
    opened run down (by simpa using allowed) .left⟩

end Interrupted

section Cut
attribute [local instance] Wal.ieee

theorem openOneTable (file : Bytes) (opts : Options) : ∃ db,
    Database.openWith (Database.boot ⟨some Database.versionText,
      some (Manifest.mk [[1]] [] 2).save, none, OrderedMap.empty.insert 1 file, [], [], []⟩ [] opts) =
        .ok () db ∧ db.memtable = .new ∧ db.manifest.levels = [[1]] ∧ db.tableCache = [] ∧
    db.disk.tables.get 1 = some file := by
  have load : Manifest.load (some (Manifest.mk [[1]] [] 2).save) = .ok ⟨[[1]], [], 2⟩ :=
    Manifest.loadSaved ⟨by decide, by decide, by simp, by simp⟩
      ⟨List.Pairwise.nil, List.Pairwise.nil, by simp⟩ (by decide)
  set d : Disk := ⟨some Database.versionText, some (Manifest.mk [[1]] [] 2).save, none,
    OrderedMap.empty.insert 1 file, [], [], []⟩ with hd
  have opens : Completes Database.openWith (Database.boot d [] opts) (fun _ db =>
      db.memtable = .new ∧ db.manifest.levels = [[1]] ∧ db.tableCache = [] ∧
      db.disk.tables.get 1 = some file) := by
    unfold Database.openWith
    refine endsBindOk rfl (endsBindGet ?_)
    have load : Manifest.load (Database.boot d [] opts).disk.manifest = .ok ⟨[[1]], [], 2⟩ := load
    simp only [load]
    refine endsBindOk rfl (endsBindModify (endsBindOk rfl (endsBindOk rfl (endsBindGet ?_))))
    exact ⟨rfl, rfl, rfl, rfl⟩
  obtain ⟨_, db, run, done⟩ := opens.run
  exact ⟨db, run, done⟩

theorem fieldFlushed (value : Bytes) : ∃ db₀ db,
    Database.openWith (Database.boot .empty [] ⟨0, 4, 1⟩) = .ok () db₀ ∧
    Deeds (fun _ _ _ => True) db₀
      [.op (.commit [([69, 0, 0, 0, 0, 1, 0, 0, 0, 101, 0, 0, 0, 0], some value)])] db ∧
    { db.disk.crashed 0 with cuts := [] } =
      ⟨some Database.versionText, some (Manifest.mk [[1]] [] 2).save, none,
        OrderedMap.empty.insert 1 (Sstable.tableFile
          [([69, 0, 0, 0, 0, 1, 0, 0, 0, 101, 0, 0, 0, 0], some value)]), [], [], []⟩ :=
  ⟨_, _, rfl, .step .start rfl (fun _ _ => trivial), rfl⟩

def longField : Bytes := [5, 251, 255, 255, 255] ++ List.replicate (2 ^ 32 - 5) 0

/-- The length of the field comes around to 0 in the table: after the next start it is empty. -/
theorem transactionsCut : ¬ ∀ (d d' : Disk) (opts : Options) (faults : List Fault)
    (db₀ db dbc : Database) (ds : List Deed) (last : List Op), Clean d →
    opts.segmentMaxRecords ≠ 0 → (∀ n, Fault.fail n ∉ faults) →
    Database.openWith (Database.boot d faults opts) = .ok () db₀ →
    Deeds (fun _ _ _ => True) db₀ ds db → Down db last dbc → dbc.disk.Found d' →
    (∃ base v, Shows db₀ base ∧ Reopens d' v ∧ Atomic base ds last v) ∧ FreshIds d' := by
  intro claim
  set key : Bytes := [69, 0, 0, 0, 0, 1, 0, 0, 0, 101, 0, 0, 0, 0] with hkey
  have length : longField.length = 2 ^ 32 := by
    rw [longField, List.length_append, List.length_replicate]
    rfl
  obtain ⟨db₀, db, opened, run, disk⟩ := fieldFlushed longField
  obtain ⟨db₂, again, memtable, levels, cache, table⟩ := openOneTable
    (Sstable.tableFile [(key, some longField)]) ⟨0, 4, 1⟩
  rw [← disk] at again
  obtain ⟨⟨base, v, -, reopens, atomic⟩, -⟩ :=
    claim _ _ _ _ db₀ db _ _ [] cleanEmpty (by decide) (by simp) opened run (.idle 0) .left
  have shows := (endsOfRun again).mp (reopens ⟨0, 4, 1⟩)
  obtain ⟨found, _, got, rfl⟩ := (getCut (by decide) (by omega) memtable levels cache table).run
  obtain ⟨found', _, got', eq⟩ := (shows.get key).run
  rw [got] at got'
  cases got'
  rw [length, Nat.mod_self, List.take_zero] at eq
  have visible := atomic.committed [] _ [] rfl key (some longField) rfl
  have none : longField = [] := by simpa [← eq] using visible
  rw [none] at length
  exact absurd length (by decide)

end Cut
end MyLsmDb
