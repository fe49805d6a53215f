import MyLsmDb.Tended
import MyLsmDb.TransactionView

/-! A transaction on a store that nothing fails in: what each of its calls makes of the entities that
it shows, and of those that the store holds. -/
namespace MyLsmDb
open ByteOrder (Bytes)
open Effect
open KeyValue (Prog Serves)
open OrderedEntries
open Text
open Wal (Crc32)

section Dealing
variable [Crc32] {arity : UInt32 → Option Nat} {v w : View} {t t' : Transaction} {m m' : Contents}

/-- A transaction whose indexes are kept up, in what it shows while it is active too. -/
structure Underway (arity : UInt32 → Option Nat) (v : View) (t : Transaction) : Prop where
  store : Undisturbed arity v t.store
  keys : t.state = .active → ∀ w ∈ t.pending.entries, Proper arity w.1
  maintained : t.state = .active → Maintained arity t.store.schema (overlaid t.pending v)

/-- `m` is what the store holds, and `m'` what the transaction shows while it is active. -/
def Transaction.Holds (m m' : Contents) (t : Transaction) : Prop :=
  ∃ arity v, Underway arity v t ∧ contents t.store.schema v = m ∧
    (t.state = .active → contents t.store.schema (overlaid t.pending v) = m')

def Transaction.entities (t : Transaction) : Contents :=
  contents t.store.schema (overlaid t.pending t.store.db.shown)

theorem Underway.entities (h : Underway arity v t) :
    t.entities = contents t.store.schema (overlaid t.pending v) := by
  rw [Transaction.entities, h.store.steady.shown]

theorem Transaction.Holds.shown (h : t.Holds m m') (active : t.state = .active) : t.entities = m' := by
  obtain ⟨arity, v, underway, -, is⟩ := h
  exact underway.entities.trans (is active)

theorem Transaction.Holds.contains (h : t.Holds m m') : EntityStore.Contains m t.store := by
  obtain ⟨arity, v, underway, is, -⟩ := h
  exact ⟨arity, v, underway.store, is⟩

/-- What a transaction's core operations start from and leave. -/
abbrev TxStands (arity : UInt32 → Option Nat) (v : View) (t : Transaction) (schema : Schema) (w : View)
    (t' : Transaction) : Prop :=
  Upholds.Stands (TxShows (Proper arity) t.store.db.disk.schema v t.store.fieldHint) (fun _ _ => True)
    arity t.store.schema () schema w t'

theorem Underway.stands (h : Underway arity v t) (active : t.state = .active) :
    TxStands arity v t t.store.schema (overlaid t.pending v) t :=
  ⟨⟨h.store.steady, rfl, h.keys active, rfl, rfl, active⟩, trivial, h.maintained active,
    h.store.maintained.orderly.advances⟩

theorem Underway.holds (h : Underway arity v t) {schema : Schema}
    (stands : TxStands arity v t schema w t')
    (is : contents schema w = m') : t'.Holds (contents t.store.schema v) m' := by
  have advances := stands.advances
  obtain ⟨steady, laid, keys, same, hint, active⟩ := stands.shown
  have inner : Upholds.Stands (StoreShows (Proper arity) t.store.db.disk.schema) Covering arity
      t.store.schema t.store.fieldHint schema v t'.store :=
    ⟨⟨steady, same, hint⟩, h.store.covering, h.store.maintained.follows advances.follows, advances⟩
  refine ⟨arity, v, ⟨h.store.stood inner, fun _ => keys, fun _ => ?_⟩, ?_, fun _ => ?_⟩
  · rw [same, laid]
    exact stands.maintained
  · rw [same]
    exact h.store.maintained.contentsFollow advances.follows
  · rw [same, laid]
    exact is

omit [Crc32] in
theorem activeThen {α : Type} {ok : Transaction → Prop} {f : TransactionM α}
    {post : α → Transaction → Prop} {stop : Stop Error → Transaction → Prop}
    (h : t.state = .active → EndsIf ok f t post stop) (idle : ∀ e, stop e t) :
    EndsIf ok (do Transaction.checkActive; f) t post stop := by
  have check : Ends Transaction.checkActive t (fun _ t' => t' = t ∧ t.state = .active)
      (fun _ t' => t' = t) :=
    endsBindGet (endsIte (fun _ => rfl) (fun active => ⟨rfl, not_not.mp active⟩))
  refine Ends.bind (check.mono (fun _ _ done => done) (fun _ _ same _ => same ▸ idle _)) ?_
  rintro _ _ ⟨rfl, active⟩
  exact h active

section Calls
variable {name : Chars} {e : Utf8}

/-- `t'` holds and shows what `t` does. -/
abbrev Stays (v : View) (t t' : Transaction) : Prop :=
  t'.Holds (contents t.store.schema v) (contents t.store.schema (overlaid t.pending v))

theorem Underway.collects (h : Underway arity v t) (active : t.state = .active) (named : Named name)
    (room : t.store.schema.nextCollectionId.toNat + 1 < 2 ^ 32) {α : Type}
    {f : UInt32 → TransactionM α}
    {post : α → Transaction → Prop} {stop : Stop Error → Transaction → Prop}
    (next : ∀ t₁, t₁.store.schema = (t.store.schema.collectionId name).2 →
      TxStands arity v t (t.store.schema.collectionId name).2 (overlaid t.pending v) t₁ →
      contents (t.store.schema.collectionId name).2 (overlaid t.pending v) =
        contents t.store.schema (overlaid t.pending v) →
      EndsIf (fun t : Transaction => Fitting t.store.db) (f (t.store.schema.collectionId name).1) t₁
        post stop) :
    EndsIf (fun t : Transaction => Fitting t.store.db)
      (do let c ← collectionIdOf Transaction.side name; f c) t post stop := by
  obtain ⟨run, stands⟩ := txUpholds.collectionId named room (h.stands active)
  have advances := h.store.maintained.orderly.advanceCollection named room
  exact endsBindOk run (next _ stands.shown.schema stands
    ((h.maintained active).contentsFollow advances.follows))

theorem Underway.updates (h : Underway arity v t) (active : t.state = .active) {entity : Entity}
    (named : Named name) (room : t.store.schema.nextCollectionId.toNat + 1 < 2 ^ 32)
    (short : e.bytes.length < 2 ^ 32) (fits : Room (t.store.schema.collectionId name).2 entity) :
    EndsIf (fun t : Transaction => Fitting t.store.db)
      (do
        let c ← collectionIdOf Transaction.side name
        corePutEntity Transaction.side c e.bytes entity) t
      (fun _ t' => t'.Holds (contents t.store.schema v)
        ((contents t.store.schema (overlaid t.pending v)).put (t.store.schema.collectionId name).1 e.bytes entity.field))
      (fun _ => Stays v t) := by
  refine h.collects active named room (fun t₁ _ stands same => ?_)
  refine (txUpholds.puts short fits stands).mono ?_ ?_
  · intro _ t' _ done
    obtain ⟨_, schema, w, stands, is⟩ := done
    exact h.holds stands (same ▸ is)
  · exact fun _ t' _ stop => h.holds stop same

theorem Underway.casUpdates (h : Underway arity v t) (active : t.state = .active) {expected : Expected}
    {patch : List Patch} (named : Named name)
    (room : t.store.schema.nextCollectionId.toNat + 1 < 2 ^ 32) (short : e.bytes.length < 2 ^ 32)
    (fits : ∀ entity, Updates (contents t.store.schema (overlaid t.pending v))
      (t.store.schema.collectionId name).1 e.bytes expected patch entity →
        Room (t.store.schema.collectionId name).2 entity) :
    EndsIf (fun t : Transaction => Fitting t.store.db)
      (do
        let c ← collectionIdOf Transaction.side name
        coreCasEntity Transaction.side c e.bytes expected patch) t
      (fun entity t' => Updates (contents t.store.schema (overlaid t.pending v))
          (t.store.schema.collectionId name).1 e.bytes expected patch entity ∧
        t'.Holds (contents t.store.schema v) ((contents t.store.schema (overlaid t.pending v)).put
          (t.store.schema.collectionId name).1 e.bytes entity.field))
      (fun _ => Stays v t) := by
  refine h.collects active named room (fun t₁ _ stands same => ?_)
  refine (txUpholds.cas short (fun entity updates => fits entity (same ▸ updates)) stands).mono ?_ ?_
  · intro entity t' _ done
    obtain ⟨updates, _, schema, w, stands, is⟩ := done
    exact ⟨same ▸ updates, h.holds stands (same ▸ is)⟩
  · exact fun _ t' _ stop => h.holds stop same

theorem Underway.deletes (h : Underway arity v t) (active : t.state = .active)
    (named : Named name) (room : t.store.schema.nextCollectionId.toNat + 1 < 2 ^ 32)
    (short : e.bytes.length < 2 ^ 32) :
    EndsIf (fun t : Transaction => Fitting t.store.db) (do
        let c ← collectionIdOf Transaction.side name
        (coreDeleteEntity (← get).store.schema c e.bytes).run Transaction.machine) t
      (fun _ t' => t'.Holds (contents t.store.schema v)
        ((contents t.store.schema (overlaid t.pending v)).put (t.store.schema.collectionId name).1 e.bytes (fun _ => none)))
      (fun _ => Stays v t) := by
  refine h.collects active named room (fun t₁ schema stands same => endsBindGet ?_)
  rw [schema]
  refine (txUpholds.deletes short stands).mono ?_ ?_
  · intro _ t' _ done
    obtain ⟨w, stands, is⟩ := done
    exact h.holds stands (same ▸ is)
  · exact fun _ t' _ stop => h.holds stop same

theorem Underway.reads (h : Underway arity v t) (active : t.state = .active) {α : Type} {p : KvProg α}
    (only : p.ReadOnly) : EndsIf (fun t : Transaction => Fitting t.store.db)
      (p.run Transaction.machine) t
      (fun _ => Stays v t)
      (fun _ => Stays v t) :=
  (txUpholds.read only (h.stands active)).mono (fun _ _ _ stands => h.holds stands rfl)
    (fun _ _ _ stands => h.holds stands rfl)

theorem Underway.scans (h : Underway arity v t) (active : t.state = .active) {α : Type}
    (start stop : Option Bytes) (read : List Rec → Except (Stop Error) α) :
    EndsIf (fun t : Transaction => Fitting t.store.db) (do
        let rows ← Transaction.machine.scan start stop
        lift (read rows)) t
      (fun _ => Stays v t)
      (fun _ => Stays v t) := by
  have stands := h.stands active
  have scanned := (txServes t.store.schema).scan stands.shown start stop
  refine Ends.endsIf (scanned.andThen ?_)
  intro rows t' done
  have holds : Stays v t t' :=
    h.holds ⟨done.2.2, trivial, stands.maintained, stands.advances⟩ rfl
  exact endsLift _ (fun _ _ => holds) (fun _ _ => holds)

theorem Transaction.Holds.commit (h : t.Holds m m') :
    EndsIf (fun t : Transaction => Fitting t.store.db) Transaction.commit t
      (fun _ t' => t'.Holds m' m') (fun _ t' => t'.Holds m m') := by
  refine activeThen (fun active => ?_) (fun _ => h)
  obtain ⟨arity, v, h, rfl, shown⟩ := h
  obtain rfl := shown active
  have persisted : Completes (Transaction.onStore EntityStore.persistSchema) t (fun _ t₁ =>
      Undisturbed arity v t₁.store ∧ t.store.schema.Follows t₁.store.schema ∧
        t₁.pending = t.pending) :=
    endsZoom (h.store.persists.imp (fun _ _ done => ⟨done.1, done.2.1, rfl⟩))
  refine persisted.andThen ?_
  rintro _ t₁ ⟨store, follows, pending⟩
  refine endsBindGet ?_
  have mine : ∀ w ∈ t₁.pending.entries, Proper arity w.1 := pending ▸ h.keys active
  have written : EndsIf (fun t : Transaction => Fitting t.store.db)
      (Transaction.onStore (EntityStore.onDb (Database.commitPending t₁.id t₁.pending.entries))) t₁ (fun _ t₂ =>
        Steady (Proper arity) t₁.store.db.disk.schema t₂.store.db (overlaid t.pending v) ∧
          t₂ = { t₁ with store := { t₁.store with db := t₂.store.db } }) (fun _ _ => False) := by
    refine endsZoom (endsZoom ((store.steady.commit t₁.id mine).mono (fun _ db' _ done => ?_)
      (fun _ _ _ => False.elim)))
    rw [appliedPending, pending] at done
    exact ⟨done, rfl⟩
  refine Ends.bind (Ends.mono written (fun _ _ done => done)
    (fun _ _ never fits => (never fits).elim)) ?_
  intro _ t₂ done
  refine endsModify _ (fun fits => ?_)
  obtain ⟨steady, same⟩ := done fits
  have covering := store.covering.commit t₁.pending.entries
  rw [appliedPending, pending] at covering
  have schema : t₂.store.schema = t₁.store.schema := by rw [same]
  have maintained : Maintained arity t₂.store.schema (overlaid t.pending v) :=
    schema ▸ (h.maintained active).follows follows
  have is : contents t₂.store.schema (overlaid t.pending v) =
      contents t.store.schema (overlaid t.pending v) :=
    schema ▸ (h.maintained active).contentsFollow follows
  refine ⟨arity, overlaid t.pending v, ⟨⟨⟨?_, ?_, maintained⟩, ?_, ?_⟩, fun active => ?_,
    fun active => ?_⟩, is, fun active => ?_⟩
  · change Steady (Proper arity) t₂.store.db.disk.schema t₂.store.db _
    rw [steady.schema]
    exact steady
  · change Covering (Transaction.forgetHints t₂.pending.entries t₂.store.fieldHint) _
    rw [same, pending]
    exact covering
  · change ∀ d ∈ t₂.store.schema.indexes, d.status = .ready
    rw [schema]
    exact store.ready
  · change t₂.store.schema.changed = true ∨ t₂.store.schema.SavedIn t₂.store.db.disk.schema
    rw [schema, steady.schema]
    exact store.saved
  all_goals cases active

theorem Transaction.Holds.abort (h : t.Holds m m') :
    EndsIf (fun t : Transaction => Fitting t.store.db) Transaction.abort t (fun _ t' => t'.Holds m m)
      (fun _ t' => t'.Holds m m') := by
  refine activeThen (fun _ => endsModify _ (fun _ => ?_)) (fun _ => h)
  obtain ⟨arity, v, h, rfl, -⟩ := h
  refine ⟨arity, v, ⟨h.store, fun active => ?_, fun active => ?_⟩, rfl, fun active => ?_⟩
  all_goals cases active

end Calls
section Course

/-- The name can be saved and counted, and the identifier has a length. -/
def Addressed (s : Schema) (name : Chars) (e : Utf8) : Prop :=
  Named name ∧ s.nextCollectionId.toNat + 1 < 2 ^ 32 ∧ e.bytes.length < 2 ^ 32

/-- What the holder of a transaction keeps to. -/
def TxCall.Fine (t : Transaction) : TxCall → Prop
  | update name e entity =>
    Addressed t.store.schema name e ∧ Room (t.store.schema.collectionId name).2 entity
  | casUpdate name e expected patch => Addressed t.store.schema name e ∧ ∀ entity,
    Updates t.entities (t.store.schema.collectionId name).1 e.bytes expected patch entity →
      Room (t.store.schema.collectionId name).2 entity
  | delete name e => Addressed t.store.schema name e
  | getEntity _ _ | scanCollection _ | query _ | commit | abort => True

/-- What a call that returns makes of the entities `m` that are committed and of those, `w`, that the
transaction shows. -/
def TxCall.Yields (s : Schema) (m w m' w' : Contents) : TxCall → Prop
  | update name e entity => m' = m ∧ w' = w.put (s.collectionId name).1 e.bytes entity.field
  | casUpdate name e expected patch => m' = m ∧ ∃ entity,
    Updates w (s.collectionId name).1 e.bytes expected patch entity ∧
      w' = w.put (s.collectionId name).1 e.bytes entity.field
  | delete name e => m' = m ∧ w' = w.put (s.collectionId name).1 e.bytes (fun _ => none)
  | getEntity _ _ | scanCollection _ | query _ => m' = m ∧ w' = w
  | commit => m' = w ∧ w' = w
  | abort => m' = m ∧ w' = m

namespace Transaction.Holds
variable {w' : Contents}

theorem call {call : TxCall} (h : t.Holds m m') (fine : call.Fine t) :
    EndsIf (fun t : Transaction => Fitting t.store.db) call.run t
      (fun _ t' => ∃ m₁ w₁, call.Yields t.store.schema m m' m₁ w₁ ∧ t'.Holds m₁ w₁)
      (fun _ t' => t'.Holds m m') := by
  have held := h
  obtain ⟨arity, v, underway, rfl, shown⟩ := h
  cases call with
  | update name e entity =>
    refine activeThen (fun active => ?_) (fun _ => held)
    obtain rfl := shown active
    exact (underway.updates active fine.1.1 fine.1.2.1 fine.1.2.2 fine.2).mono
      (fun _ _ _ done => ⟨_, _, ⟨rfl, rfl⟩, done⟩) (fun _ _ _ stop => stop)
  | casUpdate name e expected patch =>
    have run : EndsIf (fun t : Transaction => Fitting t.store.db)
        (Transaction.casUpdate name e expected patch) t
        (fun _ t' => ∃ m₁ w₁, (TxCall.casUpdate name e expected patch).Yields t.store.schema
          (contents t.store.schema v) m' m₁ w₁ ∧ t'.Holds m₁ w₁)
        (fun _ t' => t'.Holds (contents t.store.schema v) m') := by
      refine activeThen (fun active => ?_) (fun _ => held)
      have entities := held.shown active
      obtain rfl := shown active
      exact (underway.casUpdates active fine.1.1 fine.1.2.1 fine.1.2.2
        (fun entity updates => fine.2 entity (entities ▸ updates))).mono
        (fun entity _ _ done => ⟨_, _, ⟨rfl, entity, done.1, rfl⟩, done.2⟩) (fun _ _ _ stop => stop)
    exact Ends.bind (run.mono (fun _ _ _ done => done) (fun _ _ _ stop => stop)) (fun _ _ done => done)
  | delete name e =>
    refine activeThen (fun active => ?_) (fun _ => held)
    obtain rfl := shown active
    exact (underway.deletes active fine.1 fine.2.1 fine.2.2).mono
      (fun _ _ _ done => ⟨_, _, ⟨rfl, rfl⟩, done⟩) (fun _ _ _ stop => stop)
  | getEntity name e =>
    have run : EndsIf (fun t : Transaction => Fitting t.store.db) (Transaction.getEntity name e) t
        (fun _ t' => t'.Holds (contents t.store.schema v) m')
        (fun _ t' => t'.Holds (contents t.store.schema v) m') := by
      refine activeThen (fun active => endsBindGet ?_) (fun _ => held)
      obtain rfl := shown active
      dsimp only
      split
      · exact fun _ => held
      · exact underway.scans active _ _ _
    exact Ends.bind (run.mono (fun _ _ _ done => done) (fun _ _ _ stop => stop))
      (fun _ _ done fits => ⟨_, _, ⟨rfl, rfl⟩, done fits⟩)
  | scanCollection name =>
    have run : EndsIf (fun t : Transaction => Fitting t.store.db) (Transaction.scanCollection name) t
        (fun _ t' => t'.Holds (contents t.store.schema v) m')
        (fun _ t' => t'.Holds (contents t.store.schema v) m') := by
      refine activeThen (fun active => endsBindGet ?_) (fun _ => held)
      obtain rfl := shown active
      dsimp only
      split
      · exact fun _ => held
      · exact underway.scans active _ _ _
    exact Ends.bind (run.mono (fun _ _ _ done => done) (fun _ _ _ stop => stop))
      (fun _ _ done fits => ⟨_, _, ⟨rfl, rfl⟩, done fits⟩)
  | query q =>
    refine activeThen (fun active => endsBindGet ?_) (fun _ => held)
    obtain rfl := shown active
    exact (underway.reads active (q.readOnly _)).mono
      (fun _ _ _ done => ⟨_, _, ⟨rfl, rfl⟩, done⟩) (fun _ _ _ stop => stop)
  | commit =>
    exact held.commit.mono (fun _ _ _ done => ⟨_, _, ⟨rfl, rfl⟩, done⟩) (fun _ _ _ stop => stop)
  | abort =>
    exact held.abort.mono (fun _ _ _ done => ⟨_, _, ⟨rfl, rfl⟩, done⟩) (fun _ _ _ stop => stop)

end Transaction.Holds
/-- One call of a transaction, that returns or is refused. -/
inductive Called (t : Transaction) (call : TxCall) (m w : Contents) (t' : Transaction) :
    Contents → Contents → Prop where
  | returned {m' w' : Contents} (run : call.run t = .ok () t')
      (yields : call.Yields t.store.schema m w m' w') : Called t call m w t' m' w'
  | refused {e : Stop Error} (run : call.run t = .error e t') : Called t call m w t' m w

/-- What the calls make of the entities that are committed. -/
inductive Dealt : Transaction → Contents → Contents → List TxCall → Contents → Prop where
  | nil {t : Transaction} {m w : Contents} : Dealt t m w [] m
  | cons {t t' : Transaction} {call : TxCall} {rest : List TxCall} {m w m' w' m'' : Contents}
      (went : Called t call m w t' m' w') (next : Dealt t' m' w' rest m'') :
      Dealt t m w (call :: rest) m''

theorem Dealt.uncommitted {calls : List TxCall} {w : Contents} (h : Dealt t m w calls m')
    (none : TxCall.commit ∉ calls) : m' = m := by
  induction h with
  | nil => rfl
  | @cons t t' call rest m w m₁ w₁ m' went next ih =>
    rw [List.mem_cons, not_or] at none
    rw [ih none.2]
    cases went with
    | refused run => rfl
    | returned run yields =>
      cases call with
      | commit => exact absurd rfl none.1
      | update | casUpdate | delete | getEntity | scanCollection | query | abort => exact yields.1

def TxCall.AllFine (t : Transaction) : List TxCall → Prop
  | [] => True
  | call :: rest => call.Fine t ∧ AllFine (behind call.run t) rest

theorem Transaction.Holds.went {call : TxCall} (h : t.Holds m m') (fine : call.Fine t) :
    EndsIf (fun t : Transaction => Fitting t.store.db) (ignoreError call.run) t
      (fun _ t' => t' = behind call.run t ∧ ∃ m₁ w₁, Called t call m m' t' m₁ w₁ ∧ t'.Holds m₁ w₁)
      (fun _ t' => Called t call m m' t' m m' ∧ t'.Holds m m') := by
  have ended := h.call fine
  unfold EndsIf Ends at ended
  unfold EndsIf Ends ignoreError behind
  cases run : call.run t with
  | ok _ t' =>
    rw [run] at ended
    intro fits
    obtain ⟨m₁, w₁, yields, holds⟩ := ended fits
    exact ⟨rfl, m₁, w₁, .returned run yields, holds⟩
  | error e t' =>
    rw [run] at ended
    cases e with
    | error e => exact fun fits => ⟨rfl, m, m', .refused run, ended fits⟩
    | panic => exact fun fits => ⟨.refused run, ended fits⟩
    | crash => exact fun fits => ⟨.refused run, ended fits⟩

theorem Transaction.Holds.course {calls : List TxCall} (h : t.Holds m m')
    (fine : TxCall.AllFine t calls) : EndsIf (fun t : Transaction => Fitting t.store.db)
      (calls.forM (fun call => ignoreError call.run)) t
      (fun _ t' => ∃ m₁, Dealt t m m' calls m₁ ∧ EntityStore.Contains m₁ t'.store)
      (fun _ t' => ∃ m₁ past, past <+: calls ∧ Dealt t m m' past m₁ ∧
        EntityStore.Contains m₁ t'.store) := by
  induction calls generalizing t m m' with
  | nil => exact fun _ => ⟨m, .nil, h.contains⟩
  | cons call rest ih =>
    have first := (h.went fine.1).mono (fun _ _ _ done => done) (fun _ t' _ stop => show
      ∃ m₁ past, past <+: call :: rest ∧ Dealt t m m' past m₁ ∧ EntityStore.Contains m₁ t'.store from
        ⟨m, [call], List.prefix_append [call] rest, .cons stop.1 .nil, stop.2.contains⟩)
    refine EndsIf.bind (fun _ _ lives => fittingBack _ _ lives.grows) first (fun _ =>
      Moves.forM (R := InTx Lives) (fun call => (TxCall.runMoves call).ignore) rest) ?_
    rintro _ t' - ⟨same, m₁, w₁, went, holds⟩
    refine (ih holds (same ▸ fine.2)).mono ?_ ?_
    · rintro _ t'' - ⟨m₂, dealt, contains⟩
      exact ⟨m₂, .cons went dealt, contains⟩
    · rintro _ t'' - ⟨m₂, past, before, dealt, contains⟩
      exact ⟨m₂, call :: past, List.cons_prefix_cons.mpr ⟨rfl, before⟩, .cons went dealt, contains⟩

theorem Undisturbed.begins {s : EntityStore} (h : Undisturbed arity v s) :
    (Transaction.begin s).Holds (contents s.schema v) (contents s.schema v) := by
  refine ⟨arity, v, ⟨⟨⟨h.steady.begin, h.covering, h.maintained⟩, h.ready, h.saved⟩, ?_, fun _ => ?_⟩,
    rfl, fun _ => rfl⟩
  · intro _ w m
    cases m
  · exact h.maintained

theorem Undisturbed.transacts {s : EntityStore} {calls : List TxCall} (h : Undisturbed arity v s)
    (fine : TxCall.AllFine (Transaction.begin s) calls) :
    EndsIf (fun s : EntityStore => Fitting s.db) (StoreCall.runTransact calls) s
      (fun _ s' => ∃ m₁, Dealt (Transaction.begin s) (contents s.schema v) (contents s.schema v)
        calls m₁ ∧ EntityStore.Contains m₁ s')
      (fun _ s' => ∃ m₁ past, past <+: calls ∧ Dealt (Transaction.begin s) (contents s.schema v)
        (contents s.schema v) past m₁ ∧ EntityStore.Contains m₁ s') :=
  endsZoom (h.begins.course fine)

end Course
end Dealing
end MyLsmDb
