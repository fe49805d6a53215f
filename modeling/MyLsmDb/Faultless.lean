import MyLsmDb.TransactionContents

/-! Runs of processes that meet no fault. Every call does to the entities what its words say, a close
and a new start keep them, and every index that there is has their entries. -/
namespace MyLsmDb
open ByteOrder (Bytes)
open Effect
open KeyValue (Prog Serves)
open OrderedEntries
open Text
open Wal (Crc32)

section Calm
variable [Crc32]

namespace StoreCall

/-- What a caller keeps to: names that can be saved, identifiers that have a length, fields that there
are, and counters that do not run out. -/
def Fine (s : EntityStore) : StoreCall → Prop
  | collection name => Named name ∧ s.schema.nextCollectionId.toNat + 1 < 2 ^ 32
  | putEntity _ e entity => e.length < 2 ^ 32 ∧ Room s.schema entity
  | casUpdate name e expected patch => Addressed s.schema name e ∧ ∀ entity,
    Updates s.entities (s.schema.collectionId name).1 e.bytes expected patch entity →
      Room (s.schema.collectionId name).2 entity
  | deleteEntity _ e => e.length < 2 ^ 32
  | createIndex c f =>
    (s.schema.fieldName.get (toLex (c, f))).isSome ∧ s.schema.nextIndexId.toNat + 1 < 2 ^ 32
  | createCompositeIndex c fields => 2 ≤ fields.length ∧ fields.length < 2 ^ 64 ∧
    (∀ f ∈ fields, (s.schema.fieldName.get (toLex (c, f))).isSome) ∧
      s.schema.nextIndexId.toNat + 1 < 2 ^ 32
  | dropCompositeIndex _ fields => 2 ≤ fields.length
  | fieldIds _ names =>
    (∀ n ∈ names, Named n) ∧ s.schema.nextFieldId.toNat + names.length < 2 ^ 32
  | transact calls => TxCall.AllFine (Transaction.begin s) calls
  | getEntity _ _ | scanCollection _ | query _ | dropIndex _ _ | flush | backup _ => True

/-- What a call that returns makes of the entities. -/
def Yields (s : EntityStore) (m m' : Contents) : StoreCall → Prop
  | putEntity c e entity => m' = m.put c e entity.field
  | casUpdate name e expected patch => ∃ entity,
    Updates m (s.schema.collectionId name).1 e.bytes expected patch entity ∧
      m' = m.put (s.schema.collectionId name).1 e.bytes entity.field
  | deleteEntity c e => m' = m.put c e (fun _ => none)
  | transact calls => Dealt (Transaction.begin s) m m calls m'
  | collection _ | getEntity _ _ | scanCollection _ | query _ | createIndex _ _
  | createCompositeIndex _ _ | dropIndex _ _ | dropCompositeIndex _ _ | fieldIds _ _ | flush
  | backup _ => m' = m

/-- What a call that is refused makes of them; of a transaction some calls have been made. -/
def Refuses (s : EntityStore) (m m' : Contents) : StoreCall → Prop
  | transact calls => ∃ past, past <+: calls ∧ Dealt (Transaction.begin s) m m past m'
  | _ => m' = m

end StoreCall

variable {arity : UInt32 → Option Nat} {v : View} {s : EntityStore} {m : Contents} {d : Disk}

theorem Undisturbed.adds (h : Undisturbed arity v s) {name : Chars} (named : Named name)
    (room : s.schema.nextCollectionId.toNat + 1 < 2 ^ 32) :
    EndsIf (fun s : EntityStore => Fitting s.db) (EntityStore.collection name) s
      (fun _ s' => EntityStore.Contains (contents s.schema v) s') (fun _ _ => False) := by
  obtain ⟨run, undisturbed, same⟩ := h.collects named room
  refine endsBindOk run ?_
  refine Ends.endsIf (undisturbed.persists.andThen (fun _ s' done => ?_))
  exact ⟨arity, v, done.1, (undisturbed.maintained.contentsFollow done.2.1).trans same⟩

omit [Crc32] in
theorem ignored {α : Type} {x : StoreM α} {post : Unit → EntityStore → Prop}
    {stop : Stop Error → EntityStore → Prop}
    (h : EndsIf (fun s : EntityStore => Fitting s.db) x s (fun _ s' => post () s') stop) :
    EndsIf (fun s : EntityStore => Fitting s.db) (do let _ ← x) s post stop :=
  Ends.bind (h.mono (fun _ _ _ done => done) (fun _ _ _ stop => stop)) (fun _ _ done => done)

theorem Undisturbed.call (h : Undisturbed arity v s) {call : StoreCall} (fine : call.Fine s) :
    EndsIf (fun s : EntityStore => Fitting s.db) call.run s
      (fun _ s' => ∃ m, call.Yields s (contents s.schema v) m ∧ EntityStore.Contains m s')
      (fun _ s' => ∃ m, call.Refuses s (contents s.schema v) m ∧ EntityStore.Contains m s') := by
  cases call with
  | collection name =>
    exact ignored ((h.adds fine.1 fine.2).mono (fun _ _ _ done => ⟨_, rfl, done⟩)
      (fun _ _ _ => False.elim))
  | putEntity c e entity =>
    exact (h.puts fine.1 fine.2).mono (fun _ _ _ done => ⟨_, rfl, done⟩)
      (fun _ _ _ stop => ⟨_, rfl, stop⟩)
  | casUpdate name e expected patch =>
    have entities := h.entities
    refine ignored ((h.casUpdates fine.1.1 fine.1.2.1 fine.1.2.2
      (fun entity updates => fine.2 entity (entities ▸ updates))).mono
        (fun entity _ _ done => ⟨_, ⟨entity, done.1, rfl⟩, done.2⟩) (fun _ _ _ stop => ⟨_, rfl, stop⟩))
  | deleteEntity c e =>
    exact (h.deletes fine).mono (fun _ _ _ done => ⟨_, rfl, done⟩) (fun _ _ _ stop => ⟨_, rfl, stop⟩)
  | getEntity c e =>
    exact ignored (endsBindGet ((h.reads (coreGetReadOnly _ _ _)).mono
      (fun _ _ _ done => ⟨_, rfl, done⟩) (fun _ _ _ stop => ⟨_, rfl, stop⟩)))
  | scanCollection name =>
    exact ignored (h.scans.mono (fun _ _ _ done => ⟨_, rfl, done⟩) (fun _ _ _ stop => ⟨_, rfl, stop⟩))
  | query q =>
    exact endsBindGet ((h.reads (q.readOnly _)).mono (fun _ _ _ done => ⟨_, rfl, done⟩)
      (fun _ _ _ stop => ⟨_, rfl, stop⟩))
  | createIndex c f =>
    exact (h.createsIndex fine.1 fine.2).mono (fun _ _ _ done => ⟨_, rfl, done⟩)
      (fun _ _ _ => False.elim)
  | createCompositeIndex c fields =>
    exact (h.createsComposite fine.1 fine.2.1 fine.2.2.1 fine.2.2.2).mono
      (fun _ _ _ done => ⟨_, rfl, done⟩) (fun _ _ _ => False.elim)
  | dropIndex c f =>
    exact h.drops.mono (fun _ _ _ done => ⟨_, rfl, done⟩) (fun _ _ _ => False.elim)
  | dropCompositeIndex c fields =>
    exact (h.dropsComposite fine).mono (fun _ _ _ done => ⟨_, rfl, done⟩) (fun _ _ _ => False.elim)
  | fieldIds c names =>
    exact ignored ((h.names fine.1 fine.2).mono (fun _ _ _ done => ⟨_, rfl, done⟩)
      (fun _ _ _ => False.elim))
  | transact calls =>
    refine (h.transacts fine).mono (fun _ _ _ done => done) ?_
    rintro _ _ - ⟨m, past, before, dealt, contains⟩
    exact ⟨m, ⟨past, before, dealt⟩, contains⟩
  | flush => exact h.flushes.mono (fun _ _ _ done => ⟨_, rfl, done⟩) (fun _ _ _ => False.elim)
  | backup dest =>
    exact (h.backsUp dest).mono (fun _ _ _ done => ⟨_, rfl, done⟩) (fun _ _ _ stop => ⟨_, rfl, stop⟩)

/-- A medium from which a new process has these entities again, with the indexes. -/
def Rested (m : Contents) (d : Disk) : Prop :=
  ∃ arity schema v, Ready (Proper arity) d.schema d v ∧ Maintained arity schema v ∧
    (∀ i ∈ schema.indexes, i.status = .ready) ∧ schema.SavedIn d.schema ∧ contents schema v = m

theorem restedEmpty : Rested (fun _ _ _ => none) .empty := by
  refine ⟨_, .new, _, readyEmpty, Maintained.new, fun i m => ?_, rfl, ?_⟩
  · cases m
  · rfl

theorem EntityStore.Contains.closes (h : EntityStore.Contains m s) :
    EndsIf (fun s : EntityStore => Fitting s.db) EntityStore.close s
      (fun _ s' => Rested m s'.db.disk) (fun _ _ => True) := by
  obtain ⟨arity, v, undisturbed, rfl⟩ := h
  have closed : EndsIf (fun s : EntityStore => Fitting s.db) (do
      EntityStore.persistSchema
      EntityStore.onDb Database.close) s
      (fun _ s' => Rested (contents s.schema v) s'.db.disk) (fun _ _ => True) := by
    refine undisturbed.persists.andThen ?_
    rintro _ s₁ ⟨saves, follows, saved⟩
    refine endsZoom (saves.steady.close.mono (fun _ db' _ ready => ?_) (fun _ _ _ _ => trivial))
    have same := ready.schema
    refine ⟨arity, s₁.schema, v, ?_, saves.maintained, saves.ready, ?_,
      undisturbed.maintained.contentsFollow follows⟩
    · rw [same]
      exact ready
    · rw [same]
      exact saved
  refine endsTryCatch (Ends.mono closed (fun _ _ done => done) (fun e s' _ => ?_))
  have dropped : Ends EntityStore.drop s' (fun _ _ => True) (fun _ s' => Fitting s'.db → True) := by
    unfold Ends
    split
    · trivial
    · exact fun _ => trivial
  refine endsIte (fun _ => ?_) (fun _ => endsThrow _ (fun _ => trivial))
  exact Ends.bind dropped (fun _ _ _ => endsThrow e (fun _ => trivial))

theorem Rested.opens (h : Rested m d) {opts : Options} (room : opts.segmentMaxRecords ≠ 0) :
    Ends EntityStore.openWith (EntityStore.boot d [] opts)
      (fun _ s => EntityStore.Contains m s) (fun _ _ => True) := by
  obtain ⟨arity, schema, v, ready, maintained, all, saved, rfl⟩ := h
  have opened : Ends (EntityStore.onDb Database.openWith) (EntityStore.boot d [] opts)
      (fun _ s => Steady (Proper arity) d.schema s.db v ∧ s.fieldHint = .empty)
      (fun _ _ => True) :=
    endsZoom ((ready.opens room).mono (fun _ _ done => ⟨done.1, rfl⟩) (fun _ _ _ => trivial))
  refine opened.bind (fun _ s₁ done => ?_)
  obtain ⟨steady, hint⟩ := done
  have reload : schema.reloaded.buildingIndexes = [] := by
    rw [Schema.buildingIndexes, List.filter_eq_nil_iff]
    intro i m
    simp [all i (Schema.reloadedIndexes.mp m)]
  have undisturbed : Undisturbed arity v { s₁ with schema := schema.reloaded } := by
    refine ⟨⟨?_, ?_, maintained.reload⟩, fun i m => all i (Schema.reloadedIndexes.mp m), .inr ?_⟩
    · change Steady (Proper arity) s₁.db.disk.schema s₁.db v
      rw [steady.schema]
      exact steady
    · change Covering s₁.fieldHint v
      rw [hint]
      intro c e ids found
      cases found
    · change schema.reloaded.SavedIn s₁.db.disk.schema
      rw [steady.schema]
      exact saved.again
  have loads : Schema.load s₁.db.disk.schema = .ok schema.reloaded := by
    rw [steady.schema]
    exact saved
  have recovers : Completes (do
      EntityStore.loadSchema
      EntityStore.recoverIndexes) s₁ (fun _ s => EntityStore.Contains (contents schema v) s) := by
    have loaded : EntityStore.loadSchema s₁ = .ok () { s₁ with schema := schema.reloaded } := by
      change (lift (Schema.load s₁.db.disk.schema) >>= fun schema =>
        modify (EntityStore.setSchema schema) : StoreM Unit) s₁ = _
      rw [loads]
      rfl
    refine endsBindOk loaded (endsBindGet ?_)
    dsimp only
    rw [reload]
    exact ⟨arity, v, undisturbed, rfl⟩
  exact endsTryCatch (recovers.mono (fun _ _ done => done) (fun _ _ => False.elim))

/-- The stages of processes that meet no fault. -/
inductive Faultless : Stage → Prop where
  | fresh : Faultless (.down .empty)
  | opened {d : Disk} {opts : Options} {s : EntityStore} (before : Faultless (.down d))
      (room : opts.segmentMaxRecords ≠ 0)
      (run : EntityStore.openWith (EntityStore.boot d [] opts) = .ok () s) : Faultless (.up s)
  | returned {s s' : EntityStore} {call : StoreCall} (before : Faultless (.up s)) (fine : call.Fine s)
      (run : call.run s = .ok () s') (fits : Fitting s'.db) : Faultless (.up s')
  | refused {s s' : EntityStore} {call : StoreCall} {e : Stop Error} (before : Faultless (.up s))
      (fine : call.Fine s) (run : call.run s = .error e s') (fits : Fitting s'.db) : Faultless (.up s')
  | closed {s s' : EntityStore} (before : Faultless (.up s)) (run : EntityStore.close s = .ok () s')
      (fits : Fitting s'.db) : Faultless (.down s'.db.disk)

def Stage.Has (m : Contents) : Stage → Prop
  | .up s => EntityStore.Contains m s
  | .down d => Rested m d

theorem Faultless.has {stage : Stage} (h : Faultless stage) : ∃ m, stage.Has m := by
  induction h with
  | fresh => exact ⟨_, restedEmpty⟩
  | opened before room run ih =>
    obtain ⟨m, rested⟩ := ih
    exact ⟨m, (endsOfRun run).mp (rested.opens room)⟩
  | returned before fine run fits ih =>
    obtain ⟨m, arity, v, undisturbed, rfl⟩ := ih
    obtain ⟨m, -, contains⟩ := (endsOfRun run).mp (undisturbed.call fine) fits
    exact ⟨m, contains⟩
  | refused before fine run fits ih =>
    obtain ⟨m, arity, v, undisturbed, rfl⟩ := ih
    obtain ⟨m, -, contains⟩ := (endsOfError run).mp (undisturbed.call fine) fits
    exact ⟨m, contains⟩
  | closed before run fits ih =>
    obtain ⟨m, contains⟩ := ih
    exact ⟨m, (endsOfRun run).mp contains.closes fits⟩

namespace Faultless
variable {s' : EntityStore}

theorem contains (h : Faultless (.up s)) : EntityStore.Contains s.entities s := by
  obtain ⟨m, held⟩ := h.has
  have is : s.entities = m := EntityStore.Contains.entities held
  rw [is]
  exact held

end Faultless
end Calm

section Lived
attribute [local instance] Wal.ieee

def oneField : Entity := ⟨[(['x'], .bool true)]⟩

def givenUp : List TxCall := [.update ['u'] (.ofBytes [0x61]) oneField, .abort]

/-- A collection is named, an entity put and an index created. Before the put the store may be closed
and opened, and a transaction given up. -/
structure Life (s₀ s₁ s₂ s₃ s' s'' sₜ : EntityStore) : Prop where
  opened : EntityStore.openWith (EntityStore.boot .empty [] ⟨1000, 4, 1⟩) = .ok () s₀
  collection : EntityStore.collection ['u'] s₀ = .ok 0 s₁
  put : EntityStore.putEntity 0 [0x61] oneField s₁ = .ok () s₂
  indexed : EntityStore.createIndex 0 0 s₂ = .ok () s₃
  closed : EntityStore.close s₁ = .ok () s'
  again : EntityStore.openWith (EntityStore.boot s'.db.disk [] ⟨1000, 4, 1⟩) = .ok () s''
  aborted : StoreCall.runTransact givenUp s₁ = .ok () sₜ
  built : s₁.db.built = [] ∧ s₂.db.built = [] ∧ s₃.db.built = [] ∧ s'.db.built = [] ∧ sₜ.db.built = []
  collections : s₀.schema.nextCollectionId = 0 ∧ s₁.schema.nextCollectionId = 1
  fields : s₁.schema.nextFieldId = 0 ∧ (s₁.schema.collectionId ['u']).2.nextFieldId = 0
  indexes : s₂.schema.nextIndexId = 0 ∧ s₃.schema.indexes ≠ []
  known : s₂.schema.lookupCollectionId ['u'] = some 0 ∧
    (s₂.schema.fieldName.get (toLex (0, 0))).isSome
  sole : (∀ i ∈ s₃.schema.indexes, i.fieldIds.length < 2) ∧
    s₃.schema.lookupCollectionId ['u'] = some 0

theorem namedLetter {c : Char} (letter : isWhitespace c = false) : Named [c] := by
  refine ⟨by simp, fun c' m white => ?_⟩
  cases List.mem_singleton.mp m
  rw [letter] at white
  cases white

theorem oneFieldRoom {schema : Schema} (none : schema.nextFieldId = 0) : Room schema oneField := by
  refine ⟨⟨?_, ?_, ?_, by decide⟩, ?_⟩
  · intro x m
    cases List.mem_singleton.mp m
    exact namedLetter (by decide)
  · intro x m
    cases List.mem_singleton.mp m
    trivial
  · intro x m
    cases List.mem_singleton.mp m
    trivial
  · rw [none]
    decide

namespace Life
variable {s₀ s₁ s₂ s₃ s' s'' sₜ : EntityStore}

theorem first (h : Life s₀ s₁ s₂ s₃ s' s'' sₜ) : Faultless (.up s₁) := by
  have ran : (StoreCall.collection ['u']).run s₀ = .ok () s₁ := by
    change (EntityStore.collection ['u'] >>= fun _ => pure ()) s₀ = _
    exact (bindRan h.collection).trans rfl
  have fine : (StoreCall.collection ['u']).Fine s₀ := by
    refine ⟨namedLetter (by decide), ?_⟩
    rw [h.collections.1]
    decide
  exact .returned (.opened .fresh (by decide) h.opened) fine ran (fittingNone h.built.1)

theorem fine (h : Life s₀ s₁ s₂ s₃ s' s'' sₜ) : (StoreCall.putEntity 0 [0x61] oneField).Fine s₁ :=
  ⟨by decide, oneFieldRoom h.fields.1⟩

theorem second (h : Life s₀ s₁ s₂ s₃ s' s'' sₜ) : Faultless (.up s₂) :=
  .returned h.first h.fine h.put (fittingNone h.built.2.1)

theorem third (h : Life s₀ s₁ s₂ s₃ s' s'' sₜ) : Faultless (.up s₃) := by
  have ran : (StoreCall.createIndex 0 0).run s₂ = .ok () s₃ := h.indexed
  have fine : (StoreCall.createIndex 0 0).Fine s₂ := by
    refine ⟨h.known.2, ?_⟩
    rw [h.indexes.1]
    decide
  exact .returned h.second fine ran (fittingNone h.built.2.2.1)

theorem transacts (h : Life s₀ s₁ s₂ s₃ s' s'' sₜ) :
    TxCall.AllFine (Transaction.begin s₁) givenUp := by
  refine ⟨⟨⟨namedLetter (by decide), ?_, by decide⟩, oneFieldRoom h.fields.2⟩, trivial, trivial⟩
  change s₁.schema.nextCollectionId.toNat + 1 < 2 ^ 32
  rw [h.collections.2]
  decide

end Life

end Lived
end MyLsmDb
