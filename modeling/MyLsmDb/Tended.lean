import MyLsmDb.Contents
import MyLsmDb.Undisturbed

/-! The calls on a store that nothing fails in. Whatever they report, each of its indexes has the
entries of the entities afterwards. -/
namespace MyLsmDb
open ByteOrder (Bytes)
open Effect
open KeyValue (Prog Serves)
open OrderedEntries
open Text
open Wal (Crc32)

theorem Effect.Completes.andThen {ε σ α β : Type} {x : Act ε σ α} {f : α → Act ε σ β} {s : σ}
    {post : α → σ → Prop} {after : β → σ → Prop} {stop : Stop ε → σ → Prop}
    (h : Completes x s post) (next : ∀ a s', post a s' → Ends (f a) s' after stop) :
    Ends (x >>= f) s after stop :=
  Ends.bind (Ends.mono h (fun _ _ done => done) (fun _ _ => False.elim)) next

section Saving

namespace Schema
variable {s : Schema} {text : Option Chars}

/-- What a new process makes of the schema that was saved. -/
def reloaded (s : Schema) : Schema := { s with changed := false, indexes := s.sortedIndexes }

/-- A new process gets the schema from the text. -/
def SavedIn (s : Schema) (text : Option Chars) : Prop := load text = .ok s.reloaded

theorem Orderly.savedIn (h : s.Orderly) : s.saved.SavedIn (some s.save) := h.loaded

theorem reloadedTwice (s : Schema) : s.reloaded.reloaded = s.reloaded := by
  have same : s.reloaded.sortedIndexes = s.reloaded.indexes := by
    refine List.Pairwise.insertionSort_eq ?_
    have total : Std.Total (fun a b : IndexDef => a.id ≤ b.id) := ⟨fun a b => UInt32.le_total _ _⟩
    have trans : IsTrans IndexDef (fun a b => a.id ≤ b.id) := ⟨fun a b c => UInt32.le_trans⟩
    exact List.pairwise_insertionSort _ _
  have whole : s.reloaded.reloaded = { s.reloaded with indexes := s.reloaded.sortedIndexes } := rfl
  rw [whole, same]

theorem SavedIn.again (h : s.SavedIn text) : s.reloaded.SavedIn text := by
  rw [SavedIn, reloadedTwice]
  exact h

theorem Orderly.toReloaded (h : s.Orderly) : s.reloaded.Orderly := h.sorted

theorem reloadedIndexes {d : IndexDef} : d ∈ s.reloaded.indexes ↔ d ∈ s.indexes :=
  (List.perm_insertionSort _ _).mem_iff

end Schema

theorem Maintained.reload {arity : UInt32 → Option Nat} {s : Schema} {v : View}
    (h : Maintained arity s v) : Maintained arity s.reloaded v :=
  ⟨h.orderly.toReloaded, fun d m => h.arities d (Schema.reloadedIndexes.mp m), h.unused, h.fields,
    fun d m => h.exact_ d (Schema.reloadedIndexes.mp m)⟩

end Saving

section Living
variable [Crc32]

theorem Steady.mono {K K' : Bytes → Prop} {text : Option Chars} {db : Database} {mem : View}
    (h : Steady K text db mem) (more : ∀ key, K key → K' key) : Steady K' text db mem :=
  { h with keyed := ⟨fun r m => more _ (h.keyed.memtable r m), fun id m r mr =>
    more _ (h.keyed.tables id m r mr)⟩ }

variable {arity : UInt32 → Option Nat} {v v' : View} {s s' : EntityStore}

/-- A store without faults whose indexes are kept up. -/
structure Tended (arity : UInt32 → Option Nat) (v : View) (s : EntityStore) : Prop where
  steady : Steady (Proper arity) s.db.disk.schema s.db v
  covering : Covering s.fieldHint v
  maintained : Maintained arity s.schema v

/-- Between the calls all of its indexes are ready, and a schema that is not marked as changed is on
the medium. -/
structure Undisturbed (arity : UInt32 → Option Nat) (v : View) (s : EntityStore) : Prop
    extends Tended arity v s where
  ready : ∀ d ∈ s.schema.indexes, d.status = .ready
  saved : s.schema.changed = true ∨ s.schema.SavedIn s.db.disk.schema

/-- A store that holds these entities. -/
def EntityStore.Contains (m : Contents) (s : EntityStore) : Prop :=
  ∃ arity v, Undisturbed arity v s ∧ contents s.schema v = m

omit [Crc32] in
theorem livesBack (s s' : EntityStore) (lives : OnDb Lives s s') (fits : Fitting s'.db) :
    Fitting s.db := fittingBack _ _ lives.grows fits

theorem Tended.saves (h : Tended arity v s) : Completes EntityStore.saveSchema s (fun _ s' =>
    Tended arity v s' ∧ s'.schema = s.schema.saved ∧ s'.schema.SavedIn s'.db.disk.schema) := by
  refine endsBindGet ?_
  have saved : Completes (EntityStore.onDb (Database.atomically fun d =>
      { d with schema := some s.schema.save })) s (fun _ s' =>
        Steady (Proper arity) (some s.schema.save) s'.db v ∧ s'.fieldHint = s.fieldHint ∧
          s'.schema = s.schema) :=
    endsZoom ((h.steady.saveText s.schema.save).imp (fun _ _ done => ⟨done.1, rfl, rfl⟩))
  refine saved.bind (fun _ s₁ done => endsModify _ ?_)
  obtain ⟨steady, hint, schema⟩ := done
  have same : s₁.schema.saved = s.schema.saved := by rw [schema]
  refine ⟨⟨?_, hint ▸ h.covering, ?_⟩, same, ?_⟩
  · change Steady (Proper arity) s₁.db.disk.schema s₁.db v
    rw [steady.schema]
    exact steady
  · change Maintained arity s₁.schema.saved v
    rw [same]
    exact h.maintained.follows h.maintained.orderly.toSaved
  · change s₁.schema.saved.SavedIn s₁.db.disk.schema
    rw [same, steady.schema]
    exact h.maintained.orderly.savedIn

theorem Undisturbed.persists (h : Undisturbed arity v s) : Completes EntityStore.persistSchema s
    (fun _ s' => Undisturbed arity v s' ∧ s.schema.Follows s'.schema ∧
      s'.schema.SavedIn s'.db.disk.schema) := by
  refine endsBindGet (endsIte (fun _ => ?_) (fun unchanged => ?_))
  · refine h.toTended.saves.imp (fun _ s' done => ?_)
    obtain ⟨tended, same, saved⟩ := done
    refine ⟨⟨tended, ?_, .inr saved⟩, ?_, saved⟩
    · rw [same]
      exact h.ready
    · rw [same]
      exact h.maintained.orderly.toSaved
  · exact ⟨h, h.maintained.orderly.follows, h.saved.resolve_left unchanged⟩

theorem Undisturbed.stands (h : Undisturbed arity v s) :
    Upholds.Stands (StoreShows (Proper arity) s.db.disk.schema) Covering arity s.schema s.fieldHint
      s.schema v s :=
  ⟨⟨h.steady, rfl, rfl⟩, h.covering, h.maintained, h.maintained.orderly.advances⟩

theorem Undisturbed.stood (h : Undisturbed arity v s) {hint : FieldHint} {schema : Schema}
    (stands : Upholds.Stands (StoreShows (Proper arity) s.db.disk.schema) Covering arity s.schema hint
      schema v' s') : Undisturbed arity v' s' := by
  have steady := stands.shown.steady
  obtain rfl := stands.shown.schema
  obtain rfl := stands.shown.hint
  refine ⟨⟨?_, stands.covered, stands.maintained⟩, ?_, ?_⟩
  · rw [steady.schema]
    exact steady
  · rw [stands.advances.follows.indexes]
    exact h.ready
  · rw [steady.schema]
    rcases stands.advances.marked with same | marked
    · rw [same]
      exact h.saved
    · exact .inl marked

section Indexes
variable {d : IndexDef} {c : UInt32} {fields : List UInt32} {build clear : KvProg Unit}

omit [Crc32] in
theorem sameContents {s s' : Schema} (h : s.Orderly) (h' : s'.Orderly)
    (names : s'.fieldName = s.fieldName) (others : ∀ key, ¬ d.keyPrefix <+: key → v' key = v key) :
    contents s' v' = contents s v :=
  Maintained.contentsSame h h' names (cellsBeside others)

theorem Tended.builds (h : Tended arity v s) (m : d ∈ s.schema.indexes)
    (others : ∀ d' ∈ s.schema.indexes, d' ≠ d → d'.status = .ready)
    (meets : build.Meets (Proper arity) (fun _ => True) (fun _ v' => Built d v v')
      (fun _ _ => False) v) :
    EndsIf (fun s : EntityStore => Fitting s.db) (EntityStore.buildIndex d.id build) s
      (fun _ s' => ∃ v', Undisturbed arity v' s' ∧ contents s'.schema v' = contents s.schema v)
      (fun _ _ => False) := by
  refine h.saves.andThen ?_
  rintro _ s₁ ⟨tended, same, -⟩
  have run : EndsIf (fun s : EntityStore => Fitting s.db) (build.run EntityStore.machine) s₁
      (fun _ s₂ => ∃ v', StoreShows (Proper arity) s₁.db.disk.schema s₁.fieldHint s₁.schema v' s₂ ∧
        Built d v v') (fun _ _ => False) :=
    (storeUpholds.run meets ⟨tended.steady, rfl, rfl⟩).mono (fun _ _ _ done => done)
      (fun _ _ _ stop => stop.elim (fun _ no => no.2))
  refine EndsIf.bind livesBack run (fun _ =>
    Moves.bind (EntityStore.keptMoves (fun _ => rfl)) (fun _ => EntityStore.saveSchemaMoves)) ?_
  rintro _ s₂ - ⟨v', shows, built⟩
  have schema₂ : s₂.schema = s.schema.saved := shows.schema.trans same
  have m₂ : d ∈ s.schema.saved.indexes := m
  have kept : Maintained arity s.schema.saved v := same ▸ tended.maintained
  have ready := kept.orderly.ready d.id
  have tended₂ : Tended arity v' { s₂ with schema := s₂.schema.setIndexReady d.id } := by
    refine ⟨?_, ?_, ?_⟩
    · change Steady (Proper arity) s₂.db.disk.schema s₂.db v'
      rw [shows.steady.schema]
      exact shows.steady
    · change Covering s₂.fieldHint v'
      rw [shows.hint]
      refine tended.covering.shrink (c := 0) (e := []) (fun c e f live => .inl ?_)
      rwa [cellsBeside built.others] at live
    · change Maintained arity (s₂.schema.setIndexReady d.id) v'
      rw [schema₂]
      exact kept.built m₂ built
  refine endsBindModify (Ends.endsIf (tended₂.saves.mono (fun _ s' done => ?_)
    (fun _ _ => False.elim)))
  obtain ⟨tended', same', saved⟩ := done
  have is : s'.schema = (s.schema.saved.setIndexReady d.id).saved := by
    rw [same']
    change (s₂.schema.setIndexReady d.id).saved = _
    rw [schema₂]
  refine ⟨v', ⟨tended', fun d' m' => ?_, .inr saved⟩, ?_⟩
  · rw [is] at m'
    change d' ∈ (s.schema.saved.setIndexReady d.id).indexes at m'
    rw [ready.2.1] at m'
    obtain ⟨d₀, m₀, rfl⟩ := List.mem_map.mp m'
    by_cases mine : d₀.id = d.id
    · rw [if_pos mine]
    · rw [if_neg mine]
      exact others d₀ m₀ (fun same => mine (same ▸ rfl))
  · rw [is]
    refine (sameContents (s := s.schema) h.maintained.orderly ready.1.saved ?_ built.others)
    exact ready.2.2.1

theorem Tended.rename (h : Tended arity v s) {arity' : UInt32 → Option Nat} {schema : Schema}
    (more : ∀ i n, arity i = some n → arity' i = some n) (kept : Maintained arity' schema v) :
    Tended arity' v { s with schema } :=
  ⟨h.steady.mono (fun _ mine => mine.mono more), h.covering, kept⟩

theorem Undisturbed.creates (h : Undisturbed arity v s) (filled : fields ≠ [])
    (short : fields.length < 2 ^ 64)
    (known : ∀ f ∈ fields, (s.schema.fieldName.get (toLex (c, f))).isSome)
    (room : s.schema.nextIndexId.toNat + 1 < 2 ^ 32) (build : UInt32 → KvProg Unit)
    (meets : ∀ {arity d v}, (∀ s : Schema, Maintained arity s v → d ∈ s.indexes →
      d.collectionId = c → d.fieldIds = fields → (build d.id).Meets (Proper arity) (fun _ => True)
        (fun _ v' => Built d v v') (fun _ _ => False) v)) :
    EndsIf (fun s : EntityStore => Fitting s.db) (do
      let (id, schema) := (← get).schema.createCompositeIndex c fields
      modify (EntityStore.setSchema schema)
      EntityStore.buildIndex id (build id)) s
      (fun _ s' => EntityStore.Contains (contents s.schema v) s') (fun _ _ => False) := by
  obtain ⟨d, is, creates⟩ := h.maintained.orderly.create filled short known room
  have grown := h.maintained.create creates
  have tended := h.toTended.rename (h.maintained.grown creates) grown
  have same : contents (s.schema.createCompositeIndex c fields).2 v = contents s.schema v :=
    Maintained.contentsSame h.maintained.orderly creates.orderly creates.names (fun _ _ _ => rfl)
  have built : EndsIf (fun s : EntityStore => Fitting s.db) (EntityStore.buildIndex d.id (build d.id))
      { s with schema := (s.schema.createCompositeIndex c fields).2 }
      (fun _ s' => EntityStore.Contains (contents s.schema v) s') (fun _ _ => False) := by
    refine (tended.builds (d := d) creates.known ?_ (meets _ grown creates.known creates.collection
      creates.fields)).mono ?_ (fun _ _ _ => id)
    · exact fun d' m' other => h.ready d' (creates.others d' m' other)
    · intro _ s' _ done
      obtain ⟨v', undisturbed, contents'⟩ := done
      exact ⟨_, v', undisturbed, contents'.trans same⟩
  rw [is] at built
  exact built.step rfl

theorem Undisturbed.createsIndex (h : Undisturbed arity v s) {f : UInt32}
    (known : (s.schema.fieldName.get (toLex (c, f))).isSome)
    (room : s.schema.nextIndexId.toNat + 1 < 2 ^ 32) :
    EndsIf (fun s : EntityStore => Fitting s.db) (EntityStore.createIndex c f) s
      (fun _ s' => EntityStore.Contains (contents s.schema v) s') (fun _ _ => False) := by
  have all : ∀ f' ∈ [f], (s.schema.fieldName.get (toLex (c, f'))).isSome := by simpa using known
  refine h.creates (by simp) (by simp) all room (fun _ => Index.rebuild c f) ?_
  intro arity d v s kept m collection one
  subst collection
  refine rebuildMeets one properCanonicals (kept.admits m) (fun e stored is => ?_)
  obtain ⟨⟨value, reads, -⟩, -⟩ := kept.fields _ e f stored is
  exact ⟨value, reads⟩

theorem Undisturbed.createsComposite (h : Undisturbed arity v s) (two : 2 ≤ fields.length)
    (short : fields.length < 2 ^ 64)
    (known : ∀ f ∈ fields, (s.schema.fieldName.get (toLex (c, f))).isSome)
    (room : s.schema.nextIndexId.toNat + 1 < 2 ^ 32) :
    EndsIf (fun s : EntityStore => Fitting s.db) (EntityStore.createCompositeIndex c fields) s
      (fun _ s' => EntityStore.Contains (contents s.schema v) s') (fun _ _ => False) := by
  have filled : fields ≠ [] := fun none => by simp [none] at two
  refine h.creates filled short known room (fun id => Index.rebuildComposite c id fields) ?_
  intro arity d v s kept m collection is
  subst collection is
  exact rebuildCompositeMeets two properCanonicals (kept.admits m)

theorem Undisturbed.removes (h : Undisturbed arity v s) (m : d ∈ s.schema.indexes)
    (meets : clear.Meets (Proper arity) (fun _ => True) (fun _ v' => Cleared d v v')
      (fun _ _ => False) v) :
    EndsIf (fun s : EntityStore => Fitting s.db) (EntityStore.removeIndex d.id clear) s
      (fun _ s' => EntityStore.Contains (contents s.schema v) s') (fun _ _ => False) := by
  have run : EndsIf (fun s : EntityStore => Fitting s.db) (clear.run EntityStore.machine) s
      (fun _ s₁ => ∃ v', StoreShows (Proper arity) s.db.disk.schema s.fieldHint s.schema v' s₁ ∧
        Cleared d v v') (fun _ _ => False) :=
    (storeUpholds.run meets ⟨h.steady, rfl, rfl⟩).mono (fun _ _ _ done => done)
      (fun _ _ _ stop => stop.elim (fun _ no => no.2))
  refine EndsIf.bind livesBack run (fun _ =>
    Moves.bind (EntityStore.keptMoves (fun _ => rfl)) (fun _ => EntityStore.saveSchemaMoves)) ?_
  rintro _ s₁ - ⟨v', shows, cleared⟩
  have dropped := h.maintained.dropped m cleared
  have tended : Tended arity v' { s₁ with schema := s₁.schema.dropIndex d.id } := by
    refine ⟨?_, ?_, ?_⟩
    · change Steady (Proper arity) s₁.db.disk.schema s₁.db v'
      rw [shows.steady.schema]
      exact shows.steady
    · change Covering s₁.fieldHint v'
      rw [shows.hint]
      refine h.covering.shrink (c := 0) (e := []) (fun c e f live => .inl ?_)
      rwa [cellsBeside cleared.others] at live
    · change Maintained arity (s₁.schema.dropIndex d.id) v'
      rw [shows.schema]
      exact dropped
  refine endsBindModify (Ends.endsIf (tended.saves.mono (fun _ s' done => ?_) (fun _ _ => False.elim)))
  obtain ⟨tended', same', saved⟩ := done
  have is : s'.schema = (s.schema.dropIndex d.id).saved := by
    rw [same']
    change (s₁.schema.dropIndex d.id).saved = _
    rw [shows.schema]
  refine ⟨arity, v', ⟨tended', fun d' m' => ?_, .inr saved⟩, ?_⟩
  · rw [is] at m'
    exact h.ready d' (List.mem_of_mem_filter m')
  · rw [is]
    exact sameContents h.maintained.orderly dropped.orderly.saved rfl cleared.others

end Indexes
section Calls
variable {c : UInt32} {e : Bytes} {name : Chars}

def Database.shown (db : Database) : View := fun key => ((Database.entries db).lookup key).join

def EntityStore.entities (s : EntityStore) : Contents := contents s.schema s.db.shown

theorem Steady.shown {K : Bytes → Prop} {text : Option Chars} {db : Database} {mem : View}
    (h : Steady K text db mem) : db.shown = mem := by
  obtain ⟨dur, store⟩ := h.store
  exact funext store.entries

theorem Undisturbed.entities (h : Undisturbed arity v s) : s.entities = contents s.schema v := by
  rw [EntityStore.entities, h.steady.shown]

theorem EntityStore.Contains.entities {m : Contents} (h : EntityStore.Contains m s) :
    s.entities = m := by
  obtain ⟨arity, v, undisturbed, rfl⟩ := h
  exact undisturbed.entities

theorem persistThen {α : Type} {x : StoreM α} {m : Contents}
    {stop : Stop Error → EntityStore → Prop} (h : EndsIf (fun s : EntityStore => Fitting s.db) x s
      (fun _ s' => EntityStore.Contains m s') stop) :
    EndsIf (fun s : EntityStore => Fitting s.db) (do let _ ← x; EntityStore.persistSchema) s
      (fun _ s' => EntityStore.Contains m s') stop := by
  refine EndsIf.bind livesBack h (fun _ => EntityStore.persistSchemaMoves) ?_
  rintro _ s₁ - ⟨arity, v, undisturbed, rfl⟩
  refine Ends.endsIf (undisturbed.persists.mono (fun _ s' done => ?_) (fun _ _ => False.elim))
  exact ⟨arity, v, done.1, undisturbed.maintained.contentsFollow done.2.1⟩

theorem Undisturbed.contains (h : Undisturbed arity v s) {hint : FieldHint} {schema : Schema}
    {m : Contents} (stands : Upholds.Stands (StoreShows (Proper arity) s.db.disk.schema) Covering
      arity s.schema hint schema v' s') (is : contents schema v' = m) : EntityStore.Contains m s' := by
  refine ⟨arity, v', h.stood stands, ?_⟩
  rw [stands.shown.schema]
  exact is

theorem Undisturbed.collects (h : Undisturbed arity v s) (named : Named name)
    (room : s.schema.nextCollectionId.toNat + 1 < 2 ^ 32) :
    collectionIdOf EntityStore.side name s = .ok (s.schema.collectionId name).1
      { s with schema := (s.schema.collectionId name).2 } ∧
    Undisturbed arity v { s with schema := (s.schema.collectionId name).2 } ∧
    contents (s.schema.collectionId name).2 v = contents s.schema v := by
  obtain ⟨run, stands⟩ := storeUpholds.collectionId named room h.stands
  refine ⟨run, h.stood stands, ?_⟩
  exact h.maintained.contentsFollow (h.maintained.orderly.advanceCollection named room).follows

theorem Undisturbed.puts (h : Undisturbed arity v s) {entity : Entity} (short : e.length < 2 ^ 32)
    (room : Room s.schema entity) :
    EndsIf (fun s : EntityStore => Fitting s.db) (EntityStore.putEntity c e entity) s
      (fun _ s' => EntityStore.Contains ((contents s.schema v).put c e entity.field) s')
      (fun _ s' => EntityStore.Contains (contents s.schema v) s') := by
  refine persistThen ((storeUpholds.puts (c := c) short room h.stands).mono ?_ ?_)
  · intro _ s' _ done
    obtain ⟨hint, schema, v', stands, is⟩ := done
    exact h.contains stands is
  · intro _ s' _ stands
    exact h.contains stands rfl

theorem Undisturbed.casUpdates (h : Undisturbed arity v s) {u : Utf8} {expected : Expected}
    {patch : List Patch} (named : Named name) (room : s.schema.nextCollectionId.toNat + 1 < 2 ^ 32)
    (short : u.bytes.length < 2 ^ 32) (fine : ∀ entity, Updates (contents s.schema v)
      (s.schema.collectionId name).1 u.bytes expected patch entity →
        Room (s.schema.collectionId name).2 entity) :
    EndsIf (fun s : EntityStore => Fitting s.db) (EntityStore.casUpdate name u expected patch) s
      (fun entity s' => Updates (contents s.schema v) (s.schema.collectionId name).1 u.bytes expected
          patch entity ∧ EntityStore.Contains ((contents s.schema v).put (s.schema.collectionId name).1
            u.bytes entity.field) s')
      (fun _ s' => EntityStore.Contains (contents s.schema v) s') := by
  obtain ⟨run, undisturbed, same⟩ := h.collects named room
  refine endsBindOk run ?_
  have room : ∀ entity, Updates (contents (s.schema.collectionId name).2 v)
      (s.schema.collectionId name).1 u.bytes expected patch entity →
        Room (s.schema.collectionId name).2 entity :=
    fun entity updates => fine entity (same ▸ updates)
  have cas := storeUpholds.cas short room undisturbed.stands
  refine EndsIf.bind livesBack (cas.mono (fun _ _ _ => id) (fun _ s' _ stop => ?_))
    (fun _ => EntityStore.persistSchemaMoves.bind (fun _ => movesPure _)) ?_
  · exact undisturbed.contains stop same
  · rintro entity s₁ - ⟨updates, hint, schema, v', stands, is⟩
    have next := undisturbed.stood stands
    refine Ends.endsIf (next.persists.andThen (fun _ s' done => ?_))
    refine ⟨same ▸ updates, arity, v', done.1, ?_⟩
    rw [next.maintained.contentsFollow done.2.1, stands.shown.schema, is, same]

theorem Undisturbed.deletes (h : Undisturbed arity v s) (short : e.length < 2 ^ 32) :
    EndsIf (fun s : EntityStore => Fitting s.db) (EntityStore.deleteEntity c e) s
      (fun _ s' => EntityStore.Contains ((contents s.schema v).put c e (fun _ => none)) s')
      (fun _ s' => EntityStore.Contains (contents s.schema v) s') := by
  have removed := storeUpholds.deletes (c := c) short h.stands
  refine endsBindGet (EndsIf.bind livesBack (removed.mono (fun _ _ _ => id) (fun _ s' _ stop => ?_))
    (fun _ => EntityStore.keptMoves (fun _ => rfl)) ?_)
  · exact h.contains stop rfl
  · rintro _ s₁ - ⟨v', stands, is⟩
    have next := h.stood stands
    refine endsModify _ (fun _ => ⟨arity, v', ⟨⟨next.steady, next.covering.erase c e, next.maintained⟩,
      next.ready, next.saved⟩, ?_⟩)
    change contents s₁.schema v' = _
    rw [stands.shown.schema]
    exact is

theorem Undisturbed.reads {α : Type} (h : Undisturbed arity v s) {p : KvProg α} (only : p.ReadOnly) :
    EndsIf (fun s : EntityStore => Fitting s.db) (p.run EntityStore.machine) s
      (fun _ s' => EntityStore.Contains (contents s.schema v) s')
      (fun _ s' => EntityStore.Contains (contents s.schema v) s') :=
  (storeUpholds.read only h.stands).mono (fun _ _ _ stands => h.contains stands rfl)
    (fun _ _ _ stands => h.contains stands rfl)

theorem Undisturbed.scans (h : Undisturbed arity v s) :
    EndsIf (fun s : EntityStore => Fitting s.db) (EntityStore.scanCollection name) s
      (fun _ s' => EntityStore.Contains (contents s.schema v) s')
      (fun _ s' => EntityStore.Contains (contents s.schema v) s') := by
  refine endsBindGet ?_
  dsimp only
  split
  · exact fun _ => ⟨arity, v, h, rfl⟩
  · exact h.reads (coreScanReadOnly _ _)

theorem Undisturbed.names (h : Undisturbed arity v s) {names : List Chars}
    (named : ∀ n ∈ names, Named n) (room : s.schema.nextFieldId.toNat + names.length < 2 ^ 32) :
    EndsIf (fun s : EntityStore => Fitting s.db) (EntityStore.fieldIds c names) s
      (fun _ s' => EntityStore.Contains (contents s.schema v) s') (fun _ _ => False) := by
  induction names generalizing s with
  | nil => exact fun _ => ⟨arity, v, h, rfl⟩
  | cons n names ih =>
    rw [List.length_cons] at room
    have advances := h.maintained.orderly.advanceField c (named n List.mem_cons_self) (by omega)
    have counts := s.schema.fieldIdCounts c n
    have stands : Upholds.Stands (StoreShows (Proper arity) s.db.disk.schema) Covering arity s.schema
        s.fieldHint (s.schema.fieldId c n).2 v { s with schema := (s.schema.fieldId c n).2 } :=
      ⟨⟨h.steady, rfl, rfl⟩, h.covering, h.maintained.follows advances.follows, advances⟩
    have next := h.stood stands
    have rest := ih next (fun n m => named n (List.mem_cons_of_mem _ m)) (by dsimp only; omega)
    refine endsBindGet (endsBindModify ?_)
    refine EndsIf.bind livesBack rest (fun _ => movesPure _) (fun _ s' _ contains fits => ?_)
    rw [← h.maintained.contentsFollow advances.follows]
    exact contains

theorem Undisturbed.flushes (h : Undisturbed arity v s) :
    EndsIf (fun s : EntityStore => Fitting s.db) EntityStore.flush s
      (fun _ s' => EntityStore.Contains (contents s.schema v) s') (fun _ _ => False) := by
  refine endsZoom (h.steady.flush.mono (fun _ db' _ done => ⟨arity, v, ?_, rfl⟩) (fun _ _ _ => id))
  have saved := done.1.schema
  refine ⟨⟨?_, h.covering, h.maintained⟩, h.ready, ?_⟩
  · change Steady (Proper arity) db'.disk.schema db' v
    rw [saved]
    exact done.1
  · change s.schema.changed = true ∨ s.schema.SavedIn db'.disk.schema
    rw [saved]
    exact h.saved

theorem Steady.copied {K : Bytes → Prop} {saved : Option Chars} {db db' : Database} {mem : View}
    (h : Steady K saved db mem) (copied : Copied db db') : Steady K saved db' mem := by
  obtain ⟨fs, d, spared, rfl⟩ := copied
  obtain rfl : d = db.disk := spared.disk.resolve_right (fun crash => crash.1 h.faults)
  obtain ⟨dur, store⟩ := h.store
  exact { h with
    store := ⟨dur, store.same rfl rfl rfl rfl rfl⟩
    keyed := ⟨h.keyed.memtable, h.keyed.tables⟩
    faults := List.suffix_nil.mp (h.faults ▸ spared.shorter) }

theorem Undisturbed.backsUp (h : Undisturbed arity v s) (dest : Option Disk) :
    EndsIf (fun s : EntityStore => Fitting s.db) (StoreCall.backup dest).run s
      (fun _ s' => EntityStore.Contains (contents s.schema v) s')
      (fun _ s' => EntityStore.Contains (contents s.schema v) s') := by
  have carries := backupCarries (P := fun db => Steady (Proper arity) s.db.disk.schema db v)
    (fun _ steady => steady.flush.mono (fun _ _ _ done => done.1) (fun _ _ _ => False.elim))
    (fun _ _ copied steady => steady.copied copied)
  have later : ∀ {db}, Carries (fun db => Steady (Proper arity) s.db.disk.schema db v) s.db db →
      Fitting db → EntityStore.Contains (contents s.schema v) { s with db } := by
    intro db carries fits
    have steady := carries.holds fits h.steady
    have saved := steady.schema
    refine ⟨arity, v, ⟨⟨?_, h.covering, h.maintained⟩, h.ready, ?_⟩, rfl⟩
    · change Steady (Proper arity) db.disk.schema db v
      rw [saved]
      exact steady
    · change s.schema.changed = true ∨ s.schema.SavedIn db.disk.schema
      rw [saved]
      exact h.saved
  have run : EndsIf (fun p => Fitting p.1.db) EntityStore.backup (s, dest)
      (fun _ p => EntityStore.Contains (contents s.schema v) p.1)
      (fun _ p => EntityStore.Contains (contents s.schema v) p.1) :=
    endsZoom ((carries (s.db, dest)).mono (fun _ _ => later) (fun _ _ => later))
  exact endsZoom (Ends.bind run (fun _ _ done => done))

omit [Crc32] in
theorem findIndexIs {schema : Schema} {fields : List UInt32} {d : IndexDef}
    (found : schema.findIndexByFields c fields = some d) :
    d ∈ schema.indexes ∧ d.collectionId = c ∧ d.fieldIds = fields := by
  have is := List.find?_some found
  rw [decide_eq_true_iff] at is
  exact ⟨List.mem_of_find?_eq_some found, is.1, is.2⟩

theorem Undisturbed.drops (h : Undisturbed arity v s) {f : UInt32} :
    EndsIf (fun s : EntityStore => Fitting s.db) (EntityStore.dropIndex c f) s
      (fun _ s' => EntityStore.Contains (contents s.schema v) s') (fun _ _ => False) := by
  refine endsBindGet ?_
  rw [Schema.findIndex]
  cases found : s.schema.findIndexByFields c [f] with
  | none => exact fun _ => ⟨arity, v, h, rfl⟩
  | some d =>
    obtain ⟨m, rfl, one⟩ := findIndexIs found
    exact h.removes m (clearMeets one)

theorem Undisturbed.dropsComposite (h : Undisturbed arity v s) {fields : List UInt32}
    (two : 2 ≤ fields.length) :
    EndsIf (fun s : EntityStore => Fitting s.db) (EntityStore.dropCompositeIndex c fields) s
      (fun _ s' => EntityStore.Contains (contents s.schema v) s') (fun _ _ => False) := by
  refine endsBindGet ?_
  cases found : s.schema.findIndexByFields c fields with
  | none => exact fun _ => ⟨arity, v, h, rfl⟩
  | some d =>
    obtain ⟨m, rfl, is⟩ := findIndexIs found
    exact h.removes m (clearCompositeMeets (is ▸ two))

end Calls
end Living
end MyLsmDb
