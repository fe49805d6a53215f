import MyLsmDb.Administration
import MyLsmDb.FieldIds

/-! The hint that an entity store keeps of the fields of an entity: which of the calls keep it
above the fields that are there, also where they fail. -/
namespace MyLsmDb
open ByteOrder (Bytes)
open Effect
open KeyValue (Prog Serves)
open OrderedEntries
open Text
open Wal (Crc32)

section Showing
variable [Crc32]

/-- An engine that lives and shows `v`. -/
structure Showing (db : Database) (v : View) : Prop where
  store : ∃ dur, Store any db v dur
  version : VersionOk db.disk
  room : db.opts.segmentMaxRecords ≠ 0

variable {db : Database} {v : View}

omit [Crc32] in
theorem Alive.showing (h : Alive db) : ∃ v, Showing db v := by
  obtain ⟨v, dur, store⟩ := h.store
  exact ⟨v, ⟨dur, store⟩, h.version, h.room⟩

omit [Crc32] in
theorem Showing.next {db' : Database} {v' : View} (h : Showing db v) (same : Same db db')
    (store : ∃ dur, Store any db' v' dur) : Showing db' v' := by
  refine ⟨store, ?_, ?_⟩
  · rw [VersionOk, same.version]
    exact h.version
  · rw [same.opts]
    exact h.room

omit [Crc32] in
theorem Showing.reads {db' : Database} (h : Showing db v) (r : Reads db db') : Showing db' v := by
  obtain ⟨dur, store⟩ := h.store
  exact h.next r.passed.same ⟨dur, store.reads r⟩

omit [Crc32] in
theorem Showing.wrote {d : Disk} {db₀ db' : Database} {dur v' : View} (h : Showing db v)
    (opts : db₀.opts = db.opts) (version : db₀.disk.version = db.disk.version)
    (done : WriteDone any d db₀ db' v' dur) : Showing db' v' := by
  refine ⟨?_, ?_, ?_⟩
  · rcases done.left with ⟨-, store | ⟨store, -⟩⟩ | ⟨-, store⟩ <;> exact ⟨_, store⟩
  · rw [VersionOk, done.same.version, version]
    exact h.version
  · rw [done.same.opts, opts]
    exact h.room

omit [Crc32] in
theorem Showing.flushStop {e : Stop Error} {d : Disk} {db' : Database} {dur v' : View}
    (h : Showing db v) (stop : FlushStop any e d db db' v' dur) : Showing db' v' := by
  refine h.next stop.same ?_
  rcases stop.left with ⟨-, store | ⟨store, -⟩⟩ | ⟨-, store⟩ <;> exact ⟨_, store⟩

theorem Showing.put (h : Showing db v) (key : Bytes) (value : Entry) :
    EndsIf Fitting (Database.putInternal key value) db
      (fun _ db' => Showing db' (Function.update v key value))
      (fun _ db' => Showing db' v ∨ Showing db' (Function.update v key value)) := by
  obtain ⟨dur, store⟩ := h.store
  refine Ends.mono (store.putInternal h.room key value) ?_ ?_
  · exact fun _ db' done fits => h.wrote rfl rfl (done (goodOfFitting fits)).1
  · intro e db' stop fits
    rcases stop (goodOfFitting fits) with append | flush
    · exact .inl (h.next append.same ⟨_, append.store⟩)
    · exact .inr (h.flushStop flush)

theorem Showing.commit (h : Showing db v) (tx : Nat) (pending : List Rec) :
    EndsIf Fitting (Database.commitPending tx pending) db
      (fun _ db' => Showing db' (applied pending v)) (fun e db' => e ≠ .crash → Showing db' v) := by
  obtain ⟨dur, store⟩ := h.store
  refine Ends.mono (store.commitPending h.room tx pending) ?_ ?_
  · exact fun _ db' done fits => h.wrote rfl rfl (done (goodOfFitting fits))
  · intro e db' stop fits lives
    rcases stop (goodOfFitting fits) with append | ⟨stops, flush⟩
    · exact h.next append.same ⟨_, append.store⟩
    · exact absurd stops lives

omit [Crc32] in
theorem Showing.flush (h : Showing db v) : EndsIf Fitting Database.flush db
    (fun _ db' => Showing db' v) (fun _ db' => Showing db' v) := by
  obtain ⟨dur, store⟩ := h.store
  refine Ends.mono (store.flush h.room) ?_ ?_
  · intro _ db' done fits
    have flushed := done (goodOfFitting fits)
    exact h.next flushed.same ⟨_, flushed.store⟩
  · exact fun e db' stop fits => h.flushStop (stop (goodOfFitting fits))

omit [Crc32] in
theorem Showing.schema (h : Showing db v) (text : Chars) :
    Ends (Database.atomically (fun d => { d with schema := some text })) db
      (fun _ db' => Showing db' v) (fun _ db' => Showing db' v) := by
  obtain ⟨dur, store⟩ := h.store
  refine (schemaEnds text db).mono ?_ ?_
  · intro _ db' done
    obtain ⟨fs, -, rfl⟩ := done
    exact ⟨⟨dur, store.same rfl rfl rfl rfl rfl⟩, h.version, h.room⟩
  · intro e db' stop
    obtain ⟨-, fs, schema, d, -, rfl, -, how⟩ := stop
    have same : d.tables = db.disk.tables ∧ d.manifest = db.disk.manifest ∧
        d.version = db.disk.version := by
      rcases how with ⟨-, rfl⟩ | ⟨-, kept, rfl⟩ <;> exact ⟨rfl, rfl, rfl⟩
    refine ⟨⟨dur, store.same same.1 same.2.1 rfl rfl rfl⟩, ?_, h.room⟩
    change VersionOk d
    rw [VersionOk, same.2.2]
    exact h.version

omit [Crc32] in
theorem Showing.copied {db' : Database} (h : Showing db v) (copied : Copied db db') :
    Showing db' v := by
  obtain ⟨dur, store⟩ := h.store
  obtain ⟨fs, d, spared, rfl⟩ := copied
  rcases spared.disk with rfl | ⟨-, kept, rfl⟩ <;>
    exact ⟨⟨dur, store.same rfl rfl rfl rfl rfl⟩, h.version, h.room⟩

omit [Crc32] in
theorem backupShows (v : View) :
    Moves (fun p q : Database × Option Disk => Carries (Showing · v) p.1 q.1) Database.backup :=
  backupCarries (fun _ h => h.flush) (fun _ _ copied h => h.copied copied)

/-- The store of a process that shows `v`, with this schema and this hint. -/
structure Facing (schema : Schema) (hint : FieldHint) (v : View) (s : EntityStore) : Prop where
  showing : Showing s.db v
  schema : s.schema = schema
  hint : s.fieldHint = hint

theorem facingServes (schema : Schema) (hint : FieldHint) :
    Serves EntityStore.machine (fun _ => True) (fun s : EntityStore => Fitting s.db)
      (Facing schema hint) (fun v _ s => Facing schema hint v s) := by
  refine ⟨?_, ?_, ?_⟩
  · intro v s h key
    obtain ⟨dur, store⟩ := h.showing.store
    refine endsZoom ((store.get key).imp ?_)
    intro found db' done
    exact ⟨done.1, h.showing.reads done.2, h.schema, h.hint⟩
  · intro v s h start stop
    obtain ⟨dur, store⟩ := h.showing.store
    have shown := store.entries
    have opened := store
    obtain ⟨vol, ⟨md, views⟩, -⟩ := opened
    refine endsZoom ((Database.scanAllExact views.cached views.memory.readable start stop).imp ?_)
    intro rows db' done
    obtain ⟨rfl, reads⟩ := done
    exact ⟨KeyValue.rangeLists (flattenOrdered _) shown start stop, fun _ _ => trivial,
      h.showing.reads reads, h.schema, h.hint⟩
  · intro v s h key _ entry
    refine endsZoom ((h.showing.put key entry).mono ?_ ?_)
    · intro _ db' _ shows
      refine ⟨?_, h.schema, h.hint⟩
      convert shows
    · intro e db' _ shows
      rcases shows with shows | shows
      · exact .inl ⟨shows, h.schema, h.hint⟩
      · refine .inr ⟨?_, h.schema, h.hint⟩
        convert shows

theorem facingRun {α : Type} {p : KvProg α} {broken : View → Prop} {post : α → View → Prop}
    {refused : Stop Error → View → Prop} {schema : Schema} {hint : FieldHint} {s : EntityStore}
    (meets : p.Meets (fun _ => True) broken post refused v) (h : Facing schema hint v s) :
    EndsIf (fun s : EntityStore => Fitting s.db) (p.run EntityStore.machine) s
      (fun a s' => ∃ v', Facing schema hint v' s' ∧ post a v')
      (fun e s' => ∃ v', Facing schema hint v' s' ∧ (refused e v' ∨ broken v')) := by
  have moves : ∀ p : KvProg α, Moves (OnDb Lives) (p.run EntityStore.machine) :=
    EntityStore.covers.run
  refine ((facingServes schema hint).run (fun s s' lives => fittingBack s.db s'.db lives.grows)
    moves meets h).mono (fun _ _ _ done => done) ?_
  intro e s' _ stop
  rcases stop with ⟨v', facing, no⟩ | ⟨v', off, facing⟩
  · exact ⟨v', facing, .inl no⟩
  · exact ⟨v', facing, .inr off⟩

end Showing

section Covering
variable {v v' : View} {c : UInt32} {e : Bytes} {ids : List UInt32} {hint : FieldHint}

/-- The hint of an entity, where there is one, names all fields that are there. -/
def Covering (hint : FieldHint) (v : View) : Prop :=
  ∀ c e ids, hint.get (toLex (c, e)) = some ids →
    e.length < 2 ^ 32 ∧ ∀ f, cell v c e f ≠ none → f ∈ ids

theorem coveringEmpty : Covering .empty v := fun c e ids found => by
  rw [OrderedMap.getEmpty] at found
  cases found

theorem Covering.within (h : Covering hint v) (within : Within c e ids v v')
    (names : ∀ hinted, hint.get (toLex (c, e)) = some hinted → ∀ f ∈ ids, f ∈ hinted) :
    Covering hint v' := by
  intro c' e' hinted found
  refine ⟨(h c' e' hinted found).1, fun f live => ?_⟩
  rcases within c' e' f live with before | ⟨rfl, rfl, m⟩
  · exact (h c' e' hinted found).2 f before
  · exact names hinted found f m

theorem Covering.shrink (h : Covering hint v) (within : Within c e [] v v') : Covering hint v' :=
  h.within within (fun _ _ _ m => absurd m List.not_mem_nil)

theorem Covering.erase (h : Covering hint v) (c : UInt32) (e : Bytes) :
    Covering (hint.erase (toLex (c, e))) v := by
  intro c' e' hinted found
  rw [OrderedMap.getErase] at found
  split at found
  · cases found
  · exact h c' e' hinted found

theorem Covering.replace (h : Covering hint v) (within : Within c e ids v v')
    (short : e.length < 2 ^ 32) (own : ∀ f, cell v' c e f ≠ none → f ∈ ids) :
    Covering (hint.insert (toLex (c, e)) ids) v' := by
  intro c' e' hinted found
  rw [OrderedMap.getInsert] at found
  split at found
  · rename_i same
    obtain ⟨rfl, rfl⟩ := Prod.mk.inj (toLex.injective same)
    cases found
    exact ⟨short, own⟩
  · rename_i other
    refine ⟨(h c' e' hinted found).1, fun f live => ?_⟩
    rcases within c' e' f live with before | ⟨rfl, rfl, -⟩
    · exact (h c' e' hinted found).2 f before
    · exact absurd rfl other

theorem forgetHintsGet {pending : List Rec} {hinted : List UInt32}
    (found : (Transaction.forgetHints pending hint).get (toLex (c, e)) = some hinted) :
    hint.get (toLex (c, e)) = some hinted ∧
      ∀ w ∈ pending, ∀ f, decodeEntityKey w.1 ≠ some (c, e, f) := by
  induction pending generalizing hint with
  | nil => exact ⟨found, fun _ m => absurd m List.not_mem_nil⟩
  | cons w pending ih =>
    unfold Transaction.forgetHints at found
    rw [List.foldl_cons] at found
    obtain ⟨before, others⟩ := ih found
    cases decoded : decodeEntityKey w.1 with
    | none =>
      rw [decoded] at before
      refine ⟨before, fun x m f => ?_⟩
      rcases List.mem_cons.mp m with rfl | m
      · rw [decoded]
        exact Option.some_ne_none _ ∘ Eq.symm
      · exact others x m f
    | some k =>
      rw [decoded] at before
      dsimp only at before
      rw [OrderedMap.getErase] at before
      split at before
      · cases before
      · rename_i other
        refine ⟨before, fun x m f same => ?_⟩
        rcases List.mem_cons.mp m with rfl | m
        · rw [decoded] at same
          cases same
          exact other rfl
        · exact others x m f same

theorem Covering.commit (h : Covering hint v) (pending : List Rec) :
    Covering (Transaction.forgetHints pending hint) (applied pending v) := by
  intro c e hinted found
  obtain ⟨before, others⟩ := forgetHintsGet found
  obtain ⟨short, covers⟩ := h c e hinted before
  refine ⟨short, fun f live => covers f ?_⟩
  rwa [cell, appliedOther (fun w m same => others w m f ?_)] at live
  rw [same]
  exact decodeEncodeEntityKey c short f

end Covering

section Putting
variable [Crc32] {v : View} {s : EntityStore} {c : UInt32} {e : Bytes} {entity : Entity}

abbrev writtenFields (s : EntityStore) (c : UInt32) (entity : Entity) : List (UInt32 × Value) :=
  (allocFields c entity.fields s.schema).1

omit [Crc32] in
theorem requireUtf8Ends {σ : Type} (e : Bytes) (s : σ) : Ends (requireUtf8 e : Act Error σ Unit) s
    (fun _ s' => s' = s ∧ isUtf8 e = true)
    (fun err s' => s' = s ∧
      err = .error (.invalidArgument "entity id is not valid utf8")) := by
  unfold requireUtf8
  exact endsIte (fun valid => ⟨rfl, valid⟩) (fun _ => ⟨rfl, rfl⟩)

theorem putCovers (entity : Entity) (short : e.length < 2 ^ 32) (showing : Showing s.db v)
    (covering : Covering s.fieldHint v) :
    EndsIf (fun s : EntityStore => Fitting s.db) (corePutEntity EntityStore.side c e entity) s
      (fun _ s' => s'.schema = (allocFields c entity.fields s.schema).2 ∧
        ∃ v', Showing s'.db v' ∧ Covering s'.fieldHint v' ∧
          ∀ f, cell v' c e f = (lastValue (writtenFields s c entity) f).map Value.encode)
      (fun _ s' => s'.fieldHint = s.fieldHint ∧
        ∃ v', Showing s'.db v' ∧ Within c e (putIds (writtenFields s c entity)) v v') := by
  set written := writtenFields s c entity with hwritten
  set schema := (allocFields c entity.fields s.schema).2 with hschema
  have still : Within c e (putIds written) v v := fun _ _ _ live => .inl live
  have facing : Facing schema s.fieldHint v { s with schema } := ⟨showing, rfl, rfl⟩
  have meets : (putFields schema c e written (s.fieldHint.get (toLex (c, e)))).Meets
      (fun _ => True) (Within c e (putIds written) v)
      (fun _ v' => Within c e (putIds written) v v' ∧
        ∀ f, cell v' c e f = (lastValue written f).map Value.encode)
      (fun _ _ => False) v := by
    refine putFinds short (fun _ => trivial) (fun hinted found f live => ?_) (fun old found => ?_)
    · exact (covering c e hinted found).2 f live
    · refine KeyValue.meetsWrites (fun _ _ => trivial) (fun n => ?_) ?_
      · rw [writtenApplied]
        exact (sparingPut.take n).within
      · rw [writtenApplied]
        exact ⟨sparingPut.within, fun f => cellPutOwn found⟩
  unfold corePutEntity
  refine Ends.bind ((requireUtf8Ends e s).mono (fun _ _ done => done.1) ?_) ?_
  · rintro err s' ⟨rfl, -⟩ -
    exact ⟨rfl, v, showing, still⟩
  · rintro _ s' rfl
    refine endsBindGet (endsBindModify (endsBindGet ?_))
    refine Ends.bind (Ends.mono (facingRun meets facing) (fun _ _ done => done) ?_) ?_
    · intro err s₁ stop fits
      obtain ⟨v', facing', no | within⟩ := stop fits
      · exact no.elim
      · exact ⟨facing'.hint, v', facing'.showing, within⟩
    · intro _ s₁ done
      refine endsModify _ (fun fits => ?_)
      obtain ⟨v', facing', within, own⟩ := done fits
      refine ⟨facing'.schema, v', facing'.showing, ?_, own⟩
      have covered := covering.replace within short (fun f live => ?_)
      · have same : s₁.fieldHint = s'.fieldHint := facing'.hint
        change Covering (s₁.fieldHint.insert (toLex (c, e)) (putIds written)) v'
        rw [same]
        exact covered
      · rw [own f] at live
        refine List.mem_dedup.mpr (by_contra (fun out => live ?_))
        rw [lastValueNone.mpr out]
        rfl

end Putting

section Tending
variable [Crc32]

/-- The engine shows a map whose entities have no fields but those that their hints name. -/
def Held (s : EntityStore) : Prop := ∃ v, Showing s.db v ∧ Covering s.fieldHint v

/-- A later state of a store, whose hints name all fields if those of the earlier one did. -/
structure Tends (s s' : EntityStore) : Prop where
  grows : Grows s.db s'.db
  held : Fitting s'.db → Held s → Held s'

omit [Crc32] in
instance tendsRefl : Std.Refl Tends := ⟨fun s => ⟨Std.Refl.refl s.db, fun _ => id⟩⟩

omit [Crc32] in
instance tendsTrans : IsTrans EntityStore Tends := by
  refine ⟨fun a b c ab bc => ⟨trans_of Grows ab.grows bc.grows, fun fits held => ?_⟩⟩
  exact bc.held fits (ab.held (fittingBack b.db c.db bc.grows fits) held)

omit [Crc32] in
theorem tendsOf {α : Type} {x : StoreM α} (moves : Moves (OnDb Lives) x)
    (held : ∀ s, Held s → EndsIf (fun s : EntityStore => Fitting s.db) x s
      (fun _ s' => Held s') (fun _ s' => Held s')) : Moves Tends x := by
  intro s
  by_cases here : Held s
  · exact (endsBoth (moves s) (held s here)).mono
      (fun _ _ both => ⟨both.1.grows, fun fits _ => both.2 fits⟩)
      (fun _ _ both => ⟨both.1.grows, fun fits _ => both.2 fits⟩)
  · exact (moves s).mono (fun _ _ lives => ⟨lives.grows, fun _ yes => absurd yes here⟩)
      (fun _ _ lives => ⟨lives.grows, fun _ yes => absurd yes here⟩)

theorem tendsRun {α : Type} {p : KvProg α} (meets : ∀ hint v, Covering hint v →
    p.Meets (fun _ => True) (Covering hint) (fun _ => Covering hint) (fun _ => Covering hint) v) :
    Moves Tends (p.run EntityStore.machine) := by
  refine tendsOf (EntityStore.covers.run p) (fun s held => ?_)
  obtain ⟨v, showing, covering⟩ := held
  refine (facingRun (meets s.fieldHint v covering) ⟨showing, rfl, rfl⟩).mono ?_ ?_
  · rintro _ s' _ ⟨v', facing, covers⟩
    exact ⟨v', facing.showing, facing.hint ▸ covers⟩
  · rintro _ s' _ ⟨v', facing, covers | covers⟩
    · exact ⟨v', facing.showing, facing.hint ▸ covers⟩
    · exact ⟨v', facing.showing, facing.hint ▸ covers⟩

/-- A save of the schema leaves its names and ids as they are. -/
structure SavedOf (v : View) (s s' : EntityStore) : Prop where
  showing : Showing s'.db v
  hint : s'.fieldHint = s.fieldHint
  schema : s'.schema = s.schema ∨ s'.schema = s.schema.saved

omit [Crc32] in
theorem saveShowing {s : EntityStore} {v : View} (showing : Showing s.db v) :
    Ends EntityStore.saveSchema s (fun _ s' => SavedOf v s s') (fun _ s' => SavedOf v s s') := by
  refine endsBindGet ?_
  have saved : Ends (EntityStore.onDb (Database.atomically fun d =>
      { d with schema := some s.schema.save })) s
      (fun _ s' => Showing s'.db v ∧ s'.fieldHint = s.fieldHint ∧ s'.schema = s.schema)
      (fun _ s' => SavedOf v s s') :=
    endsZoom ((showing.schema _).mono (fun _ _ shows => ⟨shows, rfl, rfl⟩)
      (fun _ _ shows => ⟨shows, rfl, .inl rfl⟩))
  refine saved.bind (fun _ s' done => endsModify _ ⟨done.1, done.2.1, .inr ?_⟩)
  change s'.schema.saved = _
  rw [done.2.2]

omit [Crc32] in
theorem persistShowing {s : EntityStore} {v : View} (showing : Showing s.db v) :
    Ends EntityStore.persistSchema s (fun _ s' => SavedOf v s s') (fun _ s' => SavedOf v s s') :=
  endsBindGet (endsIte (fun _ => saveShowing showing) (fun _ => ⟨showing, rfl, .inl rfl⟩))

theorem tendsAdministers : Administers Tends where
  schema s call := ⟨Std.Refl.refl s.db, fun _ held => held⟩
  save := by
    refine tendsOf EntityStore.saveSchemaMoves (fun s held => Ends.endsIf ?_)
    obtain ⟨v, showing, covering⟩ := held
    exact (saveShowing showing).mono
      (fun _ _ saved => ⟨v, saved.showing, saved.hint ▸ covering⟩)
      (fun _ _ saved => ⟨v, saved.showing, saved.hint ▸ covering⟩)
  read p only := tendsRun (fun hint v covering => (KeyValue.meetsReadOnly only).mono
    (fun _ _ same => same ▸ covering) (fun _ _ same => same ▸ covering))
  beside p beside := tendsRun (fun hint v covering => by
    have still : ∀ v', SameCells v v' → Covering hint v' := fun v' same =>
      covering.shrink (c := 0) (e := []) (fun c e f live => .inl (by rwa [same] at live))
    exact ((beside (fun _ => True) (fun _ _ => trivial) v v (fun _ _ _ => rfl)).mono
      (fun _ => still) (fun _ => still)).loosen still)

theorem deleteTends (c : UInt32) (e : Bytes) : Moves Tends (EntityStore.deleteEntity c e) := by
  refine movesGet.bind (fun s => (tendsRun (fun hint v covering => ?_)).bind (fun _ =>
    movesModify (fun s => ⟨Std.Refl.refl s.db, fun _ held => ?_⟩)))
  · unfold coreDeleteEntity
    cases isUtf8 e with
    | false => exact covering
    | true =>
      intro rows lists keys
      have still : ∀ n, Covering hint (KeyValue.written ((deleteWrites s.schema c e
          (rows.foldl (deleteRow s.schema c) .empty)).take n) v) := by
        intro n
        rw [writtenApplied]
        exact covering.shrink (sparingDelete.take n).within
      refine KeyValue.meetsWrites (fun _ _ => trivial) still ?_
      rw [writtenApplied]
      exact covering.shrink sparingDelete.within
  · obtain ⟨v, showing, covering⟩ := held
    exact ⟨v, showing, covering.erase c e⟩

theorem flushTends : Moves Tends EntityStore.flush := by
  refine tendsOf (EntityStore.onDbMoves (opLives .flush)) (fun s held => ?_)
  obtain ⟨v, showing, covering⟩ := held
  exact endsZoom (showing.flush.mono (fun _ _ _ shows => ⟨v, shows, covering⟩)
    (fun _ _ _ shows => ⟨v, shows, covering⟩))

theorem backupTends (dest : Option Disk) : Moves Tends (StoreCall.backup dest).run := by
  refine tendsOf ((StoreCall.backup dest).runMoves) (fun s held => ?_)
  obtain ⟨v, showing, covering⟩ := held
  have shows : ∀ {db}, Carries (Showing · v) s.db db → Fitting db → Held { s with db } :=
    fun carries fits => ⟨v, carries.holds fits showing, covering⟩
  have run : EndsIf (fun p => Fitting p.1.db) EntityStore.backup (s, dest) (fun _ p => Held p.1)
      (fun _ p => Held p.1) :=
    endsZoom ((backupShows v (s.db, dest)).mono (fun _ _ => shows) (fun _ _ => shows))
  exact endsZoom (Ends.bind run (fun _ _ done => done))

def InTends (t t' : Transaction) : Prop := Tends t.store t'.store

omit [Crc32] in
instance inTendsRefl : Std.Refl InTends := ⟨fun t => Std.Refl.refl t.store⟩

omit [Crc32] in
instance inTendsTrans : IsTrans Transaction InTends := ⟨fun _ _ _ => trans_of Tends⟩

/-- Unless the machine goes down, `R` relates the state that is left to the one before. -/
def Survives {σ α : Type} (R : σ → σ → Prop) (x : Act Error σ α) : Prop :=
  ∀ s, Ends x s (fun _ s' => R s s') (fun e s' => e ≠ .crash → R s s')

omit [Crc32] in
theorem survivesForM {σ γ : Type} {R : σ → σ → Prop} [Std.Refl R] [IsTrans σ R]
    {body : γ → Act Error σ Unit} (each : ∀ x, Survives R (body x)) (l : List γ) :
    Survives R (l.forM (fun x => ignoreError (body x))) := by
  induction l with
  | nil => exact fun s => Std.Refl.refl s
  | cons x l ih =>
    intro s
    refine Ends.bind (endsIgnore ((each x s).mono (fun _ _ r => r) (fun e s' r => ?_)))
      (fun _ s' r => (ih s').mono (fun _ _ => trans_of R r)
        (fun _ _ r' lives => trans_of R r (r' lives)))
    cases e with
    | error e => exact r (by simp)
    | panic => exact r
    | crash => exact r

omit [Crc32] in
theorem inTendsOf {α : Type} {x : TransactionM α} (moves : Moves (InTx Lives) x)
    (held : ∀ t : Transaction, Held t.store → EndsIf (fun t : Transaction => Fitting t.store.db) x t
      (fun _ t' => Held t'.store) (fun e t' => e ≠ .crash → Held t'.store)) :
    Survives InTends x := by
  intro t
  by_cases here : Held t.store
  · exact (endsBoth (moves t) (held t here)).mono
      (fun _ _ both => ⟨both.1.grows, fun fits _ => both.2 fits⟩)
      (fun _ _ both lives => ⟨both.1.grows, fun fits _ => both.2 fits lives⟩)
  · exact (moves t).mono (fun _ _ lives => ⟨lives.grows, fun _ yes => absurd yes here⟩)
      (fun _ _ lives _ => ⟨lives.grows, fun _ yes => absurd yes here⟩)

omit [Crc32] in
theorem readTends {α : Type} {x : TxM α} (moves : Moves (InView Lives) x)
    (reads : ∀ db pending v, Showing db v → Completes x ⟨db, pending⟩ (fun _ m => Reads db m.db)) :
    Moves InTends (Transaction.onView x) := by
  intro t
  have grown := moves ⟨t.store.db, t.pending⟩
  by_cases here : Held t.store
  · obtain ⟨v, showing, covering⟩ := here
    refine endsZoom ((endsBoth grown (reads t.store.db t.pending v showing)).mono ?_
      (fun _ _ stop => stop.2.elim))
    exact fun _ m both => ⟨both.1.grows, fun _ _ => ⟨v, showing.reads both.2, covering⟩⟩
  · exact endsZoom (grown.mono (fun _ _ lives => ⟨lives.grows, fun _ yes => absurd yes here⟩)
      (fun _ _ lives => ⟨lives.grows, fun _ yes => absurd yes here⟩))

theorem inTendsCovers : Covers InTends Transaction.side where
  get key := readTends (Transaction.viewGetMoves key) (fun db pending v showing => by
    obtain ⟨dur, store⟩ := showing.store
    exact (store.overlayGet key).imp (fun _ _ done => done.2.2))
  scan start stop := readTends (Transaction.viewScanMoves start stop)
    (fun db pending v showing => by
      obtain ⟨dur, store⟩ := showing.store
      exact (store.overlayScan start stop).imp (fun _ _ done => done.2.2))
  write key value := fun t => ⟨Std.Refl.refl t.store.db, fun _ held => held⟩
  schema schema t := ⟨Std.Refl.refl t.store.db, fun _ held => held⟩
  hint c e ids t := Std.Refl.refl t.store

theorem commitTends : Survives InTends Transaction.commit := by
  refine inTendsOf Transaction.commitMoves (fun t held => ?_)
  unfold Transaction.commit
  have active : Ends Transaction.checkActive t (fun _ t' => t' = t) (fun _ t' => t' = t) :=
    endsBindGet (endsIte (fun _ => rfl) (fun _ => rfl))
  refine Ends.bind (active.mono (fun _ _ same => same) (fun _ _ same _ _ => same ▸ held)) ?_
  intro _ t' same
  rw [same]
  have persist : Ends (Transaction.onStore EntityStore.persistSchema) t
      (fun _ t' => Tends t.store t'.store) (fun _ t' => Tends t.store t'.store) :=
    endsZoom (tendsAdministers.persist t.store)
  refine Ends.bind (persist.mono (fun _ _ tends => tends) (fun _ _ tends fits _ =>
    tends.held fits held)) ?_
  intro _ t₁ tends
  refine endsBindGet ?_
  by_cases held₁ : Held t₁.store
  · obtain ⟨v, showing, covering⟩ := held₁
    have written : EndsIf (fun t : Transaction => Fitting t.store.db)
        (Transaction.onStore (EntityStore.onDb
          (Database.commitPending t₁.id t₁.pending.entries))) t₁
        (fun _ t' => t'.pending = t₁.pending ∧ t'.store.fieldHint = t₁.store.fieldHint ∧
          Showing t'.store.db (applied t₁.pending.entries v))
        (fun e t' => e ≠ .crash → Held t'.store) :=
      endsZoom (endsZoom ((showing.commit t₁.id t₁.pending.entries).mono
        (fun _ _ _ shows => ⟨rfl, rfl, shows⟩)
        (fun _ _ _ shows lives => ⟨v, shows lives, covering⟩)))
    refine Ends.bind (Ends.mono written (fun _ _ done => done) (fun _ _ stop => stop)) ?_
    intro _ t₂ done
    refine endsModify _ (fun fits => ?_)
    obtain ⟨pending, hint, shows⟩ := done fits
    refine ⟨_, shows, ?_⟩
    change Covering (Transaction.forgetHints t₂.pending.entries t₂.store.fieldHint) _
    rw [pending, hint]
    exact covering.commit t₁.pending.entries
  · have moves : Moves (InTx Lives) (do
        Transaction.onStore (EntityStore.onDb (Database.commitPending t₁.id t₁.pending.entries))
        modify (fun t => { t with
          store := { t.store with
            fieldHint := Transaction.forgetHints t.pending.entries t.store.fieldHint }
          state := .committed }) : TransactionM Unit) :=
      (Transaction.onStoreMoves (EntityStore.onDbMoves (EngineStep.commit _ _))).bind
        (fun _ => Transaction.keptMoves (fun _ => rfl))
    have never : ∀ t' : Transaction, InTx Lives t₁ t' → Fitting t'.store.db → False :=
      fun t' lives fits => held₁ (tends.held (fittingBack _ _ lives.grows fits) held)
    exact (moves t₁).mono (fun _ t' lives fits => (never t' lives fits).elim)
      (fun _ t' lives fits _ => (never t' lives fits).elim)

theorem TxCall.tends (call : TxCall) : Survives InTends call.run := by
  by_cases commits : call = .commit
  · rw [commits]
    exact commitTends
  · exact fun t => (call.moves inTendsCovers (fun t => Std.Refl.refl t.store)
      (fun is => absurd is commits) t).mono (fun _ _ tends => tends) (fun _ _ tends _ => tends)

theorem transactTends (calls : List TxCall) : Survives Tends (StoreCall.runTransact calls) := by
  intro s
  have begun : Tends s (Transaction.begin s).store := by
    refine ⟨⟨List.prefix_rfl, List.prefix_rfl⟩, fun _ held => ?_⟩
    obtain ⟨v, showing, covering⟩ := held
    obtain ⟨dur, store⟩ := showing.store
    exact ⟨v, ⟨⟨dur, store.same rfl rfl rfl rfl rfl⟩, showing.version, showing.room⟩, covering⟩
  exact endsZoom ((survivesForM TxCall.tends calls (Transaction.begin s)).mono
    (fun _ _ tends => trans_of Tends begun tends)
    (fun _ _ tends lives => trans_of Tends begun (tends lives)))

end Tending

section Conditions
variable [Crc32]

/-- The hint of the entity, if there is one, names all fields that a put of it writes. -/
def HintNames (s : EntityStore) (c : UInt32) (e : Bytes) (entity : Entity) : Prop :=
  ∀ hinted, s.fieldHint.get (toLex (c, e)) = some hinted →
    ∀ f ∈ putIds (writtenFields s c entity), f ∈ hinted

instance (s : EntityStore) (c : UInt32) (e : Bytes) (entity : Entity) :
    Decidable (HintNames s c e entity) :=
  decidable_of_iff ((s.fieldHint.get (toLex (c, e))).all (fun hinted =>
      (putIds (writtenFields s c entity)).all (· ∈ hinted)) = true) (by
    unfold HintNames
    cases s.fieldHint.get (toLex (c, e)) <;> simp)

/-- The put goes through, or writes only fields that the hint names. -/
def PutNames (s : EntityStore) (c : UInt32) (e : Bytes) (entity : Entity) : Prop :=
  ∀ err t, corePutEntity EntityStore.side c e entity s = .error err t → HintNames s c e entity

/-- The condition on a call: ids that their keys have room for, and no put that fails on a field
which the hint of its entity does not name. -/
def StoreCall.Hinted (s : EntityStore) : StoreCall → Prop
  | putEntity c e entity => e.length < 2 ^ 32 ∧ PutNames s c e entity
  | casUpdate name e expected patch => e.bytes.length < 2 ^ 32 ∧ ∀ entity t,
      (casEntity (s.schema.collectionId name).2 (s.schema.collectionId name).1 e.bytes expected
        patch).run EntityStore.machine { s with schema := (s.schema.collectionId name).2 } =
          .ok entity t →
      PutNames t (s.schema.collectionId name).1 e.bytes entity
  | _ => True

omit [Crc32] in
theorem endsSelf {σ α : Type} (x : Act Error σ α) (s : σ) :
    Ends x s (fun a s' => x s = .ok a s') (fun e s' => x s = .error e s') := by
  unfold Ends
  split <;> assumption

theorem corePutHeld {s : EntityStore} {c : UInt32} {e : Bytes} {entity : Entity} (held : Held s)
    (short : e.length < 2 ^ 32) (names : PutNames s c e entity) :
    EndsIf (fun s : EntityStore => Fitting s.db) (corePutEntity EntityStore.side c e entity) s
      (fun _ s' => Held s') (fun _ s' => Held s') := by
  obtain ⟨v, showing, covering⟩ := held
  refine (endsBoth (putCovers entity short showing covering) (endsSelf _ s)).mono ?_ ?_
  · intro _ s' both fits
    obtain ⟨-, v', shows, covers, -⟩ := both.1 fits
    exact ⟨v', shows, covers⟩
  · intro err s' both fits
    obtain ⟨hint, v', shows, within⟩ := both.1 fits
    exact ⟨v', shows, hint ▸ covering.within within (names err s' both.2)⟩

omit [Crc32] in
theorem heldThen {α β : Type} {x : StoreM α} {f : α → StoreM β} {s : EntityStore}
    (h : EndsIf (fun s : EntityStore => Fitting s.db) x s (fun _ s' => Held s') (fun _ s' => Held s'))
    (next : ∀ a, Moves Tends (f a)) :
    EndsIf (fun s : EntityStore => Fitting s.db) (x >>= f) s (fun _ s' => Held s')
      (fun _ s' => Held s') :=
  EndsIf.bind (fun _ _ tends => fittingBack _ _ tends.grows) h next
    (fun a s' _ held => (next a s').mono (fun _ _ tends fits => tends.held fits held)
      (fun _ _ tends fits => tends.held fits held))

theorem putHeld {s : EntityStore} {c : UInt32} {e : Bytes} {entity : Entity} (held : Held s)
    (hinted : (StoreCall.putEntity c e entity).Hinted s) :
    EndsIf (fun s : EntityStore => Fitting s.db) (EntityStore.putEntity c e entity) s
      (fun _ s' => Held s') (fun _ s' => Held s') :=
  heldThen (corePutHeld held hinted.1 hinted.2) (fun _ => tendsAdministers.persist)

theorem casHeld {s : EntityStore} {name : Chars} {e : Utf8} {expected : Expected}
    {patch : List Patch} (held : Held s)
    (hinted : (StoreCall.casUpdate name e expected patch).Hinted s) :
    EndsIf (fun s : EntityStore => Fitting s.db) (EntityStore.casUpdate name e expected patch) s
      (fun _ s' => Held s') (fun _ s' => Held s') := by
  set c := (s.schema.collectionId name).1 with hc
  set s₁ : EntityStore := { s with schema := (s.schema.collectionId name).2 } with hs₁
  have held₁ : Held s₁ := held
  have read := tendsAdministers.read (casEntity s₁.schema c e.bytes expected patch)
    (casReadOnly _ _ _ _ _)
  have cas : EndsIf (fun s : EntityStore => Fitting s.db)
      (coreCasEntity EntityStore.side c e.bytes expected patch) s₁ (fun _ s' => Held s')
      (fun _ s' => Held s') := by
    refine endsBindGet ?_
    refine Ends.bind ((endsBoth (read s₁) (endsSelf _ s₁)).mono (fun _ _ both => both)
      (fun _ _ both fits => both.1.held fits held₁)) ?_
    rintro entity s₂ ⟨tends, run⟩
    by_cases held₂ : Held s₂
    · exact heldThen (corePutHeld held₂ hinted.1 (hinted.2 entity s₂ run))
        (fun _ => movesPure _)
    · have moves : Moves (OnDb Lives) (do
          corePutEntity EntityStore.side c e.bytes entity
          return entity : StoreM Entity) :=
        (EntityStore.covers.put c e.bytes entity).bind (fun _ => movesPure _)
      have never : ∀ s' : EntityStore, OnDb Lives s₂ s' → Fitting s'.db → False :=
        fun s' lives fits => held₂ (tends.held (fittingBack _ _ lives.grows fits) held₁)
      exact (moves s₂).mono (fun _ s' lives fits => (never s' lives fits).elim)
        (fun _ s' lives fits => (never s' lives fits).elim)
  exact EndsIf.step (heldThen cas (fun _ => tendsAdministers.persist.bind (fun _ => movesPure _))) rfl

theorem callHeld {s : EntityStore} {call : StoreCall} (held : Held s) (hinted : call.Hinted s) :
    EndsIf (fun s : EntityStore => Fitting s.db) call.run s
      (fun _ s' => Held s') (fun e s' => e ≠ .crash → Held s') := by
  have plain : ∀ {x : StoreM Unit}, Moves Tends x → EndsIf (fun s : EntityStore => Fitting s.db) x s
      (fun _ s' => Held s') (fun e s' => e ≠ .crash → Held s') :=
    fun moves => (moves s).mono (fun _ _ tends fits => tends.held fits held)
      (fun _ _ tends fits _ => tends.held fits held)
  have admin := tendsAdministers
  cases call with
  | collection name => exact plain ((admin.collection name).bind (fun _ => movesPure _))
  | putEntity c e entity =>
    exact (putHeld held hinted).mono (fun _ _ _ done => done) (fun _ _ _ stop _ => stop)
  | casUpdate name e expected patch =>
    exact (heldThen (casHeld held hinted) (fun _ => movesPure _)).mono (fun _ _ _ done => done)
      (fun _ _ _ stop _ => stop)
  | deleteEntity c e => exact plain (deleteTends c e)
  | getEntity c e => exact plain ((admin.getEntity c e).bind (fun _ => movesPure _))
  | scanCollection name => exact plain ((admin.scanCollection name).bind (fun _ => movesPure _))
  | query q => exact plain (admin.query q)
  | createIndex c f => exact plain (admin.createIndex c f)
  | createCompositeIndex c fields => exact plain (admin.createCompositeIndex c fields)
  | dropIndex c f => exact plain (admin.dropIndex c f)
  | dropCompositeIndex c fields => exact plain (admin.dropCompositeIndex c fields)
  | fieldIds c names => exact plain ((admin.fieldIds c names).bind (fun _ => movesPure _))
  | transact calls =>
    exact (transactTends calls s).mono (fun _ _ tends fits => tends.held fits held)
      (fun _ _ tends fits lives => (tends lives).held fits held)
  | flush => exact plain flushTends
  | backup dest => exact plain (backupTends dest)

/-- What a history keeps to: tables that fit their format, and the condition on the calls. -/
structure HintKept (call : Option StoreCall) (s s' : EntityStore) : Prop where
  fits : Fitting s'.db
  hinted : ∀ k ∈ call, k.Hinted s

theorem openHeld {d : Disk} (h : Idle d) {faults : List Fault} {opts : Options}
    (room : opts.segmentMaxRecords ≠ 0) : Ends EntityStore.openWith
      (EntityStore.boot d faults opts) (fun _ s => Fitting s.db → Held s) (fun _ _ => True) := by
  have engine : Ends (EntityStore.onDb Database.openWith) (EntityStore.boot d faults opts)
      (fun _ s => Held s) (fun _ _ => True) := by
    refine endsZoom ((h.opened room).mono (fun _ db alive => ?_) (fun _ _ _ => trivial))
    obtain ⟨v, showing⟩ := alive.showing
    exact ⟨v, showing, coveringEmpty⟩
  have load : Moves Tends EntityStore.loadSchema :=
    movesGet.bind (fun _ => (movesLift _).bind (fun schema =>
      movesModify (fun s => ⟨Std.Refl.refl s.db, fun _ held => held⟩)))
  refine Ends.bind engine (fun _ s held => endsTryCatch ?_)
  have rest := load.bind (fun _ => tendsAdministers.recoverIndexes)
  refine (rest s).mono (fun _ _ tends fits => tends.held fits held) (fun e s' _ => ?_)
  have any : ∀ {α : Type} (x : StoreM α), Ends x s' (fun _ _ => True) (fun _ _ => True) := by
    intro α x
    unfold Ends
    split <;> trivial
  exact endsIte (fun _ => (any _).bind (fun _ _ _ => endsThrow e trivial))
    (fun _ => endsThrow e trivial)

theorem Reached.held {n : Stage} (h : Reached HintKept n) : ∀ s, n = .up s → Held s := by
  induction h with
  | fresh => exact fun _ same => by cases same
  | opened before room run meets ih =>
    rintro s ⟨⟩
    exact (endsOfRun run).mp (openHeld (before.sound (fun _ _ _ kept => kept.fits)) room) meets.fits
  | refused kept before room run meets found ih => exact fun _ same => by cases same
  | returned before run meets ih =>
    rintro s ⟨⟩
    exact (endsOfRun run).mp (callHeld (ih _ rfl) (meets.hinted _ rfl)) meets.fits
  | failed before run lives meets ih =>
    rintro s ⟨⟩
    exact (endsOfError run).mp (callHeld (ih _ rfl) (meets.hinted _ rfl)) meets.fits lives
  | crashed kept before run meets found ih => exact fun _ same => by cases same
  | left kept before run fits found ih => exact fun _ same => by cases same
  | killed kept before found ih => exact fun _ same => by cases same

def LeftWith (s : EntityStore) (c : UInt32) (e : Bytes) (entity : Entity) : Prop :=
  ∃ v, Shows s.db v ∧ ∀ f stored, cell v c e f = some stored ↔
    ∃ x ∈ entity.fields, s.schema.lookupFieldId c x.1 = some f ∧ x.2.encode = stored

/-- The hint of an entity names all of its fields, and a put that goes through leaves those of
the entity that it was given. -/
theorem hintCovers {s : EntityStore} (h : Reached HintKept (.up s)) :
    (∃ v, Shows s.db v ∧ Covering s.fieldHint v) ∧
      ∀ c e entity s', EntityStore.putEntity c e entity s = .ok () s' →
        e.length < 2 ^ 32 → (entity.fields.map Prod.fst).Nodup → Fitting s'.db → s'.schema.Apart →
        LeftWith s' c e entity := by
  obtain ⟨v, showing, covering⟩ := h.held s rfl
  obtain ⟨dur, store⟩ := showing.store
  refine ⟨⟨v, store.shows, covering⟩, fun c e entity s' run short once fits apart => ?_⟩
  set schema := (allocFields c entity.fields s.schema).2 with hschema
  have puts : EndsIf (fun s : EntityStore => Fitting s.db) (EntityStore.putEntity c e entity) s
      (fun _ s' => s'.schema.fieldIdOf = schema.fieldIdOf ∧ ∃ v', Showing s'.db v' ∧
        ∀ f, cell v' c e f = (lastValue (writtenFields s c entity) f).map Value.encode)
      (fun _ _ => True) := by
    refine EndsIf.bind (fun _ _ tends => fittingBack _ _ tends.grows)
      ((putCovers entity short showing covering).mono (fun _ _ _ done => done) (fun _ _ _ _ => trivial))
      (fun _ => tendsAdministers.persist) ?_
    rintro _ s₁ - ⟨same, v', shows, -, cells⟩
    refine (persistShowing shows).mono (fun _ s₂ saved _ => ⟨?_, v', saved.showing, cells⟩)
      (fun _ _ _ _ => trivial)
    rcases saved.schema with eq | eq
    · rw [eq, same]
    · rw [eq, same]
      rfl
  obtain ⟨ids, v', shows, cells⟩ := (endsOfRun run).mp puts fits
  obtain ⟨dur', store'⟩ := shows.store
  refine ⟨v', store'.shows, fun f stored => ?_⟩
  have withIds : WithIds s'.schema c entity.fields (writtenFields s c entity) := by
    have given := allocWithIds c entity.fields s.schema
    unfold WithIds at given ⊢
    rw [ids]
    exact given
  rw [cells]
  constructor
  · intro found
    obtain ⟨value, last, rfl⟩ := Option.map_eq_some_iff.mp found
    by_cases named : ∃ name, s'.schema.fieldIdOf.get (toLex (c, name)) = some f
    · obtain ⟨name, id⟩ := named
      rw [lastWritten withIds apart id, lastNamedOnce once] at last
      exact ⟨_, last, id, rfl⟩
    · rw [lastUnnamed withIds (fun name id => named ⟨name, id⟩)] at last
      cases last
  · rintro ⟨⟨name, value⟩, m, id, rfl⟩
    rw [lastWritten withIds apart id, (lastNamedOnce once).mpr m]
    rfl

end Conditions

section Twice
attribute [local instance] Wal.ieee

def TwoFields (s : EntityStore) : Prop :=
  s.schema.collectionIdOf.entries = [(['u'], 0)] ∧ s.schema.collectionName.entries = [(0, ['u'])] ∧
    s.schema.fieldIdOf.entries = [(toLex (0, ['x']), 0), (toLex (0, ['y']), 1)] ∧
    s.schema.fieldName.entries = [(toLex (0, 0), ['x']), (toLex (0, 1), ['y'])]

instance twoFieldsDecidable (s : EntityStore) : Decidable (TwoFields s) :=
  inferInstanceAs (Decidable (_ ∧ _ ∧ _ ∧ _))

theorem TwoFields.apart {s : EntityStore} (h : TwoFields s) : s.schema.Apart := by
  obtain ⟨ids, names, fieldIds, fieldNames⟩ := h
  constructor
  · intro e m
    rw [ids] at m
    rw [names]
    obtain rfl := List.mem_singleton.mp m
    exact List.mem_singleton_self _
  · intro e m
    rw [fieldIds] at m
    rw [fieldNames]
    rcases List.mem_pair.mp m with rfl | rfl
    · exact List.mem_cons_self
    · exact List.mem_cons_of_mem _ (List.mem_singleton_self _)

theorem fittingNone {db : Database} (none : db.built = []) : Fitting db := by
  intro records m
  rw [none] at m
  cases m

/-- The second put of `x` fails in the flush behind its record; the hint names `x`. -/
theorem putRetried : ∃ s₀, EntityStore.openWith (EntityStore.boot .empty
      (List.replicate 9 .pass ++ [.fail 0]) ⟨0, 4, 1⟩) = .ok () s₀ ∧
    (leaves (StoreCall.collection ['u']).run s₀).any (fun s₁ => Fitting s₁.db ∧
      HintNames s₁ 0 [0x61] ⟨[(['x'], .null)]⟩ ∧
      (leaves (StoreCall.putEntity 0 [0x61] ⟨[(['x'], .null)]⟩).run s₁).any (fun s₂ =>
        Fitting s₂.db ∧ HintNames s₂ 0 [0x61] ⟨[(['x'], .bool true)]⟩ ∧
        (halts (StoreCall.putEntity 0 [0x61] ⟨[(['x'], .bool true)]⟩).run s₂).any (fun p =>
          p.1 ≠ .crash ∧ Fitting p.2.db ∧
            (leaves (EntityStore.putEntity 0 [0x61] ⟨[(['y'], .bool true)]⟩) p.2).any (fun s =>
              Fitting s.db ∧ TwoFields s) = true) = true) = true) = true := by
  refine ⟨_, rfl, ?_⟩
  decide +kernel

theorem hintCoversRetried : ∃ s₁ s s' e, Reached HintKept (.up s) ∧
    EntityStore.putEntity 0 [0x61] ⟨[(['x'], .bool true)]⟩ s₁ = .error e s ∧
    EntityStore.putEntity 0 [0x61] ⟨[(['y'], .bool true)]⟩ s = .ok () s' ∧
    LeftWith s' 0 [0x61] ⟨[(['y'], .bool true)]⟩ := by
  obtain ⟨s₀, opened, run⟩ := putRetried
  obtain ⟨s₁, named, facts⟩ := (Option.any_eq_true _ _).mp run
  obtain ⟨fits₁, hinted₁, run⟩ := of_decide_eq_true facts
  obtain ⟨s₂, first, facts⟩ := (Option.any_eq_true _ _).mp run
  obtain ⟨fits₂, hinted₂, run⟩ := of_decide_eq_true facts
  obtain ⟨⟨e, s⟩, fails, facts⟩ := (Option.any_eq_true _ _).mp run
  obtain ⟨lives, fits, run⟩ := of_decide_eq_true facts
  obtain ⟨s', put, facts⟩ := (Option.any_eq_true _ _).mp run
  obtain ⟨fits', two⟩ := of_decide_eq_true facts
  obtain ⟨⟨⟩, named⟩ := leavesSome named
  obtain ⟨⟨⟩, first⟩ := leavesSome first
  obtain ⟨⟨⟩, put⟩ := leavesSome put
  have fits₀ : Fitting s₀.db := by
    have lives : Lives s₀.db s₁.db := (endsOfRun named).mp (StoreCall.runMoves _ s₀)
    exact fittingBack _ _ lives.grows fits₁
  have reach₀ : Reached HintKept (.up s₀) :=
    .opened .fresh (by decide) opened ⟨fits₀, fun _ m => nomatch m⟩
  have reach₁ : Reached HintKept (.up s₁) := by
    refine .returned reach₀ named ⟨fits₁, fun _ m => ?_⟩
    cases m
    trivial
  have reach₂ : Reached HintKept (.up s₂) := by
    refine .returned reach₁ first ⟨fits₂, fun _ m => ?_⟩
    cases m
    exact ⟨by decide, fun _ _ _ => hinted₁⟩
  have reach : Reached HintKept (.up s) := by
    refine .failed reach₂ (haltsSome fails) lives ⟨fits, fun _ m => ?_⟩
    cases m
    exact ⟨by decide, fun _ _ _ => hinted₂⟩
  exact ⟨s₂, s, s', e, reach, haltsSome fails, put,
    (hintCovers reach).2 0 [0x61] _ s' put (by decide) (by decide) fits' two.apart⟩

/-- The put of `y` fails in the flush behind its record, so the hint does not name `y`, and the
put after it leaves `y` there. -/
theorem putInterrupted : ∃ s₀, EntityStore.openWith (EntityStore.boot .empty
      (List.replicate 12 .pass ++ [.fail 0]) ⟨0, 4, 1⟩) = .ok () s₀ ∧
    (leaves (StoreCall.all [.collection ['u'], .putEntity 0 [0x61] ⟨[(['x'], .null)]⟩]) s₀).any
      (fun s₁ => Fitting s₁.db ∧
        (halts (EntityStore.putEntity 0 [0x61] ⟨[(['x'], .null), (['y'], .null)]⟩) s₁).any (fun p =>
          p.1 ≠ .crash ∧ Fitting p.2.db ∧
            (leaves (EntityStore.putEntity 0 [0x61] ⟨[(['x'], .null)]⟩) p.2).any (fun s =>
              Fitting s.db ∧ TwoFields s ∧
                answer (Database.get (encodeEntityKey 0 [0x61] 1)) s.db = some (some [0])) = true) =
          true) = true := by
  refine ⟨_, rfl, ?_⟩
  decide +kernel

theorem hintMisses : ¬ ∀ s c e entity s', Reached Fits (.up s) →
    EntityStore.putEntity c e entity s = .ok () s' → e.length < 2 ^ 32 →
    (entity.fields.map Prod.fst).Nodup → Fitting s'.db → s'.schema.Apart →
    LeftWith s' c e entity := by
  intro claim
  obtain ⟨s₀, opened, run⟩ := putInterrupted
  obtain ⟨s₁, calls, facts⟩ := (Option.any_eq_true _ _).mp run
  obtain ⟨fits₁, fails⟩ := of_decide_eq_true facts
  obtain ⟨⟨e, s₂⟩, halt, facts⟩ := (Option.any_eq_true _ _).mp fails
  obtain ⟨lives, fits₂, again⟩ := of_decide_eq_true facts
  obtain ⟨s₃, put, facts⟩ := (Option.any_eq_true _ _).mp again
  obtain ⟨fits₃, two, found⟩ := of_decide_eq_true facts
  obtain ⟨⟨⟩, ran⟩ := leavesSome calls
  obtain ⟨⟨⟩, stored⟩ := leavesSome put
  have reach₁ := reachedAll (by decide) opened ran fits₁
  have reach₂ : Reached Fits (.up s₂) :=
    @Reached.failed _ _ s₁ s₂ (.putEntity 0 [0x61] ⟨[(['x'], .null), (['y'], .null)]⟩) e reach₁
      (haltsSome halt) lives fits₂
  obtain ⟨v, shows, fields⟩ := claim s₂ 0 [0x61] ⟨[(['x'], .null)]⟩ s₃ reach₂ stored (by decide)
    (by decide) fits₃ two.apart
  have left : cell v 0 [0x61] 1 = some [0] :=
    Option.some.inj ((shows.get _).answer.symm.trans found)
  obtain ⟨x, m, id, -⟩ := (fields 1 [0]).mp left
  obtain rfl := List.mem_singleton.mp m
  have named : s₃.schema.lookupFieldId 0 ['x'] = some 0 := by
    unfold Schema.lookupFieldId OrderedMap.get
    rw [two.2.2.1]
    decide
  rw [named] at id
  cases id

end Twice
end MyLsmDb
