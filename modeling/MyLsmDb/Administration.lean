import MyLsmDb.CellReads
import MyLsmDb.SchemaTrip

/-! The calls of an entity store that write no field of an entity: what they are made of. -/
namespace MyLsmDb
open ByteOrder (Bytes)
open Effect
open KeyValue (Prog)
open OrderedEntries
open Text
open Wal (Crc32)

section Only

theorem scanReadOnly {α : Type} {start stop : Option Bytes} {f : List Rec → KvProg α}
    (next : ∀ rows, (f rows).ReadOnly) : (KeyValue.scan start stop >>= f).ReadOnly :=
  Prog.ReadOnly.bind (fun _ => trivial) next

theorem coreGetReadOnly (schema : Schema) (c : UInt32) (e : Bytes) :
    (coreGetEntity schema c e).ReadOnly :=
  scanReadOnly (fun _ => Prog.ReadOnly.bind (KeyValue.liftReadOnly _) (fun _ => trivial))

theorem coreScanReadOnly (schema : Schema) (c : UInt32) : (coreScanCollection schema c).ReadOnly :=
  scanReadOnly (fun _ => Prog.ReadOnly.bind (KeyValue.liftReadOnly _)
    (fun _ => KeyValue.liftReadOnly _))

theorem casReadOnly (schema : Schema) (c : UInt32) (e : Bytes) (expected : Expected)
    (patch : List Patch) : (casEntity schema c e expected patch).ReadOnly := by
  refine scanReadOnly (fun rows => Prog.ReadOnly.bind (KeyValue.liftReadOnly _) (fun current => ?_))
  cases expected.failure current with
  | none => exact KeyValue.liftReadOnly _
  | some reason => exact trivial

end Only

section Administers
variable [Crc32]

structure Administers (S : EntityStore → EntityStore → Prop) : Prop where
  schema : ∀ (s : EntityStore) (call : Schema.Call), S s { s with schema := call.run s.schema }
  save : Moves S EntityStore.saveSchema
  read : ∀ {α : Type} (p : KvProg α), p.ReadOnly → Moves S (p.run EntityStore.machine)
  beside : ∀ p : KvProg Unit,
    (∀ allowed : Bytes → Prop, (∀ key, key.head? = some indexTag → allowed key) →
      Beside allowed p) → Moves S (p.run EntityStore.machine)

variable {S : EntityStore → EntityStore → Prop} [Std.Refl S] [IsTrans EntityStore S]

namespace Administers

theorem persist (h : Administers S) : Moves S EntityStore.persistSchema :=
  movesGet.bind (fun _ => Moves.ite h.save (movesPure _))

omit [Std.Refl S] [IsTrans EntityStore S] in
theorem collectionId (h : Administers S) (name : Chars) :
    Moves S (collectionIdOf EntityStore.side name) := fun s => h.schema s (.collectionId name)

theorem collection (h : Administers S) (name : Chars) : Moves S (EntityStore.collection name) :=
  (h.collectionId name).bind (fun _ => h.persist.bind (fun _ => movesPure _))

theorem getEntity (h : Administers S) (c : UInt32) (e : Bytes) :
    Moves S (EntityStore.getEntity c e) :=
  movesGet.bind (fun s => h.read _ (coreGetReadOnly s.schema c e))

theorem scanCollection (h : Administers S) (name : Chars) :
    Moves S (EntityStore.scanCollection name) := by
  refine movesGet.bind (fun s => ?_)
  dsimp only
  split
  · exact movesPure _
  · exact h.read _ (coreScanReadOnly _ _)

theorem query (h : Administers S) (q : Query) : Moves S (EntityStore.query q) :=
  movesGet.bind (fun s => h.read _ (q.readOnly s.schema))

omit [Std.Refl S] in
theorem buildIndex (h : Administers S) (id : UInt32) {build : KvProg Unit}
    (beside : ∀ allowed : Bytes → Prop, (∀ key, key.head? = some indexTag → allowed key) →
      Beside allowed build) : Moves S (EntityStore.buildIndex id build) :=
  h.save.bind (fun _ => (h.beside build beside).bind (fun _ =>
    Moves.bind (movesModify (fun s => h.schema s (.setIndexReady id))) (fun _ => h.save)))

omit [Std.Refl S] in
theorem createIndex (h : Administers S) (c f : UInt32) : Moves S (EntityStore.createIndex c f) := by
  intro s
  refine endsBindGet (endsBindModify ?_)
  have made : S s { s with schema := (s.schema.createIndex c f).2 } := h.schema s (.createIndex c f)
  exact (h.buildIndex _ (fun _ index => rebuildBeside index c f) _).mono
    (fun _ _ => trans_of S made) (fun _ _ => trans_of S made)

omit [Std.Refl S] in
theorem createCompositeIndex (h : Administers S) (c : UInt32) (fields : List UInt32) :
    Moves S (EntityStore.createCompositeIndex c fields) := by
  intro s
  refine endsBindGet (endsBindModify ?_)
  have made : S s { s with schema := (s.schema.createCompositeIndex c fields).2 } :=
    h.schema s (.createCompositeIndex c fields)
  exact (h.buildIndex _ (fun _ index => rebuildCompositeBeside index c _ fields) _).mono
    (fun _ _ => trans_of S made) (fun _ _ => trans_of S made)

omit [Std.Refl S] in
theorem removeIndex (h : Administers S) (id : UInt32) {clear : KvProg Unit}
    (beside : ∀ allowed : Bytes → Prop, (∀ key, key.head? = some indexTag → allowed key) →
      Beside allowed clear) : Moves S (EntityStore.removeIndex id clear) :=
  (h.beside clear beside).bind (fun _ =>
    Moves.bind (movesModify (fun s => h.schema s (.dropIndex id))) (fun _ => h.save))

theorem dropIndex (h : Administers S) (c f : UInt32) : Moves S (EntityStore.dropIndex c f) := by
  refine movesGet.bind (fun s => ?_)
  split
  · exact movesPure _
  · exact h.removeIndex _ (fun _ index => clearBeside index c f)

theorem dropCompositeIndex (h : Administers S) (c : UInt32) (fields : List UInt32) :
    Moves S (EntityStore.dropCompositeIndex c fields) := by
  refine movesGet.bind (fun s => ?_)
  split
  · exact movesPure _
  · exact h.removeIndex _ (fun _ index => clearCompositeBeside index c _)

theorem fieldIds (h : Administers S) (c : UInt32) (names : List Chars) :
    Moves S (EntityStore.fieldIds c names) := by
  induction names with
  | nil => exact movesPure _
  | cons name names ih =>
    intro s
    refine endsBindGet (endsBindModify ?_)
    have made : S s { s with schema := (s.schema.fieldId c name).2 } :=
      h.schema s (.fieldId c name)
    exact (ih.bind (fun _ => movesPure _) _).mono
      (fun _ _ => trans_of S made) (fun _ _ => trans_of S made)

theorem recoverIndexes (h : Administers S) : Moves S EntityStore.recoverIndexes := by
  refine movesGet.bind (fun s => Moves.forM (fun i => ?_) _)
  unfold EntityStore.recoverIndex
  split
  · exact h.createIndex _ _
  · exact h.createCompositeIndex _ _

end Administers
end Administers
end MyLsmDb
