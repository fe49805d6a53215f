import MyLsmDb.Steady
import MyLsmDb.Upkeep

/-! The lives of a store in processes that meet no fault: every index that there is has the entries
of the entities, behind every call and across a close and a new start. -/
namespace MyLsmDb
open ByteOrder (Bytes)
open Effect
open KeyValue (Prog Serves)
open OrderedEntries
open Text
open Wal (Crc32)

section Sides
variable [Crc32] {K : Bytes → Prop} {saved : Option Chars} {base : View} {hint : FieldHint}

/-- A store that nothing fails in, with this hint and this schema. -/
structure StoreShows (K : Bytes → Prop) (saved : Option Chars) (hint : FieldHint) (schema : Schema)
    (v : View) (s : EntityStore) : Prop where
  steady : Steady K saved s.db v
  schema : s.schema = schema
  hint : s.fieldHint = hint

/-- A transaction over it, whose pending writes lie over what was committed. -/
structure TxShows (K : Bytes → Prop) (saved : Option Chars) (base : View) (hint : FieldHint)
    (_ : Unit) (schema : Schema) (v : View) (t : Transaction) : Prop where
  steady : Steady K saved t.store.db base
  laid : overlaid t.pending base = v
  keys : ∀ w ∈ t.pending.entries, K w.1
  schema : t.store.schema = schema
  hint : t.store.fieldHint = hint
  active : t.state = .active

theorem storeServes (hint : FieldHint) (schema : Schema) :
    Serves EntityStore.machine K (fun s : EntityStore => Fitting s.db)
      (StoreShows K saved hint schema) (fun _ _ _ => False) := by
  refine ⟨fun {v s} h key => ?_, fun {v s} h start stop => ?_, fun {v s} h {key} mine entry => ?_⟩
  · exact endsZoom ((h.steady.get key).imp (fun _ _ done => ⟨done.1, done.2, h.schema, h.hint⟩))
  · exact endsZoom ((h.steady.scan start stop).imp (fun _ _ done =>
      ⟨done.1, done.2.1, done.2.2, h.schema, h.hint⟩))
  · refine endsZoom ((h.steady.put mine entry).mono (fun _ _ _ steady => ⟨?_, h.schema, h.hint⟩)
      (fun _ _ _ never => never.elim))
    convert steady

theorem storeUpholds : Upholds EntityStore.side (fun s : EntityStore => Fitting s.db) (OnDb Lives) K
    (StoreShows K saved) Covering where
  serves := storeServes
  covers := EntityStore.covers
  back _ _ lives := fittingBack _ _ lives.grows
  schema h := h.schema
  setSchema h _ := ⟨h.steady, rfl, h.hint⟩
  hint h covering _ _ ids is := by
    refine (covering _ _ ids ?_).2
    rw [← h.hint]
    exact is
  setHint {g s v v' x c e ids} h covering within short all := by
    refine ⟨g.insert (toLex (c, e)) ids, ⟨h.steady, h.schema, ?_⟩, covering.replace within short all⟩
    change x.fieldHint.insert (toLex (c, e)) ids = _
    rw [h.hint]
  shrink covering within := covering.shrink within

theorem Steady.overlayScan {db : Database} {mem : View} (h : Steady K saved db mem)
    {pending : OrderedMap Bytes Entry} (mine : ∀ w ∈ pending.entries, K w.1)
    (start stop : Option Bytes) : Completes (TxMutator.scan start stop) ⟨db, pending⟩ (fun rows m =>
      KeyValue.Lists (overlaid pending mem) start stop rows ∧ (∀ r ∈ rows, K r.1) ∧
        m.pending = pending ∧ Steady K saved m.db mem) := by
  obtain ⟨dur, store⟩ := h.store
  have shown := store.entries
  have opened := store
  obtain ⟨vol, ⟨md, views⟩, -⟩ := opened
  refine (TxMutator.scanExact views.cached views.memory.readable start stop).imp ?_
  intro rows m done
  obtain ⟨rfl, same, reads⟩ := done
  have ordered : Ordered (Database.entries db) := flattenOrdered _
  refine ⟨KeyValue.rangeLists (overlayOrdered ordered) (TxMutator.lookupOverlaid ordered shown) start
    stop, fun r mr => ?_, same, h.reads reads⟩
  rcases overlayMem (memRange.mp mr).1 with up | low
  · exact mine r up
  · exact h.keyed.entries r low

omit [Crc32] in
theorem overlaidInsert (pending : OrderedMap Bytes Entry) (v : View) (key : Bytes) (entry : Entry) :
    overlaid (pending.insert key entry) v = Function.update (overlaid pending v) key entry := by
  funext k
  rw [overlaid, OrderedMap.getInsert, Function.update_apply]
  split <;> rfl

theorem txServes (schema : Schema) :
    Serves Transaction.machine K (fun t : Transaction => Fitting t.store.db)
      (TxShows K saved base hint () schema) (fun _ _ _ => False) := by
  refine ⟨fun {v t} h key => ?_, fun {v t} h start stop => ?_, fun {v t} h {key} mine entry => ?_⟩
  · obtain ⟨dur, store⟩ := h.steady.store
    refine endsZoom ((store.overlayGet key).imp (fun found m done => ?_))
    obtain ⟨is, same, reads⟩ := done
    have same : m.pending = t.pending := same
    refine ⟨is.trans (congrFun h.laid key), h.steady.reads reads, ?_, ?_, h.schema, h.hint, h.active⟩
    · dsimp only
      rw [same]
      exact h.laid
    · dsimp only
      rw [same]
      exact h.keys
  · refine endsZoom ((h.steady.overlayScan h.keys start stop).imp (fun rows m done => ?_))
    obtain ⟨lists, keys, same, steady⟩ := done
    have same : m.pending = t.pending := same
    refine ⟨h.laid ▸ lists, keys, steady, ?_, ?_, h.schema, h.hint, h.active⟩
    · dsimp only
      rw [same]
      exact h.laid
    · dsimp only
      rw [same]
      exact h.keys
  · refine fun _ => ⟨h.steady, ?_, ?_, h.schema, h.hint, h.active⟩
    · have laid := overlaidInsert t.pending base key entry
      rw [h.laid] at laid
      convert laid
    · intro w m
      rcases insertMem m with rfl | m
      · exact mine
      · exact h.keys w m

theorem txUpholds : Upholds Transaction.side (fun t : Transaction => Fitting t.store.db) (InTx Lives) K
    (TxShows K saved base hint) (fun _ _ => True) where
  serves _ := txServes
  covers := Transaction.covers
  back _ _ lives := fittingBack _ _ lives.grows
  schema h := h.schema
  setSchema h _ := ⟨h.steady, h.laid, h.keys, rfl, h.hint, h.active⟩
  hint _ _ _ _ _ is := by cases is
  setHint h _ _ _ _ := ⟨(), h, trivial⟩
  shrink _ _ := trivial

end Sides
end MyLsmDb
