import MyLsmDb.Cells

/-! What a delete and the programs over the indexes do to the fields of entities, and what a read
by id and a conditional update find of them. -/
namespace MyLsmDb
open ByteOrder (Bytes)
open Effect (Stop)
open KeyValue (Prog)
open OrderedEntries
open Text

section Deleting
variable {allowed : Bytes → Prop} {broken : View → Prop} {refused : Stop Error → View → Prop}
  {post : Unit → View → Prop} {schema : Schema} {c c' : UInt32} {e e' : Bytes} {f : UInt32}
  {v : View} {old : OldFields}

theorem deleteFinds (short : e.length < 2 ^ 32)
    (invalid : isUtf8 e = false → refused (.error (.invalidArgument "entity id is not valid utf8")) v)
    (next : ∀ old, Found allowed schema c e [] v old →
      (KeyValue.writeAll (deleteWrites schema c e old) : KvProg Unit).Meets allowed broken
        post refused v) :
    (coreDeleteEntity schema c e).Meets allowed broken post refused v := by
  unfold coreDeleteEntity
  cases valid : isUtf8 e with
  | false => exact invalid valid
  | true =>
    intro rows lists keys
    refine next _ ?_
    rw [deleteRowTakes]
    refine ⟨?_, fun _ m => absurd m List.not_mem_nil, ?_, ?_⟩
    · intro key m
      rw [takenStale] at m
      rcases m with m | ⟨⟨r, mr, rfl⟩, -⟩
      · cases m
      · exact ⟨keys r mr, (entityRangeBetween c e r.1).mp (lists.inside r mr)⟩
    · intro f _ live
      rw [takenStale, decodeEncodeEntityKey c short f]
      exact .inr ⟨entityListed lists live, _, rfl, rfl⟩
    · intro canonical f need
      obtain ⟨ids, values, all⟩ := takenValues (fun _ => true) (needOld schema c)
        (Values.empty (v := v) (c := c) (e := e)) short
        (fun r m => entityRow canonical lists keys m)
      rw [values f]
      by_cases dead : cell v c e f = none
      · rw [cellValueDead dead, ite_self]
      · rw [if_pos ((all f).mpr (.inr ⟨need, entityListed lists dead⟩))]

theorem deleteWritesElse (schema : Schema) (c : UInt32) (e : Bytes) (old : OldFields) : ∃ ws, deleteWrites schema c e old = staleDeletes old ++ ws ∧
    Elsewhere ws ∧ ∀ w ∈ ws, w.2 = none ∧ w.1.head? = some indexTag := by
  refine ⟨_, List.append_assoc _ _ _, ?_, ?_⟩
  · intro w m
    rcases List.mem_append.mp m with m | m
    · obtain ⟨x, -, rfl⟩ := List.mem_map.mp m
      simp [encodeIndexKey, indexTag, entityTag]
    · obtain ⟨d, -, made⟩ := List.mem_filterMap.mp m
      dsimp only at made
      split at made
      · cases made
        simp [encodeCompositeIndexKey, compositePrefix, indexTag, entityTag]
      · cases made
  · intro w m
    rcases List.mem_append.mp m with m | m
    · obtain ⟨x, -, rfl⟩ := List.mem_map.mp m
      exact ⟨rfl, rfl⟩
    · obtain ⟨d, -, made⟩ := List.mem_filterMap.mp m
      dsimp only at made
      split at made
      · cases made
        exact ⟨rfl, rfl⟩
      · cases made

theorem cellDelete : cell (applied (deleteWrites schema c e old) v) c' e' f =
    if encodeEntityKey c' e' f ∈ old.staleKeys then none else cell v c' e' f := by
  obtain ⟨ws, whole, other, -⟩ := deleteWritesElse schema c e old
  rw [whole, appliedAppend, cellElsewhere other]
  exact appliedDeletes _ _

theorem cellDeleteOwn (found : Found allowed schema c e [] v old) :
    cell (applied (deleteWrites schema c e old) v) c e f = none := by
  rw [cellDelete]
  by_cases live : cell v c e f = none
  · rw [live, ite_self]
  · rw [if_pos (found.all f List.not_mem_nil live)]

theorem cellDeleteOther (found : Found allowed schema c e [] v old)
    (canonical : Canonical allowed c e) (other : ¬ (c = c' ∧ e = e')) :
    cell (applied (deleteWrites schema c e old) v) c' e' f = cell v c' e' f := by
  rw [cellDelete, if_neg (staleOther found canonical other)]

theorem sparingDelete : Sparing c e [] (deleteWrites schema c e old) := by
  obtain ⟨ws, whole, other, -⟩ := deleteWritesElse schema c e old
  rw [whole]
  intro w m live entity
  rcases List.mem_append.mp m with m | m
  · obtain ⟨key, -, rfl⟩ := List.mem_map.mp m
    exact absurd rfl live
  · exact absurd entity (other w m)

end Deleting

section Indexes
variable {α β : Type} {allowed : Bytes → Prop} {v v' : View}

def SameCells (v v' : View) : Prop := ∀ c e f, cell v' c e f = cell v c e f

theorem SameCells.trans {v'' : View} (h : SameCells v v') (h' : SameCells v' v'') :
    SameCells v v'' := fun c e f => (h' c e f).trans (h c e f)

def Beside (allowed : Bytes → Prop) (p : KvProg α) : Prop := ∀ v₀ v, SameCells v₀ v →
  p.Meets allowed (SameCells v₀) (fun _ => SameCells v₀) (fun _ => SameCells v₀) v

theorem Beside.bind {p : KvProg α} {f : α → KvProg β} (h : Beside allowed p)
    (next : ∀ a, Beside allowed (f a)) : Beside allowed (p >>= f) := fun v₀ v same =>
  Prog.Meets.bind (h v₀ v same) (fun a v' same' => next a v₀ v' same')

theorem besidePure (a : α) : Beside allowed (pure a) := fun _ _ same => same

theorem besideLift (r : Except (Stop Error) α) : Beside allowed (KeyValue.lift r) := fun _ _ same =>
  KeyValue.meetsLift (fun _ _ => same) (fun _ _ => same)

theorem besideFail (e : Error) : Beside allowed (KeyValue.fail e : KvProg α) := fun _ _ same => same

theorem besideWrites {ws : List Rec} (keys : ∀ w ∈ ws, allowed w.1)
    (other : Elsewhere ws) : Beside allowed (KeyValue.writeAll ws) := by
  intro v₀ v same
  have still : ∀ ws' : List Rec, Elsewhere ws' → SameCells v₀ (KeyValue.written ws' v) := by
    intro ws' h
    rw [writtenApplied]
    exact same.trans (fun c e f => cellElsewhere h)
  exact KeyValue.meetsWrites keys (fun n => still _ (fun w m => other w (List.mem_of_mem_take m)))
    (still ws other)

theorem Beside.forM {γ : Type} {body : γ → KvProg Unit} {l : List γ}
    (each : ∀ x ∈ l, Beside allowed (body x)) : Beside allowed (l.forM body) := by
  induction l with
  | nil => exact besidePure _
  | cons x l ih =>
    exact (each x List.mem_cons_self).bind (fun _ => ih (fun y m => each y (List.mem_cons_of_mem _ m)))

theorem besideScan (start : Bytes) {f : List Rec → KvProg β}
    (low : ∃ b rest, start = b :: rest ∧ b ≠ 0xFF)
    (next : ∀ rows : List Rec, (∀ r ∈ rows, allowed r.1 ∧ start <+: r.1) → Beside allowed (f rows)) :
    Beside allowed (Index.scanLive start (successor start) >>= f) := by
  intro v₀ v same rows lists keys
  obtain ⟨b, rest, rfl, low⟩ := low
  obtain ⟨s, found⟩ := successorSome rest low
  refine next _ (fun r m => ?_) v₀ v same
  have m := List.mem_of_mem_filter m
  have inside := lists.inside r m
  rw [found] at inside
  exact ⟨keys r m, (successorBetween found r.1).mp inside⟩

variable (index : ∀ key, key.head? = some indexTag → allowed key)
include index

theorem clearRangeBeside (rest : Bytes) : Beside allowed (Index.clearRange (indexTag :: rest)) := by
  refine besideScan _ ⟨indexTag, rest, rfl, by decide⟩ (fun rows keys => ?_)
  have tagged : ∀ w ∈ rows.map (fun r => (r.1, (none : Entry))), w.1.head? = some indexTag := by
    intro w m
    obtain ⟨r, mr, rfl⟩ := List.mem_map.mp m
    obtain ⟨t, same⟩ := (keys r mr).2
    change r.1.head? = _
    rw [← same]
    rfl
  refine besideWrites (fun w m => index _ (tagged w m)) (fun w m => ?_)
  rw [tagged w m]
  decide

theorem clearBeside (c f : UInt32) : Beside allowed (Index.clear c f) := clearRangeBeside index _

theorem clearCompositeBeside (c i : UInt32) : Beside allowed (Index.clearComposite c i) := by
  unfold Index.clearComposite
  cases successor (compositePrefix c i) with
  | none => exact besideFail _
  | some _ => exact clearRangeBeside index _

theorem besidePut {key : Bytes} (tagged : key.head? = some indexTag) (value : Bytes) :
    Beside allowed (KeyValue.put key value) := by
  intro v₀ v same
  have still : SameCells v₀ (KeyValue.written [(key, some value)] v) := by
    rw [writtenApplied]
    refine same.trans (fun c e f => cellElsewhere (fun w m => ?_))
    obtain rfl := List.mem_singleton.mp m
    rw [tagged]
    decide
  exact ⟨index key tagged, same, still, still⟩

theorem rebuildBeside (c f : UInt32) : Beside allowed (Index.rebuild c f) := by
  refine (clearBeside index c f).bind (fun _ => ?_)
  refine besideScan _ ⟨entityTag, _, rfl, by decide⟩ (fun rows _ => Beside.forM (fun r _ => ?_))
  unfold Index.rebuildRow
  split
  · split
    · exact besidePure _
    · exact (besideLift _).bind (fun _ => besidePut index rfl _)
  · exact besidePure _

theorem rebuildCompositeBeside (c i : UInt32) (fields : List UInt32) :
    Beside allowed (Index.rebuildComposite c i fields) := by
  refine (clearCompositeBeside index c i).bind (fun _ => ?_)
  obtain ⟨s, found⟩ := successorSome (b := entityTag) (le32 c) (by decide)
  have range : successor (collectionPrefix c) = some s := found
  rw [range]
  have scan := @besideScan Unit allowed (collectionPrefix c)
    (fun rows => KeyValue.writeAll (Index.compositeEntries c i fields
      (rows.foldl Index.entityRow .empty))) ⟨entityTag, _, rfl, by decide⟩ (fun rows _ => ?_)
  · rw [range] at scan
    exact scan
  · have tagged : ∀ w ∈ Index.compositeEntries c i fields (rows.foldl Index.entityRow .empty),
        w.1.head? = some indexTag := by
      intro w m
      obtain ⟨x, -, made⟩ := List.mem_filterMap.mp m
      dsimp only at made
      split at made
      · cases made
        rfl
      · cases made
    refine besideWrites (fun w m => index _ (tagged w m)) (fun w m => ?_)
    rw [tagged w m]
    decide

end Indexes
end MyLsmDb
