import MyLsmDb.KeyTrip
import MyLsmDb.TransactionView

/-! The fields of the entities in the map that a store shows: what a put and a delete find of
them, and what they leave. -/
namespace MyLsmDb
open ByteOrder (Bytes)
open Effect (Stop)
open KeyValue (Prog)
open OrderedEntries

section Cells

def cell (v : View) (c : UInt32) (e : Bytes) (f : UInt32) : Entry := v (encodeEntityKey c e f)

def cellValue (v : View) (c : UInt32) (e : Bytes) (f : UInt32) : Option Value :=
  (cell v c e f).bind (fun stored => (Value.decode stored).toOption)

variable {v : View} {c c' : UInt32} {e e' : Bytes} {f f' : UInt32}

theorem writtenApplied (ws : List Rec) (v : View) : KeyValue.written ws v = applied ws v := by
  induction ws generalizing v with
  | nil => rfl
  | cons w ws ih =>
    rw [appliedCons, ← ih]
    refine Eq.trans (b := KeyValue.written ws _) rfl ?_
    congr!

theorem encodeEntityKeySame :
    encodeEntityKey c e f = encodeEntityKey c' e' f' ↔ c = c' ∧ e = e' ∧ f = f' := by
  constructor
  · intro same
    have lengths := congrArg List.length same
    rw [encodeEntityKeyLength, encodeEntityKeyLength] at lengths
    obtain ⟨front, fields⟩ := List.append_inj' same (by simp)
    obtain ⟨rfl, rfl⟩ := entityPrefixInj front
    exact ⟨rfl, rfl, le32Inj fields⟩
  · rintro ⟨rfl, rfl, rfl⟩
    rfl

theorem entityKeyTag (c : UInt32) (e : Bytes) (f : UInt32) :
    (encodeEntityKey c e f).head? = some entityTag := rfl

def Elsewhere (ws : List Rec) : Prop := ∀ w ∈ ws, w.1.head? ≠ some entityTag

theorem appliedOther {ws : List Rec} {key : Bytes} (other : ∀ w ∈ ws, w.1 ≠ key) :
    applied ws v key = v key := by
  have none : lastWrite ws key = none :=
    lookupNone.mpr (fun w m => other w (List.mem_reverse.mp m))
  rw [appliedLast, none]
  rfl

theorem cellElsewhere {ws : List Rec} (h : Elsewhere ws) : cell (applied ws v) c e f = cell v c e f :=
  appliedOther (fun w m same => h w m (same ▸ entityKeyTag c e f))

theorem appliedDeletes (keys : List Bytes) (key : Bytes) :
    applied (keys.map (fun k => (k, none))) v key = if key ∈ keys then none else v key := by
  induction keys generalizing v with
  | nil => simp
  | cons k keys ih =>
    rw [List.map_cons, appliedCons, ih]
    by_cases later : key ∈ keys
    · simp [later]
    · by_cases same : key = k <;> simp [later, same]

def lastValue (written : List (UInt32 × Value)) (f : UInt32) : Option Value :=
  written.reverse.lookup f

theorem lastValueCons (w : UInt32 × Value) (written : List (UInt32 × Value)) (f : UInt32) :
    lastValue (w :: written) f = (lastValue written f).or (if f = w.1 then some w.2 else none) := by
  rw [lastValue, List.reverse_cons, List.lookup_append, lookupCons]
  rfl

theorem lastValueNone {written : List (UInt32 × Value)} :
    lastValue written f = none ↔ f ∉ written.map Prod.fst := by
  rw [lastValue, lookupNone]
  constructor
  · intro h m
    obtain ⟨w, mw, same⟩ := List.mem_map.mp m
    exact h w (List.mem_reverse.mpr mw) same
  · intro h w m same
    exact h (same ▸ List.mem_map_of_mem (List.mem_reverse.mp m))

theorem cellFieldPuts (written : List (UInt32 × Value)) :
    cell (applied (fieldPuts c e written) v) c' e' f =
      if c = c' ∧ e = e' then ((lastValue written f).map Value.encode).or (cell v c' e' f)
      else cell v c' e' f := by
  induction written generalizing v with
  | nil =>
    have none : lastValue [] f = none := rfl
    simp [fieldPuts, none]
  | cons w written ih =>
    have step : cell (Function.update v (encodeEntityKey c e w.1) (some w.2.encode)) c' e' f =
        if c = c' ∧ e = e' ∧ w.1 = f then some w.2.encode else cell v c' e' f := by
      rw [cell, Function.update_apply]
      simp only [eq_comm (a := encodeEntityKey c' e' f), encodeEntityKeySame]
      rfl
    have cons : fieldPuts c e (w :: written) =
        (encodeEntityKey c e w.1, some w.2.encode) :: fieldPuts c e written := rfl
    rw [cons, appliedCons, ih, step, lastValueCons]
    by_cases mine : c = c' ∧ e = e'
    · rw [if_pos mine, if_pos mine]
      cases later : lastValue written f with
      | some x => rfl
      | none =>
        by_cases same : f = w.1
        · simp [mine, same]
        · simp [mine, same, Ne.symm same]
    · rw [if_neg mine, if_neg mine, if_neg (fun h => mine ⟨h.1, h.2.1⟩)]

end Cells

section Reading
variable (v : View) (c : UInt32) (e : Bytes)

def Values (ids : List UInt32) (old : OldFields) : Prop :=
  ∀ f, old.values.get f = if f ∈ ids then cellValue v c e f else none

variable {v c e} {ids : List UInt32} {old : OldFields} {f : UInt32}

theorem OldFields.keepGet (old : OldFields) (f : UInt32) (stored : Bytes) (g : UInt32) :
    (old.keep f stored).values.get g =
      if g = f then (Value.decode stored).toOption.or (old.values.get g)
      else old.values.get g := by
  unfold OldFields.keep
  cases Value.decode stored with
  | ok value =>
    rw [OrderedMap.getInsert]
    by_cases same : g = f
    · rw [if_pos same, if_pos same]
      rfl
    · rw [if_neg same, if_neg same]
  | error e =>
    by_cases same : g = f
    · rw [if_pos same]
      rfl
    · rw [if_neg same]

theorem OldFields.keepStale (old : OldFields) (f : UInt32) (stored : Bytes) :
    (old.keep f stored).staleKeys = old.staleKeys := by
  unfold OldFields.keep
  cases Value.decode stored <;> rfl

theorem Values.keep (h : Values v c e ids old) {stored : Bytes} (live : cell v c e f = some stored) :
    Values v c e (f :: ids) (old.keep f stored) := by
  intro g
  have value : cellValue v c e f = (Value.decode stored).toOption := by
    rw [cellValue, live]
    rfl
  rw [OldFields.keepGet, h g]
  by_cases same : g = f
  · subst same
    rw [if_pos rfl, if_pos List.mem_cons_self, ← value]
    split <;> simp
  · rw [if_neg same]
    exact if_congr (by simp [same]) rfl rfl

theorem Values.skip (h : Values v c e ids old) (dead : cellValue v c e f = none) :
    Values v c e (f :: ids) old := by
  intro g
  rw [h g]
  by_cases same : g = f
  · subst same
    simp [dead]
  · exact if_congr (by simp [same]) rfl rfl

theorem Values.pass (h : Values v c e ids old) (known : f ∈ ids) : Values v c e (f :: ids) old := by
  intro g
  rw [h g]
  refine if_congr ?_ rfl rfl
  rw [List.mem_cons]
  exact ⟨.inr, fun m => m.elim (fun same => same ▸ known) id⟩

theorem Values.empty : Values v c e [] .empty := fun _ => rfl

def takeValue (need : UInt32 → Bool) (fid : UInt32) (old : OldFields) : Entry → OldFields
  | none => old
  | some stored => if need fid then old.keep fid stored else old

/-- A row of the scan over an entity: both the put and the delete note the keys of some fields
and the values of some. -/
def takeRow (stale need : UInt32 → Bool) (old : OldFields) (r : Rec) : OldFields :=
  match decodeEntityKey r.1 with
  | none => old
  | some (_, _, fid) => takeValue need fid (if stale fid then old.stale r.1 else old) r.2

theorem coldRowTakes (newIds : List UInt32) :
    coldRow newIds = takeRow (fun f => f ∉ newIds) (fun _ => true) := by
  funext old r
  unfold coldRow takeRow
  cases decodeEntityKey r.1 with
  | none => rfl
  | some k =>
    by_cases mine : k.2.2 ∈ newIds
    · simp only [mine, not_true_eq_false, decide_false, if_true, Bool.false_eq_true, if_false]
      cases r.2 <;> rfl
    · simp only [mine, not_false_eq_true, decide_true, if_true, if_false]
      cases r.2 <;> rfl

theorem deleteRowTakes (schema : Schema) (c : UInt32) :
    deleteRow schema c = takeRow (fun _ => true) (needOld schema c) := by
  funext old r
  unfold deleteRow takeRow
  cases decodeEntityKey r.1 with
  | none => rfl
  | some k => cases r.2 <;> rfl

variable {stale need : UInt32 → Bool}

theorem takeValueStale (fid : UInt32) (old : OldFields) (value : Entry) :
    (takeValue need fid old value).staleKeys = old.staleKeys := by
  cases value with
  | none => rfl
  | some stored =>
    change (if need fid then old.keep fid stored else old).staleKeys = _
    split
    · exact OldFields.keepStale _ _ _
    · rfl

theorem takeRowStale (old : OldFields) (r : Rec) (key : Bytes) :
    key ∈ (takeRow stale need old r).staleKeys ↔
      key ∈ old.staleKeys ∨ r.1 = key ∧ ∃ k, decodeEntityKey key = some k ∧ stale k.2.2 = true := by
  unfold takeRow
  cases decoded : decodeEntityKey r.1 with
  | none =>
    constructor
    · exact .inl
    · rintro (m | ⟨rfl, k, found, -⟩)
      · exact m
      · rw [decoded] at found
        cases found
  | some k =>
    dsimp only
    rw [takeValueStale]
    by_cases mine : stale k.2.2 = true
    · rw [if_pos mine]
      constructor
      · intro m
        rcases List.mem_append.mp m with m | m
        · exact .inl m
        · obtain rfl := List.mem_singleton.mp m
          exact .inr ⟨rfl, _, decoded, mine⟩
      · rintro (m | ⟨rfl, -⟩)
        · exact List.mem_append_left _ m
        · exact List.mem_append_right _ (List.mem_singleton.mpr rfl)
    · rw [if_neg mine]
      constructor
      · exact .inl
      · rintro (m | ⟨rfl, k', found, other⟩)
        · exact m
        · rw [decoded] at found
          cases found
          exact absurd other mine

theorem takenStale (rows : List Rec) (old : OldFields) (key : Bytes) :
    key ∈ (rows.foldl (takeRow stale need) old).staleKeys ↔
      key ∈ old.staleKeys ∨ (∃ r ∈ rows, r.1 = key) ∧
        ∃ k, decodeEntityKey key = some k ∧ stale k.2.2 = true := by
  induction rows generalizing old with
  | nil => simp
  | cons r rows ih =>
    rw [List.foldl_cons, ih, takeRowStale, or_assoc, ← or_and_right]
    simp

def Canonical (allowed : Bytes → Prop) (c : UInt32) (e : Bytes) : Prop :=
  ∀ key, allowed key → entityPrefix c e <+: key → ∃ f, key = encodeEntityKey c e f

theorem Values.takeRow (stale need : UInt32 → Bool) (h : Values v c e ids old) (short : e.length < 2 ^ 32) {r : Rec}
    (key : r.1 = encodeEntityKey c e f) (reads : r.2 = cell v c e f) :
    Values v c e (if need f then f :: ids else ids) (takeRow stale need old r) := by
  have decoded : decodeEntityKey r.1 = some (c, e, f) := key ▸ decodeEncodeEntityKey c short f
  have noted : Values v c e ids (if stale f then old.stale r.1 else old) := by
    intro g
    rw [← h g]
    split <;> rfl
  unfold MyLsmDb.takeRow
  rw [decoded]
  dsimp only
  rw [reads]
  cases live : cell v c e f with
  | none =>
    have dead : cellValue v c e f = none := by rw [cellValue, live]; rfl
    split
    · exact noted.skip dead
    · exact noted
  | some stored =>
    unfold takeValue
    dsimp only
    split
    · exact noted.keep live
    · exact noted

theorem takenValues (stale need : UInt32 → Bool) (h : Values v c e ids old) (short : e.length < 2 ^ 32) {rows : List Rec}
    (keys : ∀ r ∈ rows, ∃ f, r.1 = encodeEntityKey c e f ∧ r.2 = cell v c e f) :
    ∃ ids', Values v c e ids' (rows.foldl (takeRow stale need) old) ∧
      ∀ f, f ∈ ids' ↔ f ∈ ids ∨ need f = true ∧ ∃ r ∈ rows, r.1 = encodeEntityKey c e f := by
  induction rows generalizing ids old with
  | nil => exact ⟨ids, h, by simp⟩
  | cons r rows ih =>
    obtain ⟨g, key, reads⟩ := keys r List.mem_cons_self
    obtain ⟨ids', values, all⟩ := ih (h.takeRow stale need short key reads)
      (fun r m => keys r (List.mem_cons_of_mem _ m))
    refine ⟨ids', values, fun f => ?_⟩
    rw [all]
    have same : r.1 = encodeEntityKey c e f ↔ f = g := by
      rw [key, encodeEntityKeySame]
      simp [eq_comm]
    by_cases mine : need g = true
    · rw [if_pos mine]
      simp only [List.mem_cons, exists_eq_or_imp, same]
      by_cases eq : f = g
      · simp [eq, mine]
      · simp [eq]
    · rw [if_neg mine]
      simp only [List.mem_cons, exists_eq_or_imp, same]
      by_cases eq : f = g
      · simp [eq, mine]
      · simp [eq]

theorem entityRow {allowed : Bytes → Prop} (canonical : Canonical allowed c e) {rows : List Rec}
    (lists : KeyValue.Lists v (some (entityRange c e).1) (entityRange c e).2 rows)
    (keys : ∀ r ∈ rows, allowed r.1) {r : Rec} (m : r ∈ rows) :
    ∃ f, r.1 = encodeEntityKey c e f ∧ r.2 = cell v c e f := by
  have inside := lists.inside r m
  obtain ⟨f, key⟩ := canonical r.1 (keys r m) ((entityRangeBetween c e r.1).mp inside)
  refine ⟨f, key, ?_⟩
  rw [cell, ← key, ← lists.reads r.1 inside, memLookup lists.ascending m]
  rfl

theorem entityListed {rows : List Rec}
    (lists : KeyValue.Lists v (some (entityRange c e).1) (entityRange c e).2 rows)
    (live : cell v c e f ≠ none) : ∃ r ∈ rows, r.1 = encodeEntityKey c e f := by
  have inside := (entityRangeBetween c e (encodeEntityKey c e f)).mpr (List.prefix_append _ _)
  have reads := lists.reads _ inside
  cases found : rows.lookup (encodeEntityKey c e f) with
  | none =>
    rw [found] at reads
    exact absurd reads.symm live
  | some entry => exact ⟨_, lookupMem found, rfl⟩

end Reading

section Meeting
variable {allowed : Bytes → Prop} {broken : View → Prop} {refused : Stop Error → View → Prop}
  {schema : Schema} {c : UInt32} {e : Bytes} {newIds : List UInt32} {v : View}

/-- What a put has found out before it writes: all fields that are to be removed, and where keys
are as they should be the values that an index needs. -/
structure Found (allowed : Bytes → Prop) (schema : Schema) (c : UInt32) (e : Bytes)
    (newIds : List UInt32) (v : View) (old : OldFields) : Prop where
  mine : ∀ key ∈ old.staleKeys, allowed key ∧ entityPrefix c e <+: key
  others : ∀ f ∈ newIds, Canonical allowed c e → encodeEntityKey c e f ∉ old.staleKeys
  all : ∀ f ∉ newIds, cell v c e f ≠ none → encodeEntityKey c e f ∈ old.staleKeys
  values : Canonical allowed c e → ∀ f, needOld schema c f = true →
    old.values.get f = cellValue v c e f

theorem cellValueDead {f : UInt32} (dead : cell v c e f = none) : cellValue v c e f = none := by
  rw [cellValue, dead]
  rfl

theorem coldFinds (schema : Schema) (short : e.length < 2 ^ 32) :
    (coldOld c e newIds).Meets allowed broken (fun old v' => v' = v ∧
      Found allowed schema c e newIds v old) refused v := by
  intro rows lists keys
  refine ⟨rfl, ?_, ?_, ?_, ?_⟩
  · intro key m
    rw [coldRowTakes, takenStale] at m
    rcases m with m | ⟨⟨r, mr, rfl⟩, -⟩
    · cases m
    · exact ⟨keys r mr, (entityRangeBetween c e r.1).mp (lists.inside r mr)⟩
  · intro f mf _ m
    rw [coldRowTakes, takenStale, decodeEncodeEntityKey c short f] at m
    rcases m with m | ⟨-, k, same, out⟩
    · cases m
    · cases same
      exact (of_decide_eq_true out) mf
  · intro f out live
    rw [coldRowTakes, takenStale, decodeEncodeEntityKey c short f]
    exact .inr ⟨entityListed lists live, _, rfl, decide_eq_true out⟩
  · intro canonical f _
    rw [coldRowTakes]
    obtain ⟨ids, values, all⟩ := takenValues (fun f => f ∉ newIds) (fun _ => true)
      (Values.empty (v := v) (c := c) (e := e)) short
      (fun r m => entityRow canonical lists keys m)
    rw [values f]
    by_cases dead : cell v c e f = none
    · rw [cellValueDead dead, ite_self]
    · rw [if_pos ((all f).mpr (.inr ⟨rfl, entityListed lists dead⟩))]

/-- What has been noted of some fields: their keys if they are to be removed, their values if an
index needs them. -/
structure Noted (schema : Schema) (c : UInt32) (e : Bytes) (v : View) (gone seen : List UInt32)
    (old : OldFields) : Prop where
  stale : ∀ key, key ∈ old.staleKeys ↔ ∃ f ∈ gone, cell v c e f ≠ none ∧ key = encodeEntityKey c e f
  values : Values v c e (seen.filter (needOld schema c)) old

theorem getCell (f : UInt32) :
    (KeyValue.get (encodeEntityKey c e f) : KvProg _).Meets allowed broken
      (fun found v' => found = cell v c e f ∧ v' = v) refused v :=
  ⟨rfl, rfl⟩

theorem staleFieldNotes {gone seen : List UInt32} {old : OldFields} (f : UInt32)
    (h : Noted schema c e v gone seen old) : (staleField schema c e old f).Meets allowed broken
      (fun old' v' => v' = v ∧ Noted schema c e v (f :: gone) (f :: seen) old') refused v := by
  have dead : cell v c e f = none → Noted schema c e v (f :: gone) (f :: seen) old := by
    intro none
    refine ⟨fun key => ?_, ?_⟩
    · rw [h.stale]
      simp [none]
    · rw [List.filter_cons]
      split
      · exact h.values.skip (cellValueDead none)
      · exact h.values
  have lives : ∀ stored, cell v c e f = some stored →
      Noted schema c e v (f :: gone) (f :: seen) (if needOld schema c f then
        (old.stale (encodeEntityKey c e f)).keep f stored
        else old.stale (encodeEntityKey c e f)) := by
    intro stored live
    have keys : ∀ key, key ∈ (old.stale (encodeEntityKey c e f)).staleKeys ↔
        ∃ g ∈ f :: gone, cell v c e g ≠ none ∧ key = encodeEntityKey c e g := by
      intro key
      change key ∈ old.staleKeys ++ [encodeEntityKey c e f] ↔ _
      rw [List.mem_append, h.stale]
      simp [live, or_comm]
    have values : Values v c e (seen.filter (needOld schema c))
        (old.stale (encodeEntityKey c e f)) := h.values
    by_cases need : needOld schema c f = true
    · rw [if_pos need]
      refine ⟨fun key => ?_, ?_⟩
      · rw [OldFields.keepStale]
        exact keys key
      · rw [List.filter_cons, if_pos need]
        exact values.keep live
    · rw [if_neg need]
      refine ⟨keys, ?_⟩
      rw [List.filter_cons, if_neg need]
      exact values
  refine Prog.Meets.bind (getCell f) ?_
  rintro found v' ⟨same, rfl⟩
  cases found with
  | none => exact ⟨rfl, dead same.symm⟩
  | some stored => exact ⟨rfl, lives stored same.symm⟩

theorem writtenFieldNotes {gone seen : List UInt32} {old : OldFields} (w : UInt32 × Value)
    (h : Noted schema c e v gone seen old) : (writtenField schema c e old w).Meets allowed broken
      (fun old' v' => v' = v ∧ Noted schema c e v gone (w.1 :: seen) old') refused v := by
  unfold writtenField
  by_cases need : needOld schema c w.1 = true
  · rw [if_neg (by simp [need])]
    refine Prog.Meets.bind (getCell w.1) ?_
    rintro found v' ⟨same, rfl⟩
    cases found with
    | none =>
      refine ⟨rfl, h.stale, ?_⟩
      rw [List.filter_cons, if_pos need]
      exact h.values.skip (cellValueDead same.symm)
    | some stored =>
      refine ⟨rfl, fun key => ?_, ?_⟩
      · rw [OldFields.keepStale]
        exact h.stale key
      · rw [List.filter_cons, if_pos need]
        exact h.values.keep same.symm
  · rw [if_pos (by simp [need])]
    refine ⟨rfl, h.stale, ?_⟩
    rw [List.filter_cons, if_neg need]
    exact h.values

theorem warmFinds {hint : List UInt32} {written : List (UInt32 × Value)}
    (own : ∀ f, allowed (encodeEntityKey c e f)) (covers : ∀ f, cell v c e f ≠ none → f ∈ hint)
    (ids : ∀ f, f ∈ newIds ↔ f ∈ written.map Prod.fst) :
    (warmOld schema c e hint newIds written).Meets allowed broken
      (fun old v' => v' = v ∧ Found allowed schema c e newIds v old) refused v := by
  have start : Noted schema c e v [] [] .empty := ⟨fun key => by simp [OldFields.empty], Values.empty⟩
  refine Prog.Meets.bind (KeyValue.meetsFold (fun done old => Noted schema c e v done done old)
    (fun old f done h => staleFieldNotes f h) _ start) ?_
  rintro old v' ⟨rfl, noted⟩
  rw [List.append_nil] at noted
  have noted : Noted schema c e v' (hint.filter (fun f => f ∉ newIds)).reverse
      (([] : List (UInt32 × Value)).map Prod.fst ++ (hint.filter (fun f => f ∉ newIds)).reverse)
      old := noted
  refine (KeyValue.meetsFold (fun done old => Noted schema c e v'
      (hint.filter (fun f => f ∉ newIds)).reverse
      (done.map Prod.fst ++ (hint.filter (fun f => f ∉ newIds)).reverse) old)
    (fun old w done h => writtenFieldNotes w h) written noted).mono ?_ (fun _ _ => id)
  rintro old' v'' ⟨rfl, all⟩
  simp only [List.append_nil] at all
  refine ⟨rfl, ?_, ?_, ?_, ?_⟩
  · intro key m
    obtain ⟨f, -, -, rfl⟩ := (all.stale key).mp m
    exact ⟨own f, List.prefix_append _ _⟩
  · intro f mf _ m
    obtain ⟨g, mg, -, same⟩ := (all.stale _).mp m
    obtain ⟨-, -, rfl⟩ := encodeEntityKeySame.mp same
    exact of_decide_eq_true (List.mem_filter.mp (List.mem_reverse.mp mg)).2 mf
  · intro f out live
    refine (all.stale _).mpr ⟨f, ?_, live, rfl⟩
    exact List.mem_reverse.mpr (List.mem_filter.mpr ⟨covers f live, decide_eq_true out⟩)
  · intro _ f need
    rw [all.values f]
    by_cases dead : cell v'' c e f = none
    · rw [cellValueDead dead, ite_self]
    · refine if_pos (List.mem_filter.mpr ⟨?_, need⟩)
      by_cases new : f ∈ newIds
      · refine List.mem_append_left _ ?_
        rw [List.map_reverse, List.mem_reverse]
        exact (ids f).mp new
      · refine List.mem_append_right _ (List.mem_reverse.mpr ?_)
        exact List.mem_filter.mpr ⟨covers f dead, decide_eq_true new⟩

variable {written : List (UInt32 × Value)}

abbrev putIds (written : List (UInt32 × Value)) : List UInt32 := (written.map Prod.fst).dedup

theorem putFinds {post : Unit → View → Prop} {hinted : Option (List UInt32)}
    (short : e.length < 2 ^ 32) (own : ∀ f, allowed (encodeEntityKey c e f))
    (covers : ∀ hint, hinted = some hint → ∀ f, cell v c e f ≠ none → f ∈ hint)
    (next : ∀ old, Found allowed schema c e (putIds written) v old →
      (KeyValue.writeAll (putWrites schema c e written old) : KvProg Unit).Meets allowed broken
        post refused v) :
    (putFields schema c e written hinted).Meets allowed broken post refused v := by
  unfold putFields
  cases hinted with
  | none =>
    refine Prog.Meets.bind (coldFinds schema short) ?_
    rintro old v' ⟨rfl, found⟩
    exact next old found
  | some hint =>
    refine Prog.Meets.bind (warmFinds own (covers hint rfl) (fun f => List.mem_dedup)) ?_
    rintro old v' ⟨rfl, found⟩
    exact next old found

section Writes
variable {old : OldFields} {c' : UInt32} {e' : Bytes} {f : UInt32}

theorem indexPutsElsewhere : Elsewhere (indexPuts schema c e written old) := by
  intro w m
  obtain ⟨x, -, rfl⟩ := List.mem_map.mp m
  simp [encodeIndexKey, indexTag, entityTag]

theorem compositePutsElsewhere : Elsewhere (compositePuts schema c e written old) := by
  intro w m
  obtain ⟨d, -, made⟩ := List.mem_filterMap.mp m
  dsimp only at made
  split at made
  · cases made
    simp [encodeCompositeIndexKey, compositePrefix, indexTag, entityTag]
  · cases made

theorem indexDeletesElsewhere : Elsewhere (indexDeletes schema c e written old) := by
  intro w m
  obtain ⟨x, -, rfl⟩ := List.mem_map.mp m
  simp [encodeIndexKey, indexTag, entityTag]

theorem compositeDeletesElsewhere : Elsewhere (compositeDeletes schema c e written old) := by
  intro w m
  obtain ⟨d, -, made⟩ := List.mem_filterMap.mp m
  dsimp only at made
  split at made
  · cases made
    simp [encodeCompositeIndexKey, compositePrefix, indexTag, entityTag]
  · cases made

theorem cellPut : cell (applied (putWrites schema c e written old) v) c' e' f =
    if c = c' ∧ e = e' then ((lastValue written f).map Value.encode).or
        (if encodeEntityKey c' e' f ∈ old.staleKeys then none else cell v c' e' f)
      else if encodeEntityKey c' e' f ∈ old.staleKeys then none else cell v c' e' f := by
  unfold putWrites
  rw [appliedAppend, cellElsewhere compositeDeletesElsewhere, appliedAppend,
    cellElsewhere indexDeletesElsewhere, appliedAppend, cellFieldPuts, appliedAppend]
  have deleted : ∀ v' : View, cell (applied (staleDeletes old) v') c' e' f =
      if encodeEntityKey c' e' f ∈ old.staleKeys then none else cell v' c' e' f :=
    fun v' => appliedDeletes _ _
  rw [deleted, appliedAppend, cellElsewhere compositePutsElsewhere,
    cellElsewhere indexPutsElsewhere]

theorem cellPutOwn (found : Found allowed schema c e (putIds written) v old) :
    cell (applied (putWrites schema c e written old) v) c e f =
      (lastValue written f).map Value.encode := by
  rw [cellPut, if_pos ⟨rfl, rfl⟩]
  cases last : lastValue written f with
  | some x => rfl
  | none =>
    have out : f ∉ putIds written := by
      rw [putIds, List.mem_dedup]
      exact lastValueNone.mp last
    by_cases live : cell v c e f = none
    · rw [live, ite_self]
      rfl
    · rw [if_pos (found.all f out live)]
      rfl

theorem staleOther (found : Found allowed schema c e newIds v old)
    (canonical : Canonical allowed c e) (other : ¬ (c = c' ∧ e = e')) :
    encodeEntityKey c' e' f ∉ old.staleKeys := by
  intro m
  obtain ⟨key, mine⟩ := found.mine _ m
  obtain ⟨g, same⟩ := canonical _ key mine
  obtain ⟨rfl, rfl, -⟩ := encodeEntityKeySame.mp same
  exact other ⟨rfl, rfl⟩

theorem cellPutOther (found : Found allowed schema c e (putIds written) v old)
    (canonical : Canonical allowed c e) (other : ¬ (c = c' ∧ e = e')) :
    cell (applied (putWrites schema c e written old) v) c' e' f = cell v c' e' f := by
  rw [cellPut, if_neg other, if_neg (staleOther found canonical other)]

/-- No field is there that was not, but for `ids` of one entity. -/
def Within (c : UInt32) (e : Bytes) (ids : List UInt32) (v v' : View) : Prop :=
  ∀ c' e' f, cell v' c' e' f ≠ none → cell v c' e' f ≠ none ∨ c' = c ∧ e' = e ∧ f ∈ ids

/-- Writes that only remove fields, but for `ids` of one entity. -/
def Sparing (c : UInt32) (e : Bytes) (ids : List UInt32) (ws : List Rec) : Prop :=
  ∀ w ∈ ws, w.2 ≠ none → w.1.head? = some entityTag → ∃ f ∈ ids, w.1 = encodeEntityKey c e f

theorem Sparing.within {ids : List UInt32} {ws : List Rec} (h : Sparing c e ids ws) :
    Within c e ids v (applied ws v) := by
  intro c' e' f live
  rw [cell, appliedLast] at live
  cases last : lastWrite ws (encodeEntityKey c' e' f) with
  | none =>
    rw [last] at live
    exact .inl live
  | some entry =>
    rw [last] at live
    obtain ⟨g, mg, same⟩ := h _ (List.mem_reverse.mp (lookupMem last)) live (entityKeyTag c' e' f)
    obtain ⟨rfl, rfl, rfl⟩ := encodeEntityKeySame.mp same
    exact .inr ⟨rfl, rfl, mg⟩

theorem Sparing.take {ids : List UInt32} {ws : List Rec} (h : Sparing c e ids ws) (n : Nat) :
    Sparing c e ids (ws.take n) := fun w m => h w (List.mem_of_mem_take m)

theorem sparingPut : Sparing c e (putIds written) (putWrites schema c e written old) := by
  intro w m live entity
  simp only [putWrites, List.mem_append, or_assoc] at m
  rcases m with m | m | m | m | m | m
  · exact absurd entity (indexPutsElsewhere w m)
  · exact absurd entity (compositePutsElsewhere w m)
  · obtain ⟨key, -, rfl⟩ := List.mem_map.mp m
    exact absurd rfl live
  · obtain ⟨x, mx, rfl⟩ := List.mem_map.mp m
    exact ⟨x.1, List.mem_dedup.mpr (List.mem_map_of_mem mx), rfl⟩
  · exact absurd entity (indexDeletesElsewhere w m)
  · exact absurd entity (compositeDeletesElsewhere w m)

end Writes
end Meeting
end MyLsmDb
