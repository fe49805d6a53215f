import MyLsmDb.Executor

/-! What becomes of rows that cannot be read. Every source hands an error out in the place of the
row, and a filter takes errors for rows that do not satisfy it. -/
namespace MyLsmDb
open ByteOrder (Bytes)
open Effect (Stop)
open OrderedEntries
open Text

/-- Nothing but a result or an error of the program, no panic. -/
def Reported {α : Type} (x : Fallible α) : Prop := ∀ stop, x = .error stop → ∃ e, stop = .error e

namespace Reported
variable {α β : Type}

theorem ok (a : α) : Reported (.ok a) := fun _ h => by cases h

theorem error (e : Error) : Reported (.error (.error e) : Fallible α) := fun _ h => by
  cases h
  exact ⟨e, rfl⟩

theorem bind {x : Fallible α} {f : α → Fallible β} (hx : Reported x) (hf : ∀ a, Reported (f a)) :
    Reported (x >>= f) := by
  cases x with
  | ok a => exact hf a
  | error stop =>
    obtain ⟨e, rfl⟩ := hx stop rfl
    exact error e

theorem ofIte {p : Prop} [Decidable p] {x y : Fallible α} (hx : Reported x) (hy : Reported y) :
    Reported (if p then x else y) := by
  split
  · exact hx
  · exact hy

end Reported

theorem readLenPrefixReported (data : Bytes) : Reported (Value.readLenPrefix data) :=
  .ofIte (.error _) (.ok _)

theorem decodeReported (data : Bytes) : Reported (Value.decode data) := by
  cases data with
  | nil => exact .error _
  | cons tag rest =>
    refine .ofIte (.ok _) (.ofIte ?_ (.ofIte (.ofIte (.error _) (.ok _))
      (.ofIte (.ofIte (.error _) (.ok _)) (.ofIte ?_ (.ofIte ?_ (.error _))))))
    · cases rest with
      | nil => exact .error _
      | cons b rest => exact .ok _
    · refine (readLenPrefixReported _).bind (fun s => .ofIte (.error _) ?_)
      split
      · exact .ok _
      · exact .error _
    · exact (readLenPrefixReported _).bind (fun s => .ofIte (.error _) (.ok _))

namespace Executor

section Sources
variable (v : ReadView) (schema : Schema) (c : UInt32)

def badField (fid : UInt32) (stored : Bytes) : Bool :=
  !(Value.decode stored).isOk || (schema.fieldName.get (toLex (c, fid))).isNone

/-- For each row that a full scan hands out, whether it is an error; `current` is the entity that
is being collected. -/
def scanDamage : Option Bytes → List (Except Error Rec) → List Bool
  | current, [] => current.toList.map (fun _ => false)
  | current, .error _ :: rest => true :: scanDamage current rest
  | current, .ok (key, value) :: rest =>
    match decodeEntityKey key, value with
    | none, _ => scanDamage current rest
    | some _, none => scanDamage current rest
    | some (_, entity, fid), some stored =>
      if badField schema c fid stored || !isUtf8 entity then true :: scanDamage current rest
      else if current = some entity then scanDamage current rest
      else current.toList.map (fun _ => false) ++ scanDamage (some entity) rest

/-- A row among those of an entity that the entity cannot be read with. -/
def badRow : Except Error Rec → Bool
  | .error _ => true
  | .ok (key, value) => match decodeEntityKey key with
    | none => true
    | some (_, _, fid) => value.any (badField schema c fid)

def live : Except Error Rec → Bool
  | .error _ => false
  | .ok (_, value) => value.isSome

/-- Whether the entity cannot be read; `none` when there is none. -/
def entityDamage (id : Utf8) : Option Bool :=
  let (start, stop) := entityRange c id.bytes
  match v.scan (some start) stop with
  | .error _ => some true
  | .ok rows =>
    if rows.any (badRow schema c) then some true else if rows.any live then some false else none

/-- The same for a candidate of an index-order scan, whose field is looked at first. -/
def candidateDamage (f : UInt32) (lower upper : Bound) (cand : Value × Utf8) : Option Bool :=
  match v.get (encodeEntityKey c cand.2.bytes f) with
  | .error _ => some true
  | .ok none => none
  | .ok (some stored) => match Value.decode stored with
    | .error _ => some true
    | .ok actual => if within actual lower upper then entityDamage v schema c cand.2 else none

def fetchDamage (ids : Fallible (List Utf8)) (collection : Chars) : List Bool :=
  match ids, schema.lookupCollectionId collection with
  | .ok ids, some c => ids.filterMap (entityDamage v schema c)
  | _, _ => []

/-- The candidates of an index-order scan, in the order of the scan. -/
def orderCandidates (c f : UInt32) (lower upper : Bound) (dir : SortDir) :
    Fallible (List (Value × Utf8)) := do
  let (start, stop) := indexRange c f lower upper
  let cands ← candidates (← v.rows (some start) stop)
  return cands.mergeSort (fun a b => (candidateCmp dir a b).isLE)

def orderDamage (collection field : Chars) (lower upper : Bound) (dir : SortDir) : List Bool :=
  match schema.lookupCollectionId collection with
  | none => []
  | some c => match schema.lookupFieldId c field with
    | none => []
    | some f =>
      if (schema.findIndex c f).isNone then []
      else match orderCandidates v c f lower upper dir with
        | .error _ => []
        | .ok cands => cands.filterMap (candidateDamage v schema c f lower upper)

/-- For each row that a plan hands out, whether it is an error. Nothing damaged comes through a
filter, and a sort or a union of rows stops at what is damaged before it hands out any row. -/
def damage : PhysicalPlan → List Bool
  | .fullScan collection => match schema.lookupCollectionId collection with
    | none => []
    | some c => match v.scan (some (collectionPrefix c)) (successor (collectionPrefix c)) with
      | .error _ => []
      | .ok rows => scanDamage schema c none rows
  | .indexOrderScan collection field lower upper dir =>
    orderDamage v schema collection field lower upper dir
  | .indexScan collection field lower upper =>
    fetchDamage v schema (indexScan v schema collection field lower upper) collection
  | .compositeIndexScan collection index fieldIds leading =>
    fetchDamage v schema (indexCompositeScan v schema collection index fieldIds leading) collection
  | .fetch input collection => fetchDamage v schema (candidateIds v schema input) collection
  | .limit input n => (damage input).take n
  | .filter _ _ => []
  | .sort _ _ _ => []
  | .unionIds _ => []

end Sources

def failed {α : Type} (item : Fallible α) : Bool := !item.isOk

section Reads
variable (v : ReadView) (schema : Schema) (c : UInt32)

theorem collectedAnswered {α : Type} (items : List (Except Error α)) :
    (∃ l, items = l.map .ok ∧ collected (items.map answered) = .ok l) ∨
      ((∃ e, .error e ∈ items) ∧ ∃ e, collected (items.map answered) = .error (.error e)) := by
  induction items with
  | nil => exact .inl ⟨[], rfl, rfl⟩
  | cons item items ih =>
    cases item with
    | error e => exact .inr ⟨⟨e, List.mem_cons_self⟩, e, rfl⟩
    | ok a =>
      have step : collected ((Except.ok a :: items).map answered) =
        (collected (items.map answered) >>= fun l => pure (a :: l)) := rfl
      rw [step]
      cases ih with
      | inl h =>
        obtain ⟨l, same, all⟩ := h
        exact .inl ⟨a :: l, by rw [same, List.map_cons], by rw [all]; rfl⟩
      | inr h =>
        obtain ⟨⟨e, found⟩, e', stopped⟩ := h
        exact .inr ⟨⟨e, List.mem_cons_of_mem _ found⟩, e', by rw [stopped]; rfl⟩

theorem fieldsOfDamage (rows : List Rec) :
    ((rows.map .ok).any (badRow schema c) = true ∧ ∃ e, fieldsOf schema c rows = .error (.error e)) ∨
      ((rows.map .ok).any (badRow schema c) = false ∧
        ∃ fields, fieldsOf schema c rows = .ok fields ∧
          (fields = [] ↔ (rows.map .ok).any live = false)) := by
  induction rows with
  | nil => exact .inr ⟨rfl, [], rfl, by simp⟩
  | cons r rows ih =>
    obtain ⟨key, value⟩ := r
    cases hk : decodeEntityKey key with
    | none =>
      refine .inl ⟨?_, .invalidFormat "bad entity key", ?_⟩
      · simp [badRow, hk]
      · rw [fieldsOf, hk]
        rfl
    | some k =>
      obtain ⟨c', entity, fid⟩ := k
      cases value with
      | none =>
        have bad : badRow schema c (.ok (key, none)) = false := by simp [badRow, hk]
        have dead : live (.ok (key, none)) = false := rfl
        rw [List.map_cons, List.any_cons, bad, Bool.false_or, List.any_cons, dead, Bool.false_or,
          fieldsOf, hk]
        exact ih
      | some stored =>
        have alive : live (.ok (key, some stored)) = true := rfl
        have bad : badRow schema c (.ok (key, some stored)) = badField schema c fid stored := by
          simp [badRow, hk]
        rw [List.map_cons, List.any_cons, bad, List.any_cons, alive, Bool.true_or, fieldsOf, hk]
        cases hd : Value.decode stored with
        | error stop =>
          obtain ⟨e, rfl⟩ := decodeReported stored stop hd
          refine .inl ⟨?_, e, ?_⟩
          · simp [badField, hd, Except.isOk, Except.toBool]
          · simp only [hd]
            rfl
        | ok val =>
          cases hn : schema.fieldName.get (toLex (c, fid)) with
          | none =>
            refine .inl ⟨?_, .invalidFormat s!"unknown field id {fid.toNat}", ?_⟩
            · simp [badField, hn]
            · simp only [hd, hn, bind, Except.bind]
              rfl
          | some name =>
            have good : badField schema c fid stored = false := by
              simp [badField, hd, hn, Except.isOk, Except.toBool]
            rw [good, Bool.false_or]
            cases ih with
            | inl h =>
              obtain ⟨damaged, e, stopped⟩ := h
              exact .inl ⟨damaged, e, by simp only [hd, hn, stopped, bind, Except.bind]⟩
            | inr h =>
              obtain ⟨whole, fields, all, _⟩ := h
              refine .inr ⟨whole, (name, val) :: fields, ?_, by simp⟩
              simp only [hd, hn, all, bind, Except.bind]
              rfl

theorem readEntity (e : Bytes) : v.read (coreGetEntity schema c e) =
    (v.rows (some (entityRange c e).1) (entityRange c e).2 >>= fun rows =>
      fieldsOf schema c rows >>= fun fields =>
        pure (if fields = [] then none else some ⟨fields⟩)) := by
  have start : coreGetEntity schema c e = .scan (some (entityRange c e).1) (entityRange c e).2
      (fun rows => KeyValue.lift (fieldsOf schema c rows) >>= fun fields =>
        pure (if fields = [] then none else some ⟨fields⟩)) := rfl
  rw [start, ReadView.readScan]
  congr 1
  funext rows
  cases fieldsOf schema c rows with
  | ok fields => rfl
  | error e => rfl

theorem readEntityDamage (id : Utf8) :
    (entityDamage v schema c id = some true ∧
      ∃ e, v.read (coreGetEntity schema c id.bytes) = .error (.error e)) ∨
    (entityDamage v schema c id = none ∧ v.read (coreGetEntity schema c id.bytes) = .ok none) ∨
    (entityDamage v schema c id = some false ∧
      ∃ entity, v.read (coreGetEntity schema c id.bytes) = .ok (some entity)) := by
  rw [readEntity, ReadView.rows, entityDamage]
  cases hs : v.scan (some (entityRange c id.bytes).1) (entityRange c id.bytes).2 with
  | error e => exact .inl ⟨by simp only [hs], e, rfl⟩
  | ok items =>
    simp only [hs]
    cases collectedAnswered items with
    | inr h =>
      obtain ⟨⟨e, found⟩, e', stopped⟩ := h
      have damaged : items.any (badRow schema c) = true := List.any_eq_true.mpr ⟨_, found, rfl⟩
      exact .inl ⟨if_pos damaged, e', by simp only [answered, bind, Except.bind, stopped]⟩
    | inl h =>
      obtain ⟨rows, rfl, all⟩ := h
      have read : (answered (.ok (rows.map .ok)) >>= fun l => collected (l.map answered)) =
        .ok rows := all
      rw [read]
      cases fieldsOfDamage schema c rows with
      | inl h =>
        obtain ⟨damaged, e, stopped⟩ := h
        exact .inl ⟨if_pos damaged, e, by simp only [bind, Except.bind, stopped]⟩
      | inr h =>
        obtain ⟨whole, fields, found, empty⟩ := h
        rw [if_neg (by simp [whole])]
        by_cases gone : fields = []
        · refine .inr (.inl ⟨by simp [empty.mp gone], ?_⟩)
          simp only [bind, Except.bind, found, if_pos gone]
          rfl
        · refine .inr (.inr ⟨?_, ⟨fields⟩, ?_⟩)
          · exact if_pos (Bool.not_eq_false _ ▸ fun h => gone (empty.mpr h))
          · simp only [bind, Except.bind, found, if_neg gone]
            rfl

theorem fetchRowDamage (id : Utf8) :
    (fetchRow v schema c id).map failed = entityDamage v schema c id ∧
      ∀ item ∈ fetchRow v schema c id, Reported item := by
  unfold fetchRow
  obtain ⟨state, e, found⟩ | ⟨state, found⟩ | ⟨state, entity, found⟩ :=
    readEntityDamage v schema c id
  · rw [state, found]
    refine ⟨rfl, fun item m => ?_⟩
    cases m
    exact .error e
  · rw [state, found]
    exact ⟨rfl, fun item m => by cases m⟩
  · rw [state, found]
    refine ⟨rfl, fun item m => ?_⟩
    cases m
    exact .ok _

theorem orderRowDamage (f : UInt32) (lower upper : Bound) (cand : Value × Utf8) :
    (orderRow v schema c f lower upper cand).map failed =
        candidateDamage v schema c f lower upper cand ∧
      ∀ item ∈ orderRow v schema c f lower upper cand, Reported item := by
  unfold orderRow candidateDamage ReadView.find
  cases v.get (encodeEntityKey c cand.2.bytes f) with
  | error e =>
    refine ⟨rfl, fun item m => ?_⟩
    cases m
    exact .error e
  | ok found =>
    cases found with
    | none => exact ⟨rfl, fun item m => by cases m⟩
    | some stored =>
      simp only [answered]
      cases hd : Value.decode stored with
      | error stop =>
        obtain ⟨e, rfl⟩ := decodeReported stored stop hd
        refine ⟨rfl, fun item m => ?_⟩
        cases m
        exact .error e
      | ok actual =>
        by_cases inside : within actual lower upper
        · simp only [if_pos inside]
          exact fetchRowDamage v schema c cand.2
        · simp only [if_neg inside]
          exact ⟨rfl, fun item m => by cases m⟩

/-- The items are errors where the flags say so, and no panics. -/
structure Outline {α : Type} (items : List (Fallible α)) (flags : List Bool) : Prop where
  shape : items.map failed = flags
  reported : ∀ item ∈ items, Reported item

theorem Outline.nil {α : Type} : Outline ([] : List (Fallible α)) [] :=
  ⟨rfl, fun item m => by cases m⟩

theorem Outline.cons {α : Type} {item : Fallible α} {items : List (Fallible α)} {flags : List Bool}
    (h : Reported item) (rest : Outline items flags) :
    Outline (item :: items) (failed item :: flags) := by
  constructor
  · rw [List.map_cons, rest.shape]
  · intro i m
    cases List.mem_cons.mp m with
    | inl same => exact same ▸ h
    | inr inside => exact rest.reported i inside

theorem Outline.append {α : Type} {items items' : List (Fallible α)} {flags flags' : List Bool}
    (h : Outline items flags) (h' : Outline items' flags') :
    Outline (items ++ items') (flags ++ flags') := by
  constructor
  · rw [List.map_append, h.shape, h'.shape]
  · intro item m
    cases List.mem_append.mp m with
    | inl m => exact h.reported item m
    | inr m => exact h'.reported item m

theorem Outline.filterMap {α β : Type} {f : α → Option (Fallible β)} {g : α → Option Bool}
    (h : ∀ a, (f a).map failed = g a ∧ ∀ item ∈ f a, Reported item) (l : List α) :
    Outline (l.filterMap f) (l.filterMap g) := by
  constructor
  · rw [List.map_filterMap]
    exact congrArg (l.filterMap ·) (funext fun a => (h a).1)
  · intro item m
    obtain ⟨a, _, found⟩ := List.mem_filterMap.mp m
    exact (h a).2 item found

/-- The entity that is being collected has a field. -/
def Begun (current : Option Row) : Prop := ∀ r ∈ current, r.2.fields ≠ []

theorem finishedDamage {current : Option Row} (begun : Begun current) :
    Outline (finished current) ((current.map (·.1.bytes)).toList.map (fun _ => false)) := by
  cases current with
  | none => exact .nil
  | some r =>
    rw [finished, if_neg (begun r rfl)]
    exact .cons (.ok r) .nil

theorem insertBegun (id : Utf8) (e : Entity) (name : Chars) (value : Value) :
    Begun (some (id, e.insert name value)) := by
  intro r same
  cases same
  simp [Entity.insert]

theorem assembleDamage {current : Option Row} (begun : Begun current)
    (rows : List (Except Error Rec)) :
    Outline (assemble schema c current rows)
      (scanDamage schema c (current.map (·.1.bytes)) rows) := by
  induction rows generalizing current with
  | nil => exact finishedDamage begun
  | cons r rows ih =>
    cases r with
    | error e => exact .cons (.error e) (ih begun)
    | ok r =>
      obtain ⟨key, value⟩ := r
      rw [assemble.eq_def, scanDamage.eq_def]
      dsimp only
      cases hk : decodeEntityKey key with
      | none => exact ih begun
      | some k =>
        obtain ⟨c', entity, fid⟩ := k
        cases value with
        | none => exact ih begun
        | some stored =>
          cases hd : Value.decode stored with
          | error stop =>
            have bad : badField schema c fid stored = true := by
              simp [badField, hd, Except.isOk, Except.toBool]
            simp only [bad, Bool.true_or, if_true, hd]
            exact .cons (.error _) (ih begun)
          | ok val =>
            cases hn : schema.fieldName.get (toLex (c, fid)) with
            | none =>
              have bad : badField schema c fid stored = true := by simp [badField, hn]
              simp only [bad, Bool.true_or, if_true, hd, hn]
              exact .cons (.error _) (ih begun)
            | some name =>
              have good : badField schema c fid stored = false := by
                simp [badField, hd, hn, Except.isOk, Except.toBool]
              simp only [good, Bool.false_or, hd, hn]
              cases valid : isUtf8 entity with
              | false =>
                have unread : decodeEntityId entity =
                    .error (.error (.invalidFormat "entity id is not valid utf8")) := by
                  rw [decodeEntityId, dif_neg (by simp [valid])]
                  rfl
                simp only [unread, Bool.not_false, if_true]
                exact .cons (.error _) (ih begun)
              | true =>
                have read : decodeEntityId entity = .ok ⟨entity, valid⟩ := by
                  rw [decodeEntityId, dif_pos valid]
                  rfl
                simp only [read, Bool.not_true, Bool.false_eq_true, if_false]
                cases current with
                | none => exact ih (insertBegun ⟨entity, valid⟩ .new name val)
                | some cur =>
                  obtain ⟨id, e⟩ := cur
                  by_cases same : id = ⟨entity, valid⟩
                  · subst same
                    simp only [if_true, Option.map_some]
                    exact ih (insertBegun _ e name val)
                  · have other : some id.bytes ≠ some entity := by
                      intro h
                      apply same
                      cases id
                      cases Option.some.inj h
                      rfl
                    simp only [if_neg same, Option.map_some, if_neg other]
                    exact (finishedDamage begun).append (ih (insertBegun _ .new name val))

end Reads

/-- However few of the items are taken, there is an error among them where a flag says so. -/
structure Tells {α : Type} (items : List (Fallible α)) (flags : List Bool) : Prop where
  cut : ∀ n, (∃ e, .error e ∈ items.take n) ↔ true ∈ flags.take n
  reported : ∀ item ∈ items, Reported item

theorem Outline.tells {α : Type} {items : List (Fallible α)} {flags : List Bool}
    (h : Outline items flags) : Tells items flags := by
  constructor
  · intro n
    rw [← h.shape, ← List.map_take, List.mem_map]
    constructor
    · intro found
      obtain ⟨e, m⟩ := found
      exact ⟨_, m, rfl⟩
    · intro found
      obtain ⟨item, m, flag⟩ := found
      cases item with
      | ok a => cases flag
      | error e => exact ⟨e, m⟩
  · exact h.reported

theorem Tells.ofOk {α : Type} {items : List (Fallible α)} (h : ∀ item ∈ items, ∃ a, item = .ok a) :
    Tells items [] := by
  constructor
  · intro n
    constructor
    · intro found
      obtain ⟨e, m⟩ := found
      obtain ⟨a, same⟩ := h _ (List.mem_of_mem_take m)
      cases same
    · intro found
      rw [List.take_nil] at found
      cases found
  · intro item m
    obtain ⟨a, same⟩ := h item m
    rw [same]
    exact .ok a

theorem Tells.take {α : Type} {items : List (Fallible α)} {flags : List Bool}
    (h : Tells items flags) (n : Nat) : Tells (items.take n) (flags.take n) := by
  constructor
  · intro m
    rw [List.take_take, List.take_take]
    exact h.cut _
  · exact fun item inside => h.reported item (List.mem_of_mem_take inside)

theorem Tells.whole {α : Type} {items : List (Fallible α)} {flags : List Bool}
    (h : Tells items flags) : (∃ e, .error e ∈ items) ↔ true ∈ flags := by
  have all := h.cut (items.length + flags.length)
  rw [List.take_of_length_le (by omega), List.take_of_length_le (by omega)] at all
  exact all

theorem passesOk {pred : Predicate} {item : Fallible Row} (h : Reported item)
    (through : passes pred item = true) : ∃ r, item = .ok r := by
  cases item with
  | ok r => exact ⟨r, rfl⟩
  | error stop =>
    obtain ⟨e, rfl⟩ := h stop rfl
    cases through

section Plans
variable (v : ReadView) (schema : Schema)

/-- What a plan hands out has errors where `flags` say so, if it starts at all. -/
def Handed (r : Fallible (List (Fallible Row))) (flags : List Bool) : Prop :=
  match r with
  | .ok items => Tells items flags
  | .error _ => flags = []

theorem fetchHanded (ids : Fallible (List Utf8)) (collection : Chars) :
    Handed (ids >>= fun l => pure (fetchStream v schema l collection))
      (fetchDamage v schema ids collection) := by
  cases ids with
  | error e => rfl
  | ok l =>
    change Tells (fetchStream v schema l collection) _
    unfold fetchStream fetchDamage
    cases schema.lookupCollectionId collection with
    | none => exact Outline.nil.tells
    | some c => exact (Outline.filterMap (fetchRowDamage v schema c) l).tells

theorem orderHanded (collection field : Chars) (lower upper : Bound) (dir : SortDir) :
    Handed (indexOrderStream v schema collection field lower upper dir)
      (orderDamage v schema collection field lower upper dir) := by
  unfold indexOrderStream orderDamage
  cases hc : schema.lookupCollectionId collection with
  | none => exact Outline.nil.tells
  | some c =>
    cases hf : schema.lookupFieldId c field with
    | none =>
      simp only [hf]
      rfl
    | some f =>
      by_cases bare : (schema.findIndex c f).isNone
      · simp only [hf, if_pos bare]
        rfl
      · simp only [hf, if_neg bare]
        have same : (v.rows (some (indexRange c f lower upper).1) (indexRange c f lower upper).2 >>=
            fun rows => candidates rows >>= fun cands =>
              pure ((cands.mergeSort (fun a b => (candidateCmp dir a b).isLE)).filterMap
                (orderRow v schema c f lower upper))) =
          (orderCandidates v c f lower upper dir >>= fun cands =>
            pure (cands.filterMap (orderRow v schema c f lower upper))) := by
          simp only [orderCandidates, bind_assoc, pure_bind]
        rw [same]
        cases orderCandidates v c f lower upper dir with
        | error e => rfl
        | ok cands =>
          exact (Outline.filterMap (orderRowDamage v schema c f lower upper) cands).tells

theorem scanHanded (collection : Chars) :
    Handed (scanCollectionStream v schema collection) (damage v schema (.fullScan collection)) := by
  unfold scanCollectionStream damage
  cases schema.lookupCollectionId collection with
  | none => exact Outline.nil.tells
  | some c =>
    simp only
    cases v.scan (some (collectionPrefix c)) (successor (collectionPrefix c)) with
    | error e => rfl
    | ok rows => exact (assembleDamage schema c (fun r m => by cases m) rows).tells

theorem allOk (rows : List Row) : ∀ item ∈ rows.map (pure : Row → Fallible Row), ∃ r, item = .ok r := by
  intro item m
  obtain ⟨r, _, same⟩ := List.mem_map.mp m
  exact ⟨r, same.symm⟩

theorem handed : ∀ p : PhysicalPlan, Handed (execRows v schema p) (damage v schema p)
  | .fullScan collection => by
    rw [execRows]
    exact scanHanded v schema collection
  | .indexOrderScan collection field lower upper dir => by
    rw [execRows, damage]
    exact orderHanded v schema collection field lower upper dir
  | .indexScan collection field lower upper => by
    rw [execRows, damage, candidateIds]
    exact fetchHanded v schema _ collection
  | .compositeIndexScan collection index fieldIds leading => by
    rw [execRows, damage, candidateIds]
    exact fetchHanded v schema _ collection
  | .fetch input collection => by
    rw [execRows, damage]
    exact fetchHanded v schema _ collection
  | .unionIds branches => by
    rw [execRows, damage]
    cases execBranches v schema branches with
    | error e => rfl
    | ok rows => exact Tells.ofOk (allOk (firstRows [] rows))
  | .filter input pred => by
    have below := handed input
    rw [execRows, damage]
    cases h : execRows v schema input with
    | error e => rfl
    | ok items =>
      rw [h] at below
      refine Tells.ofOk (fun item m => ?_)
      obtain ⟨inside, through⟩ := List.mem_filter.mp m
      exact passesOk (below.reported item inside) through
  | .sort input field dir => by
    rw [execRows, damage]
    cases execRows v schema input with
    | error e => rfl
    | ok items =>
      change Handed (collected items >>= fun rows => pure ((sortRows field dir rows).map pure)) []
      cases collected items with
      | error e => rfl
      | ok rows => exact Tells.ofOk (allOk (sortRows field dir rows))
  | .limit input n => by
    have below := handed input
    rw [execRows, damage]
    cases h : execRows v schema input with
    | error e =>
      rw [h] at below
      exact congrArg (List.take n) below |>.trans List.take_nil
    | ok items =>
      rw [h] at below
      exact below.take n

/-- A filter reports what goes wrong below it exactly when no damaged row is handed to it. -/
theorem filterReports (p : PhysicalPlan) (q : Predicate) :
    ((∃ e, run v schema p = .error e) → ∃ e, run v schema (.filter p q) = .error e) ↔
      true ∉ damage v schema p := by
  have below := handed v schema p
  have above := handed v schema (.filter p q)
  unfold run
  rw [execRows, damage] at above
  rw [execRows]
  cases h : execRows v schema p with
  | error e =>
    rw [h] at below
    rw [show damage v schema p = [] from below]
    constructor
    · intro _ found
      cases found
    · intro _ _
      exact ⟨e, rfl⟩
  | ok items =>
    rw [h] at below above
    have wrong : (∃ e, collected items = .error e) ↔ true ∈ damage v schema p :=
      collectedError.trans below.whole
    have quiet : ¬ ∃ e, collected (items.filter (passes q)) = .error e := by
      rw [collectedError, above.whole]
      exact List.not_mem_nil
    change ((∃ e, collected items = .error e) →
      ∃ e, collected (items.filter (passes q)) = .error e) ↔ _
    rw [← wrong]
    constructor
    · intro reports found
      exact quiet (reports found)
    · intro fine found
      exact absurd found fine

end Plans

/-- Of two entities one has a field that the schema does not know. -/
theorem damageHidden :
    let schema := ((Schema.new.collectionId ['u']).2.fieldId 0 ['x']).2
    let v := ReadView.ofRows [(encodeEntityKey 0 [0x61] 0, some Value.null.encode),
      (encodeEntityKey 0 [0x62] 7, some Value.null.encode)]
    let q := Predicate.not (.field ['x'] .ne .null)
    (∃ e, run v schema (.fullScan ['u']) = .error e) ∧
      run v schema (.filter (.fullScan ['u']) q) =
        .ok [(⟨[0x61], by decide⟩, ⟨[(['x'], .null)]⟩)] :=
  ⟨⟨_, rfl⟩, rfl⟩

end Executor
end MyLsmDb
