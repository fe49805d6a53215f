import MyLsmDb.ReadPaths
import MyLsmDb.Upkeep

/-! What a store is for: the values of the fields of each entity, by their names. What a program
finds of an entity, and what it leaves of all of them, is said of these. -/
namespace MyLsmDb
open ByteOrder (Bytes)
open Effect
open KeyValue (Prog)
open OrderedEntries
open Text

abbrev Contents := UInt32 → Bytes → Chars → Option Value

namespace Contents

def put (m : Contents) (c : UInt32) (e : Bytes) (fields : Chars → Option Value) : Contents :=
  fun c' e' => if c' = c ∧ e' = e then fields else m c' e'

/-- What is read of an entity: nothing if it has no fields. -/
def Reads (m : Contents) (c : UInt32) (e : Bytes) (current : Option Entity) : Prop :=
  (current = none ↔ ∀ n, m c e n = none) ∧ ∀ n, current.bind (fun entity => entity.field n) = m c e n

end Contents

def contents (s : Schema) (v : View) : Contents :=
  fun c e n => (s.lookupFieldId c n).bind (cellValue v c e)

namespace Maintained
variable {arity : UInt32 → Option Nat} {s s' : Schema} {v v' : View} {c : UInt32} {e : Bytes}

theorem contentsFollow (h : Maintained arity s v) (f : s.Follows s') :
    contents s' v = contents s v := by
  funext c e n
  refine Option.ext (fun value => ?_)
  unfold contents
  rw [Option.bind_eq_some_iff, Option.bind_eq_some_iff]
  refine exists_congr (fun g => and_congr_left (fun is => ?_))
  obtain ⟨stored, found, -⟩ := Option.bind_eq_some_iff.mp is
  obtain ⟨name, known⟩ := Option.isSome_iff_exists.mp (h.fields c e g stored found).2
  rw [← f.orderly.idOf, ← h.orderly.idOf, f.names _ _ known, known]

theorem contentsSame (h : s.Orderly) (h' : s'.Orderly) (names : s'.fieldName = s.fieldName)
    (same : SameCells v v') : contents s' v' = contents s v := by
  funext c e n
  have ids : s'.lookupFieldId c n = s.lookupFieldId c n := by
    refine Option.ext (fun g => ?_)
    rw [← h.idOf, ← h'.idOf, names]
  unfold contents
  rw [ids]
  exact congrArg _ (funext (same.values c e))

theorem replacedValue {values : UInt32 → Option Value} (replaced : Replaced c e values v v')
    (small : ∀ f value, values f = some value → value.Small) (c' : UInt32) (e' : Bytes) (f : UInt32) :
    cellValue v' c' e' f = if c' = c ∧ e' = e then values f else cellValue v c' e' f := by
  rw [cellValue, replaced]
  split
  · cases is : values f with
    | none => rfl
    | some value =>
      rw [Option.map_some, Option.bind_some, Value.decodeEncode (small f value is)]
      rfl
  · rfl

theorem fieldLast {entity : Entity} {written : List (UInt32 × Value)} (orderly : s.Orderly)
    (once : (entity.fields.map Prod.fst).Nodup) (ids : WithIds s c entity.fields written) (n : Chars) :
    (s.lookupFieldId c n).bind (lastValue written) = entity.field n := by
  have first : ∀ value, entity.field n = some value ↔ (n, value) ∈ entity.fields := fun value =>
    ⟨lookupMem, Registry.lookupUnique once⟩
  refine Option.ext (fun value => ?_)
  rw [first, ← lastNamedOnce once, Option.bind_eq_some_iff]
  constructor
  · intro h
    obtain ⟨f, id, last⟩ := h
    rwa [lastWritten ids orderly.apart id] at last
  · intro last
    have m := (lastNamedOnce once).mp last
    obtain ⟨f, found⟩ := Schema.writtenTo ids m
    exact ⟨f, found, (lastWritten ids orderly.apart found).trans last⟩

theorem contentsPut (h : Maintained arity s v) {entity : Entity} (storable : entity.Storable)
    (advances : s.Advances (allocFields c entity.fields s).2)
    (replaced : Replaced c e (lastValue (allocFields c entity.fields s).1) v v') :
    contents (allocFields c entity.fields s).2 v' = (contents s v).put c e entity.field := by
  set written := (allocFields c entity.fields s).1 with hwritten
  set s' := (allocFields c entity.fields s).2 with hs'
  have ids : WithIds s' c entity.fields written := allocWithIds c entity.fields s
  have small : ∀ f value, lastValue written f = some value → value.Small := by
    intro f value is
    obtain ⟨x, m, -, same⟩ := Schema.writtenFrom ids (List.mem_reverse.mp (lookupMem is))
    have same : x.2 = value := same
    exact same ▸ storable.small x m
  rw [← h.contentsFollow advances.follows]
  funext c' e' n
  unfold contents Contents.put
  have values : cellValue v' c' e' =
      if c' = c ∧ e' = e then lastValue written else cellValue v c' e' := by
    funext f
    rw [replacedValue replaced small]
    split <;> rfl
  rw [values]
  by_cases mine : c' = c ∧ e' = e
  · obtain ⟨rfl, rfl⟩ := mine
    rw [if_pos ⟨rfl, rfl⟩, if_pos ⟨rfl, rfl⟩]
    exact fieldLast advances.follows.orderly storable.once ids n
  · rw [if_neg mine, if_neg mine]

theorem contentsDelete (replaced : Replaced c e (fun _ => none) v v') :
    contents s v' = (contents s v).put c e (fun _ => none) := by
  funext c' e' n
  unfold contents Contents.put
  have values : cellValue v' c' e' = if c' = c ∧ e' = e then fun _ => none else cellValue v c' e' := by
    funext f
    rw [replacedValue replaced (fun _ _ no => by cases no)]
    split <;> rfl
  rw [values]
  by_cases mine : c' = c ∧ e' = e
  · rw [if_pos mine, if_pos mine]
    cases s.lookupFieldId c' n <;> rfl
  · rw [if_neg mine, if_neg mine]

section Reading
variable {rows : List Rec}
  (lists : KeyValue.Lists v (some (entityRange c e).1) (entityRange c e).2 rows)
  (keys : ∀ r ∈ rows, Proper arity r.1)
include lists keys

theorem rowTaken (h : Maintained arity s v) (short : e.length < 2 ^ 32) {r : Rec} (m : r ∈ rows) :
    ∃ f, r = (encodeEntityKey c e f, cell v c e f) ∧ ∀ stored, cell v c e f = some stored →
      ∃ (id : Utf8) (name : Chars) (value : Value), fieldOf s c r = some (id, name, value) ∧
        s.lookupFieldId c name = some f ∧ cellValue v c e f = some value := by
  have canonical := (@properCanonicals arity).canonical (c := c) short
  obtain ⟨f, key, reads⟩ := entityRow canonical lists keys m
  refine ⟨f, Prod.ext key reads, fun stored is => ?_⟩
  obtain ⟨⟨value, decoded, -⟩, named⟩ := h.fields c e f stored is
  obtain ⟨name, known⟩ := Option.isSome_iff_exists.mp named
  obtain ⟨c', id, f', -, same⟩ := properCanonicals r.1 (keys r m) (by rw [key, entityKeyTag])
  obtain ⟨-, rfl, -⟩ := encodeEntityKeySame.mp (key.symm.trans same)
  refine ⟨id, name, value, fieldOfIs (key ▸ decodeEncodeEntityKey c short f) (reads.trans is) decoded
    known, h.orderly.idOf.mp known, ?_⟩
  rw [cellValue, is, Option.bind_some, decoded]
  rfl

theorem rowsTaken (h : Maintained arity s v) (short : e.length < 2 ^ 32) :
    ∀ r ∈ rows, Taken s c r := by
  intro r m
  obtain ⟨f, is, live⟩ := rowTaken lists keys h short m
  refine ⟨⟨_, by rw [is]; exact decodeEncodeEntityKey c short f⟩, ?_⟩
  cases stored : cell v c e f with
  | none => exact .inl (by rw [is]; exact stored)
  | some stored' =>
    obtain ⟨id, name, value, taken, -⟩ := live stored' stored
    exact .inr ⟨_, taken⟩

theorem fieldsRead (h : Maintained arity s v) (short : e.length < 2 ^ 32) :
    ∃ fields, fieldsOf s c rows = .ok fields ∧
      (contents s v).Reads c e (if fields = [] then none else some ⟨fields⟩) := by
  refine ⟨_, fieldsOfTaken (rowsTaken lists keys h short), ?_⟩
  set fields := (rows.filterMap (fieldOf s c)).map Prod.snd with hfields
  have mem : ∀ n value, (n, value) ∈ fields ↔ contents s v c e n = some value := by
    intro n value
    unfold contents
    rw [Option.bind_eq_some_iff]
    constructor
    · intro m
      obtain ⟨⟨id, x⟩, mx, same⟩ := List.mem_map.mp m
      obtain ⟨r, mr, taken⟩ := List.mem_filterMap.mp mx
      obtain ⟨f, is, live⟩ := rowTaken lists keys h short mr
      cases stored : cell v c e f with
      | none =>
        rw [is, stored, fieldOfTombstone] at taken
        cases taken
      | some stored' =>
        obtain ⟨id', name, value', taken', id, has⟩ := live stored' stored
        cases taken.symm.trans taken'
        cases same
        exact ⟨f, id, has⟩
    · intro has
      obtain ⟨f, id, is⟩ := has
      obtain ⟨stored, there, -⟩ := Option.bind_eq_some_iff.mp is
      obtain ⟨r, mr, key⟩ := entityListed lists (fun none => by rw [none] at there; cases there)
      obtain ⟨f', row, live⟩ := rowTaken lists keys h short mr
      rw [row] at key
      obtain ⟨-, -, rfl⟩ := encodeEntityKeySame.mp key
      obtain ⟨id', name, value', taken, known, has⟩ := live stored there
      rw [is] at has
      cases has
      obtain rfl : name = n := by
        have first := h.orderly.idOf.mpr known
        rw [h.orderly.idOf.mpr id] at first
        exact (Option.some.inj first).symm
      exact List.mem_map.mpr ⟨_, List.mem_filterMap.mpr ⟨r, mr, taken⟩, rfl⟩
  have lookup : ∀ n, fields.lookup n = contents s v c e n := by
    intro n
    cases is : contents s v c e n with
    | none =>
      refine lookupNone.mpr (fun x m same => ?_)
      rw [(mem n x.2).mp (same ▸ m)] at is
      cases is
    | some value =>
      have m := (mem n value).mpr is
      cases first : fields.lookup n with
      | none => exact absurd rfl (lookupNone.mp first _ m)
      | some value' => exact ((mem n value').mp (lookupMem first)).symm.trans is
  by_cases empty : fields = []
  · rw [if_pos empty]
    refine ⟨⟨fun _ n => ?_, fun _ => rfl⟩, fun n => ?_⟩ <;>
    · rw [← lookup, empty]
      rfl
  · rw [if_neg empty]
    refine ⟨⟨fun no => absurd no (Option.some_ne_none _), fun all => ?_⟩, lookup⟩
    obtain ⟨x, m⟩ := List.exists_mem_of_ne_nil _ empty
    exact absurd ((mem x.1 x.2).mp m) (by simp [all])

end Reading

section Programs
variable {broken : View → Prop}

theorem readBack (h : Maintained arity s v) (short : e.length < 2 ^ 32) {rows : List Rec}
    (lists : KeyValue.Lists v (some (entityRange c e).1) (entityRange c e).2 rows)
    (keys : ∀ r ∈ rows, Proper arity r.1) : ∃ current,
      readRows rows (coreGetEntity s c e) = .ok current ∧ (contents s v).Reads c e current := by
  obtain ⟨fields, read, reads⟩ := fieldsRead lists keys h short
  refine ⟨_, ?_, reads⟩
  have inside : rangeOf (some (entityRange c e).1) (entityRange c e).2 rows = rows :=
    List.filter_eq_self.mpr (fun r m => lists.inside r m)
  have run : (coreGetEntity s c e).run (directScan rows) () =
      (KeyValue.lift (fieldsOf s c (rangeOf (some (entityRange c e).1) (entityRange c e).2 rows))
        >>= fun fields => pure (if fields = [] then none else some ⟨fields⟩) :
          KvProg (Option Entity)).run (directScan rows) () := rfl
  unfold readRows
  rw [run, inside, read]
  rfl

theorem casFinds (h : Maintained arity s v) (short : e.length < 2 ^ 32) {expected : Expected}
    {patch : List Patch} : (casEntity s c e expected patch).Meets (Proper arity) broken
      (fun entity v' => v' = v ∧ ∃ current, (contents s v).Reads c e current ∧
        expected.failure current = none ∧ applyPatch (current.getD .new) patch = .ok entity)
      (fun _ v' => v' = v) v := by
  intro rows lists keys
  obtain ⟨current, read, reads⟩ := readBack h short lists keys
  change (KeyValue.lift (readRows rows (coreGetEntity s c e)) >>= _).Meets _ _ _ _ _
  rw [read]
  have lifted : (KeyValue.lift (.ok current) : KvProg (Option Entity)).Meets (Proper arity) broken
      (fun a v' => current = a ∧ v = v') (fun _ v' => v' = v) v := ⟨rfl, rfl⟩
  refine Prog.Meets.bind lifted ?_
  rintro _ v' ⟨rfl, rfl⟩
  cases fails : expected.failure current with
  | some reason => exact rfl
  | none =>
    exact KeyValue.meetsLift (fun entity is => ⟨rfl, current, reads, fails, is⟩) (fun _ _ => rfl)

end Programs

end Maintained
section Updating
variable {σ G : Type} {side : Side σ} {ok : σ → Prop} {R : σ → σ → Prop} [Std.Refl R] [IsTrans σ R]
  {arity : UInt32 → Option Nat} {Shown : G → Schema → View → σ → Prop} {Covered : G → View → Prop}
  {g : G} {s s₀ : Schema} {v : View} {x : σ} {c : UInt32} {e : Bytes}

def Room (s : Schema) (entity : Entity) : Prop :=
  entity.Storable ∧ s.nextFieldId.toNat + entity.fields.length < 2 ^ 32

/-- What a conditional update makes of the entity that is there. -/
def Updates (m : Contents) (c : UInt32) (e : Bytes) (expected : Expected) (patch : List Patch)
    (entity : Entity) : Prop := ∃ current, m.Reads c e current ∧ expected.failure current = none ∧
  applyPatch (current.getD .new) patch = .ok entity

namespace Upholds

theorem puts (u : Upholds side ok R (Proper arity) Shown Covered) {entity : Entity}
    (short : e.length < 2 ^ 32) (room : Room s entity) (h : Stands Shown Covered arity s₀ g s v x) :
    EndsIf ok (corePutEntity side c e entity) x
      (fun _ x' => ∃ g' s' v', Stands Shown Covered arity s₀ g' s' v' x' ∧
        contents s' v' = (contents s v).put c e entity.field)
      (fun _ x' => Stands Shown Covered arity s₀ g s v x') := by
  obtain ⟨storable, room⟩ := room
  refine (u.put (c := c) short storable room h).mono ?_ (fun _ _ _ same => same ▸ h)
  intro _ x' _ done
  obtain ⟨-, g', v', stands, replaced⟩ := done
  refine ⟨g', _, v', stands, h.maintained.contentsPut storable ?_ replaced⟩
  exact h.maintained.orderly.advanceFields c storable.named room

theorem deletes (u : Upholds side ok R (Proper arity) Shown Covered) (short : e.length < 2 ^ 32)
    (h : Stands Shown Covered arity s₀ g s v x) :
    EndsIf ok ((coreDeleteEntity s c e).run side.machine) x
      (fun _ x' => ∃ v', Stands Shown Covered arity s₀ g s v' x' ∧
        contents s v' = (contents s v).put c e (fun _ => none))
      (fun _ x' => Stands Shown Covered arity s₀ g s v x') := by
  refine (u.delete (c := c) short h).mono ?_ (fun _ _ _ => id)
  intro _ x' _ done
  obtain ⟨-, v', stands, replaced⟩ := done
  exact ⟨v', stands, Maintained.contentsDelete replaced⟩

theorem cas (u : Upholds side ok R (Proper arity) Shown Covered) {expected : Expected}
    {patch : List Patch} (short : e.length < 2 ^ 32)
    (fine : ∀ entity, Updates (contents s v) c e expected patch entity → Room s entity)
    (h : Stands Shown Covered arity s₀ g s v x) : EndsIf ok (coreCasEntity side c e expected patch) x
      (fun entity x' => Updates (contents s v) c e expected patch entity ∧ ∃ g' s' v',
        Stands Shown Covered arity s₀ g' s' v' x' ∧
          contents s' v' = (contents s v).put c e entity.field)
      (fun _ x' => Stands Shown Covered arity s₀ g s v x') := by
  unfold coreCasEntity
  refine endsBindGet ?_
  rw [u.schema h.shown]
  have found : EndsIf ok ((casEntity s c e expected patch).run side.machine) x
      (fun entity x' => Stands Shown Covered arity s₀ g s v x' ∧
        Updates (contents s v) c e expected patch entity)
      (fun _ x' => Stands Shown Covered arity s₀ g s v x') := by
    refine (u.run (h.maintained.casFinds short) h.shown).mono ?_ ?_
    · intro entity x' _ done
      obtain ⟨v', shown, rfl, current⟩ := done
      exact ⟨⟨shown, h.covered, h.maintained, h.advances⟩, current⟩
    · intro _ x' _ stop
      obtain ⟨v', shown, rfl⟩ := stop
      exact ⟨shown, h.covered, h.maintained, h.advances⟩
  refine EndsIf.bind u.back found (fun entity => (u.covers.put c e entity).bind
    (fun _ => movesPure _)) ?_
  rintro entity x₁ _ ⟨stands, updates⟩
  exact Ends.bind (Ends.mono (u.puts (c := c) short (fine entity updates) stands)
    (fun _ _ done => done) (fun _ _ stop => stop)) (fun _ _ done fits => ⟨updates, done fits⟩)

end Upholds
end Updating
end MyLsmDb
