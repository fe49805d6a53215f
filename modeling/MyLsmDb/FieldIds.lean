import MyLsmDb.Cells
import MyLsmDb.SchemaTrip

/-! The ids that a put takes for the fields of an entity: the schema keeps those it has, and
fields of one name share an id. -/
namespace MyLsmDb
open OrderedEntries
open Registry
open Text

/-- The ids and the names that a schema has given to the fields stay. -/
structure Schema.Extends (s s' : Schema) : Prop where
  ids : ∀ c name f, s.fieldIdOf.get (toLex (c, name)) = some f →
    s'.fieldIdOf.get (toLex (c, name)) = some f

namespace Schema
variable {s s' : Schema} {c : UInt32} {name : Chars}

theorem Extends.refl (s : Schema) : s.Extends s := ⟨fun _ _ _ => id⟩

theorem Extends.trans {s'' : Schema} (h : s.Extends s') (h' : s'.Extends s'') : s.Extends s'' :=
  ⟨fun c name f found => h'.ids c name f (h.ids c name f found)⟩

theorem fieldIdExtends (s : Schema) (c : UInt32) (name : Chars) :
    s.Extends (s.fieldId c name).2 := by
  unfold fieldId
  split
  · exact .refl s
  · rename_i absent
    refine ⟨fun c' name' f found => ?_⟩
    rw [OrderedMap.getInsert]
    split
    · rename_i same
      rw [same, absent] at found
      cases found
    · exact found

theorem fieldIdFound (s : Schema) (c : UInt32) (name : Chars) :
    (s.fieldId c name).2.fieldIdOf.get (toLex (c, name)) = some (s.fieldId c name).1 := by
  unfold fieldId
  split
  · rename_i found
    exact found
  · rw [OrderedMap.getInsert, if_pos rfl]

theorem Apart.named (h : s.Apart) {f : UInt32}
    (id : s.fieldIdOf.get (toLex (c, name)) = some f) :
    s.fieldName.get (toLex (c, f)) = some name :=
  (OrderedMap.memIff s.fieldName).mp (h.fields (toLex (c, name), f) ((OrderedMap.memIff _).mpr id))

theorem Apart.sameName (h : s.Apart) {n n' : Chars} {f : UInt32}
    (mine : s.fieldIdOf.get (toLex (c, n)) = some f)
    (other : s.fieldIdOf.get (toLex (c, n')) = some f) : n = n' :=
  Option.some.inj ((h.named mine).symm.trans (h.named other))

end Schema

def WithIds (s : Schema) (c : UInt32) (fields : List (Chars × Value))
    (written : List (UInt32 × Value)) : Prop :=
  List.Forall₂ (fun x w => s.fieldIdOf.get (toLex (c, x.1)) = some w.1 ∧ x.2 = w.2) fields written

section Allocating
variable {s : Schema} {c : UInt32} {fields : List (Chars × Value)}
  {written : List (UInt32 × Value)}

theorem allocExtends (c : UInt32) (fields : List (Chars × Value)) (s : Schema) :
    s.Extends (allocFields c fields s).2 := by
  induction fields generalizing s with
  | nil => exact .refl s
  | cons x fields ih => exact (s.fieldIdExtends c x.1).trans (ih _)

theorem allocWithIds (c : UInt32) (fields : List (Chars × Value)) (s : Schema) :
    WithIds (allocFields c fields s).2 c fields (allocFields c fields s).1 := by
  induction fields generalizing s with
  | nil => exact .nil
  | cons x fields ih =>
    exact .cons ⟨(allocExtends c fields _).ids _ _ _ (s.fieldIdFound c x.1), rfl⟩ (ih _)

def lastNamed (fields : List (Chars × Value)) (name : Chars) : Option Value :=
  fields.reverse.lookup name

theorem lastNamedCons (x : Chars × Value) (fields : List (Chars × Value)) (name : Chars) :
    lastNamed (x :: fields) name =
      (lastNamed fields name).or (if name = x.1 then some x.2 else none) := by
  rw [lastNamed, List.reverse_cons, List.lookup_append, lookupCons]
  rfl

theorem lastWritten (ids : WithIds s c fields written) (apart : s.Apart) {name : Chars}
    {f : UInt32} (id : s.fieldIdOf.get (toLex (c, name)) = some f) :
    lastValue written f = lastNamed fields name := by
  induction ids with
  | nil => rfl
  | @cons x w fields written first rest ih =>
    rw [lastValueCons, lastNamedCons, ih, first.2]
    refine congrArg _ (if_congr ?_ rfl rfl)
    constructor
    · rintro rfl
      exact apart.sameName id first.1
    · rintro rfl
      exact Option.some.inj (id.symm.trans first.1)

theorem lastUnnamed (ids : WithIds s c fields written) {f : UInt32}
    (free : ∀ name, s.fieldIdOf.get (toLex (c, name)) ≠ some f) : lastValue written f = none := by
  induction ids with
  | nil => rfl
  | @cons x w fields written first rest ih =>
    rw [lastValueCons, ih, if_neg]
    · rfl
    · rintro rfl
      exact free _ first.1

theorem lastNamedOnce (once : (fields.map Prod.fst).Nodup) {name : Chars} {value : Value} :
    lastNamed fields name = some value ↔ (name, value) ∈ fields := by
  have keys : (fields.reverse.map Prod.fst).Nodup := by
    rw [List.map_reverse, List.nodup_reverse]
    exact once
  rw [lastNamed, ← List.mem_reverse]
  exact ⟨lookupMem, Registry.lookupUnique keys⟩

end Allocating
end MyLsmDb
