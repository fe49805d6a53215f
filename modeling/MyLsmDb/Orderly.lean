import MyLsmDb.FieldIds
import MyLsmDb.IndexEntries

/-! A schema whose counters have not come around: its ids and names tell each other apart, and so do
its indexes. Every change that a store makes of it keeps this, and a restart does too. -/
namespace MyLsmDb
open OrderedEntries
open Registry
open Text

namespace Schema

/-- What holds of a schema as long as no counter wraps around. -/
structure Orderly (s : Schema) : Prop where
  kept : s.Kept
  apart : s.Apart
  names : s.NamesHeld
  collections : ∀ e ∈ s.collectionName.entries, e.1.toNat < s.nextCollectionId.toNat
  fields : ∀ e ∈ s.fieldName.entries, (ofLex e.1).2.toNat < s.nextFieldId.toNat
  ids : (s.indexes.map IndexDef.id).Nodup
  pairs : (s.indexes.map (fun d => (d.collectionId, d.fieldIds))).Nodup
  filled : ∀ d ∈ s.indexes, d.fieldIds ≠ []
  below : ∀ d ∈ s.indexes, d.id.toNat < s.nextIndexId.toNat
  named : ∀ d ∈ s.indexes, ∀ f ∈ d.fieldIds, (s.fieldName.get (toLex (d.collectionId, f))).isSome

def KeepsNames (s s' : Schema) : Prop :=
  ∀ key name, s.fieldName.get key = some name → s'.fieldName.get key = some name

variable {s s' s'' : Schema} {c : UInt32} {name : Chars}

theorem KeepsNames.refl (s : Schema) : s.KeepsNames s := fun _ _ => id

theorem KeepsNames.trans (h : s.KeepsNames s') (h' : s'.KeepsNames s'') : s.KeepsNames s'' :=
  fun key name found => h' key name (h key name found)

theorem orderlyNew : Orderly new := by
  refine ⟨Reached.new.kept, ⟨?_, ?_⟩, ⟨?_, ?_⟩, ?_, ?_, List.nodup_nil, List.nodup_nil, ?_, ?_, ?_⟩ <;>
    exact fun _ m => absurd m List.not_mem_nil

namespace Orderly

theorem fieldBelow (h : s.Orderly) {f : UInt32}
    (known : (s.fieldName.get (toLex (c, f))).isSome) : f.toNat < s.nextFieldId.toNat := by
  obtain ⟨name, found⟩ := Option.isSome_iff_exists.mp known
  exact h.fields (toLex (c, f), name) ((OrderedMap.memIff _).mpr found)

theorem same (h : s.Orderly) {d d' : IndexDef} (m : d ∈ s.indexes) (m' : d' ∈ s.indexes)
    (ids : d.id = d'.id) : d = d' :=
  List.inj_on_of_nodup_map h.ids m m' ids

theorem samePair (h : s.Orderly) {d d' : IndexDef} (m : d ∈ s.indexes) (m' : d' ∈ s.indexes)
    (collection : d.collectionId = d'.collectionId) (fields : d.fieldIds = d'.fieldIds) : d = d' :=
  List.inj_on_of_nodup_map h.pairs m m' (Prod.ext collection fields)

theorem separate (h : s.Orderly) : s.Separate where
  ids _ m _ m' same := h.same m m' same
  real d m f mf is := by
    have below := h.fieldBelow (h.named d m f mf)
    have small := s.nextFieldId.toNat_lt
    rw [is] at below
    change 2 ^ 32 - 1 < _ at below
    omega
  filled := h.filled

theorem idOf (h : s.Orderly) {f : UInt32} :
    s.fieldName.get (toLex (c, f)) = some name ↔ s.lookupFieldId c name = some f := by
  constructor
  · intro found
    exact (OrderedMap.memIff _).mp (h.kept.fields (toLex (c, f), name) ((OrderedMap.memIff _).mpr found))
  · exact fun found => h.apart.named found

theorem collectionId (h : s.Orderly) (named : Named name)
    (room : s.nextCollectionId.toNat + 1 < 2 ^ 32) :
    (s.collectionId name).2.Orderly ∧ s.KeepsNames (s.collectionId name).2 := by
  unfold Schema.collectionId
  split
  · exact ⟨h, .refl s⟩
  · rename_i absent
    have next : (s.nextCollectionId + 1).toNat = s.nextCollectionId.toNat + 1 := by
      rw [UInt32.toNat_add]
      exact Nat.mod_eq_of_lt room
    have fresh : s.collectionName.get s.nextCollectionId = none := by
      refine Option.eq_none_iff_forall_ne_some.mpr (fun other found => ?_)
      exact absurd (h.collections (s.nextCollectionId, other) ((OrderedMap.memIff _).mpr found))
        (lt_irrefl _)
    refine ⟨⟨⟨h.kept.collections.insert (e := (s.nextCollectionId, name)) absent, h.kept.fields,
      h.kept.short⟩, ⟨?_, h.apart.fields⟩, ⟨?_, h.names.fields⟩, ?_, h.fields, h.ids, h.pairs, h.filled,
      h.below, h.named⟩, .refl s⟩
    · rintro ⟨n, id⟩ m
      have found := (OrderedMap.memIff _).mp m
      rw [OrderedMap.getInsert] at found
      refine (OrderedMap.memIff _).mpr ?_
      change (s.collectionName.insert s.nextCollectionId name).get id = some n
      rw [OrderedMap.getInsert]
      split at found
      · rename_i is
        obtain rfl := Option.some.inj found
        rw [if_pos rfl, is]
      · have before : s.collectionName.get id = some n := (OrderedMap.memIff _).mp
          (h.apart.collections (n, id) ((OrderedMap.memIff _).mpr found))
        rw [if_neg (fun is => ?_)]
        · exact before
        · rw [is, fresh] at before
          cases before
    · intro e m
      rcases insertMem m with rfl | m
      · exact named
      · exact h.names.collections e m
    · intro e m
      change e.1.toNat < (s.nextCollectionId + 1).toNat
      rw [next]
      rcases insertMem m with rfl | m
      · exact Nat.lt_succ_self _
      · exact Nat.lt_succ_of_lt (h.collections e m)

theorem fieldId (h : s.Orderly) (named : Named name) (room : s.nextFieldId.toNat + 1 < 2 ^ 32) :
    (s.fieldId c name).2.Orderly ∧ s.KeepsNames (s.fieldId c name).2 := by
  unfold Schema.fieldId
  split
  · exact ⟨h, .refl s⟩
  · rename_i absent
    have next : (s.nextFieldId + 1).toNat = s.nextFieldId.toNat + 1 := by
      rw [UInt32.toNat_add]
      exact Nat.mod_eq_of_lt room
    have fresh : ∀ c', s.fieldName.get (toLex (c', s.nextFieldId)) = none := by
      refine fun c' => Option.eq_none_iff_forall_ne_some.mpr (fun other found => ?_)
      exact absurd (h.fieldBelow (Option.isSome_iff_exists.mpr ⟨other, found⟩)) (lt_irrefl _)
    have names : s.KeepsNames { s with
        nextFieldId := s.nextFieldId + 1
        changed := true
        fieldName := s.fieldName.insert (toLex (c, s.nextFieldId)) name
        fieldIdOf := s.fieldIdOf.insert (toLex (c, name)) s.nextFieldId } := by
      intro key n found
      change (s.fieldName.insert (toLex (c, s.nextFieldId)) name).get key = some n
      rw [OrderedMap.getInsert, if_neg (fun is => ?_)]
      · exact found
      · rw [is, fresh c] at found
        cases found
    refine ⟨⟨⟨h.kept.collections, h.kept.fields.insert (e := (toLex (c, s.nextFieldId), name)) absent,
      h.kept.short⟩, ⟨h.apart.collections, ?_⟩, ⟨h.names.collections, ?_⟩, h.collections, ?_, h.ids,
      h.pairs, h.filled, h.below, fun d m f mf => ?_⟩, names⟩
    · rintro ⟨key, id⟩ m
      have found := (OrderedMap.memIff _).mp m
      rw [OrderedMap.getInsert] at found
      refine (OrderedMap.memIff _).mpr ?_
      change (s.fieldName.insert (toLex (c, s.nextFieldId)) name).get
        (toLex ((ofLex key).1, id)) = some (ofLex key).2
      rw [OrderedMap.getInsert]
      split at found
      · rename_i is
        obtain rfl := Option.some.inj found
        rw [is]
        exact if_pos rfl
      · have before : s.fieldName.get (toLex ((ofLex key).1, id)) = some (ofLex key).2 :=
          (OrderedMap.memIff _).mp (h.apart.fields (key, id) ((OrderedMap.memIff _).mpr found))
        rw [if_neg (fun is => ?_)]
        · exact before
        · rw [is, fresh c] at before
          cases before
    · intro e m
      rcases insertMem m with rfl | m
      · exact named
      · exact h.names.fields e m
    · intro e m
      change (ofLex e.1).2.toNat < (s.nextFieldId + 1).toNat
      rw [next]
      rcases insertMem m with rfl | m
      · exact Nat.lt_succ_self _
      · exact Nat.lt_succ_of_lt (h.fields e m)
    · obtain ⟨n, found⟩ := Option.isSome_iff_exists.mp (h.named d m f mf)
      exact Option.isSome_iff_exists.mpr ⟨n, names _ n found⟩

end Orderly

section Indexes
variable {d d' : IndexDef} {fieldIds : List UInt32}

/-- The index that a creation is about: one that there is, or a new one. -/
structure Creates (s : Schema) (c : UInt32) (fieldIds : List UInt32) (d : IndexDef) (s' : Schema) :
    Prop where
  orderly : s'.Orderly
  known : d ∈ s'.indexes
  collection : d.collectionId = c
  fields : d.fieldIds = fieldIds
  others : ∀ d' ∈ s'.indexes, d' ≠ d → d' ∈ s.indexes
  fresh : d ∈ s.indexes ∨ d.id = s.nextIndexId ∧ d.status = .building
  grows : ∀ i : UInt32, s'.nextIndexId ≤ i → s.nextIndexId ≤ i ∧ i ≠ d.id
  names : s'.fieldName = s.fieldName

theorem Orderly.create (h : s.Orderly) (filled : fieldIds ≠ []) (short : fieldIds.length < 2 ^ 64)
    (named : ∀ f ∈ fieldIds, (s.fieldName.get (toLex (c, f))).isSome)
    (room : s.nextIndexId.toNat + 1 < 2 ^ 32) :
    ∃ d, d.id = (s.createCompositeIndex c fieldIds).1 ∧
      Creates s c fieldIds d (s.createCompositeIndex c fieldIds).2 := by
  unfold createCompositeIndex
  split
  · rename_i d found
    have is := List.find?_some found
    rw [decide_eq_true_eq] at is
    have m := List.mem_of_find?_eq_some found
    refine ⟨d, rfl, h, m, is.1, is.2, fun _ m _ => m, .inl m, fun i le => ⟨le, ?_⟩, rfl⟩
    rintro rfl
    exact absurd (h.below d m) (not_lt.mpr (UInt32.le_iff_toNat_le.mp le))
  · rename_i absent
    have next : (s.nextIndexId + 1).toNat = s.nextIndexId.toNat + 1 := by
      rw [UInt32.toNat_add]
      exact Nat.mod_eq_of_lt room
    set d : IndexDef := ⟨s.nextIndexId, c, fieldIds, .building⟩ with hd
    refine ⟨d, rfl, ⟨⟨h.kept.collections, h.kept.fields, ?_⟩, ⟨h.apart.collections, h.apart.fields⟩,
      ⟨h.names.collections, h.names.fields⟩, h.collections, h.fields, ?_, ?_, ?_, ?_, ?_⟩, List.mem_append_right _ (List.mem_singleton_self d), rfl, rfl, ?_,
      .inr ⟨rfl, rfl⟩, ?_, rfl⟩
    · intro i m
      rcases List.mem_append.mp m with m | m
      · exact h.kept.short i m
      · obtain rfl := List.mem_singleton.mp m
        exact short
    · change ((s.indexes ++ [d]).map IndexDef.id).Nodup
      rw [List.map_append, List.nodup_append]
      refine ⟨h.ids, List.nodup_singleton _, fun a ma b mb same => ?_⟩
      obtain ⟨d', m, rfl⟩ := List.mem_map.mp ma
      obtain rfl := List.mem_singleton.mp mb
      have below := h.below d' m
      rw [same] at below
      exact lt_irrefl _ below
    · change ((s.indexes ++ [d]).map (fun d => (d.collectionId, d.fieldIds))).Nodup
      rw [List.map_append, List.nodup_append]
      refine ⟨h.pairs, List.nodup_singleton _, fun a ma b mb same => ?_⟩
      obtain ⟨d', m, rfl⟩ := List.mem_map.mp ma
      obtain rfl := List.mem_singleton.mp mb
      obtain ⟨collection, fields⟩ := Prod.mk.inj same
      have out := List.find?_eq_none.mp absent d' m
      exact out (decide_eq_true ⟨collection, fields⟩)
    · intro d' m
      rcases List.mem_append.mp m with m | m
      · exact h.filled d' m
      · obtain rfl := List.mem_singleton.mp m
        exact filled
    · intro d' m
      change d'.id.toNat < (s.nextIndexId + 1).toNat
      rw [next]
      rcases List.mem_append.mp m with m | m
      · exact Nat.lt_succ_of_lt (h.below d' m)
      · obtain rfl := List.mem_singleton.mp m
        exact Nat.lt_succ_self _
    · intro d' m
      rcases List.mem_append.mp m with m | m
      · exact h.named d' m
      · obtain rfl := List.mem_singleton.mp m
        exact named
    · intro d' m differs
      exact (List.mem_append.mp m).resolve_right (fun m => differs (List.mem_singleton.mp m))
    · intro i le
      have le := UInt32.le_iff_toNat_le.mp le
      change (s.nextIndexId + 1).toNat ≤ i.toNat at le
      rw [next] at le
      refine ⟨UInt32.le_iff_toNat_le.mpr (Nat.le_of_succ_le le), ?_⟩
      rintro rfl
      exact absurd le (Nat.not_succ_le_self _)

theorem readyMap {l : List IndexDef} (ids : (l.map IndexDef.id).Nodup) (i : UInt32) :
    readyFirst i l = l.map (fun d => if d.id = i then { d with status := .ready } else d) := by
  induction l with
  | nil => rfl
  | cons d l ih =>
    rw [List.map_cons, List.nodup_cons] at ids
    rw [readyFirst, List.map_cons]
    by_cases mine : d.id = i
    · rw [if_pos mine, if_pos mine]
      refine congrArg _ ((List.map_id l).symm.trans (List.map_congr_left (fun x m => ?_)))
      exact (if_neg (fun same => ids.1 (List.mem_map.mpr ⟨x, m, same.trans mine.symm⟩))).symm
    · rw [if_neg mine, if_neg mine, ih ids.2]

theorem Orderly.reindexed (h : s.Orderly) {indexes : List IndexDef} {changed : Bool}
    (ids : (indexes.map IndexDef.id).Nodup)
    (pairs : (indexes.map (fun d => (d.collectionId, d.fieldIds))).Nodup)
    (from_ : ∀ d ∈ indexes, ∃ d' ∈ s.indexes, d.id = d'.id ∧ d.collectionId = d'.collectionId ∧
      d.fieldIds = d'.fieldIds) : ({ s with indexes, changed } : Schema).Orderly := by
  refine ⟨⟨h.kept.collections, h.kept.fields, ?_⟩, ⟨h.apart.collections, h.apart.fields⟩,
    ⟨h.names.collections, h.names.fields⟩, h.collections, h.fields, ids, pairs, ?_, ?_, ?_⟩
  · intro d m
    obtain ⟨d', m', -, -, fields⟩ := from_ d m
    rw [fields]
    exact h.kept.short d' m'
  · intro d m
    obtain ⟨d', m', -, -, fields⟩ := from_ d m
    rw [fields]
    exact h.filled d' m'
  · intro d m
    obtain ⟨d', m', id, -, -⟩ := from_ d m
    rw [id]
    exact h.below d' m'
  · intro d m
    obtain ⟨d', m', -, collection, fields⟩ := from_ d m
    rw [collection, fields]
    exact h.named d' m'

theorem Orderly.ready (h : s.Orderly) (i : UInt32) : (s.setIndexReady i).Orderly ∧
    (s.setIndexReady i).indexes =
      s.indexes.map (fun d => if d.id = i then { d with status := .ready } else d) ∧
    (s.setIndexReady i).fieldName = s.fieldName ∧ (s.setIndexReady i).nextIndexId = s.nextIndexId := by
  have map : ∀ {α : Type} (g : IndexDef → α), (∀ d : IndexDef, g { d with status := .ready } = g d) →
      (s.indexes.map (fun d => if d.id = i then { d with status := IndexStatus.ready } else d)).map g =
        s.indexes.map g := by
    intro α g same
    rw [List.map_map]
    refine List.map_congr_left (fun d _ => ?_)
    change g (if d.id = i then _ else d) = g d
    split
    · exact same d
    · rfl
  have from_ : ∀ d ∈ s.indexes.map (fun d => if d.id = i then { d with status := .ready } else d),
      ∃ d' ∈ s.indexes, d.id = d'.id ∧ d.collectionId = d'.collectionId ∧
        d.fieldIds = d'.fieldIds := by
    intro d m
    obtain ⟨d', m', rfl⟩ := List.mem_map.mp m
    refine ⟨d', m', ?_⟩
    split <;> exact ⟨rfl, rfl, rfl⟩
  have already : ∀ d ∈ s.indexes, d.id = i → d.status = .ready →
      s.indexes = s.indexes.map (fun d => if d.id = i then { d with status := .ready } else d) := by
    intro d m is ready
    refine (List.map_id _).symm.trans (List.map_congr_left (fun x mx => ?_))
    by_cases mine : x.id = i
    · obtain rfl := h.same mx m (mine.trans is.symm)
      rw [if_pos mine, ← ready]
      rfl
    · exact (if_neg mine).symm
  unfold setIndexReady
  cases found : s.indexById i with
  | none =>
    refine ⟨h, ?_, rfl, rfl⟩
    refine (List.map_id _).symm.trans (List.map_congr_left (fun x m => (if_neg (fun is => ?_)).symm))
    exact List.find?_eq_none.mp found x m (decide_eq_true is)
  | some d =>
    have m := List.mem_of_find?_eq_some found
    have is : d.id = i := by
      have is := List.find?_some found
      rwa [decide_eq_true_eq] at is
    dsimp only
    split
    · rw [readyMap h.ids i]
      refine ⟨h.reindexed ?_ ?_ from_, rfl, rfl, rfl⟩
      · rw [map IndexDef.id (fun _ => rfl)]
        exact h.ids
      · rw [map (fun d => (d.collectionId, d.fieldIds)) (fun _ => rfl)]
        exact h.pairs
    · rename_i ready
      exact ⟨h, already d m is (not_not.mp ready), rfl, rfl⟩

theorem Orderly.drop (h : s.Orderly) (i : UInt32) : (s.dropIndex i).Orderly := by
  have fewer : (s.indexes.filter (fun d => d.id ≠ i)).Sublist s.indexes := List.filter_sublist
  exact h.reindexed ((fewer.map _).nodup h.ids) ((fewer.map _).nodup h.pairs)
    (fun d m => ⟨d, List.mem_of_mem_filter m, rfl, rfl, rfl⟩)

theorem Orderly.saved (h : s.Orderly) : s.saved.Orderly :=
  h.reindexed h.ids h.pairs (fun d m => ⟨d, m, rfl, rfl, rfl⟩)

theorem Orderly.loaded (h : s.Orderly) :
    load (some s.save) = .ok { s with changed := false, indexes := s.sortedIndexes } := by
  rw [loadNamed h.kept h.names h.filled, (fillFlipped h.kept.fields).mpr h.apart.fields]
  have collections := (fillFlipped h.kept.collections).mpr h.apart.collections
  refine congrArg Except.ok ?_
  rw [← collections]
  rfl

theorem Orderly.sorted (h : s.Orderly) :
    ({ s with changed := false, indexes := s.sortedIndexes } : Schema).Orderly := by
  have perm : s.sortedIndexes.Perm s.indexes := List.perm_insertionSort _ _
  exact h.reindexed ((perm.map _).nodup_iff.mpr h.ids) ((perm.map _).nodup_iff.mpr h.pairs)
    (fun d m => ⟨d, perm.mem_iff.mp m, rfl, rfl, rfl⟩)

end Indexes

/-- A later schema with the names and the indexes of the earlier one. -/
structure Follows (s s' : Schema) : Prop where
  orderly : s'.Orderly
  names : s.KeepsNames s'
  indexes : s'.indexes = s.indexes
  next : s'.nextIndexId = s.nextIndexId

theorem Orderly.follows (h : s.Orderly) : s.Follows s := ⟨h, .refl s, rfl, rfl⟩

theorem Follows.trans (h : s.Follows s') (h' : s'.Follows s'') : s.Follows s'' :=
  ⟨h'.orderly, h.names.trans h'.names, h'.indexes.trans h.indexes, h'.next.trans h.next⟩

theorem Orderly.toCollection (h : s.Orderly) (named : Named name)
    (room : s.nextCollectionId.toNat + 1 < 2 ^ 32) : s.Follows (s.collectionId name).2 := by
  obtain ⟨orderly, names⟩ := h.collectionId named room
  refine ⟨orderly, names, ?_, ?_⟩ <;>
  · unfold Schema.collectionId
    split <;> rfl

theorem Orderly.toField (h : s.Orderly) (c : UInt32) (named : Named name)
    (room : s.nextFieldId.toNat + 1 < 2 ^ 32) : s.Follows (s.fieldId c name).2 := by
  obtain ⟨orderly, names⟩ := h.fieldId (c := c) named room
  refine ⟨orderly, names, ?_, ?_⟩ <;>
  · unfold Schema.fieldId
    split <;> rfl

theorem Orderly.toSaved (h : s.Orderly) : s.Follows s.saved := ⟨h.saved, .refl s, rfl, rfl⟩

theorem fieldIdCounts (s : Schema) (c : UInt32) (name : Chars) :
    (s.fieldId c name).2.nextFieldId.toNat ≤ s.nextFieldId.toNat + 1 := by
  unfold Schema.fieldId
  split
  · exact Nat.le_succ _
  · change (s.nextFieldId + 1).toNat ≤ _
    rw [UInt32.toNat_add]
    exact Nat.mod_le _ _

theorem writtenFrom {fields : List (Chars × Value)} {written : List (UInt32 × Value)}
    (ids : WithIds s c fields written) {w : UInt32 × Value} (m : w ∈ written) :
    ∃ x ∈ fields, s.fieldIdOf.get (toLex (c, x.1)) = some w.1 ∧ x.2 = w.2 := by
  induction ids with
  | nil => exact absurd m List.not_mem_nil
  | @cons x _ fields written first _ ih =>
    rcases List.mem_cons.mp m with rfl | later
    · exact ⟨x, List.mem_cons_self, first⟩
    · obtain ⟨y, my, found⟩ := ih later
      exact ⟨y, List.mem_cons_of_mem _ my, found⟩

theorem writtenTo {fields : List (Chars × Value)} {written : List (UInt32 × Value)}
    (ids : WithIds s c fields written) {x : Chars × Value} (m : x ∈ fields) :
    ∃ f, s.fieldIdOf.get (toLex (c, x.1)) = some f := by
  induction ids with
  | nil => exact absurd m List.not_mem_nil
  | cons first _ ih =>
    rcases List.mem_cons.mp m with rfl | later
    · exact ⟨_, first.1⟩
    · exact ih later

theorem writtenNamed {fields : List (Chars × Value)} {written : List (UInt32 × Value)}
    (h : s.Orderly) (ids : WithIds s c fields written) :
    ∀ w ∈ written, (s.fieldName.get (toLex (c, w.1))).isSome := by
  intro w m
  obtain ⟨x, -, id, -⟩ := writtenFrom ids m
  exact Option.isSome_iff_exists.mpr ⟨x.1, h.apart.named id⟩

theorem writtenOnce {fields : List (Chars × Value)} {written : List (UInt32 × Value)}
    (h : s.Orderly) (ids : WithIds s c fields written) (once : (fields.map Prod.fst).Nodup) :
    (written.map Prod.fst).Nodup := by
  induction ids with
  | nil => exact List.nodup_nil
  | @cons x w fields written first rest ih =>
    rw [List.map_cons, List.nodup_cons] at once ⊢
    refine ⟨fun m => once.1 ?_, ih once.2⟩
    obtain ⟨w', m', same⟩ := List.mem_map.mp m
    obtain ⟨y, my, id, -⟩ := writtenFrom rest m'
    have alike := h.apart.sameName (same ▸ first.1) id
    exact List.mem_map.mpr ⟨y, my, alike.symm⟩

end Schema
end MyLsmDb
