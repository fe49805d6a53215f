import MyLsmDb.OrderedEntries

/-! Two maps kept side by side, from names to ids and back: `flip` turns an entry of the one
into an entry of the other. What the entries of the first map tell about the second. -/
namespace MyLsmDb.Registry
open OrderedEntries

variable {κ ν κ' ν' : Type} [LinearOrder κ] [DecidableEq κ] [BEq κ] [LawfulBEq κ]
  [LinearOrder κ'] [DecidableEq κ'] [BEq κ'] [LawfulBEq κ']

section Fill

def fill (l : List (κ × ν)) (m : OrderedMap κ ν) : OrderedMap κ ν :=
  l.foldl (fun m e => m.insert e.1 e.2) m

theorem lookupUnique {l : List (κ × ν)} (keys : (l.map Prod.fst).Nodup) {k : κ} {v : ν}
    (m : (k, v) ∈ l) : l.lookup k = some v := by
  induction l with
  | nil => cases m
  | cons e l ih =>
    obtain ⟨fresh, keys⟩ := List.nodup_cons.mp keys
    rw [lookupCons]
    rcases List.mem_cons.mp m with rfl | m
    · rw [if_pos rfl]
    · have differ : k ≠ e.1 := by
        intro eq
        exact fresh (eq ▸ List.mem_map_of_mem m)
      rw [if_neg differ, ih keys m]

theorem fillGet {l : List (κ × ν)} (keys : (l.map Prod.fst).Nodup) (m : OrderedMap κ ν) (k : κ) :
    (fill l m).get k = (l.lookup k).or (m.get k) := by
  induction l generalizing m with
  | nil => rfl
  | cons e l ih =>
    obtain ⟨fresh, keys⟩ := List.nodup_cons.mp keys
    have step : fill (e :: l) m = fill l (m.insert e.1 e.2) := rfl
    rw [step, ih keys, lookupCons, OrderedMap.getInsert]
    by_cases same : k = e.1
    · have absent : l.lookup k = none := by
        rw [lookupNone, same]
        intro x mx eq
        exact fresh (eq ▸ List.mem_map_of_mem mx)
      rw [absent, if_pos same, if_pos same]
      rfl
    · rw [if_neg same, if_neg same]

theorem fillEntries (m : OrderedMap κ ν) : fill m.entries .empty = m := by
  refine OrderedMap.ext (fun k => ?_)
  rw [fillGet m.ordered.nodupKeys, OrderedMap.getEmpty, Option.or_none]
  rfl

end Fill

section Pair
variable (flip : κ × ν ≃ κ' × ν')

/-- Every name has the id it is listed under. -/
def Listed (names : OrderedMap κ ν) (ids : OrderedMap κ' ν') : Prop :=
  ∀ e ∈ names.entries, flip e ∈ ids.entries

/-- Every id lists the name that has it: no two names share one. -/
def Unshared (names : OrderedMap κ ν) (ids : OrderedMap κ' ν') : Prop :=
  ∀ e ∈ ids.entries, flip.symm e ∈ names.entries

variable {flip} {names : OrderedMap κ ν} {ids : OrderedMap κ' ν'}

omit [DecidableEq κ] [BEq κ] [LawfulBEq κ] [DecidableEq κ'] [BEq κ'] [LawfulBEq κ'] in
theorem listedEmpty : Listed flip .empty .empty := fun _ m => nomatch m

theorem Listed.insert (h : Listed flip names ids) {e : κ × ν} (absent : ids.get (flip e).1 = none) :
    Listed flip (names.insert e.1 e.2) (ids.insert (flip e).1 (flip e).2) := by
  intro x mx
  obtain ⟨k, v⟩ := x
  have found := (OrderedMap.memIff _).mp mx
  rw [OrderedMap.getInsert] at found
  refine (OrderedMap.memIff _).mpr ?_
  change (ids.insert _ _).get (flip (k, v)).1 = some (flip (k, v)).2
  rw [OrderedMap.getInsert]
  by_cases same : k = e.1
  · rw [if_pos same] at found
    have eq : (k, v) = e := Prod.ext same (Option.some.inj found).symm
    rw [eq, if_pos rfl]
  · rw [if_neg same] at found
    have old : ids.get (flip (k, v)).1 = some (flip (k, v)).2 :=
      (OrderedMap.memIff _).mp (h _ ((OrderedMap.memIff _).mpr found))
    have differ : (flip (k, v)).1 ≠ (flip e).1 := by
      intro eq
      rw [eq, absent] at old
      cases old
    rw [if_neg differ, old]

/-- The ids that can be read off the names are all there are only if no two names share one. -/
theorem fillFlipped (h : Listed flip names ids) :
    fill (names.entries.map flip) .empty = ids ↔ Unshared flip names ids := by
  have keys : ((names.entries.map flip).map Prod.fst).Nodup := by
    have entries : (names.entries.map flip).Nodup :=
      (List.Nodup.of_map _ names.ordered.nodupKeys).map flip.injective
    rw [List.Nodup, List.pairwise_map]
    refine entries.imp_of_mem (fun {a b} ma mb differ same => differ ?_)
    have held : ∀ x ∈ names.entries.map flip, x ∈ ids.entries := by
      intro x mx
      obtain ⟨e, me, rfl⟩ := List.mem_map.mp mx
      exact h e me
    have left := (OrderedMap.memIff ids).mp (held a ma)
    have right := (OrderedMap.memIff ids).mp (held b mb)
    rw [same, right] at left
    exact Prod.ext same (Option.some.inj left).symm
  have content : ∀ x, x ∈ (fill (names.entries.map flip) .empty).entries ↔
      x ∈ names.entries.map flip := by
    intro x
    rw [show x = (x.1, x.2) from rfl, OrderedMap.memIff, fillGet keys, OrderedMap.getEmpty,
      Option.or_none]
    constructor
    · exact lookupMem
    · exact lookupUnique keys
  constructor
  · rintro rfl e me
    obtain ⟨x, mx, rfl⟩ := List.mem_map.mp ((content e).mp me)
    rw [Equiv.symm_apply_apply]
    exact mx
  · intro unshared
    refine OrderedMap.ext (fun k => Option.ext (fun v => ?_))
    rw [← OrderedMap.memIff, ← OrderedMap.memIff, content]
    constructor
    · intro m
      obtain ⟨e, me, eq⟩ := List.mem_map.mp m
      exact eq ▸ h e me
    · exact fun m => List.mem_map.mpr ⟨_, unshared _ m, flip.apply_symm_apply _⟩

end Pair
end MyLsmDb.Registry
