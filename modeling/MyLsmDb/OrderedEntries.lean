import MyLsmDb.ByteOrder

/-! Association lists in strictly ascending key order, for any ordered keys: lookup,
insertion, ranges, and layers of lists in which the first one that has a key decides. -/
set_option linter.unusedSectionVars false
namespace MyLsmDb.OrderedEntries

section Lists
variable {κ ν : Type}

variable [LinearOrder κ] [DecidableEq κ] [BEq κ] [LawfulBEq κ]

def Ordered (l : List (κ × ν)) : Prop := l.Pairwise (fun a b => a.1 < b.1)
instance (l : List (κ × ν)) : Decidable (Ordered l) := by unfold Ordered; infer_instance

def insertEntry (k : κ) (v : ν) : List (κ × ν) → List (κ × ν)
  | [] => [(k, v)]
  | e :: rest =>
    if k < e.1 then (k, v) :: e :: rest
    else if k = e.1 then (k, v) :: rest
    else e :: insertEntry k v rest

def eraseEntry (k : κ) (l : List (κ × ν)) : List (κ × ν) := l.filter (fun e => e.1 ≠ k)

def between (start stop : Option κ) (k : κ) : Bool :=
  start.all (fun s => decide (s ≤ k)) && stop.all (fun e => decide (k < e))

def rangeOf (start stop : Option κ) (l : List (κ × ν)) : List (κ × ν) :=
  l.filter (fun e => between start stop e.1)

theorem orderedCons {e : κ × ν} {l : List (κ × ν)} :
    Ordered (e :: l) ↔ (∀ x ∈ l, e.1 < x.1) ∧ Ordered l := List.pairwise_cons

theorem Ordered.sublist {a b : List (κ × ν)} (s : a.Sublist b) (h : Ordered b) : Ordered a :=
  List.Pairwise.sublist s h

theorem Ordered.append {a b : List (κ × ν)} : Ordered (a ++ b) ↔
    Ordered a ∧ Ordered b ∧ ∀ x ∈ a, ∀ y ∈ b, x.1 < y.1 := List.pairwise_append

theorem Ordered.nodupKeys {l : List (κ × ν)} (h : Ordered l) : (l.map Prod.fst).Nodup :=
  List.pairwise_map.mpr (List.Pairwise.imp (fun x => ne_of_lt x) h)

theorem lookupCons (e : κ × ν) (l : List (κ × ν)) (q : κ) :
    (e :: l).lookup q = if q = e.1 then some e.2 else l.lookup q := by
  obtain ⟨k, v⟩ := e
  by_cases same : q = k
  · simp [same]
  · have differ : (q == k) = false := by simpa using same
    simp [List.lookup_cons, same, differ]

theorem lookupMem {l : List (κ × ν)} {k : κ} {v : ν} (h : l.lookup k = some v) : (k, v) ∈ l := by
  obtain ⟨a, b, rfl, _⟩ := List.lookup_eq_some_iff.mp h
  simp

theorem lookupNone {l : List (κ × ν)} {k : κ} : l.lookup k = none ↔ ∀ e ∈ l, e.1 ≠ k := by
  rw [List.lookup_eq_none_iff]
  exact forall₂_congr (fun e _ => by rw [bne_iff_ne, ne_comm])

theorem memLookup {l : List (κ × ν)} (h : Ordered l) {k : κ} {v : ν} (m : (k, v) ∈ l) :
    l.lookup k = some v := by
  induction l with
  | nil => cases m
  | cons e l ih =>
    obtain ⟨below, tail⟩ := orderedCons.mp h
    rw [lookupCons]
    rcases List.mem_cons.mp m with rfl | m
    · simp
    · have differ : k ≠ e.1 := ne_of_gt (below _ m)
      simp [differ, ih tail m]

theorem lookupIff {l : List (κ × ν)} (h : Ordered l) {k : κ} {v : ν} :
    l.lookup k = some v ↔ (k, v) ∈ l := ⟨lookupMem, memLookup h⟩

theorem orderedExt {a b : List (κ × ν)} (ha : Ordered a) (hb : Ordered b)
    (same : ∀ k, a.lookup k = b.lookup k) : a = b := by
  refine List.Pairwise.eq_of_mem_iff (r := fun x y : κ × ν => x.1 < y.1) ha hb (fun e => ?_)
  rw [← lookupIff ha, ← lookupIff hb, same]

theorem insertMem {k : κ} {v : ν} {l : List (κ × ν)} {e : κ × ν} (m : e ∈ insertEntry k v l) :
    e = (k, v) ∨ e ∈ l := by
  induction l with
  | nil => simpa [insertEntry] using m
  | cons x l ih =>
    unfold insertEntry at m
    split at m
    · simpa using m
    · split at m
      · rcases List.mem_cons.mp m with h | h
        · exact .inl h
        · exact .inr (List.mem_cons_of_mem _ h)
      · rcases List.mem_cons.mp m with h | h
        · exact .inr (h ▸ List.mem_cons_self)
        · exact (ih h).imp id (List.mem_cons_of_mem _)

theorem insertOrdered {k : κ} {v : ν} {l : List (κ × ν)} (h : Ordered l) :
    Ordered (insertEntry k v l) := by
  induction l with
  | nil => exact List.pairwise_singleton _ _
  | cons x l ih =>
    obtain ⟨below, tail⟩ := orderedCons.mp h
    unfold insertEntry
    split
    · rename_i lt
      refine orderedCons.mpr ⟨fun y m => ?_, h⟩
      rcases List.mem_cons.mp m with rfl | m
      · exact lt
      · exact lt_trans lt (below y m)
    · split
      · rename_i eq
        exact orderedCons.mpr ⟨fun y m => eq ▸ below y m, tail⟩
      · rename_i nlt ne
        have gt : x.1 < k := lt_of_le_of_ne (not_lt.mp nlt) (Ne.symm ne)
        refine orderedCons.mpr ⟨fun y m => ?_, ih tail⟩
        rcases insertMem m with rfl | m
        · exact gt
        · exact below y m

theorem lookupInsert {k : κ} {v : ν} {l : List (κ × ν)} (h : Ordered l) (q : κ) :
    (insertEntry k v l).lookup q = if q = k then some v else l.lookup q := by
  induction l with
  | nil => exact lookupCons _ _ _
  | cons x l ih =>
    obtain ⟨below, tail⟩ := orderedCons.mp h
    unfold insertEntry
    split
    · rw [lookupCons]
    · split
      · rename_i eq
        rw [lookupCons, lookupCons, ← eq]
        split <;> rfl
      · rename_i ne
        rw [lookupCons, ih tail, lookupCons]
        by_cases e : q = x.1
        · subst e
          simp [Ne.symm ne]
        · simp [e]

theorem lookupFilter {l : List (κ × ν)} (p : κ → Bool) (q : κ) :
    (l.filter (fun e => p e.1)).lookup q = if p q then l.lookup q else none := by
  induction l with
  | nil => simp
  | cons x l ih =>
    by_cases e : q = x.1
    · subst e
      by_cases h : p x.1 <;> simp [h, ih, lookupCons]
    · by_cases h : p x.1 <;> simp [h, ih, lookupCons, e]

theorem lookupErase {k : κ} {l : List (κ × ν)} (q : κ) :
    (eraseEntry k l).lookup q = if q = k then none else l.lookup q := by
  have h := lookupFilter (l := l) (fun x => decide (x ≠ k)) q
  unfold eraseEntry
  rw [h]
  by_cases e : q = k <;> simp [e]

theorem eraseOrdered {k : κ} {l : List (κ × ν)} (h : Ordered l) : Ordered (eraseEntry k l) :=
  h.sublist List.filter_sublist

theorem lookupRange {start stop : Option κ} {l : List (κ × ν)} (q : κ) :
    (rangeOf start stop l).lookup q = if between start stop q then l.lookup q else none :=
  lookupFilter (between start stop) q

theorem rangeOrdered {start stop : Option κ} {l : List (κ × ν)} (h : Ordered l) :
    Ordered (rangeOf start stop l) := h.sublist List.filter_sublist

theorem memRange {start stop : Option κ} {l : List (κ × ν)} {e : κ × ν} :
    e ∈ rangeOf start stop l ↔ e ∈ l ∧ between start stop e.1 := List.mem_filter

/-- The first layer that has the key decides, whatever the later ones hold. -/
def lookupLayers (layers : List (List (κ × ν))) (k : κ) : Option ν :=
  layers.findSome? (fun l => l.lookup k)

@[simp] theorem lookupLayersNil (k : κ) : lookupLayers ([] : List (List (κ × ν))) k = none := rfl

@[simp] theorem lookupLayersCons (l : List (κ × ν)) (rest : List (List (κ × ν))) (k : κ) :
    lookupLayers (l :: rest) k = (l.lookup k).or (lookupLayers rest k) := by
  simp only [lookupLayers, List.findSome?_cons]
  cases l.lookup k <;> rfl

theorem lookupLayersAppend (a b : List (List (κ × ν))) (k : κ) :
    lookupLayers (a ++ b) k = (lookupLayers a k).or (lookupLayers b k) := by
  simp only [lookupLayers, List.findSome?_append]

def overlay (upper lower : List (κ × ν)) : List (κ × ν) :=
  upper.foldr (fun e acc => insertEntry e.1 e.2 acc) lower

def flatten (layers : List (List (κ × ν))) : List (κ × ν) := layers.foldr overlay []

theorem overlayOrdered {upper lower : List (κ × ν)} (h : Ordered lower) :
    Ordered (overlay upper lower) := by
  induction upper with
  | nil => exact h
  | cons e upper ih => exact insertOrdered ih

theorem lookupOverlay {upper lower : List (κ × ν)} (h : Ordered lower) (q : κ) :
    (overlay upper lower).lookup q = (upper.lookup q).or (lower.lookup q) := by
  induction upper with
  | nil => simp [overlay]
  | cons e upper ih =>
    change (insertEntry e.1 e.2 (overlay upper lower)).lookup q = _
    rw [lookupInsert (overlayOrdered h), ih, lookupCons]
    by_cases same : q = e.1 <;> simp [same]

theorem overlayMem {upper lower : List (κ × ν)} {e : κ × ν} (m : e ∈ overlay upper lower) :
    e ∈ upper ∨ e ∈ lower := by
  induction upper with
  | nil => exact .inr m
  | cons x upper ih =>
    rcases insertMem m with rfl | m
    · exact .inl List.mem_cons_self
    · exact (ih m).imp_left (List.mem_cons_of_mem x)

theorem insertFirst {k : κ} {v : ν} {l : List (κ × ν)} (above : ∀ e ∈ l, k < e.1) :
    insertEntry k v l = (k, v) :: l := by
  cases l with
  | nil => rfl
  | cons e l => rw [insertEntry, if_pos (above e List.mem_cons_self)]

theorem overlayUpper {x : κ × ν} {upper lower : List (κ × ν)} (ordered : Ordered (x :: upper))
    (above : ∀ e ∈ lower, x.1 < e.1) : overlay (x :: upper) lower = x :: overlay upper lower := by
  refine insertFirst (fun e m => ?_)
  rcases overlayMem m with m | m
  · exact (orderedCons.mp ordered).1 e m
  · exact above e m

theorem overlayLower {y : κ × ν} {upper lower : List (κ × ν)} (above : ∀ e ∈ upper, y.1 < e.1) :
    overlay upper (y :: lower) = y :: overlay upper lower := by
  induction upper with
  | nil => rfl
  | cons x upper ih =>
    have after : y.1 < x.1 := above x List.mem_cons_self
    change insertEntry x.1 x.2 (overlay upper (y :: lower)) = _
    rw [ih (fun e m => above e (List.mem_cons_of_mem x m)), insertEntry,
      if_neg (lt_asymm after), if_neg (ne_of_gt after)]
    rfl

theorem overlaySame {x y : κ × ν} {upper lower : List (κ × ν)} (same : x.1 = y.1)
    (ordered : Ordered (x :: upper)) :
    overlay (x :: upper) (y :: lower) = x :: overlay upper lower := by
  change insertEntry x.1 x.2 (overlay upper (y :: lower)) = _
  rw [overlayLower (same ▸ (orderedCons.mp ordered).1), insertEntry, if_neg (same ▸ lt_irrefl _),
    if_pos same]

theorem flattenOrdered (layers : List (List (κ × ν))) : Ordered (flatten layers) := by
  induction layers with
  | nil => exact List.Pairwise.nil
  | cons l rest ih => exact overlayOrdered ih

theorem lookupFlatten (layers : List (List (κ × ν))) (q : κ) :
    (flatten layers).lookup q = lookupLayers layers q := by
  induction layers with
  | nil => rfl
  | cons l rest ih =>
    change (overlay l (flatten rest)).lookup q = _
    rw [lookupOverlay (flattenOrdered rest), ih, lookupLayersCons]

theorem lookupLayersNone {layers : List (List (κ × ν))} {k : κ} :
    lookupLayers layers k = none ↔ ∀ l ∈ layers, l.lookup k = none :=
  List.findSome?_eq_none_iff

theorem lookupConcat (layers : List (List (κ × ν))) (k : κ) :
    layers.flatten.lookup k = lookupLayers layers k := by
  induction layers with
  | nil => rfl
  | cons l layers ih => rw [List.flatten_cons, List.lookup_append, lookupLayersCons, ih]

theorem lookupLayersPerm {a b : List (List (κ × ν))} (p : a.Perm b) {k : κ}
    (apart : a.Pairwise (fun x y => x.lookup k = none ∨ y.lookup k = none)) :
    lookupLayers a k = lookupLayers b k := by
  induction p with
  | nil => rfl
  | cons l _ ih =>
    rw [lookupLayersCons, lookupLayersCons, ih (List.pairwise_cons.mp apart).2]
  | swap x y l =>
    simp only [lookupLayersCons]
    rcases (List.pairwise_cons.mp apart).1 x List.mem_cons_self with none | none <;>
      simp [none]
  | trans p _ ih₁ ih₂ =>
    exact (ih₁ apart).trans (ih₂ ((p.pairwise_iff (fun h => h.symm)).mp apart))

theorem lookupWithoutTombstones {ν' : Type} {l : List (κ × Option ν')} (h : Ordered l) (k : κ) :
    ((l.filter (fun e => e.2.isSome)).lookup k).join = (l.lookup k).join ∧
      (l.lookup k = none → (l.filter (fun e => e.2.isSome)).lookup k = none) := by
  have sub : Ordered (l.filter (fun e => e.2.isSome)) := h.sublist List.filter_sublist
  have back : ∀ v, (l.filter (fun e => e.2.isSome)).lookup k = some v → l.lookup k = some v :=
    fun v found => memLookup h (List.mem_of_mem_filter (lookupMem found))
  constructor
  · cases found : l.lookup k with
    | none =>
      cases again : (l.filter (fun e => e.2.isSome)).lookup k with
      | none => rfl
      | some v =>
        rw [back v again] at found
        cases found
    | some e =>
      cases e with
      | none =>
        cases again : (l.filter (fun e => e.2.isSome)).lookup k with
        | none => rfl
        | some v =>
          have := back v again
          rw [found] at this
          cases this
          rfl
      | some v =>
        rw [memLookup sub (List.mem_filter.mpr ⟨lookupMem found, rfl⟩)]
  · intro none
    cases again : (l.filter (fun e => e.2.isSome)).lookup k with
    | none => rfl
    | some v =>
      rw [back v again] at none
      cases none

theorem flattenRange (start stop : Option κ) (layers : List (List (κ × ν))) :
    flatten (layers.map (rangeOf start stop)) = rangeOf start stop (flatten layers) := by
  refine orderedExt (flattenOrdered _) (rangeOrdered (flattenOrdered _)) (fun q => ?_)
  rw [lookupRange, lookupFlatten, lookupFlatten]
  induction layers with
  | nil => simp
  | cons l layers ih =>
    rw [List.map_cons, lookupLayersCons, lookupLayersCons, lookupRange, ih]
    split <;> rfl

theorem overlayRange (start stop : Option κ) {upper lower : List (κ × ν)} (h : Ordered lower) :
    overlay (rangeOf start stop upper) (rangeOf start stop lower) =
      rangeOf start stop (overlay upper lower) := by
  refine orderedExt (overlayOrdered (rangeOrdered h)) (rangeOrdered (overlayOrdered h)) (fun q => ?_)
  rw [lookupRange, lookupOverlay (rangeOrdered h), lookupOverlay h, lookupRange, lookupRange]
  split <;> rfl

def dropKey (k : κ) : List (κ × ν) → List (κ × ν)
  | [] => []
  | e :: l => if e.1 = k then l else e :: l

theorem dropKeyCons (k : κ) (e : κ × ν) (l : List (κ × ν)) :
    dropKey k (e :: l) = if e.1 = k then l else e :: l := rfl

theorem dropKeyOrdered {k : κ} {l : List (κ × ν)} (h : Ordered l) : Ordered (dropKey k l) := by
  cases l with
  | nil => exact h
  | cons e l =>
    rw [dropKeyCons]
    split
    · exact (orderedCons.mp h).2
    · exact h

theorem dropKeyAbove {k : κ} {l : List (κ × ν)} (above : ∀ e ∈ l, k < e.1) : dropKey k l = l := by
  cases l with
  | nil => rfl
  | cons e l => exact if_neg (ne_of_gt (above e List.mem_cons_self))

theorem aboveDropKey {k : κ} {l : List (κ × ν)} (h : Ordered l) (least : ∀ e ∈ l, k ≤ e.1) :
    ∀ e ∈ dropKey k l, k < e.1 := by
  cases l with
  | nil => simp [dropKey]
  | cons x l =>
    obtain ⟨below, _⟩ := orderedCons.mp h
    intro e m
    rw [dropKeyCons] at m
    split at m
    · rename_i same
      exact same ▸ below e m
    · rename_i differ
      have lt : k < x.1 := lt_of_le_of_ne (least x List.mem_cons_self) (Ne.symm differ)
      rcases List.mem_cons.mp m with rfl | m
      · exact lt
      · exact lt.trans (below e m)

theorem lookupDropKey {k q : κ} {l : List (κ × ν)} (differ : q ≠ k) :
    (dropKey k l).lookup q = l.lookup q := by
  cases l with
  | nil => rfl
  | cons e l =>
    by_cases same : e.1 = k
    · simp only [dropKey, same, if_true]
      rw [lookupCons, if_neg (same ▸ differ)]
    · simp only [dropKey, same, if_false]

/-- What a merge emits first: the least key, with the entry of the first layer that has it. -/
theorem flattenStep {layers : List (List (κ × ν))} {k : κ} {v : ν}
    (ordered : ∀ l ∈ layers, Ordered l) (least : ∀ l ∈ layers, ∀ e ∈ l, k ≤ e.1)
    (found : lookupLayers layers k = some v) :
    flatten layers = (k, v) :: flatten (layers.map (dropKey k)) := by
  have above : ∀ e ∈ flatten (layers.map (dropKey k)), k < e.1 := by
    intro e m
    have some := memLookup (flattenOrdered _) (k := e.1) (v := e.2) m
    rw [lookupFlatten] at some
    obtain ⟨l, ml, hl⟩ := List.exists_of_findSome?_eq_some some
    obtain ⟨l, m, rfl⟩ := List.mem_map.mp ml
    exact aboveDropKey (ordered l m) (least l m) _ (lookupMem hl)
  refine orderedExt (flattenOrdered _) (orderedCons.mpr ⟨above, flattenOrdered _⟩) (fun q => ?_)
  rw [lookupFlatten, lookupCons]
  by_cases same : q = k
  · simp [same, found]
  · simp only [same, if_false, lookupFlatten]
    clear found above ordered least
    induction layers with
    | nil => rfl
    | cons l layers ih =>
      simp only [List.map_cons, lookupLayersCons, lookupDropKey same, ih]

end Lists

/-- A map kept as its entries in key order, as a `BTreeMap` is iterated. -/
structure OrderedMap (κ ν : Type) [LinearOrder κ] where
  entries : List (κ × ν)
  ordered : Ordered entries
  deriving DecidableEq

namespace OrderedMap
variable {κ ν : Type} [LinearOrder κ] [DecidableEq κ] [BEq κ] [LawfulBEq κ]

def empty : OrderedMap κ ν := ⟨[], List.Pairwise.nil⟩
instance : Inhabited (OrderedMap κ ν) := ⟨empty⟩

def get (m : OrderedMap κ ν) (k : κ) : Option ν := m.entries.lookup k
def insert (m : OrderedMap κ ν) (k : κ) (v : ν) : OrderedMap κ ν :=
  ⟨insertEntry k v m.entries, insertOrdered m.ordered⟩
def erase (m : OrderedMap κ ν) (k : κ) : OrderedMap κ ν :=
  ⟨eraseEntry k m.entries, eraseOrdered m.ordered⟩
def range (m : OrderedMap κ ν) (start stop : Option κ) : List (κ × ν) :=
  rangeOf start stop m.entries

theorem ext {a b : OrderedMap κ ν} (same : ∀ k, a.get k = b.get k) : a = b := by
  cases a with | mk x hx =>
  cases b with | mk y hy =>
  cases orderedExt hx hy same
  rfl

@[simp] theorem getEmpty (k : κ) : (empty : OrderedMap κ ν).get k = none := rfl

@[simp] theorem getInsert (m : OrderedMap κ ν) (k q : κ) (v : ν) :
    (m.insert k v).get q = if q = k then some v else m.get q := lookupInsert m.ordered q

@[simp] theorem getErase (m : OrderedMap κ ν) (k q : κ) :
    (m.erase k).get q = if q = k then none else m.get q := lookupErase q

theorem memIff (m : OrderedMap κ ν) {k : κ} {v : ν} : (k, v) ∈ m.entries ↔ m.get k = some v :=
  (lookupIff m.ordered).symm

end OrderedMap
end MyLsmDb.OrderedEntries
