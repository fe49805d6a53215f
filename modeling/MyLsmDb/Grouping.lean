import Mathlib

/-! Pairs in ascending order of their keys, gathered key by key in one pass. Keys are compared
by a rank, for any keys and values. -/
namespace MyLsmDb.Grouping

variable {ι κ α : Type} [DecidableEq ι] [LinearOrder κ]

def joined (i : ι) (front : List α) : List (ι × List α) → List (ι × List α)
  | [] => [(i, front)]
  | (j, l) :: rest => if i = j then (j, front ++ l) :: rest else (i, front) :: (j, l) :: rest

/-- Neighbours with the same key are put together. -/
def runs : List (ι × α) → List (ι × List α)
  | [] => []
  | (i, a) :: rest => joined i [a] (runs rest)

def valuesAt (xs : List (ι × α)) (i : ι) : List α := (xs.filter (fun x => x.1 = i)).map Prod.snd

theorem lookupFront [BEq ι] [LawfulBEq ι] (i j : ι) (l : List α) (rest : List (ι × List α)) :
    ((j, l) :: rest).lookup i = if i = j then some l else rest.lookup i := by
  rw [List.lookup_cons]
  by_cases same : i = j
  · simp [same]
  · rw [if_neg same, beq_false_of_ne same]

theorem lookupEntry {ν : Type} [BEq ι] [LawfulBEq ι] {l : List (ι × ν)}
    (keys : (l.map Prod.fst).Nodup) {i : ι} {v : ν} : l.lookup i = some v ↔ (i, v) ∈ l := by
  induction l with
  | nil => simp
  | cons e l ih =>
    obtain ⟨j, w⟩ := e
    obtain ⟨fresh, rest⟩ := List.nodup_cons.mp keys
    rw [List.lookup_cons]
    by_cases same : i = j
    · subst same
      have absent : (i, v) ∉ l := fun m => fresh (List.mem_map.mpr ⟨_, m, rfl⟩)
      simp [absent, eq_comm]
    · rw [beq_false_of_ne same]
      simp [same, ih rest]

theorem valuesAtCons (x : ι × α) (xs : List (ι × α)) (i : ι) :
    valuesAt (x :: xs) i = if x.1 = i then x.2 :: valuesAt xs i else valuesAt xs i := by
  unfold valuesAt
  by_cases same : x.1 = i
  · rw [if_pos same, List.filter_cons_of_pos (by simpa using same), List.map_cons]
  · rw [if_neg same, List.filter_cons_of_neg (by simpa using same)]

theorem valuesAtSingle (x : ι × α) (i : ι) :
    valuesAt [x] i = if x.1 = i then [x.2] else [] := valuesAtCons x [] i

theorem valuesAtAppend (xs ys : List (ι × α)) (i : ι) :
    valuesAt (xs ++ ys) i = valuesAt xs i ++ valuesAt ys i := by
  rw [valuesAt, List.filter_append, List.map_append]
  rfl

theorem valuesAtEmpty {xs : List (ι × α)} {i : ι} : valuesAt xs i = [] ↔ ∀ x ∈ xs, x.1 ≠ i := by
  simp [valuesAt, List.filter_eq_nil_iff]

theorem joinedJoined (i : ι) (front back : List α) (groups : List (ι × List α)) :
    joined i front (joined i back groups) = joined i (front ++ back) groups := by
  cases groups with
  | nil => simp [joined]
  | cons g rest =>
    by_cases same : i = g.1
    · simp [joined, same]
    · simp [joined, same]

theorem joinedOther {i j : ι} (differ : i ≠ j) (front back : List α)
    (groups : List (ι × List α)) :
    joined i front (joined j back groups) = (i, front) :: joined j back groups := by
  cases groups with
  | nil => simp [joined, differ]
  | cons g rest =>
    by_cases same : j = g.1
    · have apart : i ≠ g.1 := same ▸ differ
      simp only [joined, if_pos same, if_neg apart]
    · simp only [joined, if_neg same, if_neg differ]

section Ranked
variable (rank : ι → κ)

def Ascending (xs : List (ι × α)) : Prop := xs.Pairwise (fun a b => rank a.1 ≤ rank b.1)

variable {rank} (inj : Function.Injective rank)

omit [DecidableEq ι] in
theorem ascendingCons {x : ι × α} {xs : List (ι × α)} :
    Ascending rank (x :: xs) ↔ (∀ y ∈ xs, rank x.1 ≤ rank y.1) ∧ Ascending rank xs :=
  List.pairwise_cons

theorem memRuns {xs : List (ι × α)} {i : ι} :
    i ∈ (runs xs).map Prod.fst ↔ i ∈ xs.map Prod.fst := by
  induction xs with
  | nil => rfl
  | cons x xs ih =>
    obtain ⟨j, a⟩ := x
    rw [runs, List.map_cons, List.mem_cons, ← ih]
    cases runs xs with
    | nil => simp [joined]
    | cons g rest =>
      by_cases same : j = g.1
      · simp [joined, same]
      · simp [joined, same]

include inj in
theorem runsAscending {xs : List (ι × α)} (h : Ascending rank xs) :
    (runs xs).Pairwise (fun a b => rank a.1 < rank b.1) := by
  induction xs with
  | nil => exact List.Pairwise.nil
  | cons x xs ih =>
    obtain ⟨i, a⟩ := x
    obtain ⟨least, rest⟩ := ascendingCons.mp h
    have sorted := ih rest
    have above : ∀ g ∈ runs xs, rank i ≤ rank g.1 := by
      intro g m
      obtain ⟨y, my, same⟩ := List.mem_map.mp (memRuns.mp (List.mem_map_of_mem m))
      exact same ▸ least y my
    rw [runs]
    cases groups : runs xs with
    | nil => simp [joined]
    | cons g others =>
      rw [groups] at sorted above
      obtain ⟨first, sorted'⟩ := List.pairwise_cons.mp sorted
      by_cases same : i = g.1
      · simp only [joined, if_pos same]
        exact List.pairwise_cons.mpr ⟨first, sorted'⟩
      · simp only [joined, if_neg same]
        have below : rank i < rank g.1 :=
          lt_of_le_of_ne (above g List.mem_cons_self) (fun eq => same (inj eq))
        refine List.pairwise_cons.mpr ⟨fun b m => ?_, sorted⟩
        cases List.mem_cons.mp m with
        | inl eq => exact eq ▸ below
        | inr m => exact below.trans (first b m)

include inj in
theorem runsNodup {xs : List (ι × α)} (h : Ascending rank xs) : ((runs xs).map Prod.fst).Nodup :=
  List.pairwise_map.mpr ((runsAscending inj h).imp (fun less same => (same ▸ less).false))

include inj in
theorem runsLookup {xs : List (ι × α)} (h : Ascending rank xs) [BEq ι] [LawfulBEq ι] (i : ι) :
    (runs xs).lookup i = if valuesAt xs i = [] then none else some (valuesAt xs i) := by
  induction xs with
  | nil => rfl
  | cons x xs ih =>
    obtain ⟨j, a⟩ := x
    have rest := ih (ascendingCons.mp h).2
    have sorted := runsAscending inj h
    rw [runs] at sorted ⊢
    rw [valuesAtCons]
    cases groups : runs xs with
    | nil =>
      rw [groups] at rest
      have none : valuesAt xs i = [] := by
        by_contra some_
        rw [if_neg some_] at rest
        cases rest
      rw [joined, lookupFront, none]
      by_cases same : j = i
      · simp [same]
      · simp [same, Ne.symm same]
    | cons g others =>
      obtain ⟨k, l⟩ := g
      rw [groups] at rest sorted
      by_cases same : j = k
      · subst same
        simp only [joined, if_true]
        rw [lookupFront] at rest ⊢
        by_cases here : i = j
        · subst here
          rw [if_pos rfl] at rest
          have all : l = valuesAt xs i := by
            by_cases none : valuesAt xs i = []
            · rw [if_pos none] at rest
              cases rest
            · rw [if_neg none] at rest
              exact Option.some.inj rest
          simp [all]
        · rw [if_neg here] at rest ⊢
          simp [Ne.symm here, rest]
      · simp only [joined, if_neg same] at sorted ⊢
        rw [lookupFront]
        by_cases here : i = j
        · subst here
          have none : valuesAt xs i = [] := by
            refine valuesAtEmpty.mpr (fun y m eq => ?_)
            have inside : i ∈ (runs xs).map Prod.fst :=
              memRuns.mpr (List.mem_map.mpr ⟨y, m, eq⟩)
            rw [groups] at inside
            obtain ⟨g, mg, eq⟩ := List.mem_map.mp inside
            exact absurd ((List.pairwise_cons.mp sorted).1 g mg) (by simp [eq])
          simp [none]
        · rw [if_neg here, if_neg (Ne.symm here)]
          exact rest

end Ranked
end MyLsmDb.Grouping
