import Mathlib.Data.List.Sort
import Mathlib.Data.Prod.Lex
import Mathlib.Order.Compare

/-! Sorting by a comparison that tells all items of a list apart: the result does not depend on the
order that the list had before. -/
namespace MyLsmDb.Ranking

section Comparing
variable {β γ : Type} [LinearOrder β] [LinearOrder γ]

theorem thenLe {x y : β} {u v : γ} {o o' : Ordering} (h : o.Compares x y) (h' : o'.Compares u v) :
    (o.then o').isLE = true ↔ (toLex (x, u) : β ×ₗ γ) ≤ toLex (y, v) := by
  rw [Prod.Lex.toLex_le_toLex]
  cases o with
  | lt =>
    have less : x < y := h
    simp [Ordering.then, Ordering.isLE, less]
  | eq =>
    obtain rfl : x = y := h
    rw [← h'.ne_gt]
    cases o' <;> simp [Ordering.then, Ordering.isLE]
  | gt =>
    have more : y < x := h
    simp [Ordering.then, Ordering.isLE, not_lt.mpr more.le, more.ne']

end Comparing

section Sorting
variable {α : Type} {le : α → α → Bool} {l l' : List α}

structure Orders (le : α → α → Bool) : Prop where
  trans : ∀ a b c, le a b = true → le b c = true → le a c = true
  total : ∀ a b, (le a b || le b a) = true

theorem Orders.ofRank {β : Type} [LinearOrder β] {rank : α → β}
    (ranks : ∀ a b, le a b = true ↔ rank a ≤ rank b) : Orders le := by
  constructor
  · intro a b c ab bc
    rw [ranks] at ab bc ⊢
    exact ab.trans bc
  · intro a b
    rw [Bool.or_eq_true, ranks, ranks]
    exact le_total _ _

/-- No two items of the list come before each other. -/
def ToldApart (le : α → α → Bool) (l : List α) : Prop :=
  ∀ a ∈ l, ∀ b ∈ l, le a b = true → le b a = true → a = b

theorem Orders.sorted (h : Orders le) (l : List α) :
    (l.mergeSort le).Pairwise (fun a b => le a b = true) := List.pairwise_mergeSort h.trans h.total l

theorem Orders.unique (h : Orders le) (apart : ToldApart le l) (perm : l'.Perm l)
    (sorted : l'.Pairwise (fun a b => le a b = true)) : l.mergeSort le = l' := by
  refine List.Perm.eq_of_pairwise ?_ (h.sorted l) sorted
    ((List.mergeSort_perm l le).trans perm.symm)
  intro a b ma mb ab ba
  exact apart a (List.mem_mergeSort.mp ma) b (perm.mem_iff.mp mb) ab ba

theorem Orders.perm (h : Orders le) (apart : ToldApart le l) (perm : l'.Perm l) :
    l'.mergeSort le = l.mergeSort le :=
  (h.unique apart ((List.mergeSort_perm l' le).trans perm) (h.sorted l')).symm

theorem Orders.filter (h : Orders le) (apart : ToldApart le l) (p : α → Bool) :
    (l.mergeSort le).filter p = (l.filter p).mergeSort le := by
  refine (h.unique ?_ ((List.mergeSort_perm l le).filter p) ((h.sorted l).filter p)).symm
  exact fun a ma b mb => apart a (List.mem_of_mem_filter ma) b (List.mem_of_mem_filter mb)

end Sorting

theorem filterMapOnce {α β : Type} {g : α → Option β} {l : List α} (once : (l.filterMap g).Nodup)
    {a b : α} (ma : a ∈ l) (mb : b ∈ l) {x : β} (ga : g a = some x) (gb : g b = some x) : a = b := by
  induction l with
  | nil => cases ma
  | cons y l ih =>
    have rest : (l.filterMap g).Nodup := by
      cases gy : g y with
      | none => rwa [List.filterMap_cons_none gy] at once
      | some z =>
        rw [List.filterMap_cons_some gy] at once
        exact (List.nodup_cons.mp once).2
    have first : ∀ z ∈ l, g y = some x → g z = some x → False := by
      intro z mz gy gz
      rw [List.filterMap_cons_some gy] at once
      exact (List.nodup_cons.mp once).1 (List.mem_filterMap.mpr ⟨z, mz, gz⟩)
    rcases List.mem_cons.mp ma with isA | inA
    · rcases List.mem_cons.mp mb with isB | inB
      · exact isA.trans isB.symm
      · exact (first b inB (isA ▸ ga) gb).elim
    · rcases List.mem_cons.mp mb with isB | inB
      · exact (first a inA (isB ▸ gb) ga).elim
      · exact ih rest inA inB

end MyLsmDb.Ranking
