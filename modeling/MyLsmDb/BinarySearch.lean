import Mathlib

/-! The search for the first position of a sorted sequence where a test fails. -/
namespace MyLsmDb.BinarySearch

/-- `while lo < hi`: halves the interval, towards the end where `test` still holds. -/
def search (test : Nat → Bool) : Nat → Nat → Nat → Nat
  | 0, lo, _ => lo
  | fuel + 1, lo, hi =>
    if lo < hi then
      let mid := (lo + hi) / 2
      if test mid then search test fuel (mid + 1) hi else search test fuel lo mid
    else lo

theorem searchSplits {test : Nat → Bool} {fuel lo hi n : Nat} (enough : hi - lo ≤ fuel)
    (order : lo ≤ hi) (bound : hi ≤ n) (mono : ∀ i j, i ≤ j → j < n → test j → test i)
    (below : ∀ i < lo, test i) (above : ∀ i, hi ≤ i → i < n → test i = false) :
    search test fuel lo hi ≤ n ∧ (∀ i < search test fuel lo hi, test i) ∧
      ∀ i, search test fuel lo hi ≤ i → i < n → test i = false := by
  induction fuel generalizing lo hi with
  | zero =>
    have same : lo = hi := by omega
    exact ⟨same ▸ bound, below, same ▸ above⟩
  | succ fuel ih =>
    unfold search
    split
    · rename_i lt
      dsimp only
      split
      · rename_i yes
        exact ih (by omega) (by omega) bound
          (fun i h => mono i _ (by omega) (by omega) yes) above
      · rename_i no
        refine ih (by omega) (by omega) (by omega) below (fun i h lt => ?_)
        by_contra yes
        exact no (mono _ i h lt (by simpa using yes))
    · rename_i nlt
      have same : lo = hi := by omega
      exact ⟨same ▸ bound, below, same ▸ above⟩

theorem searchList {α : Type} {l : List α} {p : α → Bool}
    (mono : l.Pairwise (fun a b => p b → p a)) :
    let r := search (fun i => (l[i]?).any p) l.length 0 l.length
    r ≤ l.length ∧ (∀ x ∈ l.take r, p x) ∧ ∀ x ∈ l.drop r, p x = false := by
  have steps : ∀ i j, i ≤ j → j < l.length → (l[j]?).any p → (l[i]?).any p := by
    intro i j le lt h
    rcases Nat.eq_or_lt_of_le le with rfl | less
    · exact h
    · have r := List.pairwise_iff_getElem.mp mono i j (by omega) lt less
      simp only [List.getElem?_eq_getElem lt, Option.any_some] at h
      simp only [List.getElem?_eq_getElem (less.trans lt), Option.any_some]
      exact r h
  obtain ⟨le, pass, fail⟩ := searchSplits (Nat.sub_le l.length 0)
    (Nat.zero_le l.length) le_rfl steps (by omega) (by omega)
  refine ⟨le, fun x m => ?_, fun x m => ?_⟩
  · obtain ⟨i, lt, rfl⟩ := List.mem_take_iff_getElem.mp m
    have h := pass i (by omega)
    rwa [List.getElem?_eq_getElem (by omega), Option.any_some] at h
  · obtain ⟨i, lt, rfl⟩ := List.mem_drop_iff_getElem.mp m
    rw [Nat.add_comm] at lt
    have h := fail _ (Nat.le_add_right _ i) lt
    rwa [List.getElem?_eq_getElem lt, Option.any_some] at h

end MyLsmDb.BinarySearch
