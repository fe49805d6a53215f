import Mathlib

/-! Byte strings under the order of Rust's `Vec<u8>` and `[u8]`: lexicographic,
a proper prefix first. What prefixes and self-delimiting codes do to it. -/
namespace MyLsmDb.ByteOrder

abbrev Bytes := List UInt8

instance byteOrder : LinearOrder UInt8 where
  le_refl := UInt8.le_refl
  le_trans _ _ _ := UInt8.le_trans
  le_antisymm _ _ := UInt8.le_antisymm
  le_total := UInt8.le_total
  lt_iff_le_not_ge _ _ := by
    rw [UInt8.lt_iff_toNat_lt, UInt8.le_iff_toNat_le, UInt8.le_iff_toNat_le]
    omega
  toDecidableLE := inferInstance
  toDecidableLT := inferInstance
  toDecidableEq := inferInstance

instance lawfulBytes : LawfulBEq Bytes := inferInstance

section Prefix
variable {α : Type}

/-- Neither string is a prefix of the other, so they differ at a position both have. -/
def Diverges (a b : List α) : Prop := ¬ a <+: b ∧ ¬ b <+: a

theorem Diverges.symm {a b : List α} (h : Diverges a b) : Diverges b a := ⟨h.2, h.1⟩

theorem divergesCons {a b : List α} {c : α} : Diverges (c :: a) (c :: b) ↔ Diverges a b := by
  simp [Diverges]

theorem Diverges.ne {a b : List α} (h : Diverges a b) : a ≠ b :=
  fun e => h.1 (e ▸ List.prefix_rfl)

theorem Diverges.append {a b : List α} (h : Diverges a b) (x y : List α) :
    Diverges (a ++ x) (b ++ y) := by
  refine ⟨fun p => ?_, fun p => ?_⟩
  · rcases List.prefix_or_prefix_of_prefix ((List.prefix_append a x).trans p)
      (List.prefix_append b y) with q | q
    · exact h.1 q
    · exact h.2 q
  · rcases List.prefix_or_prefix_of_prefix ((List.prefix_append b y).trans p)
      (List.prefix_append a x) with q | q
    · exact h.2 q
    · exact h.1 q

variable [LinearOrder α]

theorem nilLe (s : List α) : [] ≤ s := by
  rcases s with _ | ⟨a, s⟩
  · exact le_refl _
  · exact le_of_lt (List.nil_lt_cons a s)

theorem appendLtAppend (p x y : List α) : p ++ x < p ++ y ↔ x < y := by
  induction p with
  | nil => rfl
  | cons a p ih =>
    rw [List.cons_append, List.cons_append, List.cons_lt_cons_iff, ih]
    exact ⟨fun h => h.elim (fun h => absurd h (lt_irrefl a)) And.right, fun h => .inr ⟨rfl, h⟩⟩

theorem appendLeAppend (p x y : List α) : p ++ x ≤ p ++ y ↔ x ≤ y := by
  rw [← not_lt, ← not_lt, appendLtAppend]

theorem prefixLe {p s : List α} (h : p <+: s) : p ≤ s := by
  obtain ⟨t, rfl⟩ := h
  simpa using (appendLeAppend p [] t).mpr (nilLe t)

theorem Diverges.lt_iff {a b : List α} (h : Diverges a b) (x y : List α) :
    a ++ x < b ++ y ↔ a < b := by
  induction a generalizing b with
  | nil => exact absurd List.nil_prefix h.1
  | cons c a ih =>
    cases b with
    | nil => exact absurd List.nil_prefix h.2
    | cons d b =>
      simp only [List.cons_append, List.cons_lt_cons_iff]
      by_cases e : c = d
      · subst d
        simp only [lt_irrefl, true_and, false_or]
        exact ih (divergesCons.mp h)
      · simp [e]

/-- A string between two extensions of `p` extends `p` as well. -/
theorem prefixConvex {p a b c : List α} (pa : p <+: a) (pc : p <+: c) (ab : a ≤ b) (bc : b ≤ c) :
    p <+: b := by
  by_contra pb
  by_cases q : b <+: p
  · have le : b ≤ a := (prefixLe q).trans (prefixLe pa)
    exact pb (le_antisymm ab le ▸ pa)
  · have d : Diverges p b := ⟨pb, q⟩
    obtain ⟨x, rfl⟩ := pa
    obtain ⟨z, rfl⟩ := pc
    have lower : ¬ b < p := fun h =>
      absurd ((d.symm.lt_iff [] x).mpr h) (by simpa using ab)
    have upper : ¬ p < b := fun h =>
      absurd ((d.lt_iff z []).mpr h) (by simpa using bc)
    exact d.ne (le_antisymm (not_lt.mp lower) (not_lt.mp upper))

end Prefix

/-- Two codes are self-delimiting towards each other: equal, or apart at a common position. -/
def Delimited (a b : Bytes) : Prop := a = b ∨ Diverges a b

theorem Delimited.symm {a b : Bytes} (h : Delimited a b) : Delimited b a :=
  h.elim (fun e => .inl e.symm) (fun d => .inr d.symm)

theorem Delimited.eq_of_append {a b x y : Bytes} (h : Delimited a b) (e : a ++ x = b ++ y) :
    a = b ∧ x = y := by
  rcases h with rfl | d
  · exact ⟨rfl, List.append_cancel_left e⟩
  · exact absurd e (d.append x y).ne

theorem Delimited.prefix_iff {a b : Bytes} (h : Delimited a b) (y : Bytes) :
    a <+: b ++ y ↔ a = b := by
  constructor
  · rintro ⟨x, e⟩
    exact (h.eq_of_append e).1
  · rintro rfl
    exact List.prefix_append a y

theorem Delimited.cons {a b : Bytes} {c d : UInt8} (h : c = d → Delimited a b) :
    Delimited (c :: a) (d :: b) := by
  by_cases e : c = d
  · subst d
    rcases h rfl with rfl | v
    · exact .inl rfl
    · exact .inr (divergesCons.mpr v)
  · exact .inr ⟨fun p => e (List.cons_prefix_cons.mp p).1,
      fun p => e (List.cons_prefix_cons.mp p).1.symm⟩

theorem Delimited.append {a b x y : Bytes} (h : Delimited a b) (t : a = b → Delimited x y) :
    Delimited (a ++ x) (b ++ y) := by
  rcases h with rfl | d
  · rcases t rfl with rfl | v
    · exact .inl rfl
    · refine .inr ⟨fun p => v.1 ?_, fun p => v.2 ?_⟩ <;>
        exact (List.prefix_append_right_inj a).mp p
  · exact .inr (d.append x y)

theorem delimitedOfLength {a b : Bytes} (h : a.length = b.length) : Delimited a b := by
  by_cases e : a = b
  · exact .inl e
  · exact .inr ⟨fun p => e (p.eq_of_length h), fun p => e (p.eq_of_length h.symm).symm⟩

end MyLsmDb.ByteOrder
