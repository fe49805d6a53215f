import MyLsmDb.MergeExact

/-! What comes out of a merge, said without the layers: the union of the sources' keys in
ascending order, each with the entry of the first source that has it. -/
namespace MyLsmDb.Iterator
open ByteOrder (Bytes)
open OrderedEntries

structure Merged (sources : List (List Rec)) (out : List Rec) : Prop where
  sorted : Ordered out
  keys : ∀ k, (∃ v, (k, v) ∈ out) ↔ ∃ l ∈ sources, ∃ v, (k, v) ∈ l
  newest : ∀ k v, (k, v) ∈ out → ∃ newer l older, sources = newer ++ l :: older ∧
    (k, v) ∈ l ∧ ∀ l' ∈ newer, ∀ w, (k, w) ∉ l'

theorem lookupLayersFirst {layers : List (List Rec)} {k : Bytes} {v : Entry}
    (found : lookupLayers layers k = some v) : ∃ newer l older, layers = newer ++ l :: older ∧
      (k, v) ∈ l ∧ ∀ l' ∈ newer, ∀ w, (k, w) ∉ l' := by
  induction layers with
  | nil => cases found
  | cons l layers ih =>
    rw [lookupLayersCons] at found
    cases here : l.lookup k with
    | some w =>
      rw [here] at found
      cases found
      exact ⟨[], l, layers, rfl, lookupMem here, by simp⟩
    | none =>
      rw [here, Option.none_or] at found
      obtain ⟨newer, x, older, rfl, member, absent⟩ := ih found
      refine ⟨l :: newer, x, older, rfl, member, ?_⟩
      intro l' m w inside
      obtain rfl | m := List.mem_cons.mp m
      · exact lookupNone.mp here (k, w) inside rfl
      · exact absent l' m w inside

theorem flattenMerged {sources : List (List Rec)} (ordered : ∀ l ∈ sources, Ordered l) :
    Merged sources (flatten sources) := by
  have out := flattenOrdered sources
  constructor
  · exact out
  · intro k
    constructor
    · intro h
      obtain ⟨v, m⟩ := h
      have found := memLookup out m
      rw [lookupFlatten] at found
      obtain ⟨newer, l, older, rfl, member, _⟩ := lookupLayersFirst found
      exact ⟨l, by simp, v, member⟩
    · intro h
      obtain ⟨l, m, v, member⟩ := h
      cases found : lookupLayers sources k with
      | some w =>
        rw [← lookupFlatten] at found
        exact ⟨w, lookupMem found⟩
      | none =>
        have absent := lookupLayersNone.mp found l m
        rw [memLookup (ordered l m) member] at absent
        cases absent
  · intro k v m
    have found := memLookup out m
    rw [lookupFlatten] at found
    exact lookupLayersFirst found

section Merge
variable {σ : Type} [ScanSource σ] [LawfulSource σ] {layers : List (List Rec)}

theorem collectEnds {m : MergeIter σ} (primed : m.primed = true)
    (h : Merging (fun _ => True) layers m.sources m.heap) (ordered : ∀ l ∈ layers, Ordered l)
    {fuel : Nat} (spare : (flatten layers).length < fuel) :
    m.collectLoop fuel = .ok (flatten layers) := by
  induction fuel generalizing m layers with
  | zero => omega
  | succ fuel ih =>
    rcases nextMerging primed h ordered with
      ⟨run, none⟩ | ⟨item, m', layers', run, primed', h', ordered', split, _⟩
    · simp only [MergeIter.collectLoop, run, none]
      rfl
    · rw [split, List.length_cons] at spare
      simp only [MergeIter.collectLoop, run, bind, Except.bind, ih primed' h' ordered'
        (by omega), split]
      rfl

theorem newEnds {sources : List σ} (h : List.Forall₂ Holds layers sources)
    (ordered : ∀ l ∈ layers, Ordered l) {fuel : Nat} (spare : (flatten layers).length < fuel) :
    (MergeIter.new sources).collectLoop fuel = .ok (flatten layers) := by
  obtain ⟨sources', heap', prime, full⟩ := primeExact h
  have rest := collectEnds (m := ⟨sources', heap', true⟩) rfl full ordered spare
  have again : MergeIter.prime ⟨sources', heap', true⟩ = .ok ⟨sources', heap', true⟩ := rfl
  cases fuel with
  | zero => omega
  | succ fuel =>
    rw [← rest]
    simp only [MergeIter.collectLoop, MergeIter.next, prime, again]

end Merge

theorem mergeUnion {layers : List (List Rec)} {sources : List Source}
    (ordered : ∀ l ∈ layers, Ordered l) (holds : List.Forall₂ Holds layers sources) :
    ∃ out, Merged layers out ∧ mergeVecs layers = .ok out ∧
      (MergeIter.new sources).collect = .ok out ∧
      ∀ fuel, out.length < fuel → (MergeIter.new sources).collectLoop fuel = .ok out :=
  ⟨flatten layers, flattenMerged ordered, mergeVecsExact ordered, collectExact holds ordered,
    fun _ spare => newEnds holds ordered spare⟩

theorem mergeUnionTombstone :
    let newer : List Rec := [([1], none), ([3], some [5])]
    let older : List Rec := [([1], some [7]), ([2], some [8])]
    ∃ out, Merged [newer, older] out ∧ mergeVecs [newer, older] = .ok out ∧
      (MergeIter.new [Source.vec ⟨newer, 0⟩, Source.vec ⟨older, 0⟩]).collect = .ok out ∧
      ∀ fuel, out.length < fuel →
        (MergeIter.new [Source.vec ⟨newer, 0⟩, Source.vec ⟨older, 0⟩]).collectLoop fuel =
          .ok out :=
  mergeUnion (by decide) (.cons rfl (.cons rfl .nil))

end MyLsmDb.Iterator
