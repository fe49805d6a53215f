import MyLsmDb.Views

/-! A compaction keeps the view: tables and segments that hold the whole history of their
keys are merged, tombstones dropped, and the result is cut into segments that lie beside
the retained ones. It may stop anywhere; the old or the new manifest then still stands. -/
namespace MyLsmDb
open ByteOrder (Bytes)
open Effect
open Iterator
open OrderedEntries
open Sstable (TableReader tableFile)

section Reading
variable {db : Database}

theorem mergeSourcesRun {ids : List Nat} (h : ∀ id ∈ ids, HasTable db.disk.tables id) :
    Database.mergeSources ids db = .ok (ids.map (recordsOf db.disk.tables)) db := by
  induction ids with
  | nil => rfl
  | cons id ids ih =>
    obtain ⟨r, run, _, opened⟩ := Database.openTableRun (h id List.mem_cons_self)
    have rest := ih (fun i mi => h i (List.mem_cons_of_mem _ mi))
    simp only [Database.mergeSources, bind, EStateM.bind, run, Sstable.iterExact opened, lift, pure,
      EStateM.pure, rest, List.map_cons]

theorem mergeIdsRun {ids : List Nat} (h : ∀ id ∈ ids, HasTable db.disk.tables id) :
    Database.mergeIds ids true db = .ok ((flatten (ids.map (recordsOf db.disk.tables))).filter
      (fun r => r.2.isSome)) db := by
  have ordered : ∀ l ∈ ids.map (recordsOf db.disk.tables), Ordered l := fun l ml => by
    obtain ⟨id, mid, rfl⟩ := List.mem_map.mp ml
    exact (h id mid).ordered
  simp only [Database.mergeIds, bind, EStateM.bind, mergeSourcesRun h, mergeVecsExact ordered, lift,
    pure, EStateM.pure, if_true]

theorem widenBounds (bounds : Option (Bytes × Bytes)) (first last : Bytes) :
    (Database.widen bounds first last).1 ≤ first ∧ last ≤ (Database.widen bounds first last).2 ∧
      ∀ b ∈ bounds, (Database.widen bounds first last).1 ≤ b.1 ∧
        b.2 ≤ (Database.widen bounds first last).2 := by
  cases bounds with
  | none => exact ⟨le_refl _, le_refl _, by simp⟩
  | some b =>
    obtain ⟨lo, hi⟩ := b
    have low : (if first < lo then first else lo) ≤ first ∧
        (if first < lo then first else lo) ≤ lo := by
      split
      · exact ⟨le_refl _, le_of_lt ‹_›⟩
      · exact ⟨not_lt.mp ‹_›, le_refl _⟩
    have high : last ≤ (if hi < last then last else hi) ∧
        hi ≤ (if hi < last then last else hi) := by
      split
      · exact ⟨le_refl _, le_of_lt ‹_›⟩
      · exact ⟨not_lt.mp ‹_›, le_refl _⟩
    refine ⟨low.1, high.1, fun b mb => ?_⟩
    cases mb
    exact ⟨low.2, high.2⟩

theorem tableBoundsRun {ids : List Nat} (h : ∀ id ∈ ids, HasTable db.disk.tables id)
    (bounds : Option (Bytes × Bytes)) (bounded : ids ≠ [] ∨ bounds ≠ none) : ∃ lo hi,
      Database.tableBounds bounds ids db = .ok (some (lo, hi)) db ∧
      (∀ b ∈ bounds, lo ≤ b.1 ∧ b.2 ≤ hi) ∧
      ∀ id ∈ ids, ∀ x ∈ recordsOf db.disk.tables id, lo ≤ x.1 ∧ x.1 ≤ hi := by
  induction ids generalizing bounds with
  | nil =>
    obtain ⟨⟨lo, hi⟩, rfl⟩ := Option.ne_none_iff_exists'.mp (bounded.resolve_left (by simp))
    exact ⟨lo, hi, rfl, by simp, by simp⟩
  | cons id ids ih =>
    have table := h id List.mem_cons_self
    obtain ⟨r, run, _, opened⟩ := Database.openTableRun table
    have bound := Sstable.keyBoundsExact opened table.some
    set first := (recordsOf db.disk.tables id).head table.some with hfirst
    set last := (recordsOf db.disk.tables id).getLast table.some with hlast
    have within : ∀ x ∈ recordsOf db.disk.tables id, first.1 ≤ x.1 ∧ x.1 ≤ last.1 := by
      have seg : SegmentAt db.disk.tables
          ⟨id, first.1, last.1, (recordsOf db.disk.tables id).length⟩ :=
        ⟨table, by rw [List.head?_eq_some_head table.some]; rfl,
          by rw [List.getLast?_eq_some_getLast table.some]; rfl, rfl⟩
      exact fun x mx => seg.inside mx
    obtain ⟨low, high, old⟩ := widenBounds bounds first.1 last.1
    obtain ⟨lo, hi, rest, wider, all⟩ := ih (fun i mi => h i (List.mem_cons_of_mem _ mi))
      (some (Database.widen bounds first.1 last.1)) (.inr (by simp))
    have step := wider _ rfl
    refine ⟨lo, hi, ?_, fun b mb => ⟨step.1.trans (old b mb).1, (old b mb).2.trans step.2⟩, ?_⟩
    · simp only [Database.tableBounds, bind, EStateM.bind, run, bound]
      exact rest
    · intro i mi x mx
      rcases List.mem_cons.mp mi with rfl | mi
      · have inside := within x mx
        exact ⟨(step.1.trans low).trans inside.1, inside.2.trans (high.trans step.2)⟩
      · exact all i mi x mx

end Reading

section Chunks

theorem chunkLoopFlatten {n : Nat} (some : n ≠ 0) {fuel : Nat} {l : List Rec}
    (enough : l.length ≤ fuel) : (Database.chunkLoop n fuel l).flatten = l := by
  induction fuel generalizing l with
  | zero => simpa [Database.chunkLoop] using (List.length_eq_zero_iff.mp (Nat.le_zero.mp enough)).symm
  | succ fuel ih =>
    unfold Database.chunkLoop
    split
    · rename_i none
      simp [none]
    · rw [List.flatten_cons, ih (by simp; omega), List.take_append_drop]

theorem chunkLoopSome {n : Nat} (some : n ≠ 0) {fuel : Nat} {l : List Rec} :
    ∀ c ∈ Database.chunkLoop n fuel l, c ≠ [] := by
  induction fuel generalizing l with
  | zero => simp [Database.chunkLoop]
  | succ fuel ih =>
    intro c mc
    unfold Database.chunkLoop at mc
    split at mc
    · cases mc
    · rename_i full
      rcases List.mem_cons.mp mc with rfl | mc
      · simp [some, full]
      · exact ih c mc

theorem chunksRun {n : Nat} (some : n ≠ 0) (l : List Rec) : ∃ parts,
    Database.chunks n l = .ok parts ∧ parts.flatten = l ∧ ∀ c ∈ parts, c ≠ [] :=
  ⟨_, if_neg some, chunkLoopFlatten some le_rfl, chunkLoopSome some⟩

end Chunks

section Segments

/-- Segments with no key range in common. -/
def Apart (a b : SegmentMeta) : Prop := a.maxKey < b.minKey ∨ b.maxKey < a.minKey

instance : Std.Symm Apart := ⟨fun _ _ => Or.symm⟩

theorem sortedApart {segs : List SegmentMeta} (h : Manifest.Sorted segs) : segs.Pairwise Apart :=
  h.disjoint.imp .inl

theorem sortSegmentsSorted {segs : List SegmentMeta} (apart : segs.Pairwise Apart)
    (ranges : ∀ s ∈ segs, s.minKey ≤ s.maxKey) : Manifest.Sorted (Database.sortSegments segs) := by
  have perm : (Database.sortSegments segs).Perm segs := List.perm_insertionSort _ _
  have apart' : (Database.sortSegments segs).Pairwise Apart :=
    (perm.pairwise_iff (fun h => h.symm)).mpr apart
  have range : ∀ s ∈ Database.sortSegments segs, s.minKey ≤ s.maxKey :=
    fun s ms => ranges s (perm.mem_iff.mp ms)
  have total : Std.Total (fun a b : SegmentMeta => a.minKey ≤ b.minKey) :=
    ⟨fun a b => le_total _ _⟩
  have transitive : IsTrans SegmentMeta (fun a b => a.minKey ≤ b.minKey) :=
    ⟨fun _ _ _ => le_trans⟩
  have sorted : (Database.sortSegments segs).Pairwise (fun a b => a.minKey ≤ b.minKey) :=
    List.pairwise_insertionSort _ _
  have disjoint : (Database.sortSegments segs).Pairwise (fun a b => a.maxKey < b.minKey) := by
    refine (sorted.and apart').imp_of_mem ?_
    rintro a b ma mb ⟨le, lt | lt⟩
    · exact lt
    · exact absurd ((range b mb).trans_lt lt) (not_lt.mpr le)
  exact ⟨disjoint.imp_of_mem (fun ma _ lt => (range _ ma).trans_lt lt), disjoint, range⟩

structure NewSegment (tables : OrderedMap Nat Bytes) (part : List Rec) (s : SegmentMeta) : Prop where
  table : TableAt tables s.fileId part
  first : part.head?.map Prod.fst = some s.minKey
  last : part.getLast?.map Prod.fst = some s.maxKey
  count : s.records = part.length

theorem NewSegment.records {tables : OrderedMap Nat Bytes} {part : List Rec} {s : SegmentMeta}
    (h : NewSegment tables part s) : recordsOf tables s.fileId = part := recordsOfAt h.table

theorem NewSegment.segmentAt {tables : OrderedMap Nat Bytes} {part : List Rec} {s : SegmentMeta}
    (h : NewSegment tables part s) : SegmentAt tables s := by
  refine ⟨h.table.hasTable, ?_, ?_, ?_⟩ <;> rw [h.records]
  · exact h.first
  · exact h.last
  · exact h.count

theorem NewSegment.same {tables tables' : OrderedMap Nat Bytes} {part : List Rec} {s : SegmentMeta}
    (h : NewSegment tables part s) (same : tables'.get s.fileId = tables.get s.fileId) :
    NewSegment tables' part s :=
  ⟨⟨same.trans h.table.file, h.table.fits, h.table.ordered, h.table.some⟩, h.first, h.last, h.count⟩

theorem NewSegment.ends {tables : OrderedMap Nat Bytes} {part : List Rec} {s : SegmentMeta}
    (h : NewSegment tables part s) : (∃ x ∈ part, x.1 = s.minKey) ∧ ∃ x ∈ part, x.1 = s.maxKey := by
  obtain ⟨x, hx, ex⟩ := Option.map_eq_some_iff.mp h.first
  obtain ⟨y, hy, ey⟩ := Option.map_eq_some_iff.mp h.last
  exact ⟨⟨x, List.mem_of_head? hx, ex⟩, ⟨y, List.mem_of_getLast? hy, ey⟩⟩

theorem newSegmentsApart {tables : OrderedMap Nat Bytes} {parts : List (List Rec)}
    {segs : List SegmentMeta} (h : List.Forall₂ (NewSegment tables) parts segs)
    (ordered : Ordered parts.flatten) : segs.Pairwise Apart := by
  induction h with
  | nil => exact List.Pairwise.nil
  | @cons part s parts segs hs rest ih =>
    rw [List.flatten_cons] at ordered
    obtain ⟨_, tail, across⟩ := Ordered.append.mp ordered
    refine List.pairwise_cons.mpr ⟨fun t mt => .inl ?_, ih tail⟩
    obtain ⟨i, lt, rfl⟩ := List.getElem_of_mem mt
    have lt' : i < parts.length := rest.length_eq ▸ lt
    have new := rest.get lt' lt
    obtain ⟨x, mx, ex⟩ := hs.ends.2
    obtain ⟨y, my, ey⟩ := new.ends.1
    have := across x mx y (List.mem_flatten.mpr ⟨_, List.getElem_mem lt', my⟩)
    rw [← ex]
    exact lt_of_lt_of_eq this ey

end Segments

section Recutting

def mergedIds (m : Manifest) (p : SegmentMeta → Bool) : List Nat :=
  m.level0.reverse ++ (m.segments.filter p).map SegmentMeta.fileId

def retained (m : Manifest) (p : SegmentMeta → Bool) : List SegmentMeta :=
  m.segments.filter (fun s => !p s)

/-- All records of the tables are on one side of the segment. -/
def Aside (tables : OrderedMap Nat Bytes) (ids : List Nat) (s : SegmentMeta) : Prop :=
  (∀ id ∈ ids, ∀ x ∈ recordsOf tables id, s.maxKey < x.1) ∨
    ∀ id ∈ ids, ∀ x ∈ recordsOf tables id, x.1 < s.minKey

/-- The segments `segs` were written for what the tables to be merged hold. -/
structure Recut (tables tables' : OrderedMap Nat Bytes) (m : Manifest) (p : SegmentMeta → Bool)
    (parts : List (List Rec)) (segs : List SegmentMeta) (n : Nat) : Prop where
  holding : Holding tables m
  older : ∀ id < m.nextTableId, tables'.get id = tables.get id
  merged : parts.flatten = (flatten ((mergedIds m p).map (recordsOf tables))).filter
    (fun r => r.2.isSome)
  made : List.Forall₂ (NewSegment tables') parts segs
  nodup : (segs.map SegmentMeta.fileId).Nodup
  ids : ∀ s ∈ segs, m.nextTableId ≤ s.fileId ∧ s.fileId < n
  next : m.nextTableId ≤ n
  aside : ∀ s ∈ retained m p, Aside tables (mergedIds m p) s

variable {tables tables' : OrderedMap Nat Bytes} {m : Manifest} {p : SegmentMeta → Bool}
  {parts : List (List Rec)} {segs : List SegmentMeta} {n : Nat}

theorem Holding.mergedIn (h : Holding tables m) {id : Nat} (mem : id ∈ mergedIds m p) :
    id ∈ m.allIds := by
  refine (h.idCases id).mpr ((List.mem_append.mp mem).imp List.mem_reverse.mp (fun mem => ?_))
  obtain ⟨s, ms, rfl⟩ := List.mem_map.mp mem
  exact ⟨s, List.mem_of_mem_filter ms, rfl⟩

theorem retainedIn {s : SegmentMeta} (mem : s ∈ retained m p) : s ∈ m.segments :=
  List.mem_of_mem_filter mem

theorem segmentsPerm (m : Manifest) (p : SegmentMeta → Bool) :
    m.segments.Perm (m.segments.filter p ++ retained m p) :=
  (List.filter_append_perm p m.segments).symm

theorem madeOf (h : List.Forall₂ (NewSegment tables) parts segs) {s : SegmentMeta} (ms : s ∈ segs) :
    ∃ part ∈ parts, NewSegment tables part s := by
  obtain ⟨i, lt, rfl⟩ := List.getElem_of_mem ms
  have lt' : i < parts.length := h.length_eq ▸ lt
  exact ⟨_, List.getElem_mem lt', h.get lt' lt⟩

theorem Recut.same (h : Recut tables tables' m p parts segs n) {id : Nat} (mem : id ∈ m.allIds) :
    tables'.get id = tables.get id := h.older id (h.holding.fresh id mem)

theorem Recut.retainedSame (h : Recut tables tables' m p parts segs n) {s : SegmentMeta}
    (mem : s ∈ retained m p) : tables'.get s.fileId = tables.get s.fileId :=
  h.same ((h.holding.idCases _).mpr (.inr ⟨s, retainedIn mem, rfl⟩))

theorem Recut.ordered (h : Recut tables tables' m p parts segs n) : Ordered parts.flatten := by
  rw [h.merged]
  exact (flattenOrdered _).sublist List.filter_sublist

theorem Recut.source (h : Recut tables tables' m p parts segs n) {part : List Rec} {x : Rec}
    (mp : part ∈ parts) (mx : x ∈ part) :
    ∃ id ∈ mergedIds m p, ∃ y ∈ recordsOf tables id, y.1 = x.1 := by
  have flat : x ∈ parts.flatten := List.mem_flatten.mpr ⟨part, mp, mx⟩
  rw [h.merged] at flat
  have found := memLookup (flattenOrdered _) (List.mem_of_mem_filter flat)
  rw [lookupFlatten] at found
  obtain ⟨l, ml, here⟩ := List.exists_of_findSome?_eq_some found
  obtain ⟨id, mid, rfl⟩ := List.mem_map.mp ml
  exact ⟨id, mid, _, lookupMem here, rfl⟩

theorem Recut.apart (h : Recut tables tables' m p parts segs n) :
    (retained m p ++ segs).Pairwise Apart := by
  refine List.pairwise_append.mpr ⟨?_, newSegmentsApart h.made h.ordered, fun s ms t mt => ?_⟩
  · exact (sortedApart h.holding.sorted).sublist List.filter_sublist
  · obtain ⟨part, mp, new⟩ := madeOf h.made mt
    obtain ⟨⟨x, mx, ex⟩, y, my, ey⟩ := new.ends
    rcases h.aside s ms with above | below
    · obtain ⟨id, mid, z, mz, ez⟩ := h.source mp mx
      exact .inl (by rw [← ex, ← ez]; exact above id mid z mz)
    · obtain ⟨id, mid, z, mz, ez⟩ := h.source mp my
      exact .inr (by rw [← ey, ← ez]; exact below id mid z mz)

theorem Recut.segmentAt (h : Recut tables tables' m p parts segs n) {s : SegmentMeta}
    (mem : s ∈ retained m p ++ segs) : SegmentAt tables' s := by
  rcases List.mem_append.mp mem with ms | ms
  · have old := h.holding.level1 s (retainedIn ms)
    have same := recordsOfSame (h.retainedSame ms)
    exact ⟨old.table.same (h.retainedSame ms), by rw [same]; exact old.first,
      by rw [same]; exact old.last, by rw [same]; exact old.count⟩
  · obtain ⟨_, _, new⟩ := madeOf h.made ms
    exact new.segmentAt

theorem SegmentAt.range {s : SegmentMeta} (h : SegmentAt tables s) : s.minKey ≤ s.maxKey := by
  obtain ⟨x, hx, ex⟩ := Option.map_eq_some_iff.mp h.first
  have inside := h.inside (List.mem_of_head? hx)
  exact inside.1.trans inside.2

def recutManifest (m : Manifest) (p : SegmentMeta → Bool) (segs : List SegmentMeta) (n : Nat) :
    Manifest := ⟨[[]], Database.sortSegments (retained m p ++ segs), n⟩

theorem sortSegmentsPerm (segs : List SegmentMeta) : (Database.sortSegments segs).Perm segs :=
  List.perm_insertionSort _ _

theorem recutIds (m : Manifest) (p : SegmentMeta → Bool) (segs : List SegmentMeta) (n : Nat) :
    (recutManifest m p segs n).allIds.Perm
      ((retained m p).map SegmentMeta.fileId ++ segs.map SegmentMeta.fileId) := by
  have perm := (sortSegmentsPerm (retained m p ++ segs)).map SegmentMeta.fileId
  rw [List.map_append] at perm
  simpa [recutManifest, Manifest.allIds] using perm

theorem Recut.holding' (h : Recut tables tables' m p parts segs n) :
    Holding tables' (recutManifest m p segs n) := by
  have member : ∀ s ∈ (recutManifest m p segs n).segments, SegmentAt tables' s := fun s ms =>
    h.segmentAt ((sortSegmentsPerm _).mem_iff.mp ms)
  refine ⟨rfl, by simp [recutManifest, Manifest.level0], member, ?_, ?_, fun id mem => ?_⟩
  · exact sortSegmentsSorted h.apart (fun s ms => (h.segmentAt ms).range)
  · rw [(recutIds m p segs n).nodup_iff]
    refine List.nodup_append.mpr ⟨?_, h.nodup, ?_⟩
    · have all := (List.nodup_append.mp h.holding.nodup).2.1
      exact all.sublist (List.filter_sublist.map _)
    · rintro _ ms _ mt rfl
      obtain ⟨s, ms, eq⟩ := List.mem_map.mp ms
      obtain ⟨t, mt, eq'⟩ := List.mem_map.mp mt
      have := h.holding.fresh s.fileId ((h.holding.idCases _).mpr (.inr ⟨s, retainedIn ms, rfl⟩))
      have := (h.ids t mt).1
      omega
  · rcases List.mem_append.mp ((recutIds m p segs n).mem_iff.mp mem) with old | new
    · obtain ⟨s, ms, rfl⟩ := List.mem_map.mp old
      have := h.holding.fresh s.fileId ((h.holding.idCases _).mpr (.inr ⟨s, retainedIn ms, rfl⟩))
      exact this.trans_le h.next
    · obtain ⟨s, ms, rfl⟩ := List.mem_map.mp new
      exact (h.ids s ms).2

theorem Recut.gone (h : Recut tables tables' m p parts segs n) {id : Nat}
    (mem : id ∈ mergedIds m p) : id ∉ (recutManifest m p segs n).allIds := by
  intro new
  have old := h.holding.fresh id (h.holding.mergedIn mem)
  rcases List.mem_append.mp ((recutIds m p segs n).mem_iff.mp new) with kept | made
  · obtain ⟨s, ms, rfl⟩ := List.mem_map.mp kept
    have nodup := h.holding.nodup
    have split : m.allIds.Perm (m.levels.flatten ++ ((m.segments.filter p).map SegmentMeta.fileId ++
        (retained m p).map SegmentMeta.fileId)) := by
      rw [Manifest.allIds, ← List.map_append]
      exact ((segmentsPerm m p).map _).append_left _
    rw [split.nodup_iff] at nodup
    obtain ⟨_, within, across⟩ := List.nodup_append.mp nodup
    rcases List.mem_append.mp mem with m0 | m1
    · refine across s.fileId ?_ _ (List.mem_append_right _ kept) rfl
      rw [h.holding.single]
      simpa using m0
    · exact (List.nodup_append.mp within).2.2 _ m1 _ kept rfl
  · obtain ⟨s, ms, rfl⟩ := List.mem_map.mp made
    have := (h.ids s ms).1
    omega

theorem outsideNone {s : SegmentMeta} (h : SegmentAt tables s) {key : Bytes}
    (out : ¬ (s.minKey ≤ key ∧ key ≤ s.maxKey)) : (recordsOf tables s.fileId).lookup key = none :=
  lookupNone.mpr (fun _ mx eq => out (eq ▸ h.inside mx))

theorem apartNone {a b : SegmentMeta} (ha : SegmentAt tables a) (hb : SegmentAt tables b)
    (apart : Apart a b) (key : Bytes) : (recordsOf tables a.fileId).lookup key = none ∨
      (recordsOf tables b.fileId).lookup key = none := by
  by_cases inside : a.minKey ≤ key ∧ key ≤ a.maxKey
  · refine .inr (outsideNone hb (fun inside' => ?_))
    rcases apart with lt | lt
    · exact absurd (lt.trans_le inside'.1) (not_lt.mpr inside.2)
    · exact absurd (lt.trans_le inside.1) (not_lt.mpr inside'.2)
  · exact .inl (outsideNone ha inside)

theorem lookupApart {a b : List SegmentMeta} (perm : a.Perm b) (apart : a.Pairwise Apart)
    (segs : ∀ s ∈ a, SegmentAt tables s) (key : Bytes) :
    lookupLayers (a.map (fun s => recordsOf tables s.fileId)) key =
      lookupLayers (b.map (fun s => recordsOf tables s.fileId)) key := by
  refine lookupLayersPerm (perm.map _) (List.pairwise_map.mpr ?_)
  exact apart.imp_of_mem (fun ma mb h => apartNone (segs _ ma) (segs _ mb) h key)

theorem Recut.view (h : Recut tables tables' m p parts segs n) :
    tablesView tables' (recutManifest m p segs n) = tablesView tables m := by
  funext key
  set merged := (mergedIds m p).map (recordsOf tables) with hmerged
  set rest := (retained m p).map (fun s => recordsOf tables s.fileId) with hrest
  -- before: the merged tables, then the retained segments
  have before : lookupLayers (layers tables m) key =
      (lookupLayers merged key).or (lookupLayers rest key) := by
    rw [layers, lookupLayersAppend, lookupApart (segmentsPerm m p) (sortedApart h.holding.sorted)
      h.holding.level1, List.map_append, lookupLayersAppend, hmerged, mergedIds, List.map_append,
      lookupLayersAppend, List.map_map, Option.or_assoc]
    rfl
  -- afterwards: the retained segments, then what the merge left
  have after : lookupLayers (layers tables' (recutManifest m p segs n)) key =
      (lookupLayers rest key).or (parts.flatten.lookup key) := by
    have old : (retained m p).map (fun s => recordsOf tables' s.fileId) = rest :=
      List.map_congr_left (fun s ms => recordsOfSame (h.retainedSame ms))
    have new : segs.map (fun s => recordsOf tables' s.fileId) = parts := by
      have made := h.made
      clear h
      induction made with
      | nil => rfl
      | cons new _ ih => rw [List.map_cons, ih, new.records]
    have level0 : (recutManifest m p segs n).level0 = [] := rfl
    rw [layers, level0, List.reverse_nil, List.map_nil, List.nil_append, recutManifest,
      ← lookupApart (sortSegmentsPerm (retained m p ++ segs)).symm h.apart (fun s => h.segmentAt),
      List.map_append, lookupLayersAppend, old, new, lookupConcat]
  rw [tablesView, tablesView, before, after, h.merged]
  obtain ⟨same, none⟩ := lookupWithoutTombstones (flattenOrdered merged) key
  rw [lookupFlatten] at same none
  cases found : lookupLayers rest key with
  | none =>
    rw [Option.none_or, Option.or_none]
    exact same
  | some e =>
    have absent : lookupLayers merged key = .none := by
      obtain ⟨l, ml, here⟩ := List.exists_of_findSome?_eq_some found
      obtain ⟨s, ms, rfl⟩ := List.mem_map.mp ml
      have inside := (h.holding.level1 s (retainedIn ms)).inside (lookupMem here)
      refine lookupLayersNone.mpr (fun l' ml' => ?_)
      obtain ⟨id, mid, rfl⟩ := List.mem_map.mp ml'
      refine lookupNone.mpr (fun x mx eq => ?_)
      rcases h.aside s ms with above | below
      · exact absurd (eq ▸ above id mid x mx) (not_lt.mpr inside.2)
      · exact absurd (eq ▸ below id mid x mx) (not_lt.mpr inside.1)
    rw [absent, Option.none_or, Option.some_or]

end Recutting

section Writing
variable {W : Manifest → Prop} {md : Manifest} {db : Database} {vol dur : Bytes → Option Bytes}

/-- Tables with new ids were written and nothing else. -/
structure Written (db db' : Database) : Prop where
  passed : Passed db db'
  manifest : db'.manifest = { db.manifest with nextTableId := db'.manifest.nextTableId }
  next : db.manifest.nextTableId ≤ db'.manifest.nextTableId
  saved : db'.disk.manifest = db.disk.manifest
  older : ∀ id < db.manifest.nextTableId, db'.disk.tables.get id = db.disk.tables.get id

theorem Written.refl (db : Database) : Written db db :=
  ⟨.refl db, rfl, le_rfl, rfl, fun _ _ => rfl⟩

theorem Written.trans {a b c : Database} (ab : Written a b) (bc : Written b c) : Written a c := by
  refine ⟨ab.passed.trans bc.passed, ?_, ab.next.trans bc.next, bc.saved.trans ab.saved,
    fun id lt => ?_⟩
  · rw [bc.manifest, ab.manifest]
  · rw [bc.older id (lt.trans_le ab.next), ab.older id lt]

theorem ViewsAt.writeTable {chunk : List Rec} (h : ViewsAt W md db vol dur)
    (ordered : Ordered chunk) (some : chunk ≠ []) : EndsIf (Good W) (Database.writeTable chunk) db
      (fun id db' => id = db.manifest.nextTableId ∧ db'.manifest.nextTableId = id + 1 ∧
        TableAt db'.disk.tables id chunk ∧ Written db db' ∧ ViewsAt W md db' vol dur)
      (fun e db' => Stopped e db db' ∧ db'.disk.manifest = db.disk.manifest ∧
        ViewsAt W md db' vol dur) := by
  set id := db.manifest.nextTableId with hid
  have grown : Holding db.disk.tables { db.manifest with nextTableId := id + 1 } :=
    ⟨h.memory.single, h.memory.level0, h.memory.level1, h.memory.sorted, h.memory.nodup,
      fun i m => Nat.lt_succ_of_lt (h.memory.fresh i m)⟩
  set db₁ : Database := { db with manifest := { db.manifest with nextTableId := id + 1 } } with hdb₁
  have views₁ : ViewsAt W md db₁ vol dur := h.replace grown (Nat.le_succ _) h.vol
  set db₂ : Database := { db₁ with built := db₁.built ++ [chunk] } with hdb₂
  have views₂ : ViewsAt W md db₂ vol dur := views₁.same views₁.cached rfl rfl rfl
  have memory : id ∉ db₂.manifest.allIds := fun m => absurd (h.memory.fresh id m) (lt_irrefl id)
  have durable : id ∉ md.allIds := fun m =>
    absurd ((h.durable.fresh id m).trans_le h.older) (lt_irrefl id)
  have cached : db₂.tableCache.lookup id = none := by
    cases found : db₂.tableCache.lookup id with
    | none => rfl
    | some r => exact absurd (h.cached id r found).1 (lt_irrefl id)
  have same : Passed db db₂ := ⟨⟨rfl, rfl, rfl, rfl, rfl, rfl, List.suffix_rfl⟩, rfl, .refl _⟩
  have write : EndsIf (Good W) (do Database.createTable id (tableFile chunk); return id : DbM Nat)
      db₂ (fun i db' => i = id ∧ db'.manifest.nextTableId = i + 1 ∧
        TableAt db'.disk.tables i chunk ∧ Written db db' ∧ ViewsAt W md db' vol dur)
      (fun e db' => Stopped e db db' ∧ db'.disk.manifest = db.disk.manifest ∧
        ViewsAt W md db' vol dur) := by
    refine Ends.bind ((Database.createTableEnds id (tableFile chunk) db₂).mono (fun _ _ h => h) ?_) ?_
    · rintro e db' ⟨stopped, step⟩ _
      exact ⟨same.stopped stopped, step.saved, views₂.file step memory durable cached⟩
    · rintro _ db' ⟨passed, step, file⟩ good
      refine ⟨rfl, by rw [step.manifest], ⟨file, ?_, ordered, some⟩, ?_, ?_⟩
      · exact good.fit chunk (by simp [step.built, hdb₂])
      · refine ⟨same.trans passed, ?_, ?_, step.saved, fun i lt => step.others i (ne_of_lt lt)⟩
        · rw [step.manifest]
        · rw [step.manifest]
          exact Nat.le_succ _
      · exact views₂.file step memory durable cached
  exact write.step rfl

theorem ViewsAt.writeSegments {parts : List (List Rec)} (h : ViewsAt W md db vol dur)
    (ordered : ∀ c ∈ parts, Ordered c) (some : ∀ c ∈ parts, c ≠ []) :
    EndsIf (Good W) (Database.writeSegments parts) db
      (fun segs db' => List.Forall₂ (NewSegment db'.disk.tables) parts segs ∧
        (segs.map SegmentMeta.fileId).Nodup ∧
        (∀ s ∈ segs, db.manifest.nextTableId ≤ s.fileId ∧ s.fileId < db'.manifest.nextTableId) ∧
        Written db db' ∧ ViewsAt W md db' vol dur)
      (fun e db' => Stopped e db db' ∧ Views W db' vol dur) := by
  induction parts generalizing db with
  | nil => exact fun _ => ⟨.nil, List.nodup_nil, by simp, .refl db, h⟩
  | cons chunk parts ih =>
    have full := some chunk List.mem_cons_self
    obtain ⟨x, rest, rfl⟩ := List.exists_cons_of_ne_nil full
    have last := List.getLast?_eq_some_getLast full
    set y := (x :: rest).getLast full with hy
    simp only [Database.writeSegments, List.head?_cons, last]
    refine EndsIf.bind goodBack ((h.writeTable (ordered _ List.mem_cons_self) full).mono
      (fun _ _ _ => id) (fun e db₁ _ stop => ⟨stop.1, md, stop.2.2⟩))
      (fun _ => (Database.writeSegmentsMoves parts).bind (fun _ => movesPure _)) ?_
    · rintro id db₁ - ⟨rfl, next, table, written, views⟩
      have tail := ih views (fun c m => ordered c (List.mem_cons_of_mem _ m))
        (fun c m => some c (List.mem_cons_of_mem _ m))
      refine Ends.bind (tail.mono (fun _ _ _ => id) ?_) ?_
      · rintro e db₂ - ⟨stopped, views₂⟩
        exact ⟨written.passed.stopped stopped, views₂⟩
      · intro segs db₂ made good
        obtain ⟨new, nodup, ids, written₂, views₂⟩ := made good
        have kept : db₂.disk.tables.get db.manifest.nextTableId =
            db₁.disk.tables.get db.manifest.nextTableId := written₂.older _ (by omega)
        refine ⟨.cons ⟨⟨kept.trans table.file, table.fits, table.ordered, table.some⟩, rfl, ?_, rfl⟩
          new, ?_, ?_, written.trans written₂, views₂⟩
        · rw [last]
          rfl
        · refine List.nodup_cons.mpr ⟨fun m => ?_, nodup⟩
          obtain ⟨s, ms, eq⟩ := List.mem_map.mp m
          have := (ids s ms).1
          simp only at eq
          omega
        · intro s ms
          rcases List.mem_cons.mp ms with rfl | ms
          · have := written₂.next
            exact ⟨le_rfl, by simp only; omega⟩
          · have := ids s ms
            exact ⟨by omega, this.2⟩

/-- The commit of a compaction: once the manifest is saved the new view stands. -/
theorem ViewsAt.replaceTables {segments : List SegmentMeta} {old : List Nat} {m : Manifest}
    (h : ViewsAt W md db vol dur)
    (manifest : Database.updateLevel0 (fun _ => []) { db.manifest with segments } = m)
    (next : db.manifest.nextTableId ≤ m.nextTableId)
    (holding : Holding db.disk.tables m) (view : tablesView db.disk.tables m = vol)
    (gone : ∀ id ∈ old, id ∉ m.allIds) :
    EndsIf (Good W) (Database.replaceTables segments old) db
      (fun _ db' => Passed db db' ∧ Views W db' vol vol)
      (fun e db' => Stopped e db db' ∧ (Views W db' vol dur ∨ Views W db' vol vol)) := by
  set db₁ : Database := { db with manifest := m } with hdb₁
  have views₁ : ViewsAt W md db₁ vol dur := h.replace holding next view
  have passed₁ : Passed db db₁ :=
    ⟨⟨rfl, rfl, rfl, rfl, rfl, rfl, List.suffix_rfl⟩, rfl, .refl _⟩
  have commit : EndsIf (Good W)
      (do Database.saveManifest; Database.clearCache; old.forM Database.removeFile : DbM Unit) db₁
      (fun _ db' => Passed db db' ∧ Views W db' vol vol)
      (fun e db' => Stopped e db db' ∧ (Views W db' vol dur ∨ Views W db' vol vol)) := by
    refine EndsIf.bind goodBack (views₁.saveManifest.mono (fun _ _ _ => id) ?_)
      (fun _ => Database.clearCacheMoves.bind (fun _ => .forM Database.removeFileMoves old)) ?_
    · rintro e db₂ - ⟨stopped, kept | ⟨new, -⟩⟩
      · exact ⟨passed₁.stopped stopped, .inl kept⟩
      · exact ⟨passed₁.stopped stopped, .inr new⟩
    · rintro _ db₂ - ⟨passed, views₂, step, -⟩
      have cleared : Cached { db₂ with tableCache := [] } := fun i r found => by cases found
      let inv : List Nat → Database → Prop := fun rest s => (∀ id ∈ rest, id ∉ m.allIds) ∧
        Passed db s ∧ ViewsAt W m s vol vol ∧ s.tableCache = [] ∧ s.manifest = m
      have start : inv old { db₂ with tableCache := [] } := by
        refine ⟨gone, ?_, views₂.same cleared rfl rfl rfl, rfl, step.manifest⟩
        exact (passed₁.trans passed).trans
          ⟨⟨rfl, rfl, rfl, rfl, rfl, rfl, List.suffix_rfl⟩, rfl, .refl _⟩
      have removed : Ends (old.forM Database.removeFile) { db₂ with tableCache := [] }
          (fun _ => inv []) (fun e s => Stopped e db s ∧ Views W s vol vol) := by
        refine endsForM inv ?_ old start
        rintro id rest s ⟨absent, passed, views, cache, manifest⟩
        have out := absent id List.mem_cons_self
        have next : ∀ s', Database.FileStep id s s' → ViewsAt W m s' vol vol := fun s' step =>
          views.file step (manifest ▸ out) out (by rw [cache]; rfl)
        refine (Database.removeFileEnds id s).mono ?_ ?_
        · rintro _ s' ⟨passed', step⟩
          exact ⟨fun i mi => absent i (List.mem_cons_of_mem _ mi), passed.trans passed', next s' step,
            step.cache.trans cache, step.manifest.trans manifest⟩
        · rintro e s' ⟨-, stopped, step⟩
          exact ⟨passed.stopped stopped, m, next s' step⟩
      refine endsBindModify (Ends.endsIf (removed.mono ?_ ?_))
      · rintro _ s ⟨-, passed, views, -, -⟩
        exact ⟨passed, m, views⟩
      · rintro e s ⟨stopped, views⟩
        exact ⟨stopped, .inr views⟩
  refine commit.step ?_
  rw [hdb₁, ← manifest]
  rfl

/-- What a compaction may leave: the tables show the same, in memory and on the medium. -/
def Compacted (W : Manifest → Prop) (x : DbM Unit) (db : Database)
    (vol dur : Bytes → Option Bytes) : Prop :=
  EndsIf (Good W) x db (fun _ db' => Passed db db' ∧ Views W db' vol vol)
    (fun e db' => Stopped e db db' ∧ (Views W db' vol dur ∨ Views W db' vol vol))

theorem ViewsAt.mergeInto {p : SegmentMeta → Bool} (h : ViewsAt W md db vol dur)
    (room : db.opts.segmentMaxRecords ≠ 0)
    (aside : ∀ s ∈ retained db.manifest p, Aside db.disk.tables (mergedIds db.manifest p) s) :
    Compacted W (Database.mergeInto db.manifest.level0
      ((db.manifest.segments.filter p).map SegmentMeta.fileId) (retained db.manifest p)) db
      vol dur := by
  have tables : ∀ id ∈ mergedIds db.manifest p, HasTable db.disk.tables id :=
    fun id mem => h.memory.hasTable (h.memory.mergedIn mem)
  have merge := mergeIdsRun tables
  set merged := (flatten ((mergedIds db.manifest p).map (recordsOf db.disk.tables))).filter
    (fun r => r.2.isSome) with hmerged
  obtain ⟨parts, cut, whole, full⟩ := chunksRun room merged
  have ordered : ∀ c ∈ parts, Ordered c := fun c mc => by
    refine Ordered.sublist (List.sublist_flatten_of_mem mc) (whole ▸ ?_)
    exact (flattenOrdered _).sublist List.filter_sublist
  unfold Database.mergeInto
  refine endsBindOk merge (endsBindGet ?_)
  rw [cut]
  refine endsBindOk rfl ?_
  refine EndsIf.bind goodBack ((h.writeSegments ordered full).mono (fun _ _ _ => id) ?_)
    (fun _ => Database.replaceTablesMoves _ _) ?_
  · rintro e db₁ - ⟨stopped, views⟩
    exact ⟨stopped, .inl views⟩
  · rintro segs db₁ - ⟨made, nodup, ids, written, views⟩
    have recut : Recut db.disk.tables db₁.disk.tables db.manifest p parts segs
        db₁.manifest.nextTableId :=
      ⟨h.memory, written.older, whole, made, nodup, ids, written.next, aside⟩
    have manifest : Database.updateLevel0 (fun _ => []) { db₁.manifest with
        segments := Database.sortSegments (retained db.manifest p ++ segs) } =
        recutManifest db.manifest p segs db₁.manifest.nextTableId := by
      have levels : db₁.manifest.levels = [db.manifest.level0] := by
        rw [written.manifest]
        exact h.memory.single
      simp [Database.updateLevel0, levels, recutManifest]
    have gone : ∀ id ∈ db.manifest.level0 ++
        (db.manifest.segments.filter p).map SegmentMeta.fileId,
        id ∉ (recutManifest db.manifest p segs db₁.manifest.nextTableId).allIds := fun id mem =>
      recut.gone (List.mem_append.mpr ((List.mem_append.mp mem).imp_left List.mem_reverse.mpr))
    refine (views.replaceTables manifest le_rfl recut.holding' (recut.view.trans h.vol) gone).mono
      ?_ ?_
    · rintro _ db₂ - ⟨passed, views₂⟩
      exact ⟨written.passed.trans passed, views₂⟩
    · rintro e db₂ - ⟨stopped, views₂⟩
      exact ⟨written.passed.stopped stopped, views₂⟩

/-- A segment outside the bounds of level 0 is on one side of all that is merged. -/
theorem asideOverlaps {lo hi : Bytes} {tables : OrderedMap Nat Bytes} {m : Manifest}
    (h : Holding tables m)
    (inside : ∀ id ∈ m.level0, ∀ x ∈ recordsOf tables id, lo ≤ x.1 ∧ x.1 ≤ hi)
    {s : SegmentMeta} (mem : s ∈ retained m (Database.overlaps lo hi)) :
    Aside tables (mergedIds m (Database.overlaps lo hi)) s := by
  have ms := retainedIn mem
  have out : hi < s.minKey ∨ s.maxKey < lo := by
    simpa [Database.overlaps, Bool.and_eq_false_iff] using (List.mem_filter.mp mem).2
  have range := (h.level1 s ms).range
  have picked : ∀ t ∈ m.segments.filter (Database.overlaps lo hi),
      t ∈ m.segments ∧ (t.minKey ≤ hi ∧ lo ≤ t.maxKey) ∧ Apart t s := fun t mt => by
    obtain ⟨here, overlap⟩ := List.mem_filter.mp mt
    have overlap : t.minKey ≤ hi ∧ lo ≤ t.maxKey := by simpa [Database.overlaps] using overlap
    refine ⟨here, overlap, (sortedApart h.sorted).forall here ms (fun eq => ?_)⟩
    rcases out with lt | lt
    · exact absurd (eq ▸ overlap.1) (not_le.mpr lt)
    · exact absurd (eq ▸ overlap.2) (not_le.mpr lt)
  rcases out with after | before
  · refine .inr (fun id mid x mx => ?_)
    rcases List.mem_append.mp mid with m0 | m1
    · exact (inside id (List.mem_reverse.mp m0) x mx).2.trans_lt after
    · obtain ⟨t, mt, rfl⟩ := List.mem_map.mp m1
      obtain ⟨here, overlap, lt | lt⟩ := picked t mt
      · exact ((h.level1 t here).inside mx).2.trans_lt lt
      · exact absurd ((overlap.1.trans_lt after).trans_le (range.trans lt.le)) (lt_irrefl _)
  · refine .inl (fun id mid x mx => ?_)
    rcases List.mem_append.mp mid with m0 | m1
    · exact before.trans_le (inside id (List.mem_reverse.mp m0) x mx).1
    · obtain ⟨t, mt, rfl⟩ := List.mem_map.mp m1
      obtain ⟨here, overlap, lt | lt⟩ := picked t mt
      · exact absurd ((lt.trans_le range).trans (before.trans_le overlap.2)) (lt_irrefl _)
      · exact lt.trans_le ((h.level1 t here).inside mx).1

theorem ViewsAt.compact (h : ViewsAt W md db vol vol) (room : db.opts.segmentMaxRecords ≠ 0)
    (some : db.manifest.level0 ≠ []) : Compacted W Database.compact db vol vol := by
  unfold Database.compact
  refine endsBindGet (endsIte (fun _ => fun _ => ⟨.refl db, md, h⟩) (fun _ => ?_))
  obtain ⟨lo, hi, run, -, inside⟩ := tableBoundsRun h.memory.level0 none (.inl some)
  refine endsBindOk run ?_
  exact h.mergeInto room (fun s ms => asideOverlaps h.memory inside ms)

end Writing
end MyLsmDb
