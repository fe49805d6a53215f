import MyLsmDb.Iterator

/-! The merge gives every key once, in ascending order, with the entry of the first
source that has it: `flatten` of what the sources hold. -/
namespace MyLsmDb.Iterator
open ByteOrder (Bytes)
open OrderedEntries
open Sstable (TableReader Opened encode readAt readEnd blockStart)

/-- A source from which `peek` and `advance` give a list of records, one by one. -/
class LawfulSource (σ : Type) [ScanSource σ] where
  Holds : List Rec → σ → Prop
  /-- ... and whose top has been looked at, so that `advance` takes it away. -/
  Loaded : List Rec → σ → Prop
  holdsOfLoaded : ∀ {l s}, Loaded l s → Holds l s
  peekHolds : ∀ {l s}, Holds l s → ∃ s', peek s = .ok (l.head?, s') ∧ Loaded l s'
  advanceLoaded : ∀ {x l s}, Loaded (x :: l) s → ∃ s', advance s = .ok s' ∧ Holds l s'
  bound : ∀ {l s}, Holds l s → l.length ≤ remaining s

export LawfulSource (Holds Loaded holdsOfLoaded peekHolds advanceLoaded)

section Sources

theorem vecPeek {l : List Rec} {s : VecSource} (h : s.items.drop s.pos = l) :
    peek s = .ok (l.head?, s) := by
  subst h
  rw [List.head?_drop]
  rfl

instance : LawfulSource VecSource where
  Holds l s := s.items.drop s.pos = l
  Loaded l s := s.items.drop s.pos = l
  holdsOfLoaded := id
  peekHolds h := ⟨_, vecPeek h, h⟩
  advanceLoaded {x l s} h := by
    refine ⟨_, rfl, ?_⟩
    change s.items.drop (s.pos + 1) = l
    rw [← List.drop_drop, h]
    rfl
  bound {l s} h := by
    subst h
    simp [remaining]

/-- What the reader still has in front of it at `pos`. -/
structure TableRest (records rest : List Rec) (reader : TableReader) (pos : Nat) : Prop where
  opened : Opened records reader
  ordered : Ordered records
  place : ∃ passed, records = passed ++ rest ∧ pos = (encode passed).length

theorem TableRest.bound {records rest : List Rec} {reader : TableReader} {pos : Nat}
    (h : TableRest records rest reader pos) : rest.length ≤ reader.dataEnd - pos := by
  obtain ⟨passed, rfl, rfl⟩ := h.place
  have := Sstable.lengthLeEncode rest
  rw [h.opened.dataEnd]
  simp
  omega

def TableLoaded (l : List Rec) (it : TableIter) : Prop :=
  it.cur = some l.head? ∧ (l ≠ [] → ∃ records rest, TableRest records rest it.reader it.pos ∧
    l.tail = rangeOf it.start it.stop rest)

def TableHolds (l : List Rec) (it : TableIter) : Prop :=
  TableLoaded l it ∨ it.cur = none ∧ ∃ records rest,
    TableRest records rest it.reader it.pos ∧ l = rangeOf it.start it.stop rest

theorem rangePast {start stop : Option Bytes} {x : Rec} {rest : List Rec}
    (ordered : Ordered (x :: rest)) (past : stop.any (fun e => decide (e ≤ x.1))) :
    rangeOf start stop (x :: rest) = [] := by
  obtain _ | e := stop
  · cases past
  have le : e ≤ x.1 := of_decide_eq_true past
  refine List.filter_eq_nil_iff.mpr (fun y m inside => ?_)
  simp only [between, Option.all_some, Bool.and_eq_true, decide_eq_true_eq] at inside
  rcases List.mem_cons.mp m with rfl | m
  · exact absurd inside.2 (not_lt.mpr le)
  · have above := (orderedCons.mp ordered).1 y m
    exact absurd inside.2 (not_lt.mpr (le.trans (le_of_lt above)))

theorem rangeUnder {start stop : Option Bytes} {x : Rec} (rest : List Rec)
    (under : start.any (fun s => decide (x.1 < s))) :
    rangeOf start stop (x :: rest) = rangeOf start stop rest := by
  obtain _ | s := start
  · cases under
  have lt : x.1 < s := of_decide_eq_true under
  refine List.filter_cons_of_neg (fun inside => ?_)
  simp only [between, Option.all_some, Bool.and_eq_true, decide_eq_true_eq] at inside
  exact absurd lt (not_lt.mpr inside.1)

theorem rangeInside {start stop : Option Bytes} {x : Rec} (rest : List Rec)
    (past : ¬ stop.any (fun e => decide (e ≤ x.1)))
    (under : ¬ start.any (fun s => decide (x.1 < s))) :
    rangeOf start stop (x :: rest) = x :: rangeOf start stop rest := by
  refine List.filter_cons_of_pos ?_
  cases start <;> cases stop <;> simp_all [between]

theorem loadRest {records rest : List Rec} {reader : TableReader} {pos : Nat}
    (h : TableRest records rest reader pos) (start stop : Option Bytes) {fuel : Nat}
    (enough : rest.length ≤ fuel) : ∃ next,
      TableIter.loadLoop reader start stop fuel pos =
        .ok ((rangeOf start stop rest).head?, next) ∧
      (rangeOf start stop rest ≠ [] → ∃ tail, TableRest records tail reader next ∧
        (rangeOf start stop rest).tail = rangeOf start stop tail) := by
  induction rest generalizing pos fuel with
  | nil =>
    obtain ⟨passed, split, place⟩ := h.place
    refine ⟨pos, ?_, by simp [rangeOf]⟩
    cases fuel with
    | zero => rfl
    | succ fuel =>
      have stop := readEnd h.opened
      rw [split, List.append_nil, ← place] at stop
      simp only [TableIter.loadLoop, stop]
      rfl
  | cons x rest ih =>
    obtain _ | fuel := fuel
    · simp at enough
    obtain ⟨passed, split, place⟩ := h.place
    have read := readAt h.opened split
    rw [← place] at read
    have moved : TableRest records rest reader (encode (passed ++ [x])).length :=
      ⟨h.opened, h.ordered, passed ++ [x], by simp [split], rfl⟩
    have ordered : Ordered (x :: rest) := (Ordered.append.mp (split ▸ h.ordered)).2.1
    simp only [TableIter.loadLoop, read, bind, Except.bind]
    by_cases past : stop.any (fun e => decide (e ≤ x.1))
    · refine ⟨(encode (passed ++ [x])).length, ?_, fun some => absurd (rangePast ordered past) some⟩
      rw [if_pos past, rangePast ordered past]
      rfl
    · rw [if_neg past]
      by_cases under : start.any (fun s => decide (x.1 < s))
      · rw [if_pos under, rangeUnder rest under]
        exact ih moved (by simpa using enough)
      · refine ⟨_, ?_, fun _ => ⟨rest, moved, by rw [rangeInside rest past under]; rfl⟩⟩
        rw [if_neg under, rangeInside rest past under]
        rfl

theorem tablePeek {l : List Rec} {it : TableIter} (h : TableHolds l it) :
    ∃ it', peek it = .ok (l.head?, it') ∧ TableLoaded l it' := by
  rcases h with loaded | ⟨fresh, records, rest, h, rfl⟩
  · refine ⟨it, ?_, loaded⟩
    simp [peek, loaded.1, pure, Except.pure, bind, Except.bind]
  · have enough : rest.length ≤ it.reader.file.length := by
      have := h.bound
      have data := h.opened.bytes.length_le
      rw [← h.opened.dataEnd] at data
      omega
    obtain ⟨pos, run, tail⟩ := loadRest h it.start it.stop enough
    refine ⟨{ it with cur := some (rangeOf it.start it.stop rest).head?, pos }, ?_, rfl, ?_⟩
    · simp [peek, fresh, TableIter.load, run, pure, Except.pure, bind, Except.bind]
    · intro some
      obtain ⟨t, moved, eq⟩ := tail some
      exact ⟨records, t, moved, eq⟩

instance : LawfulSource TableIter where
  Holds := TableHolds
  Loaded := TableLoaded
  holdsOfLoaded := .inl
  peekHolds := tablePeek
  advanceLoaded {x l it} h := by
    obtain ⟨records, rest, t, eq⟩ := h.2 (List.cons_ne_nil x l)
    exact ⟨_, rfl, .inr ⟨rfl, records, rest, t, eq⟩⟩
  bound {l it} h := by
    have sub (records rest : List Rec) (t : TableRest records rest it.reader it.pos) :
        (rangeOf it.start it.stop rest).length ≤ it.reader.dataEnd - it.pos :=
      (List.length_filter_le _ _).trans t.bound
    change l.length ≤ it.reader.dataEnd - it.pos + 1
    rcases h with ⟨_, tail⟩ | ⟨_, records, rest, t, rfl⟩
    · cases l with
      | nil => simp
      | cons x l =>
        obtain ⟨records, rest, t, eq⟩ := tail (List.cons_ne_nil x l)
        have le := sub records rest t
        rw [← eq] at le
        simpa using le
    · exact (sub records rest t).trans (Nat.le_succ _)

def SourceHolds (l : List Rec) : Source → Prop
  | .vec s => Holds l s
  | .table it => Holds l it

def SourceLoaded (l : List Rec) : Source → Prop
  | .vec s => Loaded l s
  | .table it => Loaded l it

instance : LawfulSource Source where
  Holds := SourceHolds
  Loaded := SourceLoaded
  holdsOfLoaded {l s} h := by
    cases s with
    | vec s => exact holdsOfLoaded h
    | table it => exact holdsOfLoaded h
  peekHolds {l s} h := by
    cases s with
    | vec s =>
      obtain ⟨s', run, loaded⟩ := peekHolds h
      refine ⟨.vec s', ?_, loaded⟩
      change (do let (top, s) ← peek s; return (top, Source.vec s)) = _
      rw [run]
      rfl
    | table it =>
      obtain ⟨it', run, loaded⟩ := peekHolds h
      refine ⟨.table it', ?_, loaded⟩
      change (do let (top, it) ← peek it; return (top, Source.table it)) = _
      rw [run]
      rfl
  advanceLoaded {x l s} h := by
    cases s with
    | vec s =>
      obtain ⟨s', run, holds⟩ := advanceLoaded h
      refine ⟨.vec s', ?_, holds⟩
      change Source.vec <$> advance s = _
      rw [run]
      rfl
    | table it =>
      obtain ⟨it', run, holds⟩ := advanceLoaded h
      refine ⟨.table it', ?_, holds⟩
      change Source.table <$> advance it = _
      rw [run]
      rfl
  bound {l s} h := by
    cases s with
    | vec s => exact @LawfulSource.bound VecSource _ _ _ _ h
    | table it => exact @LawfulSource.bound TableIter _ _ _ _ h

theorem fromReaderHolds {records : List Rec} {r : TableReader} (h : Opened records r)
    (ordered : Ordered records) (start stop : Option Bytes) :
    Holds (rangeOf start stop records) (TableIter.fromReader r start stop) := by
  cases start with
  | none =>
    refine .inr ⟨rfl, records, records, ⟨h, ordered, [], rfl, ?_⟩, rfl⟩
    change r.indexEntries.head?.elim 0 Prod.snd = 0
    rw [h.index.first]
    clear * -
    cases records <;> rfl
  | some s =>
    obtain ⟨a, b, split, below, place⟩ := blockStart h.toPlaced ordered s
    refine .inr ⟨rfl, records, b, ⟨h, ordered, a, split, place⟩, ?_⟩
    have out : rangeOf (some s) stop a = [] := by
      refine List.filter_eq_nil_iff.mpr (fun x m inside => ?_)
      simp only [between, Option.all_some, Bool.and_eq_true, decide_eq_true_eq] at inside
      exact absurd (below x m) (not_lt.mpr inside.1)
    change rangeOf (some s) stop records = rangeOf (some s) stop b
    rw [split]
    unfold rangeOf at *
    rw [List.filter_append, out, List.nil_append]

theorem memtableHolds (m : MemTable) (start stop : Option Bytes) :
    Holds (rangeOf start stop m.iter) (memtableSource m start stop) := by
  unfold memtableSource
  split
  · split
    · rename_i s e le
      change [] = rangeOf (some s) (some e) m.iter
      symm
      refine List.filter_eq_nil_iff.mpr (fun x _ inside => ?_)
      simp only [between, Option.all_some, Bool.and_eq_true, decide_eq_true_eq] at inside
      exact absurd (inside.1.trans_lt inside.2) (not_lt.mpr le)
    · rfl
  · rfl

end Sources

section Heap

theorem beforeTrans {a b c : HeapEntry} (ab : a.Before b) (bc : b.Before c) : a.Before c := by
  rcases ab with lt | ⟨eq, lt⟩ <;> rcases bc with lt' | ⟨eq', lt'⟩
  · exact .inl (lt.trans lt')
  · exact .inl (eq' ▸ lt)
  · exact .inl (eq ▸ lt')
  · exact .inr ⟨eq.trans eq', lt.trans lt'⟩

theorem beforeOrAfter {a b : HeapEntry} (differ : a.idx ≠ b.idx) (h : ¬ a.Before b) :
    b.Before a := by
  unfold HeapEntry.Before at *
  rcases lt_trichotomy a.key b.key with lt | eq | gt
  · exact absurd (.inl lt) h
  · refine .inr ⟨eq.symm, ?_⟩
    have : ¬ a.idx < b.idx := fun lt => h (.inr ⟨eq, lt⟩)
    omega
  · exact .inl gt

theorem pushMem {e x : HeapEntry} {heap : List HeapEntry} :
    x ∈ push e heap ↔ x = e ∨ x ∈ heap := by
  induction heap with
  | nil => simp [push]
  | cons y heap ih =>
    unfold push
    split
    · simp only [List.mem_cons, ih]
      tauto
    · simp only [List.mem_cons]

theorem pushSorted {e : HeapEntry} {heap : List HeapEntry}
    (h : heap.Pairwise HeapEntry.Before) (fresh : ∀ x ∈ heap, x.idx ≠ e.idx) :
    (push e heap).Pairwise HeapEntry.Before := by
  induction heap with
  | nil => exact List.pairwise_singleton _ _
  | cons y heap ih =>
    obtain ⟨first, rest⟩ := List.pairwise_cons.mp h
    unfold push
    split
    · rename_i before
      refine List.pairwise_cons.mpr ⟨fun x m => ?_,
        ih rest (fun x m => fresh x (List.mem_cons_of_mem _ m))⟩
      rcases pushMem.mp m with rfl | m
      · exact before
      · exact first x m
    · rename_i after
      have before := beforeOrAfter (fresh y List.mem_cons_self) after
      refine List.pairwise_cons.mpr ⟨fun x m => ?_, h⟩
      rcases List.mem_cons.mp m with rfl | m
      · exact before
      · exact beforeTrans before (first x m)

end Heap

section Merge
variable {σ : Type} [ScanSource σ] [LawfulSource σ]

/-- Sources that hold `layers`; those that `present` names have their top in the heap. -/
structure Merging (present : Nat → Prop) (layers : List (List Rec)) (sources : List σ)
    (heap : List HeapEntry) : Prop where
  length : sources.length = layers.length
  holds : ∀ {i : Nat} {l} {s : σ}, layers[i]? = some l → sources[i]? = some s → Holds l s
  loaded : ∀ {i : Nat} {l} {s : σ}, present i → layers[i]? = some l → sources[i]? = some s → Loaded l s
  sorted : heap.Pairwise HeapEntry.Before
  mem : ∀ e, e ∈ heap ↔ present e.idx ∧ ∃ x t, layers[e.idx]? = some (x :: t) ∧ x.1 = e.key

variable {present : Nat → Prop} {layers : List (List Rec)} {sources : List σ}
  {heap : List HeapEntry}

theorem Merging.source (h : Merging present layers sources heap) {i : Nat} {l : List Rec}
    (at_i : layers[i]? = some l) : ∃ s, sources[i]? = some s := by
  have lt := (List.getElem?_eq_some_iff.mp at_i).1
  exact ⟨_, List.getElem?_eq_getElem (h.length ▸ lt)⟩

omit [ScanSource σ] [LawfulSource σ] in
theorem withSourceRun {α : Type} {i : Nat} {s s' : σ} {a : α} {f : σ → Fallible (α × σ)}
    (at_i : sources[i]? = some s) (run : f s = .ok (a, s')) :
    withSource sources i f = .ok (a, sources.set i s') := by
  simp only [withSource, at_i, run]
  rfl

theorem setGet {α : Type} {l : List α} {i j : Nat} {x y : α} (h : (l.set i x)[j]? = some y) :
    (j = i ∧ y = x) ∨ (j ≠ i ∧ l[j]? = some y) := by
  rw [List.getElem?_set] at h
  split at h
  · rename_i same
    split at h
    · exact .inl ⟨same.symm, (Option.some.inj h).symm⟩
    · cases h
  · exact .inr ⟨fun e => ‹¬ i = j› e.symm, h⟩

theorem Merging.look (h : Merging present layers sources heap) {i : Nat} {l : List Rec}
    (at_i : layers[i]? = some l) : ∃ s, withSource sources i peek = .ok (l.head?, sources.set i s) ∧
      Loaded l s ∧ Merging present layers (sources.set i s) heap := by
  obtain ⟨s, found⟩ := h.source at_i
  obtain ⟨s', run, loaded⟩ := peekHolds (h.holds at_i found)
  refine ⟨s', withSourceRun found run, loaded, by simpa using h.length, ?_, ?_, h.sorted, h.mem⟩
  · intro j l' t at_j found_j
    rcases setGet found_j with ⟨rfl, rfl⟩ | ⟨_, found_j⟩
    · cases Option.some.inj (at_i.symm.trans at_j)
      exact holdsOfLoaded loaded
    · exact h.holds at_j found_j
  · intro j l' t p at_j found_j
    rcases setGet found_j with ⟨rfl, rfl⟩ | ⟨_, found_j⟩
    · cases Option.some.inj (at_i.symm.trans at_j)
      exact loaded
    · exact h.loaded p at_j found_j

theorem Merging.refill (h : Merging present layers sources heap) {i : Nat} {l : List Rec}
    (at_i : layers[i]? = some l) (absent : ¬ present i) :
    ∃ s, withSource sources i peek = .ok (l.head?, sources.set i s) ∧
      Merging (fun j => present j ∨ j = i) layers (sources.set i s) (pushTop l.head? i heap) := by
  obtain ⟨s, run, loaded, m⟩ := h.look at_i
  have fresh : ∀ x ∈ heap, x.idx ≠ i := fun x mx e => absent (e ▸ ((h.mem x).mp mx).1)
  refine ⟨s, run, m.length, m.holds, ?_, ?_, ?_⟩
  · rintro j l' t (p | rfl) at_j found
    · exact m.loaded p at_j found
    · cases Option.some.inj (at_i.symm.trans at_j)
      rcases setGet found with ⟨_, rfl⟩ | ⟨differ, _⟩
      · exact loaded
      · exact absurd rfl differ
  · cases l with
    | nil => exact h.sorted
    | cons x t => exact pushSorted h.sorted fresh
  · intro e
    have old := h.mem e
    cases l with
    | nil =>
      change e ∈ heap ↔ _
      rw [old]
      constructor
      · rintro ⟨p, rest⟩
        exact ⟨.inl p, rest⟩
      · rintro ⟨p | rfl, x, t, found, key⟩
        · exact ⟨p, x, t, found, key⟩
        · rw [at_i] at found
          cases found
    | cons x t =>
      change e ∈ push ⟨x.1, i⟩ heap ↔ _
      rw [pushMem, old]
      constructor
      · rintro (rfl | ⟨p, rest⟩)
        · exact ⟨.inr rfl, x, t, at_i, rfl⟩
        · exact ⟨.inl p, rest⟩
      · rintro ⟨p | same, y, u, found, key⟩
        · exact .inr ⟨p, y, u, found, key⟩
        · left
          obtain ⟨ekey, eidx⟩ := e
          cases same
          rw [at_i] at found
          cases found
          cases key
          rfl

theorem Merging.pop {e : HeapEntry} (h : Merging present layers sources (e :: heap)) :
    (∃ x t, layers[e.idx]? = some (x :: t) ∧ x.1 = e.key) ∧
      Merging (fun j => present j ∧ j ≠ e.idx) layers sources heap := by
  obtain ⟨first, rest⟩ := List.pairwise_cons.mp h.sorted
  obtain ⟨_, x, t, found, key⟩ := (h.mem e).mp List.mem_cons_self
  have differ : ∀ y ∈ heap, y.idx ≠ e.idx := by
    intro y m same
    obtain ⟨_, x', t', found', key'⟩ := (h.mem y).mp (List.mem_cons_of_mem _ m)
    rw [same, found] at found'
    cases found'
    rcases first y m with lt | ⟨_, lt⟩
    · exact absurd (key.symm.trans key') (ne_of_lt lt)
    · omega
  refine ⟨⟨x, t, found, key⟩, h.length, h.holds, fun p => h.loaded p.1, rest, fun y => ?_⟩
  constructor
  · intro m
    obtain ⟨p, rest⟩ := (h.mem y).mp (List.mem_cons_of_mem _ m)
    exact ⟨⟨p, differ y m⟩, rest⟩
  · rintro ⟨⟨p, other⟩, rest⟩
    rcases List.mem_cons.mp ((h.mem y).mpr ⟨p, rest⟩) with rfl | m
    · exact absurd rfl other
    · exact m

theorem Merging.step (h : Merging present layers sources heap) {i : Nat} {x : Rec} {t : List Rec}
    {s : σ} (at_i : layers[i]? = some (x :: t)) (found : sources[i]? = some s)
    (loaded : Loaded (x :: t) s) (absent : ¬ present i) :
    ∃ s', withSource sources i stepOver = .ok ((), sources.set i s') ∧
      Merging present (layers.set i t) (sources.set i s') heap := by
  obtain ⟨s', run, holds⟩ := advanceLoaded loaded
  have step : stepOver s = .ok ((), s') := by
    simp only [stepOver, run]
    rfl
  refine ⟨s', withSourceRun found step, by simpa using h.length, ?_, ?_, h.sorted, ?_⟩
  · intro j l' u at_j found_j
    rcases setGet at_j with ⟨rfl, rfl⟩ | ⟨differ, at_j⟩
    · rcases setGet found_j with ⟨_, rfl⟩ | ⟨differ, _⟩
      · exact holds
      · exact absurd rfl differ
    · rcases setGet found_j with ⟨same, _⟩ | ⟨_, found_j⟩
      · exact absurd same differ
      · exact h.holds at_j found_j
  · intro j l' u p at_j found_j
    rcases setGet at_j with ⟨rfl, rfl⟩ | ⟨differ, at_j⟩
    · exact absurd p absent
    · rcases setGet found_j with ⟨same, _⟩ | ⟨_, found_j⟩
      · exact absurd same differ
      · exact h.loaded p at_j found_j
  · intro e
    rw [h.mem e]
    refine and_congr_right (fun p => ?_)
    have differ : i ≠ e.idx := fun same => absent (same ▸ p)
    rw [List.getElem?_set_ne differ]

theorem Merging.congr {present' : Nat → Prop} (h : Merging present layers sources heap)
    (same : ∀ i, present i ↔ present' i) : Merging present' layers sources heap := by
  obtain rfl : present = present' := funext (fun i => propext (same i))
  exact h

theorem primeMerging {present : Nat → Prop} (todo : List Nat) (unique : todo.Nodup)
    (inside : ∀ i ∈ todo, i < layers.length ∧ ¬ present i)
    (h : Merging present layers sources heap) : ∃ sources' heap',
      MergeIter.primeLoop todo sources heap = .ok (sources', heap') ∧
      Merging (fun i => present i ∨ i ∈ todo) layers sources' heap' := by
  induction todo generalizing present sources heap with
  | nil => exact ⟨sources, heap, rfl, h.congr (by simp)⟩
  | cons i todo ih =>
    obtain ⟨fresh, unique⟩ := List.nodup_cons.mp unique
    obtain ⟨lt, absent⟩ := inside i List.mem_cons_self
    obtain ⟨s, run, m⟩ := h.refill (List.getElem?_eq_getElem lt) absent
    obtain ⟨sources', heap', rest, final⟩ := ih unique (fun j mj => ⟨(inside j
      (List.mem_cons_of_mem _ mj)).1, fun p => p.elim (inside j (List.mem_cons_of_mem _ mj)).2
        (fun same => fresh (same ▸ mj))⟩) m
    refine ⟨sources', heap', ?_, final.congr (by simp [or_assoc])⟩
    simp only [MergeIter.primeLoop, run, bind, Except.bind]
    exact rest

def total (layers : List (List Rec)) : Nat := (layers.map List.length).sum

theorem Merging.totalLe (h : Merging present layers sources heap) :
    total layers ≤ MergeIter.budget sources := by
  have pointwise : List.Forall₂ (· ≤ ·) (layers.map List.length) (sources.map remaining) := by
    refine List.forall₂_iff_get.mpr ⟨by simpa using h.length.symm, fun i hi hj => ?_⟩
    simp only [List.length_map] at hi hj
    simpa using LawfulSource.bound
      (h.holds (List.getElem?_eq_getElem hi) (List.getElem?_eq_getElem hj))
  exact pointwise.sum_le_sum

theorem totalSet {i : Nat} {x : Rec} {t : List Rec} (at_i : layers[i]? = some (x :: t)) :
    total (layers.set i t) + 1 = total layers := by
  unfold total
  induction layers generalizing i with
  | nil => simp at at_i
  | cons l layers ih =>
    cases i with
    | zero =>
      cases at_i
      simp
      omega
    | succ i =>
      have := ih (i := i) at_i
      simp only [List.set_cons_succ, List.map_cons, List.sum_cons]
      omega

theorem mapDropSet {key : Bytes} {i : Nat} {x : Rec} {t : List Rec}
    (at_i : layers[i]? = some (x :: t)) (same : x.1 = key) (above : ∀ e ∈ t, key < e.1) :
    (layers.set i t).map (dropKey key) = layers.map (dropKey key) := by
  have drop : dropKey key (x :: t) = dropKey key t := by
    rw [dropKeyCons, if_pos same, dropKeyAbove above]
  obtain ⟨lt, eq⟩ := List.getElem?_eq_some_iff.mp at_i
  rw [List.map_set, ← drop, ← List.map_set, ← eq, List.set_getElem_self]

theorem skipMerging {key : Bytes} {idx fuel : Nat}
    (h : Merging (· ≠ idx) layers sources heap) (ordered : ∀ l ∈ layers, Ordered l)
    (least : ∀ l ∈ layers, ∀ e ∈ l, key ≤ e.1) (enough : total layers ≤ fuel) :
    ∃ layers' sources' heap', MergeIter.skipOlder key fuel sources heap = .ok (sources', heap') ∧
      Merging (· ≠ idx) layers' sources' heap' ∧
      layers'.map (dropKey key) = layers.map (dropKey key) ∧ layers'[idx]? = layers[idx]? ∧
      total layers' ≤ total layers ∧
      ∀ i, i ≠ idx → ∀ l, layers'[i]? = some l → dropKey key l = l := by
  induction fuel generalizing layers sources heap with
  | zero =>
    refine ⟨layers, sources, heap, rfl, h, rfl, rfl, le_rfl, fun i _ l at_i => ?_⟩
    cases l with
    | nil => rfl
    | cons x t =>
      have := totalSet at_i
      omega
  | succ fuel ih =>
    cases heap with
    | nil =>
      refine ⟨layers, sources, [], rfl, h, rfl, rfl, le_rfl, fun i differ l at_i => ?_⟩
      cases l with
      | nil => rfl
      | cons x t => exact absurd ((h.mem ⟨x.1, i⟩).mpr ⟨differ, x, t, at_i, rfl⟩) List.not_mem_nil
    | cons e heap =>
      unfold MergeIter.skipOlder
      obtain ⟨⟨x, t, at_e, key_e⟩, popped⟩ := h.pop
      have member := List.mem_of_getElem? at_e
      by_cases same : e.key = key
      · have differ : e.idx ≠ idx := ((h.mem e).mp List.mem_cons_self).1
        obtain ⟨s, found⟩ := h.source at_e
        obtain ⟨s₁, step, moved⟩ := popped.step at_e found (h.loaded differ at_e found)
          (fun p => p.2 rfl)
        have at_e' : (layers.set e.idx t)[e.idx]? = some t := by
          rw [List.getElem?_set_self (List.getElem?_eq_some_iff.mp at_e).1]
        obtain ⟨s₂, refill, full⟩ := moved.refill at_e' (fun p => p.2 rfl)
        have full : Merging (· ≠ idx) _ _ _ := full.congr (fun j => by
          constructor
          · rintro (⟨p, _⟩ | rfl)
            · exact p
            · exact differ
          · intro p
            by_cases q : j = e.idx
            · exact .inr q
            · exact .inl ⟨p, q⟩)
        have sorted := orderedCons.mp (ordered _ member)
        have count := totalSet at_e
        have elsewhere : ∀ l ∈ layers.set e.idx t, l = t ∨ l ∈ layers := fun l m =>
          (List.mem_or_eq_of_mem_set m).symm
        have x_key : x.1 = key := key_e.trans same
        obtain ⟨layers', sources', heap', run, final, drops, kept, smaller, passed⟩ := ih full
          (fun l m => (elsewhere l m).elim (fun e => e ▸ sorted.2) (ordered l))
          (fun l m y my => (elsewhere l m).elim
            (fun e => x_key ▸ le_of_lt (sorted.1 y (e ▸ my))) (fun m => least l m y my))
          (by omega)
        refine ⟨layers', sources', heap', ?_, final, ?_, ?_, by omega, passed⟩
        · simp only [same, ne_eq, not_true, if_false, step, refill, bind, Except.bind]
          exact run
        · rw [drops, mapDropSet at_e x_key (fun y my => x_key ▸ sorted.1 y my)]
        · rw [kept, List.getElem?_set_ne differ]
      · refine ⟨layers, sources, e :: heap, by rw [if_pos same]; rfl, h, rfl, rfl, le_rfl,
          fun i differ l at_i => ?_⟩
        cases l with
        | nil => rfl
        | cons y u =>
          have lt : key < e.key :=
            lt_of_le_of_ne (key_e ▸ least _ member x List.mem_cons_self) (Ne.symm same)
          have le : e.key ≤ y.1 := by
            rcases List.mem_cons.mp ((h.mem ⟨y.1, i⟩).mpr ⟨differ, y, u, at_i, rfl⟩) with eq | m
            · exact le_of_eq (congrArg HeapEntry.key eq).symm
            · rcases (List.pairwise_cons.mp h.sorted).1 _ m with lt | ⟨eq, _⟩
              · exact le_of_lt lt
              · exact le_of_eq eq
          exact if_neg (ne_of_gt (lt.trans_le le))

theorem Merging.least {top : HeapEntry} (h : Merging (fun _ => True) layers sources (top :: heap))
    (ordered : ∀ l ∈ layers, Ordered l) : (∀ l ∈ layers, ∀ e ∈ l, top.key ≤ e.1) ∧
      ∃ v t, layers[top.idx]? = some ((top.key, v) :: t) ∧
        lookupLayers layers top.key = some v := by
  have heads : ∀ i x t, layers[i]? = some (x :: t) → top.key ≤ x.1 ∧
      (top.key = x.1 → top.idx ≤ i) := by
    intro i x t at_i
    rcases List.mem_cons.mp ((h.mem ⟨x.1, i⟩).mpr ⟨trivial, x, t, at_i, rfl⟩) with eq | m
    · exact ⟨le_of_eq (congrArg HeapEntry.key eq).symm,
        fun _ => le_of_eq (congrArg HeapEntry.idx eq).symm⟩
    · rcases (List.pairwise_cons.mp h.sorted).1 _ m with lt | ⟨eq, lt⟩
      · exact ⟨le_of_lt lt, fun eq => absurd eq (ne_of_lt lt)⟩
      · exact ⟨le_of_eq eq, fun _ => le_of_lt lt⟩
  have least : ∀ l ∈ layers, ∀ e ∈ l, top.key ≤ e.1 := by
    intro l m e me
    obtain ⟨i, lt, rfl⟩ := List.getElem_of_mem m
    cases hl : layers[i] with
    | nil =>
      rw [hl] at me
      cases me
    | cons x t =>
      have head := (heads i x t (by rw [List.getElem?_eq_getElem lt, hl])).1
      rw [hl] at me
      rcases List.mem_cons.mp me with rfl | me
      · exact head
      · have sorted := orderedCons.mp (hl ▸ ordered _ m)
        exact head.trans (le_of_lt (sorted.1 e me))
  obtain ⟨-, ⟨k, v⟩, t, at_top, key⟩ := (h.mem top).mp List.mem_cons_self
  have key : k = top.key := key
  subst key
  refine ⟨least, v, t, at_top, ?_⟩
  obtain ⟨lt, eq⟩ := List.getElem?_eq_some_iff.mp at_top
  have split : layers = layers.take top.idx ++ layers[top.idx] :: layers.drop (top.idx + 1) := by
    simp
  have before : lookupLayers (layers.take top.idx) top.key = none := by
    refine lookupLayersNone.mpr (fun l m => lookupNone.mpr (fun e me same => ?_))
    obtain ⟨i, bound, rfl⟩ := List.mem_take_iff_getElem.mp m
    have inside : i < layers.length := by omega
    cases hl : layers[i] with
    | nil =>
      rw [hl] at me
      cases me
    | cons x u =>
      have head := heads i x u (by rw [List.getElem?_eq_getElem inside, hl])
      have sorted := orderedCons.mp (hl ▸ ordered _ (List.getElem_mem inside))
      rw [hl] at me
      have x_key : top.key = x.1 := by
        rcases List.mem_cons.mp me with rfl | me
        · exact same.symm
        · exact absurd (same ▸ sorted.1 e me) (not_lt.mpr head.1)
      have := head.2 x_key
      omega
  rw [split, lookupLayersAppend, before, lookupLayersCons, eq]
  simp

theorem nextMerging {m : MergeIter σ} (primed : m.primed = true)
    (h : Merging (fun _ => True) layers m.sources m.heap) (ordered : ∀ l ∈ layers, Ordered l) :
    (m.next = .ok (none, m) ∧ flatten layers = []) ∨
    ∃ item m' layers', m.next = .ok (some item, m') ∧ m'.primed = true ∧
      Merging (fun _ => True) layers' m'.sources m'.heap ∧ (∀ l ∈ layers', Ordered l) ∧
      flatten layers = item :: flatten layers' ∧ total layers' < total layers := by
  obtain ⟨sources, heap, p⟩ := m
  subst primed
  cases heap with
  | nil =>
    refine .inl ⟨rfl, ?_⟩
    refine List.eq_nil_iff_forall_not_mem.mpr (fun e m => ?_)
    have some := memLookup (flattenOrdered _) (k := e.1) (v := e.2) m
    rw [lookupFlatten] at some
    obtain ⟨l, ml, hl⟩ := List.exists_of_findSome?_eq_some some
    obtain ⟨i, lt, rfl⟩ := List.getElem_of_mem ml
    cases e' : layers[i] with
    | nil => simp [e'] at hl
    | cons x t =>
      exact absurd ((h.mem ⟨x.1, i⟩).mpr
        ⟨trivial, x, t, by rw [List.getElem?_eq_getElem lt, e'], rfl⟩) List.not_mem_nil
  | cons top heap =>
    obtain ⟨least, v, t, at_top, first⟩ := h.least ordered
    have member := List.mem_of_getElem? at_top
    have sorted := orderedCons.mp (ordered _ member)
    obtain ⟨s₁, peeked, loaded, h₁⟩ := h.pop.2.look at_top
    have found : (sources.set top.idx s₁)[top.idx]? = some s₁ := by
      obtain ⟨s, at_s⟩ := h.source at_top
      rw [List.getElem?_set_self (List.getElem?_eq_some_iff.mp at_s).1]
    obtain ⟨s₂, stepped, h₂⟩ := h₁.step at_top found loaded (fun p => p.2 rfl)
    have h₂ : Merging (· ≠ top.idx) _ _ _ := h₂.congr (by simp)
    have elsewhere : ∀ l ∈ layers.set top.idx t, l = t ∨ l ∈ layers := fun l m =>
      (List.mem_or_eq_of_mem_set m).symm
    have ordered₂ : ∀ l ∈ layers.set top.idx t, Ordered l := fun l m =>
      (elsewhere l m).elim (fun e => e ▸ sorted.2) (ordered l)
    have least₂ : ∀ l ∈ layers.set top.idx t, ∀ e ∈ l, top.key ≤ e.1 := fun l m y my =>
      (elsewhere l m).elim (fun e => le_of_lt (sorted.1 y (e ▸ my))) (fun m => least l m y my)
    obtain ⟨layers', sources', heap', skipped, h₃, drops, kept, smaller, passed⟩ :=
      skipMerging h₂ ordered₂ least₂ h₂.totalLe
    have at_t : layers'[top.idx]? = some t := by
      rw [kept, List.getElem?_set_self (List.getElem?_eq_some_iff.mp at_top).1]
    obtain ⟨s₄, again, h₄⟩ := h₃.refill at_t (fun p => p rfl)
    have count := totalSet at_top
    have above : ∀ e ∈ t, top.key < e.1 := sorted.1
    have same : layers' = layers.map (dropKey top.key) := by
      rw [← mapDropSet at_top rfl above, ← drops]
      refine List.ext_getElem? (fun i => ?_)
      rw [List.getElem?_map]
      cases at_i : layers'[i]? with
      | none => rfl
      | some l =>
        by_cases here : i = top.idx
        · subst here
          cases Option.some.inj (at_t.symm.trans at_i)
          simp [dropKeyAbove above]
        · simp [passed i here l at_i]
    refine .inr ⟨(top.key, v), ⟨sources'.set top.idx s₄, pushTop t.head? top.idx heap', true⟩,
      layers', ?_, rfl, h₄.congr (fun i => ?_), ?_, ?_, by omega⟩
    · dsimp only at peeked stepped skipped
      simp only [MergeIter.next, MergeIter.prime, if_true, pure, Except.pure, bind, Except.bind,
        peeked, List.head?_cons, stepped, skipped, again]
    · simp [ne_or_eq]
    · intro l m
      rw [same] at m
      obtain ⟨l', member, rfl⟩ := List.mem_map.mp m
      exact dropKeyOrdered (ordered l' member)
    · rw [same]
      exact flattenStep ordered least first

theorem collectMerging {m : MergeIter σ} (primed : m.primed = true)
    (h : Merging (fun _ => True) layers m.sources m.heap) (ordered : ∀ l ∈ layers, Ordered l)
    {fuel : Nat} (enough : total layers ≤ fuel) : m.collectLoop fuel = .ok (flatten layers) := by
  induction fuel generalizing m layers with
  | zero =>
    rcases nextMerging primed h ordered with ⟨_, none⟩ | ⟨_, _, _, _, _, _, _, _, less⟩
    · rw [none]
      rfl
    · omega
  | succ fuel ih =>
    rcases nextMerging primed h ordered with
      ⟨run, none⟩ | ⟨item, m', layers', run, primed', h', ordered', split, less⟩
    · simp only [MergeIter.collectLoop, run, none]
      rfl
    · simp only [MergeIter.collectLoop, run, bind, Except.bind, ih primed' h' ordered'
        (by omega), split]
      rfl

theorem primeExact {layers : List (List Rec)} {sources : List σ}
    (h : List.Forall₂ Holds layers sources) : ∃ sources' heap',
      (MergeIter.new sources).prime = .ok ⟨sources', heap', true⟩ ∧
        Merging (fun _ => True) layers sources' heap' := by
  have start : Merging (fun _ => False) layers sources [] := by
    refine ⟨h.length_eq.symm, ?_, fun p => p.elim, List.Pairwise.nil, by simp⟩
    intro i l s at_i found
    obtain ⟨lt, rfl⟩ := List.getElem?_eq_some_iff.mp at_i
    obtain ⟨lt', rfl⟩ := List.getElem?_eq_some_iff.mp found
    exact h.get lt lt'
  obtain ⟨sources', heap', run, full⟩ := primeMerging (List.range sources.length)
    List.nodup_range (fun i m => ⟨h.length_eq ▸ List.mem_range.mp m, id⟩) start
  refine ⟨sources', heap', ?_, full.length, full.holds, ?_, full.sorted, fun e => ?_⟩
  · simp [MergeIter.prime, MergeIter.new, run, bind, Except.bind, pure, Except.pure]
  · intro i l s _ at_i found
    have lt := (List.getElem?_eq_some_iff.mp at_i).1
    exact full.loaded (.inr (List.mem_range.mpr (h.length_eq ▸ lt))) at_i found
  · rw [full.mem e, true_and]
    refine and_iff_right_of_imp (fun ⟨x, t, at_e, _⟩ => .inr (List.mem_range.mpr ?_))
    exact h.length_eq ▸ (List.getElem?_eq_some_iff.mp at_e).1

theorem overlayLength (upper lower : List Rec) :
    (overlay upper lower).length ≤ upper.length + lower.length := by
  have insert : ∀ (k : Bytes) (v : Entry) (l : List Rec),
      (insertEntry k v l).length ≤ l.length + 1 := by
    intro k v l
    induction l with
    | nil => exact le_rfl
    | cons e l ih =>
      unfold insertEntry
      split
      · exact le_rfl
      · split <;> simp only [List.length_cons] <;> omega
  induction upper with
  | nil => simp [overlay]
  | cons e upper ih =>
    have := insert e.1 e.2 (overlay upper lower)
    change (insertEntry e.1 e.2 (overlay upper lower)).length ≤ _
    rw [List.length_cons]
    omega

theorem flattenLength (layers : List (List Rec)) : (flatten layers).length ≤ total layers := by
  induction layers with
  | nil => exact le_rfl
  | cons l layers ih =>
    have := overlayLength l (flatten layers)
    change (overlay l (flatten layers)).length ≤ _
    simp only [total, List.map_cons, List.sum_cons] at ih ⊢
    omega

theorem totalBudget {layers : List (List Rec)} {sources : List σ}
    (h : List.Forall₂ Holds layers sources) : total layers ≤ MergeIter.budget sources := by
  induction h with
  | nil => exact le_rfl
  | cons holds _ ih =>
    have := LawfulSource.bound holds
    simp only [total, MergeIter.budget, List.map_cons, List.sum_cons] at ih ⊢
    omega

theorem collectExact {layers : List (List Rec)} {sources : List σ}
    (h : List.Forall₂ Holds layers sources) (ordered : ∀ l ∈ layers, Ordered l) :
    (MergeIter.new sources).collect = .ok (flatten layers) := by
  obtain ⟨sources', heap', prime, full⟩ := primeExact h
  have rest := collectMerging (m := ⟨sources', heap', true⟩) rfl full ordered (totalBudget h)
  unfold MergeIter.collect
  change MergeIter.collectLoop (MergeIter.budget sources) (MergeIter.new sources) = _
  cases fuel : MergeIter.budget sources with
  | zero =>
    rw [fuel] at rest
    rw [← rest]
    rfl
  | succ fuel' =>
    rw [fuel] at rest
    rw [← rest]
    have again : MergeIter.prime ⟨sources', heap', true⟩ = .ok ⟨sources', heap', true⟩ := rfl
    simp only [MergeIter.collectLoop, MergeIter.next, prime, again]

/-- A merge that has not begun, of sources in which `l` is laid over itself in layers. -/
def Streams (l : List Rec) (m : MergeIter σ) : Prop := ∃ layers sources, m = .new sources ∧
  List.Forall₂ Holds layers sources ∧ (∀ l ∈ layers, Ordered l) ∧ flatten layers = l

theorem Streams.collect {l : List Rec} {m : MergeIter σ} (h : Streams l m) : m.collect = .ok l := by
  obtain ⟨layers, sources, rfl, holds, ordered, rfl⟩ := h
  exact collectExact holds ordered

end Merge

theorem mergeVecsExact {sources : List (List Rec)} (ordered : ∀ l ∈ sources, Ordered l) :
    mergeVecs sources = .ok (flatten sources) := by
  refine collectExact ?_ ordered
  refine List.forall₂_map_right_iff.mpr (List.forall₂_same.mpr (fun l _ => ?_))
  exact List.drop_zero

end MyLsmDb.Iterator
