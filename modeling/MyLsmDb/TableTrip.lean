import MyLsmDb.MergeExact

/-! A table written and read again. The footer has 32 bits for the length of the index, and
the builder cuts the length down to them: a table comes back whole as long as its index
block is shorter than 2^32 bytes, and never beyond. -/
namespace MyLsmDb.TableTrip
open ByteOrder (Bytes)
open LittleEndian (leBytes fromLe leBytesLength fromLeFits)
open OrderedEntries (Ordered rangeOf)
open Sstable
open Iterator

section Drain
variable {σ : Type} [ScanSource σ]

def drain : Nat → σ → Fallible (List Rec)
  | 0, _ => pure []
  | fuel + 1, s => do
    match ← peek s with
    | (none, _) => return []
    | (some x, s) => return x :: (← drain fuel (← advance s))

theorem drainHolds [LawfulSource σ] {l : List Rec} {s : σ} (h : Holds l s) {fuel : Nat}
    (spare : l.length < fuel) : drain fuel s = .ok l := by
  induction fuel generalizing l s with
  | zero => omega
  | succ fuel ih =>
    obtain ⟨s', run, loaded⟩ := peekHolds h
    cases l with
    | nil =>
      simp only [drain, run, List.head?_nil]
      rfl
    | cons x l =>
      obtain ⟨s'', step, rest⟩ := advanceLoaded loaded
      have tail := ih rest (by simpa using spare)
      simp only [drain, run, step, List.head?_cons, bind, Except.bind, tail]
      rfl

end Drain

/-- What a reader of the file of `records` owes: lookups, a scan of everything, ranges, bounds. -/
structure Reads (records : List Rec) (r : TableReader) : Prop where
  lookup : ∀ key, r.lookup key = .ok (records.lookup key)
  iter : r.iter = .ok records
  range : ∀ start stop fuel, (rangeOf start stop records).length < fuel →
    drain fuel (TableIter.fromReader r start stop) = .ok (rangeOf start stop records)
  keyBounds : r.keyBounds = do
    let first ← records.head?
    let last ← records.getLast?
    return (first.1, last.1)

def Trips (records : List Rec) : Prop :=
  ∃ r, TableReader.openFile (tableFile records) = .ok r ∧ Reads records r

def indexBlock (records : List Rec) : Bytes := (TableBuilder.addAll records).finalIndex

theorem openedReads {records : List Rec} {r : TableReader} (h : Opened records r)
    (ordered : Ordered records) : Reads records r := by
  constructor
  · exact lookupExact h ordered
  · exact iterExact h
  · intro start stop fuel spare
    exact drainHolds (fromReaderHolds h ordered start stop) spare
  · cases records with
    | nil =>
      have none : r.indexEntries = [] := List.sublist_nil.mp h.index.sub
      simp [TableReader.keyBounds, none]
    | cons x rest =>
      rw [keyBoundsExact h (List.cons_ne_nil x rest), List.getLast?_eq_some_getLast]
      rfl

theorem tripsShort {records : List Rec} (ordered : Ordered records)
    (keys : ∀ r ∈ records, r.1.length < 2 ^ 32)
    (values : ∀ r ∈ records, ∀ v, r.2 = some v → v.length < 2 ^ 32)
    (data : (encode records).length < 2 ^ 63) (index : (indexBlock records).length < 2 ^ 32) :
    Trips records := by
  obtain ⟨_, built⟩ := builtAll records
  have file : tableFile records = (TableBuilder.addAll records).buf ++
    (TableBuilder.addAll records).finalIndex ++ (TableBuilder.addAll records).bloom.toBytes ++
    (TableBuilder.addAll records).footer := rfl
  have size : (tableFile records).length < 2 ^ 64 := by
    rw [file, built.buf]
    unfold indexBlock at index
    simp only [List.length_append, BloomFilter.toBytes, built.bits, TableBuilder.footer,
      leBytesLength]
    omega
  obtain ⟨r, run, opened⟩ := openBuilt ⟨⟨keys, index, size⟩, values⟩
  exact ⟨r, run, openedReads opened ordered⟩

/-- Of an index that was cut, only entries that are whole are read, if it is read at all. -/
theorem parseIndexCut {entries out : List IndexEntry}
    (keys : ∀ e ∈ entries, e.1.length < 2 ^ 32) {part : Bytes} {fuel : Nat}
    (cut : part <+: encodeIndex entries) (proper : part.length < (encodeIndex entries).length)
    (parsed : parseIndexLoop fuel part = .ok out) :
    ∃ lost, lost ≠ [] ∧ entries.map Prod.fst = out.map Prod.fst ++ lost := by
  induction fuel generalizing entries out part with
  | zero =>
    cases parsed
    refine ⟨entries.map Prod.fst, ?_, rfl⟩
    intro none
    rw [List.map_eq_nil_iff.mp none] at proper
    simp [encodeIndex] at proper
  | succ fuel ih =>
    cases entries with
    | nil => simp [encodeIndex] at proper
    | cons e entries =>
      by_cases empty : part = []
      · subst empty
        simp only [parseIndexLoop] at parsed
        cases parsed
        exact ⟨_, by simp, rfl⟩
      · have raw : encodeIndex (e :: entries) =
            leBytes 4 e.1.length ++ (e.1 ++ leBytes 8 e.2 ++ encodeIndex entries) := by
          simp [encodeIndex, indexEntry]
        rw [raw] at cut proper
        simp only [parseIndexLoop, if_neg empty] at parsed
        by_cases short : part.length < 4
        · simp [short, throw, throwThe, MonadExceptOf.throw, bind, Except.bind] at parsed
        obtain ⟨p, rfl⟩ : leBytes 4 e.1.length <+: part :=
          List.prefix_of_prefix_length_le (List.prefix_append _ _) cut (by simp; omega)
        have size : fromLe (leBytes 4 e.1.length) = e.1.length :=
          fromLeFits (by simpa using keys e List.mem_cons_self)
        have cut := (List.prefix_append_right_inj _).mp cut
        simp only [if_neg short, List.take_left' (leBytesLength 4 _),
          List.drop_left' (leBytesLength 4 _), size] at parsed
        by_cases room : p.length < e.1.length + 8
        · simp [room, throw, throwThe, MonadExceptOf.throw, bind, Except.bind] at parsed
        obtain ⟨q, rfl⟩ : e.1 ++ leBytes 8 e.2 <+: p :=
          List.prefix_of_prefix_length_le (List.prefix_append _ _) cut (by simp; omega)
        have cut := (List.prefix_append_right_inj _).mp cut
        simp only [if_neg room] at parsed
        obtain ⟨tail, run, same⟩ := bindOk parsed
        rw [List.drop_left' (by simp)] at run
        cases same
        simp only [List.length_append] at proper
        obtain ⟨lost, some, split⟩ := ih (fun x m => keys x (List.mem_cons_of_mem _ m)) cut
          (by omega) run
        refine ⟨lost, some, ?_⟩
        rw [List.append_assoc, List.take_left]
        simp [split]

theorem readCut {records : List Rec} {raw : Bytes}
    (read : readExact (tableFile records) (encode records).length
      ((indexBlock records).length % 2 ^ 32) = .ok raw)
    (below : (indexBlock records).length % 2 ^ 32 < 2 ^ 32)
    (index : 2 ^ 32 ≤ (indexBlock records).length) :
    raw <+: indexBlock records ∧ raw.length < (indexBlock records).length := by
  obtain ⟨_, built⟩ := builtAll records
  have file : tableFile records = encode records ++ (indexBlock records ++
      ((TableBuilder.addAll records).bloom.toBytes ++ (TableBuilder.addAll records).footer)) := by
    rw [← built.buf, ← List.append_assoc, ← List.append_assoc]
    rfl
  unfold readExact at read
  split at read
  · cases read
    rw [file, List.drop_left, List.take_append_of_le_length (by omega)]
    exact ⟨List.take_prefix _ _, by rw [List.length_take]; omega⟩
  · cases read

theorem tripsLong {records : List Rec} (ordered : Ordered records)
    (keys : ∀ r ∈ records, r.1.length < 2 ^ 32) (data : (encode records).length < 2 ^ 63)
    (index : 2 ^ 32 ≤ (indexBlock records).length) : ¬ Trips records := by
  intro h
  obtain ⟨r, run, reads⟩ := h
  obtain ⟨entries, sparse, block⟩ := finalIndexSparse records
  have below : (indexBlock records).length % 2 ^ 32 < 2 ^ 32 := Nat.mod_lt _ (by decide)
  rw [openFooter rfl (show _ < 2 ^ 64 by unfold indexBlock at below; omega)] at run
  obtain ⟨raw, readIndex, run⟩ := bindOk run
  obtain ⟨_, _, run⟩ := bindOk run
  obtain ⟨_, _, run⟩ := bindOk run
  obtain ⟨out, parsed, run⟩ := bindOk run
  cases run
  have cut : raw <+: indexBlock records ∧ raw.length < (indexBlock records).length :=
    readCut readIndex below index
  have short : ∀ e ∈ entries, e.1.length < 2 ^ 32 := by
    intro e m
    obtain ⟨_, x, _, rfl, rfl⟩ := locatedMem (sparse.sub.subset m)
    exact keys x (by simp)
  rw [show indexBlock records = encodeIndex entries from block] at cut
  obtain ⟨lost, some, split⟩ := parseIndexCut short cut.1 cut.2 parsed
  have unique : (out.map Prod.fst ++ lost).Nodup := by
    rw [← split]
    have sub := sparse.sub.map Prod.fst
    rw [locatedKeys] at sub
    exact ordered.nodupKeys.sublist sub
  have last : lost.getLast? = records.getLast?.map Prod.fst := by
    have whole := congrArg List.getLast? split
    rw [List.getLast?_map, sparse.last, ← List.getLast?_map, locatedKeys, List.getLast?_map,
      List.getLast?_append_of_ne_nil _ some] at whole
    exact whole.symm
  obtain ⟨x, tail⟩ : ∃ x, records.getLast? = .some x := by
    cases records with
    | nil => simp [List.getLast?_eq_none_iff.mp last] at some
    | cons x rest => exact ⟨_, List.getLast?_eq_some_getLast (List.cons_ne_nil x rest)⟩
  obtain ⟨y, head⟩ : ∃ y, records.head? = .some y := by
    cases records with
    | nil => cases tail
    | cons y rest => exact ⟨y, rfl⟩
  have bounds := reads.keyBounds
  simp only [TableReader.keyBounds, head, tail] at bounds
  rw [tail] at last
  cases e : out.getLast? with
  | none => cases h : out.head? <;> simp [e, h] at bounds
  | some z =>
    have seen : z.1 = x.1 := by
      cases h : out.head? with
      | none => simp [h] at bounds
      | some w =>
        simp only [e, h, pure, bind, Option.bind, Option.some.injEq, Prod.mk.injEq] at bounds
        exact bounds.2
    have here : x.1 ∈ out.map Prod.fst :=
      List.mem_map.mpr ⟨z, List.mem_of_getLast? e, seen⟩
    exact (List.disjoint_of_nodup_append unique) here (List.mem_of_getLast? last)

/-- The entries of the index are in a field of 32 bits all told, or the table is lost. -/
theorem tripsExactly {records : List Rec} (ordered : Ordered records)
    (keys : ∀ r ∈ records, r.1.length < 2 ^ 32)
    (values : ∀ r ∈ records, ∀ v, r.2 = some v → v.length < 2 ^ 32)
    (data : (encode records).length < 2 ^ 63) :
    Trips records ↔ (indexBlock records).length < 2 ^ 32 := by
  constructor
  · intro h
    by_contra long
    exact tripsLong ordered keys data (by omega) h
  · exact tripsShort ordered keys values data

theorem tripsExactlySmall :
    let records : List Rec := [([1], some [2, 3]), ([1, 0], none), ([7], some [])]
    (indexBlock records).length < 2 ^ 32 ∧ Trips records := by
  have short : (indexBlock [([1], some [2, 3]), ([1, 0], none), ([7], some [])]).length <
    2 ^ 32 := by decide +kernel
  exact ⟨short, (tripsExactly (by decide) (by simp) (by simp) (by decide)).mpr short⟩

theorem oneRecordLost {key : Bytes} (length : key.length = 2 ^ 32 - 12) :
    let records : List Rec := [(key, some [])]
    Ordered records ∧ (∀ r ∈ records, r.1.length < 2 ^ 32) ∧
      (∀ r ∈ records, ∀ v, r.2 = some v → v.length < 2 ^ 32) ∧
      (encode records).length < 2 ^ 63 ∧ ¬ Trips records := by
  have ordered : Ordered [(key, some ([] : Bytes))] := List.pairwise_singleton _ _
  have keys : ∀ r ∈ [(key, some ([] : Bytes))], r.1.length < 2 ^ 32 := by simp [length]
  have data : (encode [(key, some [])]).length < 2 ^ 63 := by simp [recordBytes, length]
  have index : 2 ^ 32 ≤ (indexBlock [(key, some [])]).length := by
    simp [indexBlock, TableBuilder.addAll, TableBuilder.add, TableBuilder.new,
      TableBuilder.finalIndex, indexEntry, length]
  exact ⟨ordered, keys, by simp, data, tripsLong ordered keys data index⟩

/-- A key below 2^32 bytes, of which the entry in the index is not. -/
theorem longKeyLost :
    let records : List Rec := [(List.replicate (2 ^ 32 - 12) 0, some [])]
    Ordered records ∧ (∀ r ∈ records, r.1.length < 2 ^ 32) ∧
      (∀ r ∈ records, ∀ v, r.2 = some v → v.length < 2 ^ 32) ∧
      (encode records).length < 2 ^ 63 ∧ ¬ Trips records :=
  oneRecordLost List.length_replicate

end MyLsmDb.TableTrip
