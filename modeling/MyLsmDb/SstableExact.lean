import MyLsmDb.Sstable

/-! What the reader gets out of a file the builder wrote: the records, all of them and
in order, by scan and by lookup, as long as every length fits the field that stores it. -/
namespace MyLsmDb.Sstable
open BinarySearch (search searchList)
open ByteOrder (Bytes)
open LittleEndian (leBytes fromLe fromLeBytes leBytesLength fromLeFits)
open OrderedEntries (Ordered lookupCons lookupNone)

section Bloom
open BloomFilter

/-- Every bit the filter probes for `key` is there and set. -/
def BloomFilter.Holds (f : BloomFilter) (key : Bytes) : Prop :=
  f.nbits ≠ 0 ∧ ∀ bit ∈ f.probes key, ∃ byte, f.bits[bit / 8]? = some byte ∧ byte &&& mask bit ≠ 0

theorem maskOr (x m : UInt8) : (x ||| m) &&& m = m := by
  apply UInt8.toBitVec_inj.mp
  ext i
  simp only [UInt8.toBitVec_and, UInt8.toBitVec_or, BitVec.getElem_and, BitVec.getElem_or]
  cases x.toBitVec[i] <;> cases m.toBitVec[i] <;> rfl

theorem maskKeeps {x m : UInt8} (n : UInt8) (h : x &&& m ≠ 0) : (x ||| n) &&& m ≠ 0 := by
  intro none
  apply h
  have zero := UInt8.toBitVec_inj.mpr none
  apply UInt8.toBitVec_inj.mp
  ext i lt
  have bit := congrArg (fun b : BitVec 8 => b[i]) zero
  simp at bit ⊢
  tauto

theorem maskNonzero (bit : Nat) : mask bit ≠ 0 := by
  have lt : bit % 8 < 8 := Nat.mod_lt _ (by decide)
  unfold mask
  generalize bit % 8 = i at lt
  revert i
  decide

theorem getSetBit (bits : Bytes) (bit j : Nat) : (setBit bits bit)[j]? =
    (bits[j]?).map (fun x => if bit / 8 = j then x ||| mask bit else x) := by
  unfold setBit
  rw [List.getElem?_modify]
  rfl

def TestsBit (bits : Bytes) (bit : Nat) : Prop :=
  ∃ byte, bits[bit / 8]? = some byte ∧ byte &&& mask bit ≠ 0

theorem setBitKeeps {bits : Bytes} {bit other : Nat} (h : TestsBit bits bit) :
    TestsBit (setBit bits other) bit := by
  obtain ⟨byte, found, set⟩ := h
  refine ⟨_, by rw [getSetBit, found]; rfl, ?_⟩
  dsimp only
  split
  · exact maskKeeps _ set
  · exact set

theorem setBitSets {bits : Bytes} {bit : Nat} (h : bit / 8 < bits.length) :
    TestsBit (setBit bits bit) bit := by
  refine ⟨_, by rw [getSetBit, List.getElem?_eq_getElem h]; rfl, ?_⟩
  simp only [if_true, maskOr]
  exact maskNonzero bit

theorem setBitsLength (l : List Nat) (bits : Bytes) :
    (l.foldl setBit bits).length = bits.length := by
  induction l generalizing bits with
  | nil => rfl
  | cons bit l ih => rw [List.foldl_cons, ih]; simp [setBit]

theorem setBitsKeep {l : List Nat} {bits : Bytes} {bit : Nat} (h : TestsBit bits bit) :
    TestsBit (l.foldl setBit bits) bit := by
  induction l generalizing bits with
  | nil => exact h
  | cons other l ih => exact ih (setBitKeeps h)

theorem setBitsSet {l : List Nat} {bits : Bytes} (fits : ∀ bit ∈ l, bit / 8 < bits.length) :
    ∀ bit ∈ l, TestsBit (l.foldl setBit bits) bit := by
  induction l generalizing bits with
  | nil => simp
  | cons first l ih =>
    intro bit m
    have rest : ∀ b ∈ l, b / 8 < (setBit bits first).length :=
      fun b m => by simpa [setBit] using fits b (List.mem_cons_of_mem _ m)
    rcases List.mem_cons.mp m with rfl | m
    · exact setBitsKeep (l := l) (setBitSets (fits _ List.mem_cons_self))
    · exact ih rest bit m

theorem holdsInsert {f : BloomFilter} {q : Bytes} (key : Bytes) (h : f.Holds q) :
    (f.insert key).Holds q :=
  ⟨h.1, fun bit m => setBitsKeep (h.2 bit m)⟩

theorem probeInside {f : BloomFilter} {key : Bytes} (some : f.nbits ≠ 0)
    (room : f.nbits ≤ 8 * f.bits.length) : ∀ bit ∈ f.probes key, bit / 8 < f.bits.length := by
  intro bit m
  have small : bit < f.nbits := by
    obtain ⟨i, _, rfl⟩ := List.mem_map.mp m
    exact Nat.mod_lt _ (Nat.pos_of_ne_zero some)
  omega

theorem insertHolds {f : BloomFilter} (key : Bytes) (some : f.nbits ≠ 0)
    (room : f.nbits ≤ 8 * f.bits.length) : (f.insert key).Holds key :=
  ⟨some, setBitsSet (probeInside some room)⟩

theorem containsOfHolds {f : BloomFilter} {key : Bytes} (h : f.Holds key) :
    f.maybeContains key = .ok true := by
  unfold maybeContains
  rw [if_neg (fun c => h.1 c.1)]
  have bits := h.2
  generalize f.probes key = l at bits
  induction l with
  | nil => rfl
  | cons bit l ih =>
    obtain ⟨byte, found, set⟩ := bits bit List.mem_cons_self
    simp only [List.allM, found, pure_bind, bne_iff_ne.mpr set]
    exact ih (fun b m => bits b (List.mem_cons_of_mem _ m))

theorem containsTotal {f : BloomFilter} (some : f.nbits ≠ 0)
    (room : f.nbits ≤ 8 * f.bits.length) (key : Bytes) : ∃ b, f.maybeContains key = .ok b := by
  unfold maybeContains
  rw [if_neg (fun c => some c.1)]
  have inside : ∀ bit ∈ f.probes key, bit / 8 < f.bits.length := probeInside some room
  generalize f.probes key = l at inside
  induction l with
  | nil => exact ⟨true, rfl⟩
  | cons bit l ih =>
    obtain ⟨b, rest⟩ := ih (fun b m => inside b (List.mem_cons_of_mem _ m))
    have found := List.getElem?_eq_getElem (inside bit List.mem_cons_self)
    simp only [List.allM, found, pure_bind]
    split
    · exact ⟨b, rest⟩
    · exact ⟨false, rfl⟩

theorem fromToBytes (f : BloomFilter) (hn : f.nbits < 2 ^ 32) (hk : f.k < 2 ^ 32) :
    fromBytes f.toBytes = .ok f := by
  have four : ∀ n < 2 ^ 32, fromLe (leBytes 4 n) = n := fun n h => fromLeFits (by simpa using h)
  have long : ¬ f.toBytes.length < 8 := by simp [toBytes]; omega
  have fields : f.toBytes = leBytes 4 f.nbits ++ (leBytes 4 f.k ++ f.bits) :=
    List.append_assoc _ _ _
  rw [fromBytes, if_neg long, fields, List.take_left' (leBytesLength 4 _),
    List.drop_left' (leBytesLength 4 _), List.take_left' (leBytesLength 4 _), four _ hn, four _ hk,
    ← List.append_assoc, List.drop_left' (by simp)]
  rfl

end Bloom

section Builder

def encode (records : List Rec) : Bytes := records.flatMap (fun r => recordBytes r.1 r.2)

def encodeIndex (entries : List IndexEntry) : Bytes :=
  entries.flatMap (fun e => indexEntry e.1 e.2)

/-- Where each record starts. -/
def located : Nat → List Rec → List IndexEntry
  | _, [] => []
  | offset, r :: rest => (r.1, offset) :: located (offset + (recordBytes r.1 r.2).length) rest

@[simp] theorem encodeNil : encode [] = [] := rfl

@[simp] theorem encodeCons (r : Rec) (rest : List Rec) :
    encode (r :: rest) = recordBytes r.1 r.2 ++ encode rest := List.flatMap_cons

@[simp] theorem encodeAppend (a b : List Rec) : encode (a ++ b) = encode a ++ encode b :=
  List.flatMap_append

theorem encodeIndexAppend (a b : List IndexEntry) :
    encodeIndex (a ++ b) = encodeIndex a ++ encodeIndex b := List.flatMap_append

theorem locatedAppend (offset : Nat) (a b : List Rec) :
    located offset (a ++ b) = located offset a ++ located (offset + (encode a).length) b := by
  induction a generalizing offset with
  | nil => simp [located]
  | cons r a ih => simp [located, ih, Nat.add_assoc]

theorem locatedMem {offset : Nat} {records : List Rec} {e : IndexEntry}
    (m : e ∈ located offset records) :
    ∃ a r b, records = a ++ r :: b ∧ e = (r.1, offset + (encode a).length) := by
  induction records generalizing offset with
  | nil => cases m
  | cons r rest ih =>
    rcases List.mem_cons.mp m with rfl | m
    · exact ⟨[], r, rest, rfl, rfl⟩
    · obtain ⟨a, x, b, rfl, rfl⟩ := ih m
      exact ⟨r :: a, x, b, rfl, by simp [Nat.add_assoc]⟩

theorem locatedKeys (offset : Nat) (records : List Rec) :
    (located offset records).map Prod.fst = records.map Prod.fst := by
  induction records generalizing offset with
  | nil => rfl
  | cons r rest ih => simp [located, ih]

/-- The entries the sparse index must hold, whatever the spacing. -/
structure SparseIndex (records : List Rec) (entries : List IndexEntry) : Prop where
  sub : entries.Sublist (located 0 records)
  first : entries.head? = (located 0 records).head?
  last : entries.getLast? = (located 0 records).getLast?

/-- The builder after `records`, and the index entries it has written so far. -/
structure Built (records : List Rec) (entries : List IndexEntry) (b : TableBuilder) : Prop where
  buf : b.buf = encode records
  index : b.index = encodeIndex entries
  sub : entries.Sublist (located 0 records)
  first : entries.head? = (located 0 records).head?
  pending : b.lastRecordIndexed = false → entries.Sublist (located 0 records).dropLast
  done : b.lastRecordIndexed = true → entries.getLast? = (located 0 records).getLast?
  start : records = [] → b.keysSinceIndex = 0
  count : b.numRecords = records.length
  last : (located 0 records).getLast? = b.lastKey.map (fun k => (k, b.lastOffset))
  nbits : b.bloom.nbits = 1024
  bits : b.bloom.bits.length = 128
  hashes : b.bloom.k = 4
  blooms : ∀ r ∈ records, b.bloom.Holds r.1

theorem builtNew : Built [] [] TableBuilder.new := by
  constructor <;> simp [TableBuilder.new, encodeIndex, located, BloomFilter.new]

theorem builtAdd {records : List Rec} {entries : List IndexEntry} {b : TableBuilder}
    (h : Built records entries b) (r : Rec) : ∃ entries', Built (records ++ [r]) entries'
      (b.add r.1 r.2) := by
  obtain ⟨key, value⟩ := r
  have place : located 0 (records ++ [(key, value)]) =
      located 0 records ++ [(key, b.buf.length)] := by
    rw [locatedAppend, h.buf]
    simp [located]
  have blooms : ∀ r ∈ records ++ [(key, value)], (b.bloom.insert key).Holds r.1 := by
    intro r m
    rcases List.mem_append.mp m with m | m
    · exact holdsInsert key (h.blooms r m)
    · cases List.mem_singleton.mp m
      exact insertHolds key (by rw [h.nbits]; decide) (by rw [h.nbits, h.bits])
  have bits : (b.bloom.insert key).bits.length = 128 :=
    (setBitsLength _ _).trans h.bits
  cases starts : b.keysSinceIndex == 0 with
  | true =>
    refine ⟨entries ++ [(key, b.buf.length)], ?_⟩
    constructor <;> simp only [TableBuilder.add, starts, place]
    case buf => simp [h.buf]
    case index => simp [h.index, encodeIndex]
    case sub => exact h.sub.append (List.Sublist.refl _)
    case first => simp [List.head?_append, h.first]
    case pending => simp
    case done => simp
    case start => simp
    case count => simp [h.count]
    case last => simp
    case nbits => exact h.nbits
    case bits => exact bits
    case hashes => exact h.hashes
    case blooms => exact blooms
  | false =>
    have some : records ≠ [] := fun e => by simp [h.start e] at starts
    refine ⟨entries, ?_⟩
    constructor <;> simp only [TableBuilder.add, starts, place]
    case buf => simp [h.buf]
    case index => simp [h.index]
    case sub => exact h.sub.trans (List.sublist_append_left _ _)
    case first =>
      rw [h.first, List.head?_append]
      obtain ⟨x, l, rfl⟩ := List.exists_cons_of_ne_nil some
      rfl
    case pending => simpa using h.sub
    case done => simp
    case start => simp
    case count => simp [h.count]
    case last => simp
    case nbits => exact h.nbits
    case bits => exact bits
    case hashes => exact h.hashes
    case blooms => exact blooms

theorem builtAll (records : List Rec) :
    ∃ entries, Built records entries (TableBuilder.addAll records) := by
  induction records using List.reverseRecOn with
  | nil => exact ⟨[], builtNew⟩
  | append_singleton records r ih =>
    obtain ⟨entries, h⟩ := ih
    have step : TableBuilder.addAll (records ++ [r]) =
        (TableBuilder.addAll records).add r.1 r.2 := by simp [TableBuilder.addAll]
    rw [step]
    exact builtAdd h r

theorem finalIndexSparse (records : List Rec) : ∃ entries, SparseIndex records entries ∧
    (TableBuilder.addAll records).finalIndex = encodeIndex entries := by
  obtain ⟨entries, h⟩ := builtAll records
  set b := TableBuilder.addAll records
  unfold TableBuilder.finalIndex
  by_cases c : b.numRecords > 0 ∧ b.lastRecordIndexed = false
  · rw [if_pos c]
    have last := h.last
    cases k : b.lastKey with
    | none =>
      rw [k, Option.map_none, List.getLast?_eq_none_iff] at last
      have none : records = [] := by
        cases records with
        | nil => rfl
        | cons r rest => simp [located] at last
      simp [h.count, none] at c
    | some lk =>
      rw [k, Option.map_some] at last
      have whole : located 0 records = (located 0 records).dropLast ++ [(lk, b.lastOffset)] := by
        conv => lhs; rw [← List.dropLast_append_getLast? _ last]
      refine ⟨entries ++ [(lk, b.lastOffset)], ⟨?_, ?_, ?_⟩, ?_⟩
      · rw [whole]
        exact (h.pending c.2).append (List.Sublist.refl _)
      · rw [List.head?_append, h.first]
        cases e : (located 0 records).head? with
        | none => simp [List.head?_eq_none_iff.mp e] at last
        | some x => rfl
      · rw [last]
        simp
      · rw [encodeIndexAppend, h.index]
        simp [encodeIndex]
  · rw [if_neg c]
    refine ⟨entries, ⟨h.sub, h.first, ?_⟩, h.index⟩
    cases i : b.lastRecordIndexed with
    | true => exact h.done i
    | false =>
      have none : records = [] := by
        rw [h.count] at c
        simpa [i] using c
      subst none
      rw [List.sublist_nil.mp h.sub]
      rfl

theorem indexEntryPositive (key : Bytes) (offset : Nat) : 12 ≤ (indexEntry key offset).length := by
  simp [indexEntry]
  omega

theorem indexDense (records : List Rec) : let b := TableBuilder.addAll records
    b.spacing = 16 ∧ b.keysSinceIndex < 16 ∧ 12 * records.length ≤ 16 * b.index.length ∧
      (b.keysSinceIndex ≠ 0 →
        12 * (records.length + 16) ≤ 16 * b.index.length + 12 * b.keysSinceIndex) := by
  induction records using List.reverseRecOn with
  | nil => simp [TableBuilder.addAll, TableBuilder.new, defaultSpacing]
  | append_singleton records r ih =>
    have step : TableBuilder.addAll (records ++ [r]) =
        (TableBuilder.addAll records).add r.1 r.2 := by simp [TableBuilder.addAll]
    dsimp only at ih ⊢
    rw [step]
    set b := TableBuilder.addAll records
    obtain ⟨spacing, small, whole, open_⟩ := ih
    have entry := indexEntryPositive r.1 b.buf.length
    by_cases starts : b.keysSinceIndex = 0
    · simp only [TableBuilder.add, starts, spacing, beq_self_eq_true, if_true, List.length_append,
        List.length_singleton]
      have one : (if 0 + 1 = 16 then 0 else 0 + 1) = 1 := rfl
      rw [one]
      exact ⟨trivial, by decide, by omega, fun _ => by omega⟩
    · have more := open_ starts
      have later : (b.keysSinceIndex == 0) = false := beq_eq_false_iff_ne.mpr starts
      simp only [TableBuilder.add, later, spacing, List.length_append, List.length_singleton,
        Bool.false_eq_true, if_false]
      by_cases last : b.keysSinceIndex + 1 = 16
      · rw [if_pos last]
        exact ⟨trivial, by decide, by omega, fun other => absurd rfl other⟩
      · rw [if_neg last]
        exact ⟨trivial, by omega, by omega, fun _ => by omega⟩

theorem indexLeFinal (b : TableBuilder) : b.index.length ≤ b.finalIndex.length := by
  unfold TableBuilder.finalIndex
  split
  · split <;> simp
  · exact le_rfl

end Builder

/-- No length of the table is too large for the field that stores it, but maybe a value's. -/
structure Room (records : List Rec) : Prop where
  keys : ∀ r ∈ records, r.1.length < 2 ^ 32
  index : (TableBuilder.addAll records).finalIndex.length < 2 ^ 32
  size : (tableFile records).length < 2 ^ 64

structure Fits (records : List Rec) : Prop extends Room records where
  values : ∀ r ∈ records, ∀ v, r.2 = some v → v.length < 2 ^ 32

instance (records : List Rec) : Decidable (Room records) :=
  decidable_of_iff ((∀ r ∈ records, r.1.length < 2 ^ 32) ∧
      (TableBuilder.addAll records).finalIndex.length < 2 ^ 32 ∧
      (tableFile records).length < 2 ^ 64)
    ⟨fun h => ⟨h.1, h.2.1, h.2.2⟩, fun h => ⟨h.keys, h.index, h.size⟩⟩

instance (records : List Rec) : Decidable (Fits records) :=
  decidable_of_iff (Room records ∧ ∀ r ∈ records, ∀ v, r.2 = some v → v.length < 2 ^ 32)
    ⟨fun h => ⟨h.1, h.2⟩, fun h => ⟨h.toRoom, h.values⟩⟩

theorem Room.capacity {records : List Rec} (h : Room records) :
    records.length * recordSize < 2 ^ 63 := by
  have dense := (indexDense records).2.2.1
  have final := indexLeFinal (TableBuilder.addAll records)
  have index := h.index
  unfold recordSize
  omega

structure Placed (records : List Rec) (r : TableReader) : Prop where
  bytes : encode records <+: r.file
  dataEnd : r.dataEnd = (encode records).length
  count : r.numRecords = records.length
  capacity : records.length * recordSize < 2 ^ 63
  index : SparseIndex records r.indexEntries
  room : ∀ f, r.bloom = some f → f.nbits ≠ 0 ∧ f.nbits ≤ 8 * f.bits.length
  blooms : ∀ f, r.bloom = some f → ∀ x ∈ records, f.Holds x.1
  keys : ∀ x ∈ records, x.1.length < 2 ^ 32

structure Opened (records : List Rec) (r : TableReader) : Prop extends Placed records r where
  values : ∀ x ∈ records, ∀ v, x.2 = some v → v.length < 2 ^ 32

theorem slice {file p x q : Bytes} (e : file = p ++ (x ++ q)) {offset n : Nat}
    (ho : p.length = offset) (hn : x.length = n) : (file.drop offset).take n = x := by
  subst e ho hn
  rw [List.drop_left, List.take_left]

theorem readSlice {file p x q : Bytes} (e : file = p ++ (x ++ q)) {offset n : Nat}
    (ho : p.length = offset) (hn : x.length = n) : readExact file offset n = .ok x := by
  have room : offset + n ≤ file.length := by
    subst e
    simp only [List.length_append]
    omega
  rw [readExact, if_pos (.inr room), slice e ho hn]
  rfl

section Open

theorem parseIndexEncoded {entries : List IndexEntry} (keys : ∀ e ∈ entries, e.1.length < 2 ^ 32)
    (offsets : ∀ e ∈ entries, e.2 < 2 ^ 64) {fuel : Nat} (enough : entries.length ≤ fuel) :
    parseIndexLoop fuel (encodeIndex entries) = .ok entries := by
  induction entries generalizing fuel with
  | nil => cases fuel <;> rfl
  | cons e entries ih =>
    obtain ⟨key, offset⟩ := e
    obtain _ | fuel := fuel
    · simp at enough
    have hk : fromLe (leBytes 4 key.length) = key.length :=
      fromLeFits (by simpa using keys _ List.mem_cons_self)
    have ho : fromLe (leBytes 8 offset) = offset :=
      fromLeFits (by simpa using offsets _ List.mem_cons_self)
    have rest := ih (fun e m => keys e (List.mem_cons_of_mem _ m))
      (fun e m => offsets e (List.mem_cons_of_mem _ m))
      (show entries.length ≤ fuel by simpa using enough)
    have raw : encodeIndex ((key, offset) :: entries) =
        leBytes 4 key.length ++ (key ++ (leBytes 8 offset ++ encodeIndex entries)) := by
      simp [encodeIndex, indexEntry]
    have some : encodeIndex ((key, offset) :: entries) ≠ [] := by
      intro none
      have := congrArg List.length (raw ▸ none)
      simp at this
    have head : (encodeIndex ((key, offset) :: entries)).take 4 = leBytes 4 key.length := by
      rw [raw, List.take_left' (by simp)]
    have body : (encodeIndex ((key, offset) :: entries)).drop 4 =
        key ++ (leBytes 8 offset ++ encodeIndex entries) := by
      rw [raw, List.drop_left' (by simp)]
    have long : ¬ (encodeIndex ((key, offset) :: entries)).length < 4 := by
      rw [raw]
      simp
    have room : ¬ (key ++ (leBytes 8 offset ++ encodeIndex entries)).length < key.length + 8 := by
      simp
    have last : (key ++ (leBytes 8 offset ++ encodeIndex entries)).drop (key.length + 8) =
        encodeIndex entries := by
      rw [← List.append_assoc, List.drop_left' (by simp)]
    simp only [parseIndexLoop, if_neg some, if_neg long, head, hk, body, if_neg room, last, rest,
      List.take_left, List.drop_left, List.take_left' (leBytesLength 8 offset), ho]
    rfl

theorem locatedBound {offset : Nat} {records : List Rec} {e : IndexEntry}
    (m : e ∈ located offset records) : e.2 ≤ offset + (encode records).length := by
  obtain ⟨a, r, b, rfl, rfl⟩ := locatedMem m
  simp

theorem recordPositive (key : Bytes) (value : Entry) : 9 ≤ (recordBytes key value).length := by
  simp [recordBytes]
  omega

theorem lengthLeEncode (records : List Rec) : records.length ≤ (encode records).length := by
  induction records with
  | nil => exact le_refl _
  | cons r rest ih =>
    have := recordPositive r.1 r.2
    simp only [encodeCons, List.length_append, List.length_cons]
    omega

/-- What `open` reads is decided by the footer, where the length of the index is cut to 32 bits. -/
theorem openFooter {records : List Rec} {cut : Nat}
    (low : (TableBuilder.addAll records).finalIndex.length % 2 ^ 32 = cut)
    (size : (encode records).length + cut < 2 ^ 64) : TableReader.openFile (tableFile records) = do
      let index ← readExact (tableFile records) (encode records).length cut
      let bloom ← readExact (tableFile records) ((encode records).length + cut) 136
      let bloom ← BloomFilter.fromBytes bloom
      let entries ← parseIndex index
      return ⟨tableFile records, records.length, some bloom, entries, (encode records).length⟩ := by
  obtain ⟨_, built⟩ := builtAll records
  rw [← built.buf] at size ⊢
  set b := TableBuilder.addAll records with hb
  have file : tableFile records = b.buf ++ b.finalIndex ++ b.bloom.toBytes ++ b.footer := rfl
  have below : cut < 2 ^ 32 := low ▸ Nat.mod_lt _ (by decide)
  have bloomLength : b.bloom.toBytes.length = 136 := by
    simp [BloomFilter.toBytes, built.bits]
  have footerLength : b.footer.length = 44 := by simp [TableBuilder.footer]
  have tooSmall : ¬ (tableFile records).length < footerLen := by
    rw [file]
    simp only [List.length_append, footerLength, footerLen]
    omega
  have footer : (tableFile records).drop ((tableFile records).length - footerLen) = b.footer := by
    have start : (tableFile records).length - footerLen =
        (b.buf ++ b.finalIndex ++ b.bloom.toBytes).length := by
      rw [file, List.length_append, footerLength]
      rfl
    rw [start, file, List.drop_left]
  have fields : b.footer = leBytes 8 b.buf.length ++ (leBytes 4 cut ++
      (leBytes 8 (b.buf.length + cut) ++ (leBytes 4 136 ++
      (leBytes 8 b.spacing ++ (leBytes 8 b.numRecords ++ (leBytes 4 magic ++ [])))))) := by
    simp only [TableBuilder.footer, low, bloomLength, List.append_assoc, List.append_nil]
  have f0 : fromLe (b.footer.take 8) = b.buf.length := by
    rw [fields, List.take_left' (leBytesLength 8 _), fromLeFits (by omega)]
  have f1 : fromLe ((b.footer.drop 8).take 4) = cut := by
    rw [slice fields (leBytesLength 8 _) (leBytesLength 4 _), fromLeFits (by simpa using below)]
  rw [← List.append_assoc] at fields
  have f2 : fromLe ((b.footer.drop 12).take 8) = b.buf.length + cut := by
    rw [slice fields (by simp) (leBytesLength 8 _), fromLeFits (by omega)]
  rw [← List.append_assoc] at fields
  have f3 : fromLe ((b.footer.drop 20).take 4) = 136 := by
    rw [slice fields (by simp) (leBytesLength 4 _), fromLeFits (by omega)]
  rw [← List.append_assoc, ← List.append_assoc] at fields
  have f5 : fromLe ((b.footer.drop 32).take 8) = records.length := by
    have le := lengthLeEncode records
    rw [slice fields (by simp) (leBytesLength 8 _), built.count, fromLeFits]
    rw [← built.buf] at le
    omega
  rw [← List.append_assoc] at fields
  have f6 : fromLe ((b.footer.drop 40).take 4) = magic := by
    rw [slice fields (by simp) (leBytesLength 4 _), fromLeFits (by decide)]
  unfold TableReader.openFile
  rw [if_neg tooSmall]
  simp only [footer, f0, f1, f2, f3, f5, f6, ne_eq, not_true, if_false]
  cases readExact (tableFile records) b.buf.length cut with
  | error e => rfl
  | ok index =>
    cases readExact (tableFile records) (b.buf.length + cut) 136 with
    | error e => rfl
    | ok bytes =>
      cases h : BloomFilter.fromBytes bytes with
      | error e => simp [h, Except.bind, bind, Functor.map, Except.map]
      | ok bloom => simp [h, Except.bind, bind, Functor.map, Except.map, pure, Except.pure]

theorem entriesLe (entries : List IndexEntry) :
    entries.length ≤ (encodeIndex entries).length := by
  induction entries with
  | nil => exact le_refl _
  | cons e entries ih =>
    have : encodeIndex (e :: entries) = indexEntry e.1 e.2 ++ encodeIndex entries :=
      List.flatMap_cons
    rw [this]
    simp [indexEntry]
    omega

theorem openPlaced {records : List Rec} (fits : Room records) :
    ∃ r, TableReader.openFile (tableFile records) = .ok r ∧ Placed records r := by
  obtain ⟨_, built⟩ := builtAll records
  obtain ⟨entries, sparse, index⟩ := finalIndexSparse records
  have small : (TableBuilder.addAll records).finalIndex.length % 2 ^ 32 =
    (TableBuilder.addAll records).finalIndex.length := Nat.mod_eq_of_lt fits.index
  have room := fits.index
  have bloomLength : (TableBuilder.addAll records).bloom.toBytes.length = 136 := by
    simp [BloomFilter.toBytes, built.bits]
  have size := fits.size
  have footer := openFooter small
  rw [← built.buf] at footer
  set b := TableBuilder.addAll records with hb
  have file : tableFile records = b.buf ++ b.finalIndex ++ b.bloom.toBytes ++ b.footer := rfl
  rw [file] at size
  simp only [List.length_append, bloomLength] at size
  have readIndex : readExact (tableFile records) b.buf.length b.finalIndex.length =
      .ok b.finalIndex :=
    readSlice (q := b.bloom.toBytes ++ b.footer) (by simp [file]) rfl rfl
  have readBloom : readExact (tableFile records) (b.buf.length + b.finalIndex.length) 136 =
      .ok b.bloom.toBytes :=
    readSlice (p := b.buf ++ b.finalIndex) (q := b.footer) (by simp [file]) (by simp) bloomLength
  have bloom : BloomFilter.fromBytes b.bloom.toBytes = .ok b.bloom :=
    fromToBytes _ (by rw [built.nbits]; decide) (by rw [built.hashes]; decide)
  have bound : ∀ e ∈ entries, e.1.length < 2 ^ 32 ∧ e.2 < 2 ^ 64 := by
    intro e m
    have m := sparse.sub.subset m
    have le := locatedBound m
    obtain ⟨a, r, c, rfl, rfl⟩ := locatedMem m
    rw [← built.buf] at le
    exact ⟨fits.keys r (by simp), by omega⟩
  have parsed : parseIndex b.finalIndex = .ok entries := by
    unfold parseIndex
    rw [index]
    exact parseIndexEncoded (fun e m => (bound e m).1) (fun e m => (bound e m).2)
      (entriesLe entries)
  have run := footer (by omega)
  rw [readIndex, readBloom] at run
  refine ⟨⟨tableFile records, records.length, some b.bloom, entries, b.buf.length⟩, ?_, ?_⟩
  · simpa [bloom, parsed, Except.bind, bind, pure, Except.pure] using run
  · constructor
    case bytes =>
      rw [file, List.append_assoc, List.append_assoc, built.buf]
      exact List.prefix_append _ _
    case dataEnd => exact congrArg List.length built.buf
    case count => rfl
    case capacity => exact fits.capacity
    case index => exact sparse
    case room =>
      intro f e
      cases e
      simp [built.nbits, built.bits]
    case blooms =>
      intro f e x m
      cases e
      exact built.blooms x m
    case keys => exact fits.keys

theorem openBuilt {records : List Rec} (fits : Fits records) :
    ∃ r, TableReader.openFile (tableFile records) = .ok r ∧ Opened records r := by
  obtain ⟨r, run, placed⟩ := openPlaced fits.toRoom
  exact ⟨r, run, placed, fits.values⟩

end Open

section Read
variable {records : List Rec} {r : TableReader}

theorem recordCut {file p q : Bytes} {key : Bytes} {value : Entry}
    (e : file = p ++ (recordBytes key value ++ q)) (hk : key.length < 2 ^ 32) {n : Nat}
    (h : p.length < n) : TableReader.readRecord ⟨file, c, f, i, n⟩ p.length =
      .ok (some ((key, value.map (fun v => v.take (v.length % 2 ^ 32))),
        p.length + 9 + key.length + value.elim 0 List.length % 2 ^ 32)) := by
  have four : ∀ n, fromLe (leBytes 4 n) = n % 2 ^ 32 := fun n => fromLeBytes 4 n
  have fields : file = p ++ ((leBytes 4 key.length ++ leBytes 4 (value.elim 0 List.length)) ++
      ([if value.isSome then 0 else 1] ++ (key ++ (value.getD [] ++ q)))) := by
    simp [e, recordBytes]
  have past : ¬ p.length ≥ n := by omega
  have long : ¬ file.length < p.length + 8 := by
    rw [fields]
    simp
    omega
  have lens := slice fields rfl (n := 8) (by simp)
  have l1 : fromLe ((leBytes 4 key.length ++ leBytes 4 (value.elim 0 List.length)).take 4) =
      key.length := by rw [List.take_left' (leBytesLength 4 _), four, Nat.mod_eq_of_lt hk]
  have l2 : fromLe ((leBytes 4 key.length ++ leBytes 4 (value.elim 0 List.length)).drop 4) =
      value.elim 0 List.length % 2 ^ 32 := by rw [List.drop_left' (leBytesLength 4 _), four]
  rw [← List.append_assoc] at fields
  have flags := readSlice fields (show _ = p.length + 8 by simp) (show _ = 1 from rfl)
  rw [← List.append_assoc] at fields
  have keys := readSlice fields (show _ = p.length + 9 by simp) rfl
  rw [← List.append_assoc] at fields
  unfold TableReader.readRecord
  simp only [if_neg past, if_neg long, lens, l1, l2, flags, keys]
  cases value with
  | none => simp [bind, Except.bind, pure, Except.pure]
  | some v =>
    set m := v.length % 2 ^ 32 with hm
    have le : m ≤ v.length := Nat.mod_le _ _
    have split : file = p ++ (leBytes 4 key.length ++ leBytes 4 v.length) ++ [0] ++ key ++
        (v.take m ++ (v.drop m ++ q)) := by
      rw [fields, ← List.append_assoc (v.take m), List.take_append_drop]
      rfl
    have values : readExact file (p.length + 9 + key.length) m = .ok (v.take m) :=
      readSlice split (by simp; omega) (by simp [le])
    have live : ¬ ([0] : Bytes) = [1] := by decide
    simp only [bind, Except.bind, Option.isSome_some, if_true, if_neg live, Option.elim_some, ← hm,
      values, Option.map_some]
    rfl

theorem recordFields {file p q : Bytes} {key : Bytes} {value : Entry}
    (e : file = p ++ (recordBytes key value ++ q)) (hk : key.length < 2 ^ 32)
    (hv : ∀ v, value = some v → v.length < 2 ^ 32) {n : Nat} (h : p.length < n) :
    TableReader.readRecord ⟨file, c, f, i, n⟩ p.length =
      .ok (some ((key, value), p.length + (recordBytes key value).length)) := by
  rw [recordCut e hk h]
  cases value with
  | none =>
    simp [recordBytes]
    omega
  | some v =>
    have whole : v.length % 2 ^ 32 = v.length := Nat.mod_eq_of_lt (hv v rfl)
    simp only [Option.map_some, Option.elim_some, whole, List.take_length, recordBytes]
    simp
    omega

theorem readAt (h : Opened records r) {a b : List Rec} {x : Rec} (split : records = a ++ x :: b) :
    r.readRecord (encode a).length = .ok (some (x, (encode (a ++ [x])).length)) := by
  obtain ⟨file, count, bloom, entries, stop⟩ := r
  obtain ⟨rest, bytes⟩ : encode records <+: file := h.bytes
  have inside : (encode a).length < stop := by
    have := recordPositive x.1 x.2
    rw [show stop = _ from h.dataEnd, split]
    simp
    omega
  have member : x ∈ records := by simp [split]
  have place : file = encode a ++ (recordBytes x.1 x.2 ++ (encode b ++ rest)) := by
    rw [← bytes, split]
    simp
  have read := recordFields (c := count) (f := bloom) (i := entries) place (h.keys x member)
    (h.values x member) inside
  simpa using read

theorem readEnd (h : Opened records r) : r.readRecord (encode records).length = .ok none := by
  unfold TableReader.readRecord
  rw [h.dataEnd, if_pos le_rfl]
  rfl

theorem lookupRest (h : Opened records r) (ordered : Ordered records) {a b : List Rec}
    (split : records = a ++ b) (key : Bytes) {fuel : Nat} (enough : b.length ≤ fuel) :
    r.lookupLoop key fuel (encode a).length = .ok (b.lookup key) := by
  induction b generalizing a fuel with
  | nil =>
    cases fuel with
    | zero => rfl
    | succ fuel =>
      have stop := readEnd h
      rw [split, List.append_nil] at stop
      simp only [TableReader.lookupLoop, stop]
      rfl
  | cons x b ih =>
    obtain _ | fuel := fuel
    · simp at enough
    obtain ⟨k, v⟩ := x
    have next := ih (a := a ++ [(k, v)]) (by simp [split])
      (show b.length ≤ fuel by simpa using enough)
    simp only [TableReader.lookupLoop, readAt h split]
    rw [lookupCons]
    by_cases same : key = k
    · simp [same, bind, Except.bind, pure, Except.pure]
    · by_cases before : key < k
      · have absent : b.lookup key = none := by
          refine lookupNone.mpr (fun e m eq => ?_)
          rw [split] at ordered
          have above := (OrderedEntries.orderedCons.mp
            (OrderedEntries.Ordered.append.mp ordered).2.1).1 e m
          exact absurd (eq ▸ above) (not_lt.mpr (le_of_lt before))
        simp [same, Ne.symm same, before, absent, bind, Except.bind, pure, Except.pure]
      · simp only [same, Ne.symm same, before, bind, Except.bind, if_false]
        exact next

theorem blockStart (h : Placed records r) (ordered : Ordered records) (key : Bytes) :
    ∃ a b, records = a ++ b ∧ (∀ x ∈ a, x.1 < key) ∧
      TableReader.blockOffsetFor r.indexEntries key = (encode a).length := by
  have sorted : (r.indexEntries.map Prod.fst).Pairwise (· < ·) := by
    have all : ((located 0 records).map Prod.fst).Pairwise (· < ·) := by
      rw [locatedKeys]
      exact List.pairwise_map.mpr ordered
    exact all.sublist (h.index.sub.map _)
  have mono : r.indexEntries.Pairwise
      (fun a b => decide (b.1 ≤ key) → decide (a.1 ≤ key)) := by
    refine (List.pairwise_map.mp sorted).imp (fun lt => ?_)
    simpa using fun le => (le_of_lt lt).trans le
  obtain ⟨bound, pass, -⟩ := searchList mono
  unfold TableReader.blockOffsetFor
  dsimp only at bound pass ⊢
  set lo := search (fun mid => (r.indexEntries[mid]?).any (fun e => decide (e.1 ≤ key)))
    r.indexEntries.length 0 r.indexEntries.length
  split
  · refine ⟨[], records, rfl, by simp, ?_⟩
    rw [h.index.first]
    clear * -
    cases records <;> rfl
  · rename_i some
    have lt : lo - 1 < r.indexEntries.length := by omega
    have member := List.getElem_mem lt
    have le : r.indexEntries[lo - 1].1 ≤ key := by
      have m : r.indexEntries[lo - 1] ∈ r.indexEntries.take lo :=
        List.mem_take_iff_getElem.mpr ⟨lo - 1, by omega, rfl⟩
      simpa using pass _ m
    obtain ⟨a, x, b, split, place⟩ := locatedMem (h.index.sub.subset member)
    refine ⟨a, x :: b, split, fun y m => ?_, ?_⟩
    · rw [split] at ordered
      have below := (OrderedEntries.Ordered.append.mp ordered).2.2 y m x List.mem_cons_self
      rw [place] at le
      exact lt_of_lt_of_le below le
    · rw [List.getElem?_eq_getElem lt, place]
      simp

theorem lookupCut {key : Bytes} {v : Bytes} (h : Placed [(key, some v)] r) :
    r.lookup key = .ok (some (some (v.take (v.length % 2 ^ 32)))) := by
  have length : 1 ≤ r.file.length := by
    have := h.bytes.length_le
    have := lengthLeEncode [(key, some v)]
    simp only [List.length_singleton] at this
    omega
  have start : TableReader.blockOffsetFor r.indexEntries key = 0 := by
    obtain ⟨a, b, split, below, start⟩ := blockStart h (List.pairwise_singleton _ _) key
    have none : a = [] := by
      rcases List.append_eq_singleton_iff.mp split.symm with ⟨none, -⟩ | ⟨all, -⟩
      · exact none
      · exact absurd (below (key, some v) (by simp [all])) (lt_irrefl key)
    rw [start, none]
    rfl
  have first : r.readRecord 0 = .ok (some ((key, some (v.take (v.length % 2 ^ 32))),
      9 + key.length + v.length % 2 ^ 32)) := by
    obtain ⟨file, count, bloom, entries, stop⟩ := r
    obtain ⟨rest, bytes⟩ : encode [(key, some v)] <+: file := h.bytes
    have inside : ([] : Bytes).length < stop := by
      have := recordPositive key (some v)
      rw [show stop = _ from h.dataEnd]
      simp
      omega
    have place : file = [] ++ (recordBytes key (some v) ++ rest) := by
      rw [← bytes]
      simp
    have read := recordCut (c := count) (f := bloom) (i := entries) place
      (h.keys _ List.mem_cons_self) inside
    rw [List.length_nil, Nat.zero_add] at read
    exact read
  have scan : r.lookupLoop key r.file.length 0 = .ok (some (some (v.take (v.length % 2 ^ 32)))) := by
    obtain ⟨n, fuel⟩ : ∃ n, r.file.length = n + 1 := ⟨_, (Nat.succ_pred (by omega)).symm⟩
    rw [fuel]
    simp only [TableReader.lookupLoop, first]
    simp [bind, Except.bind, pure, Except.pure]
  unfold TableReader.lookup
  rw [start]
  cases bloom : r.bloom with
  | none => exact scan
  | some f =>
    simp only [containsOfHolds (h.blooms f bloom _ List.mem_cons_self)]
    exact scan

theorem lookupExact (h : Opened records r) (ordered : Ordered records) (key : Bytes) :
    r.lookup key = .ok (records.lookup key) := by
  have scan : r.lookupLoop key r.file.length
      (TableReader.blockOffsetFor r.indexEntries key) = .ok (records.lookup key) := by
    obtain ⟨a, b, split, below, start⟩ := blockStart h.toPlaced ordered key
    have enough : b.length ≤ r.file.length := by
      have count := lengthLeEncode records
      have file := h.bytes.length_le
      rw [split] at count file
      simp at count file
      omega
    have skip : records.lookup key = b.lookup key := by
      have absent : a.lookup key = none := lookupNone.mpr (fun e m => ne_of_lt (below e m))
      rw [split, List.lookup_append, absent, Option.none_or]
    rw [start, lookupRest h ordered split key enough, skip]
  unfold TableReader.lookup
  cases bloom : r.bloom with
  | none => exact scan
  | some f =>
    cases found : records.lookup key with
    | some v =>
      have holds := h.blooms f bloom _ (OrderedEntries.lookupMem found)
      simp only [containsOfHolds holds]
      rw [← found]
      exact scan
    | none =>
      obtain ⟨answer, contains⟩ := containsTotal (h.room f bloom).1 (h.room f bloom).2 key
      simp only [contains]
      cases answer
      · rfl
      · rw [← found]
        exact scan

theorem iterRest (h : Opened records r) {a b : List Rec} (split : records = a ++ b) :
    r.iterLoop b.length (encode a).length = .ok b := by
  induction b generalizing a with
  | nil => rfl
  | cons x b ih =>
    have next := ih (a := a ++ [x]) (by simp [split])
    simp only [List.length_cons, TableReader.iterLoop, readAt h split, bind, Except.bind, next]
    rfl

theorem iterExact (h : Opened records r) : r.iter = .ok records := by
  unfold TableReader.iter withCapacity
  rw [h.count, if_pos h.capacity]
  exact iterRest h (a := []) rfl

theorem keyBoundsExact (h : Opened records r) (some : records ≠ []) :
    r.keyBounds = .some ((records.head some).1, (records.getLast some).1) := by
  have keys := locatedKeys 0 records
  have first : r.indexEntries.head?.map Prod.fst = records.head?.map Prod.fst := by
    rw [h.index.first, ← List.head?_map, keys, List.head?_map]
  have last : r.indexEntries.getLast?.map Prod.fst = records.getLast?.map Prod.fst := by
    rw [h.index.last, ← List.getLast?_map, keys, List.getLast?_map]
  rw [List.head?_eq_some_head some] at first
  rw [List.getLast?_eq_some_getLast some] at last
  obtain ⟨x, hx, ex⟩ := Option.map_eq_some_iff.mp first
  obtain ⟨y, hy, ey⟩ := Option.map_eq_some_iff.mp last
  simp [TableReader.keyBounds, hx, hy, ex, ey]

end Read
end MyLsmDb.Sstable
