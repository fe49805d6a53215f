import MyLsmDb.KeyValue
import MyLsmDb.OrderedValue
import MyLsmDb.TableSet

/-! The view of a transaction: its pending writes laid over the committed store. A scan
merges the two lazily, with one record of each side in hand. -/
namespace MyLsmDb
open ByteOrder (Bytes)
open Effect
open Iterator
open OrderedEntries

/-- An iterator that may fail, and what the loops over it need at most. -/
class Supply (γ : Type) where
  next : γ → Fallible (Option Rec × γ)
  most : γ → Nat

export Supply (next most)

instance : Supply (MergeIter Source) where
  next m := m.next
  most m := MergeIter.budget m.sources

section Collecting
variable {γ : Type} [Supply γ]

def collectLoop : Nat → γ → Fallible (List Rec)
  | 0, _ => pure []
  | fuel + 1, s => do
    match ← next s with
    | (none, _) => return []
    | (some item, s) => return item :: (← collectLoop fuel s)

def collect (s : γ) : Fallible (List Rec) := collectLoop (most s) s

/-- Nothing comes any more, however often it is asked. -/
def Ended (s : γ) : Prop :=
  ∃ inv : γ → Prop, inv s ∧ ∀ t, inv t → ∃ t', next t = .ok (none, t') ∧ inv t'

/-- The records of `l` come one by one, then nothing any more. -/
def Gives : List Rec → γ → Prop
  | [], s => Ended s
  | r :: l, s => ∃ s', next s = .ok (some r, s') ∧ Gives l s'

theorem Ended.step {s : γ} (h : Ended s) : ∃ s', next s = .ok (none, s') ∧ Ended s' := by
  obtain ⟨inv, here, stays⟩ := h
  obtain ⟨s', run, there⟩ := stays s here
  exact ⟨s', run, inv, there, stays⟩

theorem endedIdle {s : γ} (run : next s = .ok (none, s)) : Ended s := by
  refine ⟨(· = s), rfl, fun t same => ⟨s, ?_, rfl⟩⟩
  rw [same, run]

theorem Gives.collect {l : List Rec} {s : γ} (h : Gives l s) (enough : l.length ≤ most s) :
    MyLsmDb.collect s = .ok l := by
  have loop : ∀ (l : List Rec) (fuel : Nat) (s : γ), Gives l s → l.length ≤ fuel →
      collectLoop fuel s = .ok l := by
    intro l fuel
    induction fuel generalizing l with
    | zero =>
      intro s _ none
      rw [List.length_eq_zero_iff.mp (Nat.le_zero.mp none)]
      rfl
    | succ fuel ih =>
      intro s h enough
      cases l with
      | nil =>
        obtain ⟨s', run, -⟩ := Ended.step h
        simp only [collectLoop, run]
        rfl
      | cons r l =>
        obtain ⟨s', run, rest⟩ := h
        simp only [collectLoop, run, bind, Except.bind, ih l s' rest (by simpa using enough)]
        rfl
  exact loop l _ s h enough

end Collecting

section Merging
variable {σ : Type} [ScanSource σ] [LawfulSource σ]

theorem givesMerging {m : MergeIter Source} {layers : List (List Rec)} (primed : m.primed = true)
    (h : Merging (fun _ => True) layers m.sources m.heap) (ordered : ∀ l ∈ layers, Ordered l) :
    Gives (flatten layers) m := by
  induction size : total layers using Nat.strong_induction_on generalizing m layers with
  | _ n ih =>
    rcases nextMerging primed h ordered with
      ⟨run, none⟩ | ⟨item, m', layers', run, primed', h', ordered', split, less⟩
    · rw [none]
      exact endedIdle run
    · rw [split]
      exact ⟨m', run, ih _ (size ▸ less) primed' h' ordered' rfl⟩

theorem Gives.unprimed {l : List Rec} {m m' : MergeIter Source} (prime : m.prime = .ok m')
    (again : m'.prime = .ok m') (h : Gives l m') : Gives l m := by
  have same : next m = next m' := by
    change MergeIter.next m = MergeIter.next m'
    simp only [MergeIter.next, prime, again]
  cases l with
  | nil =>
    obtain ⟨s, run, inv, here, stays⟩ := Ended.step h
    refine ⟨fun t => t = m ∨ inv t, .inl rfl, fun t ht => ?_⟩
    rcases ht with rfl | ht
    · exact ⟨s, same.trans run, .inr here⟩
    · obtain ⟨t', run, there⟩ := stays t ht
      exact ⟨t', run, .inr there⟩
  | cons r l =>
    obtain ⟨s, run, rest⟩ := h
    exact ⟨s, same.trans run, rest⟩

theorem streamsGive {l : List Rec} {m : MergeIter Source} (h : Streams l m) :
    Gives l m ∧ l.length ≤ most m := by
  obtain ⟨layers, sources, rfl, holds, ordered, rfl⟩ := h
  obtain ⟨sources', heap', prime, full⟩ := primeExact holds
  refine ⟨(givesMerging (m := ⟨sources', heap', true⟩) rfl full ordered).unprimed prime rfl, ?_⟩
  exact (flattenLength layers).trans (totalBudget holds)

end Merging

/-- The lazy merge of a committed stream with the pending writes behind it. -/
structure TxScan (γ : Type) where
  committed : γ
  pending : List Rec
  pendingBuf : Option Rec
  committedBuf : Option Rec
  start : Option Bytes
  stop : Option Bytes

namespace TxScan
variable {γ : Type}

def inRange (s : TxScan γ) (key : Bytes) : Bool := between s.start s.stop key

def skipPending (s : TxScan γ) : List Rec → Option Rec × List Rec
  | [] => (none, [])
  | r :: rest => if !s.inRange r.1 then s.skipPending rest else (some r, rest)

def loadPending (s : TxScan γ) : TxScan γ :=
  if s.pendingBuf.isSome then s
  else
    let (pendingBuf, pending) := s.skipPending s.pending
    { s with pendingBuf, pending }

theorem skipExact (s : TxScan γ) (l : List Rec) :
    (s.skipPending l).1 = (rangeOf s.start s.stop l).head? ∧
      rangeOf s.start s.stop (s.skipPending l).2 = (rangeOf s.start s.stop l).tail := by
  induction l with
  | nil => exact ⟨rfl, rfl⟩
  | cons r l ih =>
    unfold skipPending
    by_cases inside : between s.start s.stop r.1
    · have kept : rangeOf s.start s.stop (r :: l) = r :: rangeOf s.start s.stop l :=
        List.filter_cons_of_pos inside
      rw [inRange, if_neg (by simp [inside]), kept]
      exact ⟨rfl, rfl⟩
    · have dropped : rangeOf s.start s.stop (r :: l) = rangeOf s.start s.stop l :=
        List.filter_cons_of_neg inside
      rw [inRange, if_pos (by simp [inside]), dropped]
      exact ih

theorem loadPendingExact {p : List Rec} {s : TxScan γ}
    (pending : s.pendingBuf.toList ++ rangeOf s.start s.stop s.pending = p) :
    ∃ rest, s.loadPending = { s with pendingBuf := p.head?, pending := rest } ∧
      rangeOf s.start s.stop rest = p.tail := by
  subst pending
  unfold loadPending
  cases buf : s.pendingBuf with
  | some r =>
    refine ⟨s.pending, ?_, rfl⟩
    simp only [Option.isSome_some, if_true]
    rw [Option.toList_some, List.singleton_append, List.head?_cons, ← buf]
  | none =>
    obtain ⟨head, tail⟩ := skipExact s s.pending
    refine ⟨(s.skipPending s.pending).2, ?_, tail⟩
    simp only [Option.isSome_none, Bool.false_eq_true, if_false, head]
    rfl

variable [Supply γ]

def loadCommitted (s : TxScan γ) : Fallible (TxScan γ) :=
  if s.committedBuf.isSome then pure s
  else do
    let (committedBuf, committed) ← next s.committed
    return { s with committedBuf, committed }

def next (s : TxScan γ) : Fallible (Option Rec × TxScan γ) := do
  let s ← s.loadPending.loadCommitted
  let taken := { s with committedBuf := none }
  match s.committedBuf, s.pendingBuf with
  | none, none => return (none, taken)
  | none, some p => return (some p, { taken with pendingBuf := none })
  | some c, none => return (some c, taken)
  | some c, some p =>
    match cmp p.1 c.1 with
    -- pending hides what is committed, also with a tombstone
    | .eq => return (some p, { taken with pendingBuf := none })
    | .lt => return (some p, { taken with committedBuf := some c, pendingBuf := none })
    | .gt => return (some c, taken)

instance : Supply (TxScan γ) where
  next := TxScan.next
  most s := most s.committed + s.pending.length + 2

/-- What the scan has still to give: `p` is pending, `c` is committed. -/
structure Held (p c : List Rec) (s : TxScan γ) : Prop where
  pending : s.pendingBuf.toList ++ rangeOf s.start s.stop s.pending = p
  committed : ∃ l, s.committedBuf.toList ++ l = c ∧ Gives l s.committed

variable {p c : List Rec} {s : TxScan γ}

theorem loadCommittedExact (committed : ∃ l, s.committedBuf.toList ++ l = c ∧ Gives l s.committed) :
    ∃ rest, s.loadCommitted = .ok { s with committedBuf := c.head?, committed := rest } ∧
      Gives c.tail rest := by
  obtain ⟨l, rfl, gives⟩ := committed
  unfold loadCommitted
  cases buf : s.committedBuf with
  | some r =>
    refine ⟨s.committed, ?_, gives⟩
    simp only [Option.isSome_some, if_true]
    rw [Option.toList_some, List.singleton_append, List.head?_cons, ← buf]
    rfl
  | none =>
    simp only [Option.isSome_none, Bool.false_eq_true, if_false]
    cases l with
    | nil =>
      obtain ⟨rest, run, ended⟩ := Ended.step gives
      refine ⟨rest, ?_, ended⟩
      simp only [run]
      rfl
    | cons r l =>
      obtain ⟨rest, run, gives⟩ := gives
      refine ⟨rest, ?_, gives⟩
      simp only [run]
      rfl

theorem Held.step (h : Held p c s) (hp : Ordered p) (hc : Ordered c) :
    (overlay p c = [] ∧ ∃ t, next s = .ok (none, t) ∧ Held [] [] t) ∨
    ∃ r t p' c', next s = .ok (some r, t) ∧ Held p' c' t ∧ overlay p c = r :: overlay p' c' ∧
      p'.Sublist p ∧ c'.Sublist c ∧ p'.length + c'.length < p.length + c.length := by
  obtain ⟨pending, loaded, tail⟩ := loadPendingExact h.pending
  obtain ⟨committed, run, gives⟩ :=
    loadCommittedExact (s := { s with pendingBuf := p.head?, pending }) h.committed
  unfold next
  rw [loaded, run]
  simp only [bind, Except.bind]
  cases p with
  | nil =>
    cases c with
    | nil => exact .inl ⟨rfl, _, rfl, tail, [], rfl, gives⟩
    | cons y c =>
      exact .inr ⟨y, _, [], c, rfl, ⟨tail, c, rfl, gives⟩, rfl, .slnil, List.sublist_cons_self y c,
        by simp⟩
  | cons x p =>
    cases c with
    | nil =>
      refine .inr ⟨x, _, p, [], rfl, ⟨tail, [], rfl, gives⟩, ?_, List.sublist_cons_self x p, .slnil,
        by simp⟩
      exact overlayUpper hp (fun _ m => nomatch m)
    | cons y c =>
      obtain ⟨less, equal, more⟩ := Value.cmpBytes x.1 y.1
      simp only [List.head?_cons]
      cases order : cmp x.1 y.1 with
      | lt =>
        refine .inr ⟨x, _, p, y :: c, rfl, ⟨tail, c, rfl, gives⟩, ?_, List.sublist_cons_self x p,
          List.Sublist.refl _, by simp⟩
        refine overlayUpper hp (fun e m => ?_)
        rcases List.mem_cons.mp m with rfl | m
        · exact less.mp order
        · exact (less.mp order).trans ((orderedCons.mp hc).1 e m)
      | eq =>
        refine .inr ⟨x, _, p, c, rfl, ⟨tail, c, rfl, gives⟩, ?_, List.sublist_cons_self x p,
          List.sublist_cons_self y c, by simp; omega⟩
        exact overlaySame (equal.mp order) hp
      | gt =>
        refine .inr ⟨y, _, x :: p, c, rfl, ⟨?_, c, rfl, gives⟩, ?_, List.Sublist.refl _,
          List.sublist_cons_self y c, by simp⟩
        · change x :: rangeOf s.start s.stop pending = x :: p
          rw [tail]
          rfl
        · refine overlayLower (fun e m => ?_)
          rcases List.mem_cons.mp m with rfl | m
          · exact more.mp order
          · exact (more.mp order).trans ((orderedCons.mp hp).1 e m)

theorem Held.gives (h : Held p c s) (hp : Ordered p) (hc : Ordered c) : Gives (overlay p c) s := by
  induction size : p.length + c.length using Nat.strong_induction_on generalizing p c s with
  | _ n ih =>
    rcases h.step hp hc with ⟨none, t, run, held⟩ | ⟨r, t, p', c', run, held, split, sp, sc, less⟩
    · rw [none]
      refine ⟨fun t => t = s ∨ Held [] [] t, .inl rfl, fun t' which => ?_⟩
      rcases which with rfl | there
      · exact ⟨t, run, .inr held⟩
      · rcases there.step List.Pairwise.nil List.Pairwise.nil with
          ⟨-, u, run, held⟩ | ⟨_, _, _, _, _, _, some_, _⟩
        · exact ⟨u, run, .inr held⟩
        · cases some_
    · rw [split]
      exact ⟨t, run, ih _ (size ▸ less) held (hp.sublist sp) (hc.sublist sc) rfl⟩

end TxScan

/-- The store as a transaction sees it. -/
structure TxMutator where
  db : Database
  pending : OrderedMap Bytes Entry

abbrev TxM := Act Error TxMutator

/-- The committed map with the pending writes over it. -/
def overlaid (pending : OrderedMap Bytes Entry) (v : Bytes → Option Bytes) (key : Bytes) :
    Option Bytes := (pending.get key).elim (v key) id

namespace TxMutator

def onDb {α : Type} (x : DbM α) : TxM α := zoom TxMutator.db (fun db m => { m with db }) x

def get (key : Bytes) : TxM (Option Bytes) := do
  match (← MonadState.get).pending.get key with
  | some value => return value
  | none => onDb (Database.get key)

def scan (start stop : Option Bytes) : TxM (List Rec) := do
  let committed ← onDb (Database.scanStream start stop)
  let pending := (← MonadState.get).pending
  let tx : TxScan (MergeIter Source) := ⟨committed, pending.entries, none, none, start, stop⟩
  lift (collect tx.loadPending)

def write (key : Bytes) (value : Entry) : TxM Unit :=
  modify (fun m => { m with pending := m.pending.insert key value })

def machine : KeyValue.Machine Error Bytes Bytes TxMutator := ⟨get, scan, write⟩

variable {db : Database} {pending : OrderedMap Bytes Entry}

theorem getExact (cached : Cached db) (h : Readable db.disk.tables db.manifest) (key : Bytes) :
    Completes (get key) ⟨db, pending⟩ (fun found m =>
      found = overlaid pending (db.memtable.over (tablesView db.disk.tables db.manifest)) key ∧
        m.pending = pending ∧ Reads db m.db) := by
  unfold get
  refine endsBindGet ?_
  unfold overlaid
  cases mine : pending.get key with
  | some value => exact ⟨rfl, rfl, .refl cached⟩
  | none =>
    refine endsZoom ((Database.getExact cached h key).mono ?_ (fun _ _ => False.elim))
    intro found db' done
    exact ⟨done.1, rfl, done.2⟩

theorem scanExact (cached : Cached db) (h : Readable db.disk.tables db.manifest)
    (start stop : Option Bytes) : Completes (scan start stop) ⟨db, pending⟩ (fun rows m =>
      rows = rangeOf start stop (overlay pending.entries (Database.entries db)) ∧
        m.pending = pending ∧ Reads db m.db) := by
  have ordered : Ordered (Database.entries db) := flattenOrdered _
  rw [← overlayRange start stop ordered]
  have p : Ordered (rangeOf start stop pending.entries) := rangeOrdered pending.ordered
  have c : Ordered (rangeOf start stop (Database.entries db)) := rangeOrdered ordered
  unfold scan
  have stream : Completes (onDb (Database.scanStream start stop)) ⟨db, pending⟩ (fun merge m =>
      Streams (rangeOf start stop (Database.entries db)) merge ∧ m.pending = pending ∧
        Reads db m.db) :=
    endsZoom ((Database.scanStreamExact cached h start stop).mono
      (fun _ _ done => ⟨done.1, rfl, done.2⟩) (fun _ _ => False.elim))
  refine stream.bind ?_
  intro merge m done
  obtain ⟨streams, same, reads⟩ := done
  refine endsBindGet ?_
  rw [same]
  obtain ⟨gives, enough⟩ := streamsGive streams
  set tx : TxScan (MergeIter Source) := ⟨merge, pending.entries, none, none, start, stop⟩ with htx
  obtain ⟨rest, loaded, tail⟩ := TxScan.loadPendingExact (s := tx) rfl
  have held : TxScan.Held (rangeOf start stop pending.entries)
      (rangeOf start stop (Database.entries db)) tx.loadPending := by
    rw [loaded]
    refine ⟨?_, _, rfl, gives⟩
    change ((rangeOf start stop pending.entries).head?).toList ++ rangeOf start stop rest = _
    rw [tail]
    cases rangeOf start stop pending.entries <;> rfl
  have room : (overlay (rangeOf start stop pending.entries)
      (rangeOf start stop (Database.entries db))).length ≤ most tx.loadPending := by
    have length := overlayLength (rangeOf start stop pending.entries)
      (rangeOf start stop (Database.entries db))
    have left : (rangeOf start stop pending.entries).length ≤ rest.length + 1 := by
      have kept : (rangeOf start stop rest).length ≤ rest.length := List.length_filter_le _ _
      have cut : (rangeOf start stop rest).length =
          (rangeOf start stop pending.entries).length - 1 :=
        (congrArg List.length tail).trans List.length_tail
      omega
    rw [loaded]
    change _ ≤ most merge + rest.length + 2
    omega
  change Ends (lift (collect tx.loadPending)) m _ _
  rw [(held.gives p c).collect room]
  exact ⟨rfl, same, reads⟩

theorem lookupOverlaid {v : Bytes → Option Bytes} {c : List Rec} (h : Ordered c)
    (reads : ∀ key, (c.lookup key).join = v key) (key : Bytes) :
    ((overlay pending.entries c).lookup key).join = overlaid pending v key := by
  rw [lookupOverlay h]
  unfold overlaid OrderedMap.get
  rw [← reads key]
  cases pending.entries.lookup key <;> rfl

end TxMutator
end MyLsmDb
