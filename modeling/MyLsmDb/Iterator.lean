import MyLsmDb.SstableExact

/-! The lazy merge of sorted sources, the newest first: a heap of cursors decides which
source comes next, and older sources are moved past a key that a newer one has given. -/
namespace MyLsmDb.Iterator
open ByteOrder (Bytes)
open OrderedEntries
open Sstable (TableReader Opened encode)

class ScanSource (σ : Type) where
  peek : σ → Fallible (Option Rec × σ)
  advance : σ → Fallible σ
  /-- What the loops over the source need at most. -/
  remaining : σ → Nat

export ScanSource (peek advance remaining)

structure VecSource where
  items : List Rec
  pos : Nat
  deriving DecidableEq, Repr

instance : ScanSource VecSource where
  peek s := pure (s.items[s.pos]?, s)
  advance s := pure { s with pos := s.pos + 1 }
  remaining s := s.items.length - s.pos

/-- `[start, stop)` of a table, read from the block where `start` would be. -/
structure TableIter where
  reader : TableReader
  pos : Nat
  start : Option Bytes
  stop : Option Bytes
  cur : Option (Option Rec)
  deriving DecidableEq, Repr

namespace TableIter

def fromReader (reader : TableReader) (start stop : Option Bytes) : TableIter :=
  let offset := match start with
    | some s => TableReader.blockOffsetFor reader.indexEntries s
    | none => reader.indexEntries.head?.elim 0 Prod.snd
  ⟨reader, offset, start, stop, none⟩

def loadLoop (reader : TableReader) (start stop : Option Bytes) :
    Nat → Nat → Fallible (Option Rec × Nat)
  | 0, pos => pure (none, pos)
  | fuel + 1, pos => do
    match ← reader.readRecord pos with
    | none => return (none, pos)
    | some ((k, v), next) =>
      if stop.any (fun e => decide (e ≤ k)) then return (none, next)
      else if start.any (fun s => decide (k < s)) then loadLoop reader start stop fuel next
      else return (some (k, v), next)

def load (it : TableIter) : Fallible TableIter := do
  let (cur, pos) ← loadLoop it.reader it.start it.stop it.reader.file.length it.pos
  return { it with cur := some cur, pos }

end TableIter

instance : ScanSource TableIter where
  peek it := do
    let it ← if it.cur.isNone then it.load else pure it
    return (it.cur.join, it)
  advance it := pure { it with cur := none }
  remaining it := it.reader.dataEnd - it.pos + 1

/-- `Box<dyn ScanSource>` -/
inductive Source where
  | vec (s : VecSource)
  | table (it : TableIter)
  deriving DecidableEq, Repr

instance : ScanSource Source where
  peek
    | .vec s => do let (top, s) ← peek s; return (top, .vec s)
    | .table it => do let (top, it) ← peek it; return (top, .table it)
  advance
    | .vec s => .vec <$> advance s
    | .table it => .table <$> advance it
  remaining
    | .vec s => remaining s
    | .table it => remaining it

structure HeapEntry where
  key : Bytes
  idx : Nat
  deriving DecidableEq, Repr

/-- `a` is popped before `b`. -/
def HeapEntry.Before (a b : HeapEntry) : Prop := a.key < b.key ∨ a.key = b.key ∧ a.idx < b.idx
instance (a b : HeapEntry) : Decidable (a.Before b) := by unfold HeapEntry.Before; infer_instance

/- The binary heap, as the list of its entries in the order they are popped. -/
def push (e : HeapEntry) : List HeapEntry → List HeapEntry
  | [] => [e]
  | x :: rest => if x.Before e then x :: push e rest else e :: x :: rest

def pushTop (top : Option Rec) (idx : Nat) (heap : List HeapEntry) : List HeapEntry :=
  match top with
  | some (k, _) => push ⟨k, idx⟩ heap
  | none => heap

structure MergeIter (σ : Type) where
  sources : List σ
  heap : List HeapEntry
  primed : Bool

variable {σ : Type} [ScanSource σ]

/-- Works on `sources[idx]` in place. -/
def withSource {α : Type} (sources : List σ) (idx : Nat) (f : σ → Fallible (α × σ)) :
    Fallible (α × List σ) :=
  match sources[idx]? with
  | none => throw .panic
  | some s => do
    let (a, s) ← f s
    return (a, sources.set idx s)

def stepOver (s : σ) : Fallible (Unit × σ) := do return ((), ← advance s)

namespace MergeIter

def new (sources : List σ) : MergeIter σ := ⟨sources, [], false⟩

def primeLoop : List Nat → List σ → List HeapEntry → Fallible (List σ × List HeapEntry)
  | [], sources, heap => pure (sources, heap)
  | idx :: rest, sources, heap => do
    let (top, sources) ← withSource sources idx peek
    primeLoop rest sources (pushTop top idx heap)

def prime (m : MergeIter σ) : Fallible (MergeIter σ) :=
  if m.primed then pure m
  else do
    let (sources, heap) ← primeLoop (List.range m.sources.length) m.sources m.heap
    return ⟨sources, heap, true⟩

def budget (sources : List σ) : Nat := (sources.map remaining).sum

/- Older sources at `key` are moved past it. -/
def skipOlder (key : Bytes) : Nat → List σ → List HeapEntry → Fallible (List σ × List HeapEntry)
  | 0, sources, heap => pure (sources, heap)
  | _, sources, [] => pure (sources, [])
  | fuel + 1, sources, e :: heap =>
    if e.key ≠ key then pure (sources, e :: heap)
    else do
      let (_, sources) ← withSource sources e.idx stepOver
      let (top, sources) ← withSource sources e.idx peek
      skipOlder key fuel sources (pushTop top e.idx heap)

def next (m : MergeIter σ) : Fallible (Option Rec × MergeIter σ) := do
  let m ← m.prime
  match m.heap with
  | [] => return (none, m)
  | top :: heap =>
    let (item, sources) ← withSource m.sources top.idx peek
    match item with
    | none => throw .panic
    | some item =>
      let (_, sources) ← withSource sources top.idx stepOver
      let (sources, heap) ← skipOlder top.key (budget sources) sources heap
      let (again, sources) ← withSource sources top.idx peek
      return (some item, ⟨sources, pushTop again top.idx heap, true⟩)

def collectLoop : Nat → MergeIter σ → Fallible (List Rec)
  | 0, _ => pure []
  | fuel + 1, m => do
    match ← m.next with
    | (none, _) => return []
    | (some item, m) => return item :: (← collectLoop fuel m)

def collect (m : MergeIter σ) : Fallible (List Rec) := m.collectLoop (budget m.sources)

end MergeIter

def memtableSource (memtable : MemTable) (start stop : Option Bytes) : VecSource :=
  match start, stop with
  | some s, some e => if e ≤ s then ⟨[], 0⟩ else ⟨memtable.range start stop, 0⟩
  | _, _ => ⟨memtable.range start stop, 0⟩

def mergeVecs (sources : List (List Rec)) : Fallible (List Rec) :=
  (MergeIter.new (sources.map (fun items => VecSource.mk items 0))).collect

end MyLsmDb.Iterator
