import MyLsmDb.Effect
import MyLsmDb.OrderedEntries

/-! What every layer of the store shares: its errors, the entries a key can have
and the memtable that collects them. -/
namespace MyLsmDb
open ByteOrder (Bytes)
open Effect (Stop)
open OrderedEntries (OrderedMap)

inductive ConflictReason where
  | expectedAbsentButExists
  | expectedValueMismatch
  | expectedFieldMismatch
  deriving DecidableEq, Repr

inductive Error where
  | io
  | corrupt (what : String)
  | unsupportedFormatVersion (found minSupported maxSupported : Nat)
  | notFound
  | invalidFormat (what : String)
  | invalidArgument (what : String)
  | conflict (collectionId : Nat) (entityId : String) (reason : ConflictReason)
  deriving DecidableEq, Repr

abbrev Fallible := Except (Stop Error)

theorem bindOk {ε α β : Type} {x : Except ε α} {f : α → Except ε β} {b : β}
    (run : (x >>= f) = .ok b) : ∃ a, x = .ok a ∧ f a = .ok b := by
  cases x with
  | error e => cases run
  | ok a => exact ⟨a, rfl, run⟩

/-- `none` is a tombstone. -/
abbrev Entry := Option Bytes
abbrev Rec := Bytes × Entry

structure MemTable where
  map : OrderedMap Bytes Entry
  sizeBytes : Nat
  deriving Inhabited

namespace MemTable

def new : MemTable := ⟨.empty, 0⟩

def put (m : MemTable) (key : Bytes) (value : Entry) : MemTable :=
  let freed := match m.map.get key with
    | some old => old.elim 0 List.length + key.length
    | none => 0
  ⟨m.map.insert key value, m.sizeBytes - freed + (value.elim 0 List.length + key.length)⟩

def get (m : MemTable) (key : Bytes) : Option Entry := m.map.get key
def isEmpty (m : MemTable) : Bool := m.map.entries.isEmpty
def iter (m : MemTable) : List Rec := m.map.entries
def range (m : MemTable) (start stop : Option Bytes) : List Rec := m.map.range start stop

@[simp] theorem getPut (m : MemTable) (key q : Bytes) (value : Entry) :
    (m.put key value).get q = if q = key then some value else m.get q :=
  OrderedMap.getInsert _ _ _ _

theorem getIter (m : MemTable) (key : Bytes) : m.iter.lookup key = m.get key := rfl

theorem iterOrdered (m : MemTable) : OrderedEntries.Ordered m.iter := m.map.ordered

end MemTable
end MyLsmDb
