import MyLsmDb.EntityCore

/-! What a query reads: a store that answers the same to the same question. A scan may fail
before it starts, or give an error in the place of a row and go on. -/
namespace MyLsmDb
open ByteOrder (Bytes)
open Effect (Stop)
open KeyValue
open OrderedEntries

structure ReadView where
  get : Bytes → Except Error (Option Bytes)
  scan : Option Bytes → Option Bytes → Except Error (List (Except Error Rec))

def answered {α : Type} : Except Error α → Fallible α
  | .ok a => .ok a
  | .error e => .error (.error e)

def collected {α : Type} : List (Fallible α) → Fallible (List α)
  | [] => pure []
  | item :: rest => do return (← item) :: (← collected rest)

namespace ReadView
variable {α : Type}

def find (v : ReadView) (key : Bytes) : Fallible (Option Bytes) := answered (v.get key)

def rows (v : ReadView) (start stop : Option Bytes) : Fallible (List Rec) := do
  collected ((← answered (v.scan start stop)).map answered)

def machine (v : ReadView) : Machine Error Bytes Bytes Unit where
  get key := Effect.lift (v.find key)
  scan start stop := Effect.lift (v.rows start stop)
  write _ _ := throw (.error (.invalidArgument "read-only view"))

def read (v : ReadView) (p : KvProg α) : Fallible α :=
  match p.run v.machine () with
  | .ok a _ => .ok a
  | .error e _ => .error e

/-- Rows that are all readable, tombstones among them. -/
def ofRows (rows : List Rec) : ReadView where
  get key := pure (rows.lookup key).join
  scan start stop := pure ((rangeOf start stop rows).map pure)

@[simp] theorem readDone (v : ReadView) (a : α) : v.read (.done a) = .ok a := rfl
@[simp] theorem readHalt (v : ReadView) (e : Stop Error) : v.read (.halt e : KvProg α) = .error e := rfl

theorem liftBind {σ β : Type} (x : Fallible α) (f : α → Effect.Act Error σ β) (s : σ) :
    (Effect.lift x >>= f) s = match x with
      | .ok a => f a s
      | .error e => .error e s := by
  cases x <;> rfl

theorem readGet (v : ReadView) (key : Bytes) (next : Option Bytes → KvProg α) :
    v.read (.get key next) = (v.find key >>= fun found => v.read (next found)) := by
  unfold read
  change (match (Effect.lift (v.find key) >>= fun found => (next found).run v.machine) () with
    | .ok a _ => Except.ok a
    | .error e _ => Except.error e) = _
  rw [liftBind]
  cases v.find key <;> rfl

theorem readScan (v : ReadView) (start stop : Option Bytes) (next : List Rec → KvProg α) :
    v.read (.scan start stop next) = (v.rows start stop >>= fun rows => v.read (next rows)) := by
  unfold read
  change (match (Effect.lift (v.rows start stop) >>=
      fun rows => (next rows).run v.machine) () with
    | .ok a _ => Except.ok a
    | .error e _ => Except.error e) = _
  rw [liftBind]
  cases v.rows start stop <;> rfl

theorem readLift (v : ReadView) (r : Fallible α) : v.read (lift r) = r := by
  cases r <;> rfl

end ReadView

section Collecting
variable {α : Type}

theorem collectedPure (l : List α) : collected (l.map pure) = .ok l := by
  induction l with
  | nil => rfl
  | cons a l ih =>
    rw [List.map_cons, collected, ih]
    rfl

theorem collectedError {items : List (Fallible α)} :
    (∃ e, collected items = .error e) ↔ ∃ e, .error e ∈ items := by
  induction items with
  | nil => simp [collected, pure, Except.pure]
  | cons item items ih =>
    cases item with
    | error e =>
      have first : collected (.error e :: items) = .error e := rfl
      simp [first]
    | ok a =>
      have step : collected (.ok a :: items) = (collected items >>= fun l => pure (a :: l)) := rfl
      cases h : collected items with
      | ok l =>
        have none : ¬ ∃ e, .error e ∈ items := fun h' => by
          obtain ⟨e, same⟩ := ih.mpr h'
          rw [h] at same
          cases same
        simp [step, h, bind, Except.bind, pure, Except.pure]
        exact fun e m => none ⟨e, m⟩
      | error e =>
        obtain ⟨e', m⟩ := ih.mp ⟨e, h⟩
        simp [step, h, bind, Except.bind]
        exact ⟨e', m⟩

end Collecting

theorem ReadView.ofRowsRows (rows : List Rec) (start stop : Option Bytes) :
    (ReadView.ofRows rows).rows start stop = .ok (rangeOf start stop rows) := by
  have read : (ReadView.ofRows rows).rows start stop =
      collected (((rangeOf start stop rows).map pure).map answered) := rfl
  rw [read, List.map_map]
  exact collectedPure _

end MyLsmDb
