import MyLsmDb.Effect
import MyLsmDb.OrderedEntries

/-! Programs over an ordered key-value store. A program is the tree of its requests, so it runs
on whatever answers them, and what it does to the map that a store shows is proved of the tree,
once for all stores. -/
namespace MyLsmDb.KeyValue
open Effect
open OrderedEntries

variable {ε κ ν σ α β : Type}

inductive Prog (ε κ ν α : Type) where
  | done (a : α)
  | halt (e : Stop ε)
  | get (key : κ) (next : Option ν → Prog ε κ ν α)
  | scan (start stop : Option κ) (next : List (κ × Option ν) → Prog ε κ ν α)
  | write (key : κ) (entry : Option ν) (next : Prog ε κ ν α)

namespace Prog

def bind : Prog ε κ ν α → (α → Prog ε κ ν β) → Prog ε κ ν β
  | done a, f => f a
  | halt e, _ => halt e
  | get key next, f => get key (fun found => (next found).bind f)
  | scan start stop next, f => scan start stop (fun rows => (next rows).bind f)
  | write key entry next, f => write key entry (next.bind f)

instance : Monad (Prog ε κ ν) where
  pure := done
  bind := bind

end Prog

def get (key : κ) : Prog ε κ ν (Option ν) := .get key .done
def scan (start stop : Option κ) : Prog ε κ ν (List (κ × Option ν)) := .scan start stop .done
def write (key : κ) (entry : Option ν) : Prog ε κ ν Unit := .write key entry (.done ())
def put (key : κ) (value : ν) : Prog ε κ ν Unit := write key (some value)
def fail (e : ε) : Prog ε κ ν α := .halt (.error e)

def lift : Except (Stop ε) α → Prog ε κ ν α
  | .ok a => .done a
  | .error e => .halt e

def writeAll (ws : List (κ × Option ν)) : Prog ε κ ν Unit := ws.forM (fun w => write w.1 w.2)

def Prog.ReadOnly : Prog ε κ ν α → Prop
  | .done _ => True
  | .halt _ => True
  | .get _ next => ∀ found, (next found).ReadOnly
  | .scan _ _ next => ∀ rows, (next rows).ReadOnly
  | .write _ _ _ => False

theorem Prog.ReadOnly.bind {p : Prog ε κ ν α} {f : α → Prog ε κ ν β} (h : p.ReadOnly)
    (next : ∀ a, (f a).ReadOnly) : (p >>= f).ReadOnly := by
  change (Prog.bind p f).ReadOnly
  induction p with
  | done a => exact next a
  | halt e => exact trivial
  | get key rest ih => exact fun found => ih found (h found)
  | scan start stop rest ih => exact fun rows => ih rows (h rows)
  | write key entry rest ih => exact h.elim

theorem liftReadOnly (r : Except (Stop ε) α) : (lift r : Prog ε κ ν α).ReadOnly := by
  cases r <;> exact trivial

/-- What answers the requests of a program. -/
structure Machine (ε κ ν σ : Type) where
  get : κ → Act ε σ (Option ν)
  scan : Option κ → Option κ → Act ε σ (List (κ × Option ν))
  write : κ → Option ν → Act ε σ Unit

def Prog.run (m : Machine ε κ ν σ) : Prog ε κ ν α → Act ε σ α
  | done a => pure a
  | halt e => throw e
  | get key next => do (next (← m.get key)).run m
  | scan start stop next => do (next (← m.scan start stop)).run m
  | write key entry next => do
    m.write key entry
    next.run m

theorem Prog.runMoves {m : Machine ε κ ν σ} {R : σ → σ → Prop} [Std.Refl R] [IsTrans σ R]
    (get : ∀ key, Moves R (m.get key)) (scan : ∀ start stop, Moves R (m.scan start stop))
    (write : ∀ key entry, Moves R (m.write key entry)) (p : Prog ε κ ν α) : Moves R (p.run m) := by
  induction p with
  | done a => exact movesPure a
  | halt e => exact movesThrow e
  | get key next ih => exact (get key).bind ih
  | scan start stop next ih => exact (scan start stop).bind ih
  | write key entry next ih => exact (write key entry).bind (fun _ => ih)

section Listing
variable [LinearOrder κ]

/-- `rows` lists `v` in the range, each key once and in ascending order; a tombstone stands for a
key that is not there. -/
structure Lists [BEq κ] (v : κ → Option ν) (start stop : Option κ)
    (rows : List (κ × Option ν)) : Prop where
  ascending : Ordered rows
  inside : ∀ r ∈ rows, between start stop r.1
  reads : ∀ key, between start stop key → (rows.lookup key).join = v key

theorem rangeLists [BEq κ] [LawfulBEq κ] {v : κ → Option ν} {l : List (κ × Option ν)}
    (ordered : Ordered l) (reads : ∀ key, (l.lookup key).join = v key) (start stop : Option κ) :
    Lists v start stop (rangeOf start stop l) := by
  refine ⟨rangeOrdered ordered, fun r m => (memRange.mp m).2, fun key inside => ?_⟩
  rw [lookupRange, if_pos inside]
  exact reads key

end Listing

section Meaning
variable [LinearOrder κ] [BEq κ]

def written (ws : List (κ × Option ν)) (v : κ → Option ν) : κ → Option ν :=
  ws.foldl (fun v w => Function.update v w.1 w.2) v

variable (allowed : κ → Prop) (broken : (κ → Option ν) → Prop)

/-- Run on a store that shows the map, with only `allowed` keys in it, the program ends in
`post` or refuses in `refused`; `broken` is what holds wherever a write fails. -/
def Prog.Meets (post : α → (κ → Option ν) → Prop) (refused : Stop ε → (κ → Option ν) → Prop) :
    Prog ε κ ν α → (κ → Option ν) → Prop
  | done a, v => post a v
  | halt e, v => refused e v
  | get key next, v => (next (v key)).Meets post refused v
  | scan start stop next, v => ∀ rows, Lists v start stop rows → (∀ r ∈ rows, allowed r.1) →
      (next rows).Meets post refused v
  | write key entry next, v => allowed key ∧ broken v ∧ broken (Function.update v key entry) ∧
      next.Meets post refused (Function.update v key entry)

variable {allowed broken} {post post' : α → (κ → Option ν) → Prop}
  {after : β → (κ → Option ν) → Prop} {refused refused' : Stop ε → (κ → Option ν) → Prop}
  {p : Prog ε κ ν α} {v : κ → Option ν}

namespace Prog

theorem Meets.mono (h : p.Meets allowed broken post refused v) (more : ∀ a v, post a v → post' a v)
    (less : ∀ e v, refused e v → refused' e v) : p.Meets allowed broken post' refused' v := by
  induction p generalizing v with
  | done a => exact more a v h
  | halt e => exact less e v h
  | get key next ih => exact ih _ h
  | scan start stop next ih => exact fun rows lists keys => ih rows (h rows lists keys)
  | write key entry next ih => exact ⟨h.1, h.2.1, h.2.2.1, ih h.2.2.2⟩

theorem Meets.loosen {broken' : (κ → Option ν) → Prop}
    (h : p.Meets allowed broken post refused v) (more : ∀ v, broken v → broken' v) :
    p.Meets allowed broken' post refused v := by
  induction p generalizing v with
  | done a => exact h
  | halt e => exact h
  | get key next ih => exact ih _ h
  | scan start stop next ih => exact fun rows lists keys => ih rows (h rows lists keys)
  | write key entry next ih => exact ⟨h.1, more _ h.2.1, more _ h.2.2.1, ih h.2.2.2⟩

theorem meetsBind {f : α → Prog ε κ ν β} : (p.bind f).Meets allowed broken after refused v ↔
    p.Meets allowed broken (fun a v' => (f a).Meets allowed broken after refused v') refused v := by
  induction p generalizing v with
  | done a => rfl
  | halt e => rfl
  | get key next ih => exact ih _
  | scan start stop next ih =>
    exact forall_congr' (fun rows => forall_congr' (fun _ => forall_congr' (fun _ => ih rows)))
  | write key entry next ih => exact and_congr_right (fun _ => and_congr_right (fun _ =>
      and_congr_right (fun _ => ih)))

theorem Meets.bind {f : α → Prog ε κ ν β} (h : p.Meets allowed broken post refused v)
    (next : ∀ a v', post a v' → (f a).Meets allowed broken after refused v') :
    (p >>= f).Meets allowed broken after refused v :=
  meetsBind.mpr (h.mono next (fun _ _ => id))

end Prog

theorem meetsLift {r : Except (Stop ε) α} (ok : ∀ a, r = .ok a → post a v)
    (error : ∀ e, r = .error e → refused e v) :
    (lift r : Prog ε κ ν α).Meets allowed broken post refused v := by
  cases r with
  | ok a => exact ok a rfl
  | error e => exact error e rfl

theorem meetsWrites {post : Unit → (κ → Option ν) → Prop} {ws : List (κ × Option ν)}
    (keys : ∀ w ∈ ws, allowed w.1) (way : ∀ n, broken (written (ws.take n) v))
    (ends : post () (written ws v)) :
    (writeAll ws : Prog ε κ ν Unit).Meets allowed broken post refused v := by
  induction ws generalizing v with
  | nil => exact ends
  | cons w ws ih =>
    refine ⟨keys w List.mem_cons_self, way 0, way 1, ?_⟩
    exact ih (fun x m => keys x (List.mem_cons_of_mem w m)) (fun n => way (n + 1)) ends

theorem meetsReadOnly (only : p.ReadOnly) :
    p.Meets allowed broken (fun _ v' => v' = v) (fun _ v' => v' = v) v := by
  induction p with
  | done a => rfl
  | halt e => rfl
  | get key next ih => exact ih _ (only _)
  | scan start stop next ih => exact fun rows _ _ => ih rows (only rows)
  | write key entry next ih => exact only.elim

/-- A loop that does not write: `inv` speaks of what has been passed, the last one first. -/
theorem meetsFold {γ : Type} {body : β → γ → Prog ε κ ν β} (inv : List γ → β → Prop)
    (round : ∀ b x done, inv done b → (body b x).Meets allowed broken
      (fun b' v' => v' = v ∧ inv (x :: done) b') refused v)
    (l : List γ) {b : β} {done : List γ} (start : inv done b) :
    (l.foldlM body b).Meets allowed broken (fun b' v' => v' = v ∧ inv (l.reverse ++ done) b')
      refused v := by
  induction l generalizing b done with
  | nil => exact ⟨rfl, start⟩
  | cons x l ih =>
    rw [List.foldlM_cons]
    refine Prog.Meets.bind (round b x done start) ?_
    rintro b' v' ⟨rfl, next⟩
    rw [List.reverse_cons, List.append_assoc]
    exact ih next

end Meaning

section Running
variable [LinearOrder κ] [BEq κ]

/-- A machine that answers as the map says that its state shows, and keeps it. Where it stops
in a write, `Lost` holds of the map without that write or with it. -/
structure Serves (m : Machine ε κ ν σ) (allowed : κ → Prop) (ok : σ → Prop)
    (Shown : (κ → Option ν) → σ → Prop) (Lost : (κ → Option ν) → Stop ε → σ → Prop) : Prop where
  get : ∀ {v s}, Shown v s → ∀ key, Completes (m.get key) s (fun found s' =>
    found = v key ∧ Shown v s')
  scan : ∀ {v s}, Shown v s → ∀ start stop, Completes (m.scan start stop) s (fun rows s' =>
    Lists v start stop rows ∧ (∀ r ∈ rows, allowed r.1) ∧ Shown v s')
  write : ∀ {v s}, Shown v s → ∀ {key}, allowed key → ∀ entry, EndsIf ok (m.write key entry) s
    (fun _ s' => Shown (Function.update v key entry) s')
    (fun e s' => Lost v e s' ∨ Lost (Function.update v key entry) e s')

variable {m : Machine ε κ ν σ} {R : σ → σ → Prop} {allowed : κ → Prop} {ok : σ → Prop} {Shown : (κ → Option ν) → σ → Prop}
  {Lost : (κ → Option ν) → Stop ε → σ → Prop} {broken : (κ → Option ν) → Prop}
  {post : α → (κ → Option ν) → Prop} {refused : Stop ε → (κ → Option ν) → Prop}

theorem Serves.run (h : Serves m allowed ok Shown Lost) (back : ∀ s s', R s s' → ok s' → ok s)
    (moves : ∀ p : Prog ε κ ν α, Moves R (p.run m)) {p : Prog ε κ ν α} {v : κ → Option ν} {s : σ}
    (meets : p.Meets allowed broken post refused v) (shown : Shown v s) :
    EndsIf ok (p.run m) s (fun a s' => ∃ v', Shown v' s' ∧ post a v')
      (fun e s' => (∃ v', Shown v' s' ∧ refused e v') ∨ ∃ v', broken v' ∧ Lost v' e s') := by
  induction p generalizing v s with
  | done a => exact fun _ => ⟨v, shown, meets⟩
  | halt e => exact fun _ => .inl ⟨v, shown, meets⟩
  | get key next ih =>
    refine Ends.bind ((h.get shown key).mono (fun _ _ done => done) (fun _ _ => False.elim)) ?_
    intro found s' done
    obtain ⟨rfl, shown'⟩ := done
    exact ih _ meets shown'
  | scan start stop next ih =>
    refine Ends.bind ((h.scan shown start stop).mono (fun _ _ done => done)
      (fun _ _ => False.elim)) ?_
    intro rows s' done
    obtain ⟨lists, keys, shown'⟩ := done
    exact ih rows (meets rows lists keys) shown'
  | write key entry next ih =>
    obtain ⟨fine, before, behind, rest⟩ := meets
    refine EndsIf.bind back ((h.write shown fine entry).mono (fun _ _ _ done => done) ?_)
      (fun _ => moves next) (fun _ s' _ shown' => ih rest shown')
    intro e s' _ lost
    rcases lost with lost | lost
    · exact .inr ⟨_, before, lost⟩
    · exact .inr ⟨_, behind, lost⟩

end Running
end MyLsmDb.KeyValue
