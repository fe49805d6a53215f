import Mathlib

/-! Stateful computations that may stop early: with an error of the program, in a
panic, or because the machine goes down. The state at the stop is kept, so a rule
about a computation says what holds when it ends and what holds wherever it stops. -/
namespace MyLsmDb.Effect

inductive Stop (ε : Type) where
  | error (e : ε)
  | panic
  | crash
  deriving DecidableEq, Repr

abbrev Act (ε σ : Type) := EStateM (Stop ε) σ

variable {ε σ τ α β : Type}

/-- `post` of the result and the state where `x` ends, `stop` of where it stops early. -/
def Ends (x : Act ε σ α) (s : σ) (post : α → σ → Prop) (stop : Stop ε → σ → Prop) : Prop :=
  match x s with
  | .ok a s' => post a s'
  | .error e s' => stop e s'

/-- Nothing stops it. -/
abbrev Completes (x : Act ε σ α) (s : σ) (post : α → σ → Prop) : Prop :=
  Ends x s post (fun _ _ => False)

def lift : Except (Stop ε) α → Act ε σ α
  | .ok a => pure a
  | .error e => throw e

/-- Goes on when `x` reports an error; a panic or a crash still stops. -/
def ignoreError (x : Act ε σ Unit) : Act ε σ Unit := fun s =>
  match x s with
  | .error (.error _) s' => .ok () s'
  | r => r

/-- Runs `x` on the part of the state that `get` and `put` name. -/
def zoom (get : τ → σ) (put : σ → τ → τ) (x : Act ε σ α) : Act ε τ α := fun t =>
  match x (get t) with
  | .ok a s => .ok a (put s t)
  | .error e s => .error e (put s t)

section Rules
variable {x : Act ε σ α} {f : α → Act ε σ β} {s : σ}
  {post : α → σ → Prop} {after : β → σ → Prop} {stop : Stop ε → σ → Prop}

theorem Ends.mono {post' : α → σ → Prop} {stop' : Stop ε → σ → Prop} (h : Ends x s post stop)
    (p : ∀ a s', post a s' → post' a s') (q : ∀ e s', stop e s' → stop' e s') :
    Ends x s post' stop' := by
  unfold Ends at *
  split at h
  · exact p _ _ h
  · exact q _ _ h

theorem Ends.imp {post' : α → σ → Prop} (h : Ends x s post stop)
    (p : ∀ a s', post a s' → post' a s') : Ends x s post' stop :=
  h.mono p (fun _ _ => id)

theorem endsBoth {post' : α → σ → Prop} {stop' : Stop ε → σ → Prop} (h : Ends x s post stop)
    (h' : Ends x s post' stop') :
    Ends x s (fun a s' => post a s' ∧ post' a s') (fun e s' => stop e s' ∧ stop' e s') := by
  unfold Ends at *
  split at h
  · rename_i run
    rw [run] at h'
    exact ⟨h, h'⟩
  · rename_i run
    rw [run] at h'
    exact ⟨h, h'⟩

theorem Ends.bind (h : Ends x s post stop)
    (next : ∀ a s', post a s' → Ends (f a) s' after stop) : Ends (x >>= f) s after stop := by
  unfold Ends at h
  change Ends (EStateM.bind x f) s after stop
  unfold Ends EStateM.bind
  revert h
  cases x s with
  | ok a s' => exact fun h => next a s' h
  | error e s' => exact id

theorem bindGet {f : σ → Act ε σ β} : (get >>= f) s = f s s := rfl

theorem endsBindGet {f : σ → Act ε σ β} (h : Ends (f s) s after stop) :
    Ends (get >>= f) s after stop := h

theorem endsBindModify {g : σ → σ} {f : PUnit → Act ε σ β} (h : Ends (f ⟨⟩) (g s) after stop) :
    Ends (modify g >>= f) s after stop := h

theorem bindRan {f : α → Act ε σ β} {a : α} {s' : σ} (run : x s = .ok a s') :
    (x >>= f) s = f a s' := by
  change EStateM.bind x f s = _
  unfold EStateM.bind
  rw [run]

theorem ranBind {f : α → Act ε σ β} {b : β} {t : σ} (run : (x >>= f) s = .ok b t) :
    ∃ a s', x s = .ok a s' ∧ f a s' = .ok b t := by
  change EStateM.bind x f s = _ at run
  unfold EStateM.bind at run
  cases first : x s with
  | ok a s' =>
    rw [first] at run
    exact ⟨a, s', rfl, run⟩
  | error e s' =>
    rw [first] at run
    cases run

theorem endsBindOk {a : α} {s' : σ} (run : x s = .ok a s') (h : Ends (f a) s' after stop) :
    Ends (x >>= f) s after stop := by
  unfold Ends
  rw [bindRan run]
  exact h

theorem Ends.step {y : Act ε σ α} {t : σ} (h : Ends y t post stop) (run : x s = y t) :
    Ends x s post stop := by
  unfold Ends at *
  rw [run]
  exact h

theorem endsPure (a : α) (h : post a s) : Ends (pure a : Act ε σ α) s post stop := h

theorem endsModify {post : PUnit → σ → Prop} (g : σ → σ) (h : post ⟨⟩ (g s)) :
    Ends (modify g : Act ε σ PUnit) s post stop := h

theorem endsThrow (e : Stop ε) (h : stop e s) : Ends (throw e : Act ε σ α) s post stop := h

theorem endsLift (r : Except (Stop ε) α) (ok : ∀ a, r = .ok a → post a s)
    (err : ∀ e, r = .error e → stop e s) : Ends (lift r : Act ε σ α) s post stop := by
  cases r with
  | ok a => exact ok a rfl
  | error e => exact err e rfl

theorem endsIte {c : Prop} [Decidable c] {y : Act ε σ α} (yes : c → Ends x s post stop)
    (no : ¬ c → Ends y s post stop) : Ends (if c then x else y) s post stop := by
  split
  · exact yes ‹_›
  · exact no ‹_›

theorem endsIgnore {y : Act ε σ Unit} {post : Unit → σ → Prop}
    (h : Ends y s post (fun e s' => match e with | .error _ => post () s' | e => stop e s')) :
    Ends (ignoreError y) s post stop := by
  unfold Ends at h
  unfold Ends ignoreError
  cases r : y s with
  | ok a s' => simpa [r] using h
  | error e s' => cases e <;> simpa [r] using h

theorem endsTryCatch {handle : Stop ε → Act ε σ α}
    (h : Ends x s post (fun e s' => Ends (handle e) s' post stop)) :
    Ends (tryCatch x handle) s post stop := by
  change Ends (EStateM.tryCatch x handle) s post stop
  unfold Ends at h
  unfold Ends EStateM.tryCatch
  revert h
  cases x s <;> exact id

theorem endsZoom {get : τ → σ} {put : σ → τ → τ} {t : τ} {post : α → τ → Prop}
    {stop : Stop ε → τ → Prop}
    (h : Ends x (get t) (fun a s' => post a (put s' t)) (fun e s' => stop e (put s' t))) :
    Ends (zoom get put x) t post stop := by
  unfold Ends at h
  unfold Ends zoom
  revert h
  cases x (get t) <;> exact id

theorem endsForM {γ : Type} {body : γ → Act ε σ PUnit} (inv : List γ → σ → Prop)
    (round : ∀ c rest s, inv (c :: rest) s → Ends (body c) s (fun _ => inv rest) stop)
    (l : List γ) {s : σ} (start : inv l s) : Ends (l.forM body) s (fun _ => inv []) stop := by
  induction l generalizing s with
  | nil => exact start
  | cons c rest ih => exact (round c rest s start).bind (fun _ _ h => ih h)

theorem Completes.run (h : Completes x s post) : ∃ a s', x s = .ok a s' ∧ post a s' := by
  unfold Completes Ends at h
  cases r : x s with
  | ok a s' => exact ⟨a, s', rfl, by simpa [r] using h⟩
  | error e s' => simp [r] at h

theorem endsOfError {e : Stop ε} {t : σ} (r : x s = .error e t) :
    Ends x s post stop ↔ stop e t := by
  simp [Ends, r]

theorem endsOfRun {a : α} {t : σ} (r : x s = .ok a t) : Ends x s post stop ↔ post a t := by
  simp [Ends, r]

end Rules

def leaves (x : Act ε σ α) (s : σ) : Option σ :=
  match x s with
  | .ok _ s' => some s'
  | .error _ _ => none

def halts (x : Act ε σ α) (s : σ) : Option (Stop ε × σ) :=
  match x s with
  | .ok _ _ => none
  | .error e s' => some (e, s')

theorem haltsSome {x : Act ε σ α} {s t : σ} {e : Stop ε} (h : halts x s = some (e, t)) :
    x s = .error e t := by
  unfold halts at h
  split at h
  · cases h
  · cases h
    assumption

theorem leavesSome {x : Act ε σ α} {s t : σ} (h : leaves x s = some t) : ∃ a, x s = .ok a t := by
  unfold leaves at h
  split at h
  · cases h
    exact ⟨_, ‹_›⟩
  · cases h

def answer (x : Act ε σ α) (s : σ) : Option α :=
  match x s with
  | .ok a _ => some a
  | .error _ _ => none

theorem Completes.answer {x : Act ε σ α} {s : σ} {a : α} (h : Completes x s (fun b _ => b = a)) :
    answer x s = some a := by
  obtain ⟨_, _, run, rfl⟩ := h.run
  rw [Effect.answer, run]

def behind (x : Act ε σ Unit) (s : σ) : σ :=
  match x s with
  | .ok _ s' => s'
  | .error _ s' => s'

section Moves
variable {R : σ → σ → Prop}

/-- However it ends, it leaves a state that `R` relates to the one it started in. -/
def Moves (R : σ → σ → Prop) (x : Act ε σ α) : Prop :=
  ∀ s, Ends x s (fun _ s' => R s s') (fun _ s' => R s s')

theorem movesModify {g : σ → σ} (h : ∀ s, R s (g s)) : Moves R (modify g : Act ε σ PUnit) := h

variable [Std.Refl R]

theorem movesPure (a : α) : Moves R (pure a : Act ε σ α) := fun s => Std.Refl.refl s
theorem movesGet : Moves R (get : Act ε σ σ) := fun s => Std.Refl.refl s
theorem movesThrow (e : Stop ε) : Moves R (throw e : Act ε σ α) := fun s => Std.Refl.refl s

theorem movesLift (r : Except (Stop ε) α) : Moves R (lift r : Act ε σ α) := by
  cases r with
  | ok a => exact movesPure a
  | error e => exact movesThrow e

omit [Std.Refl R] in
theorem Moves.ite {c : Prop} [Decidable c] {x y : Act ε σ α} (hx : Moves R x) (hy : Moves R y) :
    Moves R (if c then x else y) := by
  split
  · exact hx
  · exact hy

omit [Std.Refl R] in
theorem Moves.ignore {x : Act ε σ Unit} (h : Moves R x) : Moves R (ignoreError x) := fun s =>
  endsIgnore ((h s).mono (fun _ _ => id) (fun e _ r => by cases e <;> exact r))

omit [Std.Refl R] in
theorem Moves.bind [IsTrans σ R] {x : Act ε σ α} {f : α → Act ε σ β} (h : Moves R x)
    (next : ∀ a, Moves R (f a)) : Moves R (x >>= f) := fun s =>
  (h s).bind (fun a s' r => (next a s').mono (fun _ _ => trans_of R r) (fun _ _ => trans_of R r))

omit [Std.Refl R] in
theorem Moves.tryCatch [IsTrans σ R] {x : Act ε σ α} {handle : Stop ε → Act ε σ α} (h : Moves R x)
    (next : ∀ e, Moves R (handle e)) : Moves R (tryCatch x handle) := fun s =>
  endsTryCatch ((h s).mono (fun _ _ => id) (fun e s' r =>
    (next e s').mono (fun _ _ => trans_of R r) (fun _ _ => trans_of R r)))

theorem Moves.forM [IsTrans σ R] {γ : Type} {body : γ → Act ε σ PUnit} (h : ∀ c, Moves R (body c))
    (l : List γ) : Moves R (l.forM body) := by
  induction l with
  | nil => exact movesPure _
  | cons c l ih => exact (h c).bind (fun _ => ih)

end Moves

section Conditional
variable {R : σ → σ → Prop} {ok : σ → Prop}

/-- What holds of a run on condition that the state it leaves is `ok`. -/
def EndsIf (ok : σ → Prop) (x : Act ε σ α) (s : σ) (post : α → σ → Prop)
    (stop : Stop ε → σ → Prop) : Prop :=
  Ends x s (fun a s' => ok s' → post a s') (fun e s' => ok s' → stop e s')

theorem Ends.endsIf {x : Act ε σ α} {s : σ} {post : α → σ → Prop} {stop : Stop ε → σ → Prop}
    (h : Ends x s post stop) : EndsIf ok x s post stop :=
  h.mono (fun _ _ p _ => p) (fun _ _ q _ => q)

theorem EndsIf.mono {x : Act ε σ α} {s : σ} {post post' : α → σ → Prop}
    {stop stop' : Stop ε → σ → Prop} (h : EndsIf ok x s post stop)
    (p : ∀ a s', ok s' → post a s' → post' a s') (q : ∀ e s', ok s' → stop e s' → stop' e s') :
    EndsIf ok x s post' stop' :=
  Ends.mono h (fun a s' r o => p a s' o (r o)) (fun e s' r o => q e s' o (r o))

theorem EndsIf.step {x y : Act ε σ α} {s t : σ} {post : α → σ → Prop} {stop : Stop ε → σ → Prop}
    (h : EndsIf ok y t post stop) (run : x s = y t) : EndsIf ok x s post stop := Ends.step h run

/-- When no step makes a state `ok` that was not, each step may be taken as if the state
it leads to were. -/
theorem EndsIf.bind (back : ∀ s s', R s s' → ok s' → ok s) {x : Act ε σ α} {f : α → Act ε σ β}
    {s : σ} {post : α → σ → Prop} {after : β → σ → Prop} {stop : Stop ε → σ → Prop}
    (h : EndsIf ok x s post stop) (moves : ∀ a, Moves R (f a))
    (next : ∀ a s', ok s' → post a s' → EndsIf ok (f a) s' after stop) :
    EndsIf ok (x >>= f) s after stop := by
  refine Ends.bind (show Ends x s (fun a s' => ok s' → post a s') _ from h) (fun a s' p => ?_)
  by_cases o : ok s'
  · exact next a s' o (p o)
  · exact (moves a s').mono (fun _ s'' r o' => absurd (back s' s'' r o') o)
      (fun _ s'' r o' => absurd (back s' s'' r o') o)

end Conditional
end MyLsmDb.Effect
