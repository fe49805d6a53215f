import MyLsmDb.PlainMap

/-! The removal of orphaned tables: every table file with a six-digit name that the manifest
in memory does not refer to. -/
namespace MyLsmDb
open ByteOrder (Bytes)
open Effect
open OrderedEntries
open Text

namespace Database

def tableStem (id : Nat) : Chars := List.replicate (6 - (decimal id).length) '0' ++ decimal id

/-- The table id that the stem of a file stands for, if it has six digits. -/
def stemId (stem : Chars) : Option Nat :=
  if stem.length ≠ 6 ∨ stem.all Char.isDigit = false then none else parseDecimal (2 ^ 64) stem

def removeOrphan (id : Nat) : DbM Unit :=
  atomically (fun d => { d with tables := d.tables.erase id })

def gcLoop (referenced : List Nat) : List Nat → DbM Nat
  | [] => return 0
  | id :: rest =>
    match stemId (tableStem id) with
    | none => gcLoop referenced rest
    | some found => do
      if found ∈ referenced then gcLoop referenced rest
      else
        removeOrphan id
        return (← gcLoop referenced rest) + 1

def tableFiles (d : Disk) : List Nat := d.tables.entries.map Prod.fst

def gc : DbM Nat := do
  let db ← MonadState.get
  let removed ← gcLoop db.manifest.allIds (tableFiles db.disk)
  modify (fun db => { db with
    tableCache := db.tableCache.filter (fun e => decide (e.1 ∈ db.manifest.allIds)) })
  return removed

theorem stemIdOf (id : Nat) : stemId (tableStem id) = if id < 10 ^ 6 then some id else none := by
  have digits : ∀ c ∈ tableStem id, c.isDigit := by
    intro c mem
    rcases List.mem_append.mp mem with zero | digit
    · rw [List.eq_of_mem_replicate zero]
      decide
    · exact decimalDigits id c digit
  have short : (decimal id).length ≤ 6 ↔ id < 10 ^ 6 :=
    Nat.length_toDigits_le_iff (by decide) (by decide)
  have length : (tableStem id).length = 6 ↔ id < 10 ^ 6 := by
    rw [← short, tableStem, List.length_append, List.length_replicate]
    omega
  by_cases small : id < 10 ^ 6
  · have value : Nat.ofDigitChars 10 (tableStem id) 0 = id := by
      rw [tableStem, Nat.ofDigitChars_append, Nat.ofDigitChars_replicate_zero, Nat.mul_zero]
      exact Nat.ofDigitChars_ten_toDigits
    have some_ : tableStem id ≠ [] := by
      intro none
      rw [none] at length
      cases length.mpr small
    rw [stemId, if_neg (by simpa [length.mpr small] using digits), if_pos small,
      parseDigits some_ digits (by omega), value]
  · rw [stemId, if_pos (.inl (fun six => small (length.mp six))), if_neg small]

def Pruned (refs : List Nat) (t t' : OrderedMap Nat Bytes) : Prop :=
  ∀ i, t'.get i = t.get i ∨ t'.get i = none ∧ i ∉ refs ∧ i < 10 ^ 6

theorem Pruned.refl (refs : List Nat) (t : OrderedMap Nat Bytes) : Pruned refs t t :=
  fun _ => .inl rfl

theorem Pruned.trans {refs : List Nat} {a b c : OrderedMap Nat Bytes} (ab : Pruned refs a b)
    (bc : Pruned refs b c) : Pruned refs a c := by
  intro i
  rcases bc i with same | gone
  · rcases ab i with same' | gone
    · exact .inl (same.trans same')
    · exact .inr ⟨same.trans gone.1, gone.2⟩
  · exact .inr gone

theorem prunedErase {refs : List Nat} {id : Nat} (t : OrderedMap Nat Bytes) (other : id ∉ refs)
    (small : id < 10 ^ 6) : Pruned refs t (t.erase id) := by
  intro i
  by_cases here : i = id
  · subst here
    exact .inr ⟨by simp, other, small⟩
  · exact .inl (by simp [here])

/-- What a sweep leaves, wherever it stops. -/
structure SweepStop (refs : List Nat) (e : Stop Error) (db db' : Database) : Prop where
  injected : Injected db.faults e
  left : ∃ fs t d, fs <:+ db.faults ∧ Pruned refs db.disk.tables t ∧
    db' = { db with faults := fs, disk := d } ∧
    (e ≠ .crash ∧ d = { db.disk with tables := t } ∨
      e = .crash ∧ ∃ k, d = Disk.crashed { db.disk with tables := t } k)

structure SweepDone (refs ids : List Nat) (db db' : Database) : Prop where
  left : ∃ fs t, fs <:+ db.faults ∧ Pruned refs db.disk.tables t ∧
    db' = { db with faults := fs, disk := { db.disk with tables := t } }
  gone : ∀ id ∈ ids, id < 10 ^ 6 → id ∉ refs → db'.disk.tables.get id = none

theorem removeOrphanEnds {refs : List Nat} {id : Nat} (other : id ∉ refs) (small : id < 10 ^ 6)
    (db : Database) : Ends (removeOrphan id) db (fun _ db' => SweepDone refs [id] db db')
      (fun e db' => SweepStop refs e db db') := by
  have erased := prunedErase db.disk.tables other small
  refine (effectEnds _ _ _ db).mono ?_ ?_
  · intro _ db' done
    obtain ⟨fs, suffix, rfl⟩ := done
    refine ⟨⟨fs, _, suffix, erased, rfl⟩, ?_⟩
    intro i mem _ _
    rw [List.mem_singleton.mp mem]
    simp
  · intro e db' stop
    obtain ⟨injected, fs, suffix, ⟨rfl, n, rfl⟩ | ⟨rfl, n, k, rfl⟩⟩ := stop
    · exact ⟨injected, fs, _, _, suffix, .refl _ _, rfl, .inl ⟨by simp, rfl⟩⟩
    · cases n with
      | zero => exact ⟨injected, fs, _, _, suffix, .refl _ _, rfl, .inr ⟨rfl, k, rfl⟩⟩
      | succ n => exact ⟨injected, fs, _, _, suffix, erased, rfl, .inr ⟨rfl, k, rfl⟩⟩

theorem SweepDone.stop {refs ids : List Nat} {e : Stop Error} {a b c : Database}
    (ab : SweepDone refs ids a b) (bc : SweepStop refs e b c) : SweepStop refs e a c := by
  obtain ⟨fs, t, suffix, pruned, rfl⟩ := ab.left
  obtain ⟨injected, fs', t', d, suffix', pruned', rfl, left⟩ := bc
  exact ⟨injected.mono suffix, fs', t', d, suffix'.trans suffix, pruned.trans pruned', rfl, left⟩

theorem SweepDone.trans {refs ids ids' : List Nat} {a b c : Database}
    (ab : SweepDone refs ids a b) (bc : SweepDone refs ids' b c) :
    SweepDone refs (ids ++ ids') a c := by
  obtain ⟨⟨fs, t, suffix, pruned, rfl⟩, gone⟩ := ab
  obtain ⟨⟨fs', t', suffix', pruned', rfl⟩, gone'⟩ := bc
  refine ⟨⟨fs', t', suffix'.trans suffix, pruned.trans pruned', rfl⟩, ?_⟩
  intro id mem small other
  rcases List.mem_append.mp mem with before | after
  · rcases pruned' id with same | none
    · exact same.trans (gone id before small other)
    · exact none.1
  · exact gone' id after small other

theorem SweepDone.skip {refs : List Nat} {id : Nat} (db : Database)
    (keep : ¬ id < 10 ^ 6 ∨ id ∈ refs) : SweepDone refs [id] db db := by
  refine ⟨⟨db.faults, _, List.suffix_rfl, .refl _ _, rfl⟩, ?_⟩
  intro i mem small other
  rw [List.mem_singleton.mp mem] at small other
  exact absurd (keep.resolve_left (not_not.mpr small)) other

theorem gcLoopEnds (refs ids : List Nat) (db : Database) : Ends (gcLoop refs ids) db
    (fun _ db' => SweepDone refs ids db db') (fun e db' => SweepStop refs e db db') := by
  induction ids generalizing db with
  | nil => exact ⟨⟨db.faults, _, List.suffix_rfl, .refl _ _, rfl⟩, fun id mem => nomatch mem⟩
  | cons id ids ih =>
    unfold gcLoop
    rw [stemIdOf]
    by_cases small : id < 10 ^ 6
    · rw [if_pos small]
      refine endsIte (fun there => ?_) (fun other => ?_)
      · exact (ih db).imp (fun _ _ done => (SweepDone.skip db (.inr there)).trans done)
      · refine (removeOrphanEnds other small db).bind (fun _ db₁ first => ?_)
        refine Ends.bind ((ih db₁).mono (fun _ _ h => h) (fun _ _ stop => first.stop stop)) ?_
        exact fun _ db₂ rest => first.trans rest
    · rw [if_neg small]
      exact (ih db).imp (fun _ _ done => (SweepDone.skip db (.inl small)).trans done)

def retained (db : Database) : List (Nat × Sstable.TableReader) :=
  db.tableCache.filter (fun e => decide (e.1 ∈ db.manifest.allIds))

theorem lookupRetained {db : Database} {id : Nat} {r : Sstable.TableReader}
    (found : (retained db).lookup id = some r) :
    id ∈ db.manifest.allIds ∧ db.tableCache.lookup id = some r := by
  unfold retained at found
  generalize db.tableCache = cache at found ⊢
  induction cache with
  | nil => cases found
  | cons e cache ih =>
    rw [lookupCons]
    by_cases keep : e.1 ∈ db.manifest.allIds
    · rw [List.filter_cons_of_pos (by simpa using keep), lookupCons] at found
      by_cases here : id = e.1
      · rw [if_pos here] at found
        rw [if_pos here]
        exact ⟨here ▸ keep, found⟩
      · rw [if_neg here] at found
        rw [if_neg here]
        exact ih found
    · rw [List.filter_cons_of_neg (by simpa using keep)] at found
      obtain ⟨there, found⟩ := ih found
      have elsewhere : id ≠ e.1 := by
        intro here
        exact keep (here ▸ there)
      rw [if_neg elsewhere]
      exact ⟨there, found⟩

theorem tableFilesMem {d : Disk} {id : Nat} : id ∈ tableFiles d ↔ d.tables.get id ≠ none := by
  rw [tableFiles, List.mem_map]
  constructor
  · intro h
    obtain ⟨e, mem, rfl⟩ := h
    rw [(OrderedMap.memIff d.tables).mp mem]
    exact Option.some_ne_none _
  · intro there
    obtain ⟨bytes, found⟩ := Option.ne_none_iff_exists'.mp there
    exact ⟨(id, bytes), (OrderedMap.memIff d.tables).mpr found, rfl⟩

/-- A collection that came to its end. -/
structure Collected (db db' : Database) : Prop where
  left : ∃ fs t, fs <:+ db.faults ∧ Pruned db.manifest.allIds db.disk.tables t ∧
    db' = { db with faults := fs, disk := { db.disk with tables := t }, tableCache := retained db }
  gone : ∀ id, id < 10 ^ 6 → id ∉ db.manifest.allIds → db'.disk.tables.get id = none

theorem gcEnds (db : Database) : Ends gc db (fun _ db' => Collected db db')
    (fun e db' => SweepStop db.manifest.allIds e db db') := by
  unfold gc
  refine endsBindGet ((gcLoopEnds db.manifest.allIds (tableFiles db.disk) db).bind ?_)
  intro _ db₁ done
  obtain ⟨⟨fs, t, suffix, pruned, rfl⟩, gone⟩ := done
  refine endsBindModify (endsPure _ ⟨⟨fs, t, suffix, pruned, rfl⟩, ?_⟩)
  intro id small other
  by_cases there : db.disk.tables.get id = none
  · rcases pruned id with same | absent
    · exact same.trans there
    · exact absent.1
  · exact gone id (tableFilesMem.mpr there) small other

end Database

variable {W : Manifest → Prop} {md : Manifest} {vol dur : Bytes → Option Bytes}

/-- No file of the manifest on the medium is an orphan to a collection. -/
def Collectable (db : Database) : Prop := ∀ md, Saved db.disk md → ∀ id ∈ md.allIds,
  db.disk.tables.get id ≠ none → id ∈ db.manifest.allIds ∨ 10 ^ 6 ≤ id

theorem Holding.pruned {refs : List Nat} {t t' : OrderedMap Nat Bytes} {m : Manifest}
    (h : Holding t m) (pruned : Database.Pruned refs t t')
    (kept : ∀ id ∈ m.allIds, id ∈ refs ∨ 10 ^ 6 ≤ id) :
    Holding t' m ∧ tablesView t' m = tablesView t m := by
  have same : ∀ id ∈ m.allIds, t'.get id = t.get id := by
    intro id mem
    refine (pruned id).resolve_right ?_
    intro gone
    rcases kept id mem with there | large
    · exact gone.2.1 there
    · omega
  exact ⟨h.same same, tablesViewSame h same⟩

theorem ViewsAt.keptFiles {db : Database} (h : ViewsAt W md db vol dur)
    (collectable : Collectable db) :
    ∀ id ∈ md.allIds, id ∈ db.manifest.allIds ∨ 10 ^ 6 ≤ id := by
  intro id mem
  refine collectable md h.saved id mem ?_
  rw [(h.durable.hasTable mem).file]
  exact Option.some_ne_none _

theorem ViewsAt.pruned {db : Database} {t : OrderedMap Nat Bytes} (h : ViewsAt W md db vol dur)
    (collectable : Collectable db) (pruned : Database.Pruned db.manifest.allIds db.disk.tables t)
    (fs : List Fault) : ViewsAt W md
      { db with faults := fs, disk := { db.disk with tables := t } } vol dur := by
  obtain ⟨memory, volatile⟩ := h.memory.pruned pruned (fun id mem => .inl mem)
  obtain ⟨durable, still⟩ := h.durable.pruned pruned (h.keptFiles collectable)
  refine ⟨memory, ?_, h.saved, h.written, durable, h.older, volatile.trans h.vol, still.trans h.dur⟩
  intro id r found
  obtain ⟨fresh, file⟩ := h.cached id r found
  refine ⟨fresh, fun bytes there => file bytes ?_⟩
  rcases pruned id with same | gone
  · exact same.symm.trans there
  · cases gone.1.symm.trans there

theorem ViewsAt.collected {db db' : Database} (h : ViewsAt W md db vol dur)
    (collectable : Collectable db) (done : Database.Collected db db') : ViewsAt W md db' vol dur := by
  obtain ⟨fs, t, -, pruned, rfl⟩ := done.left
  have views := h.pruned collectable pruned fs
  refine views.same (fun id r found => ?_) rfl rfl rfl
  exact views.cached id r (Database.lookupRetained found).2

end MyLsmDb
