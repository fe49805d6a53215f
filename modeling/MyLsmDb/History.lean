import MyLsmDb.Operation

/-! The log as a history of operations. A replay of its records up to any cut gives the
writes of a prefix of the operations: a commit that was cut leaves nothing. -/
namespace MyLsmDb
open Wal (RawOp LogRecord resolve committed mutation logOps)

section Ids

def txOf : RawOp → Option Nat
  | .txPut tx _ _ => some tx
  | .txDelete tx _ => some tx
  | .commit tx => some tx
  | _ => none

def Below (tx : Nat) (ops : List RawOp) : Prop := ∀ op ∈ ops, ∀ id, txOf op = some id → id < tx
def From (tx : Nat) (ops : List RawOp) : Prop := ∀ op ∈ ops, ∀ id, txOf op = some id → tx ≤ id

theorem Below.mono {tx tx' : Nat} {ops : List RawOp} (h : Below tx ops) (le : tx ≤ tx') :
    Below tx' ops := fun op mem id eq => (h op mem id eq).trans_le le

theorem Below.append {tx : Nat} {a b : List RawOp} (ha : Below tx a) (hb : Below tx b) :
    Below tx (a ++ b) := by
  intro op mem
  exact (List.mem_append.mp mem).elim (ha op) (hb op)

theorem From.sub {tx : Nat} {a b : List RawOp} (h : From tx b) (sub : a ⊆ b) : From tx a :=
  fun op mem => h op (sub mem)

theorem committedAppend (a b : List RawOp) : committed (a ++ b) = committed a ++ committed b :=
  List.filterMap_append

theorem committedMem {ops : List RawOp} {tx : Nat} : tx ∈ committed ops ↔ .commit tx ∈ ops := by
  unfold committed
  rw [List.mem_filterMap]
  constructor
  · intro h
    obtain ⟨op, mem, eq⟩ := h
    cases op <;> simp_all
  · intro mem
    exact ⟨_, mem, rfl⟩

theorem mutationSame {a b : List Nat} {op : RawOp} (same : ∀ tx, txOf op = some tx → (tx ∈ a ↔ tx ∈ b)) :
    mutation a op = mutation b op := by
  cases op with
  | txPut tx key value => simp only [mutation, same tx rfl]
  | txDelete tx key => simp only [mutation, same tx rfl]
  | _ => rfl

theorem resolveAppend {a b : List RawOp} {tx : Nat} (ha : Below tx a) (hb : From tx b) :
    resolve (a ++ b) = resolve a ++ resolve b := by
  have left : a.filterMap (mutation (committed (a ++ b))) = resolve a := by
    apply List.filterMap_congr
    intro op mem
    apply mutationSame
    intro id eq
    rw [committedAppend, List.mem_append]
    refine or_iff_left (fun later => ?_)
    have small := ha op mem id eq
    have large := hb _ (committedMem.mp later) id rfl
    omega
  have right : b.filterMap (mutation (committed (a ++ b))) = resolve b := by
    apply List.filterMap_congr
    intro op mem
    apply mutationSame
    intro id eq
    rw [committedAppend, List.mem_append]
    refine or_iff_right (fun earlier => ?_)
    have small := ha _ (committedMem.mp earlier) id rfl
    have large := hb op mem id eq
    omega
  rw [resolve, List.filterMap_append, left, right]

end Ids

section Records
variable (op : Op) (tx : Nat)

theorem logOpsAppend (a b : List LogRecord) : logOps (a ++ b) = logOps a ++ logOps b :=
  List.filterMap_append

theorem txRecordOp (w : Rec) : (txRecord tx w).op = some (match w.2 with
    | some v => .txPut tx w.1 v
    | none => .txDelete tx w.1) := by
  unfold txRecord
  cases w.2 <;> rfl

theorem txLogOps (pending : List Rec) : logOps (txLog tx pending) =
    logOps (pending.map (txRecord tx)) ++ [.commit tx] := by
  have begin : logOps (txLog tx pending) =
      logOps (pending.map (txRecord tx) ++ [.commit tx]) := rfl
  rw [begin, logOpsAppend]
  rfl

theorem pendingTx (pending : List Rec) :
    ∀ o ∈ logOps (pending.map (txRecord tx)), txOf o = some tx ∧ o ≠ .commit tx := by
  intro o mem
  obtain ⟨r, mr, eq⟩ := List.mem_filterMap.mp mem
  obtain ⟨w, -, rfl⟩ := List.mem_map.mp mr
  rw [txRecordOp] at eq
  cases Option.some.inj eq
  cases w.2 <;> simp [txOf]

theorem pendingMutations (c : List Nat) (pending : List Rec) :
    (logOps (pending.map (txRecord tx))).filterMap (mutation c) = if tx ∈ c then pending else [] := by
  induction pending with
  | nil => simp [logOps]
  | cons w pending ih =>
    have head : logOps ((w :: pending).map (txRecord tx)) = (match w.2 with
        | some v => .txPut tx w.1 v
        | none => .txDelete tx w.1) :: logOps (pending.map (txRecord tx)) := by
      rw [List.map_cons, logOps, List.filterMap_cons, txRecordOp]
      rfl
    obtain ⟨key, value⟩ := w
    rw [head, List.filterMap_cons, ih]
    cases value <;> by_cases mem : tx ∈ c <;> simp [mutation, mem]

theorem recordsTx : ∀ o ∈ logOps (op.records tx), ∀ id, txOf o = some id →
    id = tx ∧ op.syncs := by
  intro o mem id eq
  cases op with
  | commit pending =>
    refine ⟨?_, rfl⟩
    change o ∈ logOps (txLog tx pending) at mem
    rw [txLogOps, List.mem_append, List.mem_singleton] at mem
    rcases mem with mem | rfl
    · rw [(pendingTx tx pending o mem).1] at eq
      exact (Option.some.inj eq).symm
    · exact (Option.some.inj eq).symm
  | put key value =>
    cases List.mem_singleton.mp mem
    cases eq
  | delete key =>
    cases List.mem_singleton.mp mem
    cases eq
  | _ => cases mem

def Op.next : Nat := if op.syncs then tx + 1 else tx

theorem nextLe : tx ≤ op.next tx := by
  unfold Op.next
  split <;> omega

theorem recordsFrom : From tx (logOps (op.records tx)) := by
  intro o mem id eq
  exact (recordsTx op tx o mem id eq).1.ge

theorem recordsBelow : Below (op.next tx) (logOps (op.records tx)) := by
  intro o mem id eq
  obtain ⟨rfl, syncs⟩ := recordsTx op tx o mem id eq
  simp [Op.next, syncs]

theorem resolveRecords : resolve (logOps (op.records tx)) = op.writes := by
  cases op with
  | commit pending =>
    change resolve (logOps (txLog tx pending)) = pending
    rw [txLogOps]
    have only : committed (logOps (pending.map (txRecord tx)) ++ [.commit tx]) = [tx] := by
      rw [committedAppend]
      have none : committed (logOps (pending.map (txRecord tx))) = [] := by
        rw [List.eq_nil_iff_forall_not_mem]
        intro id mem
        obtain ⟨same, other⟩ := pendingTx tx pending _ (committedMem.mp mem)
        cases Option.some.inj same
        exact other rfl
      rw [none]
      rfl
    rw [resolve, only, List.filterMap_append]
    rw [pendingMutations, if_pos (List.mem_singleton.mpr rfl)]
    simp [mutation]
  | _ => rfl

theorem resolvePart {part : List LogRecord} (cut : part <+: op.records tx)
    (short : part.length < (op.records tx).length) : resolve (logOps part) = [] := by
  have single : ∀ r, op.records tx = [r] → part = [] := by
    intro r eq
    rw [eq] at short
    exact List.length_eq_zero_iff.mp (by simpa using short)
  have nothing : ∀ r, op.records tx = [r] → resolve (logOps part) = [] := by
    intro r eq
    rw [single r eq]
    rfl
  cases op with
  | put key value => exact nothing _ rfl
  | delete key => exact nothing _ rfl
  | commit pending =>
    have cut : part <+: (.begin tx :: pending.map (txRecord tx)) ++ [.commit tx] := cut
    have inside : part <+: .begin tx :: pending.map (txRecord tx) := by
      rcases List.prefix_concat_iff.mp cut with all | inside
      · rw [all] at short
        exact absurd short (lt_irrefl _)
      · exact inside
    have uncommitted : ∀ o ∈ logOps part, txOf o = some tx ∧ o ≠ .commit tx := fun o mem =>
      pendingTx tx pending o ((inside.filterMap LogRecord.op).subset mem)
    have none : committed (logOps part) = [] := by
      rw [List.eq_nil_iff_forall_not_mem]
      intro id mem
      obtain ⟨same, other⟩ := uncommitted _ (committedMem.mp mem)
      cases Option.some.inj same
      exact other rfl
    rw [resolve, none, List.filterMap_eq_nil_iff]
    intro o mem
    have same := (uncommitted o mem).1
    cases o with
    | put => cases same
    | delete => cases same
    | _ => rfl
  | _ => exact absurd short (Nat.not_lt_zero _)

/-- What the operations of a history log, one after the other. -/
def recs (H : List (Op × Nat)) : List LogRecord := H.flatMap (fun g => g.1.records g.2)

def writesOf (H : List (Op × Nat)) : List Rec := H.flatMap (fun g => g.1.writes)

/-- Ids are never used again. -/
def Ascending (H : List (Op × Nat)) : Prop := H.Pairwise (fun a b => a.1.next a.2 ≤ b.2)

theorem replayCut {Q : List RawOp} {H : List (Op × Nat)} (order : Ascending H)
    (below : ∀ g ∈ H, Below g.2 Q) {K : List LogRecord} (cut : K <+: recs H) {m : Nat}
    (inside : m ≤ H.length) (least : recs (H.take m) <+: K) :
    ∃ j, m ≤ j ∧ j ≤ H.length ∧ resolve (Q ++ logOps K) = resolve Q ++ writesOf (H.take j) := by
  induction H generalizing Q K m with
  | nil =>
    have none : K = [] := List.prefix_nil.mp cut
    refine ⟨m, le_rfl, inside, ?_⟩
    rw [none]
    simp [logOps, writesOf]
  | cons g H ih =>
    have start := below g List.mem_cons_self
    have split : ∀ H, recs (g :: H) = g.1.records g.2 ++ recs H := fun _ => List.flatMap_cons
    rw [split] at cut
    by_cases short : K.length < (g.1.records g.2).length
    · have none : m = 0 := by
        cases m with
        | zero => rfl
        | succ m =>
          have whole := least.length_le
          rw [List.take_succ_cons, split, List.length_append] at whole
          omega
      have part : K <+: g.1.records g.2 :=
        List.prefix_of_prefix_length_le cut (List.prefix_append _ _) (by omega)
      have from_ : From g.2 (logOps K) :=
        (recordsFrom g.1 g.2).sub (part.filterMap LogRecord.op).subset
      refine ⟨0, none.le, Nat.zero_le _, ?_⟩
      rw [resolveAppend start from_, resolvePart g.1 g.2 part short]
      rfl
    · obtain ⟨K', rfl⟩ :=
        List.prefix_of_prefix_length_le (List.prefix_append _ _) cut (by omega)
      obtain ⟨later, order⟩ := List.pairwise_cons.mp order
      have below' : ∀ g' ∈ H, Below g'.2 (Q ++ logOps (g.1.records g.2)) := by
        intro g' mem
        have le := later g' mem
        exact (start.mono ((nextLe g.1 g.2).trans le)).append ((recordsBelow g.1 g.2).mono le)
      have least' : recs (H.take (m - 1)) <+: K' := by
        cases m with
        | zero => simp [recs]
        | succ m =>
          rw [List.take_succ_cons, split] at least
          exact (List.prefix_append_right_inj _).mp least
      have inside' : m - 1 ≤ H.length := by
        simp only [List.length_cons] at inside
        omega
      obtain ⟨j, low, high, eq⟩ :=
        ih order below' ((List.prefix_append_right_inj _).mp cut) inside' least'
      refine ⟨j + 1, by omega, by simpa using high, ?_⟩
      rw [logOpsAppend, ← List.append_assoc, eq, resolveAppend start (recordsFrom g.1 g.2),
        resolveRecords, List.append_assoc]
      rfl

end Records
end MyLsmDb
