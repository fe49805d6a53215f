import MyLsmDb.Wal

/-! A log cut anywhere: the replay gives what the complete records in front of the cut
mean, transactions counted by the commit records among them. -/
namespace MyLsmDb.LogPrefix
open ByteOrder (Bytes)
open Wal

section Cut
variable [Crc32]

/-- The longest run of records that the first `n` bytes hold. -/
def completeRecords : Nat → List LogRecord → List LogRecord
  | _, [] => []
  | n, r :: log =>
    if r.bytes.length ≤ n then r :: completeRecords (n - r.bytes.length) log else []

/-- What a run of records does to the store, in log order. -/
def resolution (log : List LogRecord) : List Rec :=
  log.filterMap (fun r => match r with
    | .plain key value => some (key, value)
    | .txPut tx key value => if .commit tx ∈ log then some (key, some value) else none
    | .txDelete tx key => if .commit tx ∈ log then some (key, none) else none
    | .begin _ => none
    | .commit _ => none
    | .abort _ => none)

/-- Of the runs from the front of the log that `n` bytes hold, the longest. -/
structure LongestRun (log : List LogRecord) (n : Nat) (run : List LogRecord) : Prop where
  start : run <+: log
  inside : (logBytes run).length ≤ n
  longest : ∀ other, other <+: log → (logBytes other).length ≤ n → other <+: run

structure LargestTx (log : List LogRecord) (n : Nat) : Prop where
  above : ∀ r ∈ log, ∀ tx, r.tx = some tx → tx ≤ n
  seen : n = 0 ∨ ∃ r ∈ log, r.tx = some n

theorem completeSplit (n : Nat) (log : List LogRecord) : ∃ after torn,
    log = completeRecords n log ++ after ∧
      (logBytes log).take n = logBytes (completeRecords n log) ++ torn ∧
      ∀ r rest, after = r :: rest → torn <+: r.bytes ∧ torn.length < r.bytes.length := by
  induction log generalizing n with
  | nil => exact ⟨[], [], rfl, by simp [completeRecords], by simp⟩
  | cons r log ih =>
    have whole : logBytes (r :: log) = r.bytes ++ logBytes log := List.flatMap_cons
    by_cases fit : r.bytes.length ≤ n
    · obtain ⟨after, torn, split, cut, last⟩ := ih (n - r.bytes.length)
      rw [completeRecords, if_pos fit]
      refine ⟨after, torn, congrArg (r :: ·) split, ?_, last⟩
      have head : logBytes (r :: completeRecords (n - r.bytes.length) log) =
        r.bytes ++ logBytes (completeRecords (n - r.bytes.length) log) := List.flatMap_cons
      rw [whole, List.take_append, List.take_of_length_le fit, cut, head, List.append_assoc]
    · rw [completeRecords, if_neg fit]
      refine ⟨r :: log, (logBytes (r :: log)).take n, rfl, rfl, ?_⟩
      intro x rest e
      cases e
      rw [whole, List.take_append_of_le_length (by omega)]
      exact ⟨List.take_prefix _ _, by rw [List.length_take]; omega⟩

omit [Crc32] in
theorem committedMem (log : List LogRecord) (tx : Nat) :
    tx ∈ committed (logOps log) ↔ .commit tx ∈ log := by
  unfold committed logOps
  simp only [List.mem_filterMap]
  constructor
  · intro h
    obtain ⟨op, ⟨r, m, same⟩, last⟩ := h
    cases op <;> cases last
    cases r with
    | commit t => cases same; exact m
    | plain key value => cases value <;> cases same
    | _ => cases same
  · intro m
    exact ⟨.commit tx, ⟨.commit tx, m, rfl⟩, rfl⟩

omit [Crc32] in
theorem resolveOps (log : List LogRecord) : resolve (logOps log) = resolution log := by
  unfold resolve resolution
  have same (c : List Nat) (l : List LogRecord) : (logOps l).filterMap (mutation c) =
      l.filterMap (fun r => r.op.bind (mutation c)) := by
    unfold logOps
    rw [List.filterMap_filterMap]
  rw [same]
  refine List.filterMap_congr (fun r m => ?_)
  cases r with
  | plain key value => cases value <;> rfl
  | txPut tx key value => simp [LogRecord.op, mutation, committedMem]
  | txDelete tx key => simp [LogRecord.op, mutation, committedMem]
  | _ => rfl

omit [Crc32] in
theorem maxTxLargest (log : List LogRecord) : LargestTx log (logMaxTx log) := by
  induction log with
  | nil => exact ⟨by simp, .inl rfl⟩
  | cons r log ih =>
    have step : logMaxTx (r :: log) = max (r.tx.getD 0) (logMaxTx log) := rfl
    constructor
    · intro x m tx same
      rw [step]
      obtain rfl | m := List.mem_cons.mp m
      · simp [same]
      · exact le_max_of_le_right (ih.above x m tx same)
    · rw [step]
      obtain le | le := le_total (r.tx.getD 0) (logMaxTx log)
      · rw [max_eq_right le]
        obtain none | ⟨x, m, same⟩ := ih.seen
        · exact .inl none
        · exact .inr ⟨x, List.mem_cons_of_mem _ m, same⟩
      · rw [max_eq_left le]
        cases e : r.tx with
        | none => exact .inl rfl
        | some tx => exact .inr ⟨r, List.mem_cons_self, e⟩

theorem completeLongest (n : Nat) (log : List LogRecord) :
    LongestRun log n (completeRecords n log) := by
  induction log generalizing n with
  | nil => exact ⟨List.prefix_rfl, by simp [completeRecords], fun run before _ => before⟩
  | cons r log ih =>
    have whole (rest : List LogRecord) : logBytes (r :: rest) = r.bytes ++ logBytes rest :=
      List.flatMap_cons
    by_cases fit : r.bytes.length ≤ n
    · have rest := ih (n - r.bytes.length)
      rw [completeRecords, if_pos fit]
      constructor
      · exact List.cons_prefix_cons.mpr ⟨rfl, rest.start⟩
      · have := rest.inside
        rw [whole, List.length_append]
        omega
      · intro run start inside
        cases run with
        | nil => exact List.nil_prefix
        | cons x run =>
          obtain ⟨rfl, tail⟩ := List.cons_prefix_cons.mp start
          rw [whole, List.length_append] at inside
          exact List.cons_prefix_cons.mpr ⟨rfl, rest.longest run tail (by omega)⟩
    · rw [completeRecords, if_neg fit]
      refine ⟨List.nil_prefix, Nat.zero_le _, fun run start inside => ?_⟩
      cases run with
      | nil => exact List.nil_prefix
      | cons x run =>
        obtain ⟨rfl, _⟩ := List.cons_prefix_cons.mp start
        rw [whole, List.length_append] at inside
        omega

theorem replayInverts {log : List LogRecord} (fits : LogFits log) (n : Nat) :
    let run := completeRecords n log
    let result := replay ((logBytes log).take n)
    LongestRun log n run ∧ result.records = resolution run ∧ LargestTx run result.maxTxId := by
  obtain ⟨after, torn, split, cut, last⟩ := completeSplit n log
  have stops : readRecord torn = none := by
    cases after with
    | nil =>
      have all : completeRecords n log = log := by simpa using split.symm
      rw [all] at cut
      have short := congrArg List.length cut
      rw [List.length_take, List.length_append] at short
      have empty : torn = [] := List.length_eq_zero_iff.mp (by omega)
      rw [empty]
      exact readRecordNil
    | cons r rest =>
      obtain ⟨part, short⟩ := last r rest rfl
      exact readRecordTorn (fits r (split ▸ by simp)) part short
  have whole := replayLog (fun r m => fits r (split ▸ List.mem_append_left _ m)) stops
  dsimp only
  rw [cut, whole]
  exact ⟨completeLongest n log, resolveOps _, maxTxLargest _⟩

end Cut

attribute [local instance] ieee

theorem replayInvertsCut :
    let log := [.begin 7, .txPut 7 [1] [2], .plain [3] none, .commit 7]
    LogFits log ∧
      LongestRun log 50 (completeRecords 50 log) ∧
        (replay ((logBytes log).take 50)).records = resolution (completeRecords 50 log) ∧
        LargestTx (completeRecords 50 log) (replay ((logBytes log).take 50)).maxTxId := by
  have fits : LogFits [.begin 7, .txPut 7 [1] [2], .plain [3] none, .commit 7] := by
    simp [LogFits, LogRecord.Fits]
  exact ⟨fits, replayInverts fits 50⟩

end MyLsmDb.LogPrefix
