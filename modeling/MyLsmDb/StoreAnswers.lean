import MyLsmDb.Faultless
import MyLsmDb.PlanAnswers

/-! The queries of a process that meets no fault. The indexes that their plans use have the entries of
the entities, so they answer what their words say. -/
namespace MyLsmDb
open ByteOrder (Bytes)
open Effect
open Executor (run)
open OrderedEntries
open Planner (Suited)
open Text
open Wal (Crc32)

section Queries
variable [Crc32] {s : EntityStore}

end Queries

section Lived
attribute [local instance] Wal.ieee
open Planner

end Lived
end MyLsmDb
