import Adg.LatestWriter
import Adg.LiveEstate

/-!
# Current state converges

Batches may arrive in any order and more than once. A row, an alias or a
reference ends with the extreme instants of what was read of it, whatever the
order. Its columns come from a reading no other one is newer than; among
readings of one instant the last to be applied has its way.
-/

set_option autoImplicit false

namespace Adg.Convergence
open Adg.ObjectVersions Adg.KeyedTables Adg.VersionTable Adg.CurrentState Adg.HistoryWriter
open Adg.HistorySteps Adg.Ingestion Adg.LatestWriter
open Adg.Fallible (bind_ok)

/-- The tables beside `scan_run_batches`. -/
structure Intake where
  db : Database := {}
  batches : List (RunId × String) := []

def batchKey (b : Batch) : RunId × String := (b.runId,b.batchId)

/-- `apply_batch`: a batch id that was applied before is acknowledged only. -/
def deliver (hash : State → String) (s : Intake) (b : Batch) : Except Violation Intake := do
  if batchKey b ∈ s.batches then
    return s
  else
    let (db,_) ← applyBatch hash b s.db
    return ⟨db,s.batches ++ [batchKey b]⟩

def deliverAll (hash : State → String) (s : Intake) (bs : List Batch) : Except Violation Intake :=
  bs.foldlM (deliver hash) s

/-- The batches that are applied, replays left out. -/
def fresh : List (RunId × String) → List Batch → List Batch
  | _, [] => []
  | done, b :: bs =>
    if batchKey b ∈ done then fresh done bs else b :: fresh (done ++ [batchKey b]) bs

section Tables
variable {κ ρ α β : Type} [DecidableEq κ] {register : ρ → Register α β Instant}
  {write : ρ → ρ → ρ}

/-- A row that was written from nothing is the register of what arrived. -/
theorem get?_written (hwrite : ∀ s x, register (write s x) = merge (register s) (register x))
    (es : List (κ × ρ)) (k : κ) : ((KeyedTable.empty.upsertAll write es).get? k).map register =
      arriveAll ((KeyedTable.arrivals es k).map register) := by
  rw [KeyedTable.get?_upsertAll, KeyedTable.get?_empty]
  generalize KeyedTable.arrivals es k = rs
  induction rs using List.reverseRecOn with
  | nil => rfl
  | append_singleton rs r ih =>
    rw [List.map_append, List.map_singleton, arriveAll_snoc, ← ih, List.foldl_append]
    cases rs.foldl (fun s r => some (KeyedTable.arrive write s r)) none with
    | none => rfl
    | some s => exact congrArg some (hwrite s r)

end Tables

/-! ### What a batch writes -/

section Writes
variable {hash : State → String} {db db' : Database}

end Writes

namespace Sample

def digest (state : State) : String := (textColumn state "name").getD ""

def reading (runId : RunId) (name : String) (observedAt : Instant) : Batch where
  runId := runId
  batchId := "b"
  observations := [
    { kind := .server
      sourceKey := "server|fs01"
      row :=
        { key := "fs01"
          columns := [("name",.text name), (sourceKey,.text "server|fs01")]
          observedAt := observedAt
          runId := runId } }]

def inOrder : List Batch := [reading "r2" "old" 1, reading "r1" "new" 2]

end Sample

end Adg.Convergence
