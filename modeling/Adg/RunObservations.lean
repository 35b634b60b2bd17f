import Adg.HistorySteps
import Adg.Ingestion

/-!
# A run's own record

The table of observations only grows. A batch adds its own observations to it
and what it affirms, and a completion reads it without changing it.
-/

set_option autoImplicit false

namespace Adg.RunObservations
open Adg.ObjectVersions Adg.KeyedTables Adg.VersionTable Adg.CurrentState Adg.ScopeClosure
open Adg.HistoryWriter Adg.HistorySteps Adg.Ingestion
open Adg.Fallible (bind_ok)

section Batches
variable {hash : State → String} {db db' : Database}

theorem writeRows_observations {kind : ObservationKind} {rows : List Reading} {o : HistoryOutcome}
    (h : writeRows hash kind rows db = .ok (db',o)) : db'.observations = db.observations := by
  unfold writeRows at h
  split at h
  · exact congrArg Database.observations (Prod.mk.inj (Except.ok.inj h)).1.symm
  · obtain ⟨⟨t,o'⟩,-,h⟩ := bind_ok.mp h
    obtain rfl := (Prod.mk.inj (Except.ok.inj h)).1
    rfl

theorem writeKinds_observations {b : Batch} {kinds : List ObservationKind} {o o' : HistoryOutcome}
    (h : writeKinds hash b kinds o db = .ok (db',o')) : db'.observations = db.observations := by
  induction kinds generalizing db o with
  | nil => exact congrArg Database.observations (Prod.mk.inj (Except.ok.inj h)).1.symm
  | cons kind kinds ih =>
    obtain ⟨⟨db1,o1⟩,h1,h⟩ := bind_ok.mp h
    exact (ih h).trans (writeRows_observations h1)

variable {runId : RunId} {batchId : String} {sources : List Affirmation}
  {result result' : AffirmationResult}

theorem applyGroup_observations {group : Instant × List String}
    (h : applyGroup runId batchId sources group result db = .ok (db',result')) :
    db.observations.Within db'.observations := by
  unfold applyGroup at h
  obtain ⟨⟨t1,o⟩,-,h⟩ := bind_ok.mp h
  dsimp only at h
  split at h
  · obtain rfl := (Prod.mk.inj (Except.ok.inj h)).1
    exact KeyedTable.Within.refl _
  · obtain ⟨⟨t2,o2⟩,-,h⟩ := bind_ok.mp h
    obtain rfl := (Prod.mk.inj (Except.ok.inj h)).1
    exact KeyedTable.within_insertNew _ _

theorem applyGroups_observations {groups : List (Instant × List String)}
    (h : applyGroups runId batchId sources groups result db = .ok (db',result')) :
    db.observations.Within db'.observations := by
  induction groups generalizing db result with
  | nil =>
    obtain rfl : db = db' := (Prod.mk.inj (Except.ok.inj h)).1
    exact KeyedTable.Within.refl _
  | cons group groups ih =>
    obtain ⟨⟨db1,result1⟩,h1,h⟩ := bind_ok.mp h
    exact (applyGroup_observations h1).trans (ih h)

/-- A batch keeps what was recorded, and its own observations are recorded. -/
theorem applyBatch_observations {b : Batch} {o : HistoryOutcome × AffirmationResult}
    (h : applyBatch hash b db = .ok (db',o)) :
    db.observations.Within db'.observations ∧
      ∀ x ∈ b.observations, ∃ row, db'.observations.get? (b.runId,x.sourceKey) = some row := by
  obtain ⟨⟨db1,o1⟩,h1,h⟩ := bind_ok.mp h
  obtain ⟨⟨db2,r2⟩,h2,h⟩ := bind_ok.mp h
  obtain rfl : db2 = db' := (Prod.mk.inj (Except.ok.inj h)).1
  obtain ⟨⟨db3,r3⟩,h3,h2⟩ := bind_ok.mp h2
  obtain rfl : db3 = db2 := (Prod.mk.inj (Except.ok.inj h2)).1
  have hbefore : db1.observations = db.observations := writeKinds_observations h1
  have hafter := applyGroups_observations h3
  refine ⟨hbefore ▸ (KeyedTable.within_insertNew _ _).trans hafter,fun x hx => ?_⟩
  have harrived : ((writeObservations b (writeReferences b (writeAliases b db1))).observations.get?
      (b.runId,x.sourceKey)).isSome = true :=
    KeyedTable.insertNew_isSome.mpr (.inr
      (List.mem_map.mpr ⟨_,List.mem_map.mpr ⟨x,hx,rfl⟩,rfl⟩))
  obtain ⟨row,hrow⟩ := Option.isSome_iff_exists.mp harrived
  exact ⟨row,hafter _ _ hrow⟩

end Batches

/-- A completion writes versions and nothing else. -/
theorem closeReconciled_frame {casefold : String → String} {runId : RunId}
    {collector : CollectorKind} {completedAt : Instant} {scopes : List (ScopeKind × String)}
    {db db' : Database} {o : List ClosureOutcome}
    (h : closeReconciled casefold runId collector completedAt scopes db = .ok (db',o)) :
    db'.current = db.current ∧ db'.observations = db.observations := by
  induction scopes generalizing db o with
  | nil =>
    obtain rfl : db = db' := (Prod.mk.inj (Except.ok.inj h)).1
    exact ⟨rfl,rfl⟩
  | cons scope scopes ih =>
    obtain ⟨⟨t1,o1⟩,-,h⟩ := bind_ok.mp h
    obtain ⟨⟨db2,o2⟩,h2,h⟩ := bind_ok.mp h
    obtain rfl : db2 = db' := (Prod.mk.inj (Except.ok.inj h)).1
    obtain ⟨hc,ho⟩ := ih h2
    exact ⟨hc,ho⟩

end Adg.RunObservations
