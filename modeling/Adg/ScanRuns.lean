import Adg.Checkpoints
import Adg.RunObservations

/-!
# Runs on the server

A run is opened, takes its batches one transaction each, and is completed. A
message that is refused leaves the server as it was. Batches and completions
move the cursor of the run's job inside their own transactions.
-/

set_option autoImplicit false

namespace Adg.ScanRuns
open Adg.ObjectVersions Adg.KeyedTables Adg.VersionTable Adg.CurrentState Adg.ScopeClosure
open Adg.HistoryWriter Adg.HistorySteps Adg.Ingestion Adg.RunObservations Adg.Checkpoints

inductive ScanStatus where
  | pending
  | running
  | succeeded
  | partially
  | failed
  | canceled
  deriving DecidableEq, Repr

def ScanStatus.isTerminal (s : ScanStatus) : Bool :=
  s = .succeeded ∨ s = .partially ∨ s = .failed ∨ s = .canceled

structure SourceDescriptor where
  collector : CollectorKind
  collectorHost : String
  method : String
  collectorVersion : Option String := none
  target : Option String := none
  deriving DecidableEq, Repr

/-- The fields `source_fingerprint` joins. The digest of the joined text is taken to
tell them apart. -/
abbrev Fingerprint := CollectorKind × String × String × String × String

def sourceFingerprint (casefold : String → String) (s : SourceDescriptor) : Fingerprint :=
  (s.collector,casefold s.collectorHost,s.method,s.collectorVersion.getD "",
    casefold (s.target.getD ""))

structure CollectorError where
  code : String
  message : String
  target : Option String := none
  occurredAt : Option Instant := none
  deriving DecidableEq, Repr

abbrev ScopeRef := ScopeKind × String

/-- A row of `scan_runs`, with the scopes and the errors that hang from it. -/
structure ScanRun where
  sourceId : Fingerprint
  status : ScanStatus
  mode : CollectionMode
  job : Option String
  startedAt : Instant
  completedAt : Option Instant := none
  declared : List ScopeRef
  reconciled : List ScopeRef := []
  batchCountReported : Option ℕ := none
  batchCountReceived : ℕ := 0
  observationCountReported : Option ℕ := none
  observationCountApplied : ℕ := 0
  errorCount : ℕ := 0
  errors : List CollectorError := []
  affirmationCountReported : Option ℕ := none
  affirmationCountApplied : ℕ := 0
  affirmationsRefused : ℕ := 0
  notes : Option String := none
  downgradeReason : Option String := none
  deriving DecidableEq, Repr

/-- A row of `scan_run_batches`, its key aside. -/
structure AppliedBatch where
  sequence : ℕ
  isFinal : Bool
  observationCount : ℕ
  continuationToken : Option String
  deriving DecidableEq, Repr

inductive CheckpointRole where
  | baseline
  | result
  deriving DecidableEq, Repr

section Messages
variable (text : TextRules)

structure ScanRunStart where
  runId : RunId
  source : SourceDescriptor
  startedAt : Instant
  scopes : List ScopeRef
  mode : CollectionMode := .full
  job : Option String := none
  notes : Option String := none
  baseline : Option (Checkpoint text) := none

/-- `ObservationBatch`, with the rows planned from it. -/
structure ObservationBatch where
  payload : Batch
  sequence : ℕ
  isFinal : Bool := false
  continuationToken : Option String := none
  checkpoint : Option (Checkpoint text) := none

/-- `ScanRunCompletion`, which only builds when its parts agree. -/
structure ScanRunCompletion where
  runId : RunId
  status : ScanStatus
  completedAt : Instant
  batchCount : ℕ
  observationCount : ℕ := 0
  errorCount : ℕ := 0
  errors : List CollectorError := []
  reconciledScopes : List ScopeRef := []
  notes : Option String := none
  affirmationCount : ℕ := 0
  checkpoint : Option (Checkpoint text) := none
  terminal : status.isTerminal = true
  checkpoint_clean : checkpoint.isSome = true → status = .succeeded ∧ errorCount = 0
  errors_counted : errors.length ≤ errorCount
  succeeded_clean : status = .succeeded → errorCount = 0
  reconciles_clean : reconciledScopes ≠ [] → status = .succeeded ∧ errorCount = 0

/-- The tables of the server. -/
structure Server where
  db : Database := Database.blank
  sources : KeyedTable Fingerprint SourceDescriptor := .empty
  runs : KeyedTable RunId ScanRun := .empty
  batches : KeyedTable (RunId × String) AppliedBatch := .empty
  checkpoints : KeyedTable JobKey (StoredCheckpoint text) := .empty
  runCheckpoints : KeyedTable (RunId × CheckpointRole) (Checkpoint text) := .empty

end Messages

/-- Why a message is refused. -/
inductive IngestionError where
  | runNotFound
  | runCompleted (status : ScanStatus)
  | differentStart
  | noJob
  | undeclaredScopes (scopes : List ScopeRef)
  | incrementalReconciles
  | outcomeRevised (stored claimed : ScanStatus)
  | completedBeforeStart
  | violation (v : Violation)

section Transactions
variable {text : TextRules} (hash : State → String)

/-- `start_run`. -/
def startRun (m : ScanRunStart text) (s : Server text) : Except IngestionError (Server text) :=
  let sourceId := sourceFingerprint text.casefold m.source
  let s := { s with sources := s.sources.insertNew [(sourceId,m.source)] }
  match s.runs.get? m.runId with
  | some run =>
    if run.sourceId = sourceId ∧ run.mode = m.mode ∧ run.job = m.job ∧
        run.declared.Perm m.scopes then .ok s
    else .error .differentStart
  | none =>
    .ok { s with
      runs := s.runs.insertNew [(m.runId,
        { sourceId := sourceId
          status := .running
          mode := m.mode
          job := m.job
          startedAt := m.startedAt
          declared := m.scopes
          notes := m.notes })]
      runCheckpoints := match m.baseline with
        | none => s.runCheckpoints
        | some c => s.runCheckpoints.upsert (fun _ excluded => excluded) ((m.runId,.baseline),c) }

/-- `_advance_checkpoint`. -/
def advanceCheckpoint (checkpoint : Option (Checkpoint text)) (runId : RunId)
    (batchId : Option String) (run : ScanRun) (collectorHost : Option String) (now : Instant)
    (s : Server text) : Except IngestionError (Server text × Option (CheckpointAdvance text)) :=
  match checkpoint with
  | none => .ok (s,none)
  | some c =>
    match run.job with
    | none | some "" => .error .noJob
    | some job =>
      let moved := advance (run.sourceId.1,job) c (some runId) batchId collectorHost now s.checkpoints
      .ok ({ s with checkpoints := moved.1 },some moved.2)

structure BatchOutcome (text : TextRules) where
  applied : ℕ
  duplicate : Bool
  affirmations : AffirmationResult := {}
  checkpoint : Option (CheckpointAdvance text) := none
  history : HistoryOutcome := {}

def ScanRun.declares (run : ScanRun) (scope : ScopeRef) : Bool := scope ∈ run.declared

def violated {α : Type} : Except Violation α → Except IngestionError α
  | .error v => .error (.violation v)
  | .ok a => .ok a

def ObservationBatch.row (m : ObservationBatch text) : AppliedBatch where
  sequence := m.sequence
  isFinal := m.isFinal
  observationCount := m.payload.observations.length
  continuationToken := m.continuationToken

/-- What a batch adds to its run. -/
def countBatch (b : Batch) (affirmations : AffirmationResult) (run : ScanRun) : ScanRun :=
  { run with
    batchCountReceived := run.batchCountReceived+1
    observationCountApplied := run.observationCountApplied+b.observations.length
    affirmationCountApplied := run.affirmationCountApplied+affirmations.applied
    affirmationsRefused := run.affirmationsRefused+affirmations.refused.length }

/-- `apply_batch`. -/
def applyBatch (now : Instant) (m : ObservationBatch text) (s : Server text) :
    Except IngestionError (Server text × BatchOutcome text) :=
  let b := m.payload
  match s.runs.get? b.runId with
  | none => .error .runNotFound
  | some run =>
    if run.status.isTerminal then .error (.runCompleted run.status)
    else if (s.batches.get? (b.runId,b.batchId)).isSome then
      .ok (s,{ applied := 0, duplicate := true })
    else do
      let (db,history,affirmations) ← violated (Ingestion.applyBatch hash b s.db)
      let (s,moved) ← advanceCheckpoint m.checkpoint b.runId (some b.batchId) run
        ((s.sources.get? run.sourceId).map (·.collectorHost)) now
        { s with
          db := db
          batches := s.batches.insertNew [((b.runId,b.batchId),m.row)]
          runs := s.runs.update (fun k _ => k = b.runId) (countBatch b affirmations) }
      return (s,{ applied := b.observations.length
                  duplicate := false
                  affirmations := affirmations
                  checkpoint := moved
                  history := history })

/-- `_resolve_status`. -/
def resolveStatus (c : ScanRunCompletion text) (batchesReceived : ℕ) :
    ScanStatus × Option String :=
  if c.status = .succeeded ∧ batchesReceived < c.batchCount then
    (.partially,some s!"The collector reported sending {c.batchCount} batch(es); {batchesReceived} arrived. Coverage is incomplete, so the run is recorded as partial and reconciles nothing.")
  else (c.status,none)

structure CompletionOutcome (text : TextRules) where
  status : ScanStatus
  alreadyCompleted : Bool
  reconciledScopes : ℕ
  downgradeReason : Option String
  closures : List ClosureOutcome := []
  checkpoint : Option (CheckpointAdvance text) := none

/-- The row of a run that is completed. -/
def closeRun (c : ScanRunCompletion text) (status : ScanStatus) (downgradeReason : Option String)
    (reconciled : List ScopeRef) (run : ScanRun) : ScanRun :=
  { run with
    status := status
    completedAt := some c.completedAt
    reconciled := reconciled
    batchCountReported := some c.batchCount
    observationCountReported := some c.observationCount
    errorCount := c.errorCount
    errors := c.errors
    affirmationCountReported := some c.affirmationCount
    notes := match c.notes with
      | none | some "" => run.notes
      | some n => some n
    downgradeReason := downgradeReason }

/-- `complete_run`. -/
def completeRun (now : Instant) (c : ScanRunCompletion text) (s : Server text) :
    Except IngestionError (Server text × CompletionOutcome text) :=
  match s.runs.get? c.runId with
  | none => .error .runNotFound
  | some run =>
    let undeclared := c.reconciledScopes.filter (¬ run.declares ·)
    if undeclared ≠ [] then .error (.undeclaredScopes undeclared)
    else if c.reconciledScopes ≠ [] ∧ run.mode.isIncremental then .error .incrementalReconciles
    else
      let (status,downgradeReason) := resolveStatus c run.batchCountReceived
      let requested := if downgradeReason.isSome then [] else c.reconciledScopes
      if run.status.isTerminal then
        if run.status ≠ status then .error (.outcomeRevised run.status status)
        else .ok (s,{ status := status
                      alreadyCompleted := true
                      reconciledScopes := requested.length
                      downgradeReason := run.downgradeReason })
      else if c.completedAt < run.startedAt then .error .completedBeforeStart
      else do
        let s := { s with
          runs := s.runs.update (fun k _ => k = c.runId)
            (closeRun c status downgradeReason requested)
          runCheckpoints := match c.checkpoint with
            | none => s.runCheckpoints
            | some result =>
              s.runCheckpoints.upsert (fun _ excluded => excluded) ((c.runId,.result),result) }
        let (s,moved) ← advanceCheckpoint (if downgradeReason.isSome then none else c.checkpoint)
          c.runId none run none now s
        let (db,closures) ← violated
          (closeReconciled text.casefold c.runId run.sourceId.1 c.completedAt requested s.db)
        return ({ s with db := db },{ status := status
                                      alreadyCompleted := false
                                      reconciledScopes := requested.length
                                      downgradeReason := downgradeReason
                                      closures := closures
                                      checkpoint := moved })

/-! ### Deliveries -/

/-- A message that reaches the server, with the instant of its transaction. -/
inductive Delivery (text : TextRules) where
  | start (m : ScanRunStart text)
  | batch (now : Instant) (m : ObservationBatch text)
  | completion (now : Instant) (c : ScanRunCompletion text)

def Delivery.perform (s : Server text) : Delivery text → Except IngestionError (Server text)
  | .start m => startRun m s
  | .batch now m => (·.1) <$> applyBatch hash now m s
  | .completion now c => (·.1) <$> completeRun now c s

/-- A message that is refused leaves what was there. -/
def deliver (s : Server text) (d : Delivery text) : Server text :=
  match d.perform hash s with
  | .error _ => s
  | .ok s' => s'

def deliverAll (s : Server text) (ds : List (Delivery text)) : Server text :=
  ds.foldl (deliver hash) s

end Transactions

end Adg.ScanRuns
