import Adg.ScanRuns
import Adg.SourceKeys

/-!
# The transactions of one run, statement by statement

Under READ COMMITTED a statement sees what has been committed when it starts,
and what its own transaction wrote. An update of the run's row and a select
for update wait for each other. Nothing else is made to wait here: a foreign
key or a row that two transactions write delays some of these interleavings,
and all of them are allowed.
-/

set_option autoImplicit false

namespace Adg.RunInterleaving
open Adg.ObjectVersions Adg.KeyedTables Adg.VersionTable Adg.CurrentState Adg.ScopeClosure
open Adg.HistoryWriter Adg.Ingestion Adg.Checkpoints Adg.ScanRuns Adg.SourceKeys

/-- What the statements of a batch have written and not committed: the objects
it affirmed, each with the instant, and what it counts. -/
structure Written where
  affirmed : List (Object × Instant)
  counts : AffirmationResult
  deriving Repr

/-- How far a batch has got. A transaction that is done has ended, committed or not. -/
inductive BatchPhase where
  | arrived
  | checked
  | claimed
  | written (w : Written)
  | counted (w : Written)
  | done
  deriving Repr

/-- How far a completion has got, with the row it locked. -/
inductive CompletionPhase where
  | arrived
  | locked (row : ScanRun)
  | closing (row : ScanRun) (tombstones : List Object)
  | done
  deriving Repr

variable (text : TextRules)

inductive Tx where
  | batch (b : Batch) (phase : BatchPhase)
  | completion (c : ScanRunCompletion text) (phase : CompletionPhase)

/-- What has been committed about one run, and its transactions. What the
completion judged on, what it buried and what its batches saw are written down
beside them. -/
structure World where
  runId : RunId
  run : ScanRun
  applied : List String := []
  db : Database
  txs : List (Tx text) := []
  lock : Option ℕ := none
  judged : Option ℕ := none
  tombstoned : List Object := []
  seen : List Object := []

inductive Action where
  | begin (tx : Tx text)
  | readStatus (i : ℕ)
  | claim (i : ℕ)
  | write (i : ℕ) (w : Written)
  | count (i : ℕ)
  | lockRun (i : ℕ)
  | conclude (i : ℕ)
  | close (i : ℕ) (kind : ObservationKind) (candidates : List String)
  | commit (i : ℕ)
  | rollback (i : ℕ)
  | environment (db : Database)

section Steps
variable {text}

/-- `check_source_key`, and the run of the envelope. -/
def wellFormed (runId : RunId) (b : Batch) : Bool :=
  b.runId = runId ∧ b.observations.all fun o => o.sourceKey = sourceKeyOf (o.kind,o.row.key)

/-- A transaction that has not read anything yet. -/
def opening (runId : RunId) : Tx text → Option (Tx text)
  | .batch b _ => if wellFormed runId b then some (.batch b .arrived) else none
  | .completion c _ => if c.runId = runId then some (.completion c .arrived) else none

/-- A batch that read an open status and has not ended. -/
def Tx.inFlight : Tx text → Bool
  | .batch _ .arrived | .batch _ .done | .completion .. => false
  | .batch _ _ => true

/-- Another batch inserted the same id and has not ended. -/
def Tx.claims (batchId : String) : Tx text → Bool
  | .batch b (.claimed) | .batch b (.written _) | .batch b (.counted _) => b.batchId = batchId
  | _ => false

def World.put (w : World text) (i : ℕ) (tx : Tx text) : World text :=
  { w with txs := w.txs.set i tx }

def World.release (w : World text) (i : ℕ) : World text :=
  { w with lock := if w.lock = some i then none else w.lock }

/-- The objects a batch observed, the affirmed ones with them. -/
def observedBy (b : Batch) (w : Written) : List Object :=
  b.observations.map (fun o => (o.kind,o.row.key)) ++ w.affirmed.map (·.1)

def affirmedRow (b : Batch) (a : Object × Instant) : (RunId × String) × ObservationRow :=
  ((b.runId,sourceKeyOf a.1),
    { kind := a.1.1
      batchId := b.batchId
      observedAt := a.2
      subjectKey := a.1.2 })

/-- The rows a batch inserts into the run's record. -/
def recordedRows (b : Batch) (w : Written) : List ((RunId × String) × ObservationRow) :=
  b.observations.map (observationRow b) ++ w.affirmed.map (affirmedRow b)

/-- What a completion may still write once it holds the row: nothing when it is
refused or finds the run completed. -/
def accepts (c : ScanRunCompletion text) (row : ScanRun) : Bool :=
  c.reconciledScopes.all row.declares ∧
    ¬ (c.reconciledScopes ≠ [] ∧ row.mode.isIncremental) ∧ ¬ row.status.isTerminal ∧
    row.startedAt ≤ c.completedAt

/-- The scopes a completion reconciles, given the count it judges on. -/
def requested (c : ScanRunCompletion text) (row : ScanRun) : List ScopeRef :=
  if (resolveStatus c row.batchCountReceived).2.isSome then [] else c.reconciledScopes

def ownRecord (runId : RunId) (db : Database) : List ((RunId × String) × ObservationRow) :=
  db.observations.entries.filter (·.1.1 = runId)

/-- One statement of one transaction, when it need not wait. Other transactions
change every other table as they like, this run's record aside. -/
def step (w : World text) : Action text → Option (World text)
  | .begin tx => (opening w.runId tx).map fun tx => { w with txs := w.txs ++ [tx] }
  | .readStatus i =>
    match w.txs[i]? with
    | some (.batch b .arrived) =>
      some (w.put i (.batch b (if w.run.status.isTerminal then .done else .checked)))
    | _ => none
  | .claim i =>
    match w.txs[i]? with
    | some (.batch b .checked) =>
      if w.txs.any (Tx.claims b.batchId) then none
      else some (w.put i (.batch b (if b.batchId ∈ w.applied then .done else .claimed)))
    | _ => none
  | .write i written =>
    match w.txs[i]? with
    | some (.batch b .claimed) => some (w.put i (.batch b (.written written)))
    | _ => none
  | .count i =>
    match w.txs[i]? with
    | some (.batch b (.written written)) =>
      if w.lock.isSome then none
      else some { w.put i (.batch b (.counted written)) with lock := some i }
    | _ => none
  | .lockRun i =>
    match w.txs[i]? with
    | some (.completion c .arrived) =>
      if w.lock.isSome then none
      else some { w.put i (.completion c (.locked w.run)) with lock := some i }
    | _ => none
  | .conclude i =>
    match w.txs[i]? with
    | some (.completion c (.locked row)) =>
      if accepts c row then some (w.put i (.completion c (.closing row [])))
      else some ((w.put i (.completion c .done)).release i)
    | _ => none
  | .close i kind candidates =>
    match w.txs[i]? with
    | some (.completion c (.closing row tombstones)) =>
      if requested c row = [] then none
      else some (w.put i (.completion c (.closing row (tombstones ++
        ((unobservedOpenVersions w.db kind candidates w.runId c.completedAt).filter
          (·.isPresent)).map ObjectVersion.object))))
    | _ => none
  | .commit i =>
    match w.txs[i]? with
    | some (.batch b (.counted written)) =>
      some { (w.put i (.batch b .done)).release i with
        run := countBatch b written.counts w.run
        applied := w.applied ++ [b.batchId]
        db := { w.db with observations := w.db.observations.insertNew (recordedRows b written) }
        seen := w.seen ++ observedBy b written }
    | some (.completion c (.closing row tombstones)) =>
      some { (w.put i (.completion c .done)).release i with
        run := closeRun c (resolveStatus c row.batchCountReceived).1
          (resolveStatus c row.batchCountReceived).2 (requested c row) w.run
        judged := some row.batchCountReceived
        tombstoned := w.tombstoned ++ tombstones }
    | _ => none
  | .rollback i =>
    match w.txs[i]? with
    | some (.batch b _) => some ((w.put i (.batch b .done)).release i)
    | some (.completion c _) => some ((w.put i (.completion c .done)).release i)
    | none => none
  | .environment db =>
    if ownRecord w.runId db = ownRecord w.runId w.db then some { w with db := db } else none

/-- A step that would have to wait leaves nothing behind. -/
def run (w : World text) : List (Action text) → Option (World text)
  | [] => some w
  | a :: as => (step w a).bind fun w => run w as

/-- No batch that saw the run open is still under way. -/
def World.quiet (w : World text) : Bool := w.txs.all (¬ ·.inFlight)

def isCompletion : Option (Tx text) → Bool
  | some (.completion ..) => true
  | _ => false

/-- A completion that commits finds no batch under way that saw the run open. -/
def unhurried (w : World text) : Action text → Bool
  | .commit i => ¬ isCompletion w.txs[i]? ∨ w.quiet
  | _ => true

/-- Every completion of the run commits so. -/
def undisturbed (w : World text) : List (Action text) → Bool
  | [] => true
  | a :: as => unhurried w a && (step w a).all fun w => undisturbed w as

/-- The run has just been opened. -/
structure Opened (w : World text) : Prop where
  running : w.run.status = .running
  received : w.run.batchCountReceived = 0
  applied : w.applied = []
  record : ownRecord w.runId w.db = []
  txs : w.txs = []
  judged : w.judged = none
  tombstoned : w.tombstoned = []
  seen : w.seen = []

end Steps

end Adg.RunInterleaving
