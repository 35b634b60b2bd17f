import Adg.HistoryWriter

/-!
# Applying batches and completions

A batch is planned into at most one row an object, and its rows go to current
state and to history in one transaction. An affirmation is checked against the
stored digest and then confirms a resource with the entries stored under it. A
completion closes the scopes it reconciles, one after another.
-/

set_option autoImplicit false

namespace Adg.Ingestion
open Adg.ObjectVersions Adg.KeyedTables Adg.VersionTable Adg.CurrentState Adg.ScopeClosure
open Adg.HistoryWriter

/-- What is stored of one name of a principal. -/
structure Alias where
  kind : String
  value : String
  folded : String
  deriving DecidableEq, Repr

/-- `PrincipalReferenceRow`, its provenance aside. -/
structure Reference where
  principalKey : String
  referenceKind : String
  referenceKey : String
  columns : State
  deriving DecidableEq, Repr

/-- One observation with the rows built from it. -/
structure Observed where
  kind : ObservationKind
  sourceKey : String
  row : Reading
  aliases : List Alias := []
  reference : Option Reference := none
  deriving DecidableEq, Repr

/-- `AffirmationRow`. -/
structure Affirmation where
  sourceKey : String
  objectKey : String
  digest : String
  observedAt : Instant
  deriving DecidableEq, Repr

structure Batch where
  runId : RunId
  batchId : String
  observations : List Observed
  affirmations : List Affirmation := []
  deriving DecidableEq, Repr

/-! ### The plan -/

/-- A later reading takes the place of an earlier one, and so does an equal one. -/
def keepLater {α : Type} (observedAt : α → Instant) (previous next : α) : α :=
  if observedAt previous ≤ observedAt next then next else previous

/-- A dictionary of the latest, in the order of its keys. -/
def latest {κ α : Type} [DecidableEq κ] (observedAt : α → Instant) (entries : List (κ × α)) :
    KeyedTable κ α :=
  KeyedTable.empty.upsertAll (keepLater observedAt) entries

/-- What is latest is one of the entries. -/
theorem latest_forall {κ α : Type} [DecidableEq κ] {observedAt : α → Instant}
    {entries : List (κ × α)} {P : κ → α → Prop} (h : ∀ e ∈ entries, P e.1 e.2) :
    ∀ e ∈ (latest observedAt entries).entries, P e.1 e.2 := by
  refine KeyedTable.upsertAll_forall (fun k s r hs hr => ?_) (fun e he => ?_) h
  · unfold keepLater
    split
    · exact hr
    · exact hs
  · exact absurd he List.not_mem_nil

def keyed (kind : ObservationKind) (o : Observed) : Option (String × Reading) :=
  if o.kind = kind then some (o.row.key,o.row) else none

/-- The rows of one kind, one an object, sorted by key. -/
def plannedRows (b : Batch) (kind : ObservationKind) : List Reading :=
  ((latest Reading.observedAt (b.observations.filterMap (keyed kind))).entries.map
    (·.2)).insertionSort fun r s => r.key ≤ s.key

def aliasRows (o : Observed) : List ((String × String × String) × AliasRow) :=
  o.aliases.map fun a =>
    ((o.row.key,a.kind,a.folded),⟨a.value,o.row.observedAt,o.row.observedAt⟩)

/-- The alias rows. One statement writes different keys, so their order does not matter. -/
def plannedAliases (b : Batch) : List ((String × String × String) × AliasRow) :=
  (latest AliasRow.lastObservedAt (b.observations.flatMap aliasRows)).entries

def referenceRow (o : Observed) : Option ((String × String × String) × StoredRow) :=
  o.reference.map fun r =>
    ((r.principalKey,r.referenceKind,r.referenceKey),
      { columns := r.columns
        firstObservedAt := o.row.observedAt
        firstObservedRunId := o.row.runId
        lastObservedAt := o.row.observedAt
        lastObservedRunId := o.row.runId })

def plannedReferences (b : Batch) : List ((String × String × String) × StoredRow) :=
  (latest StoredRow.lastObservedAt (b.observations.filterMap referenceRow)).entries

def observationRow (b : Batch) (o : Observed) : (RunId × String) × ObservationRow :=
  ((b.runId,o.sourceKey),
    { kind := o.kind
      batchId := b.batchId
      observedAt := o.row.observedAt
      subjectKey := o.row.key })

/-! ### Writing -/

section Writing
variable (hash : State → String)

/-- One `_write_*`: the upsert, then the history of the same rows. -/
def writeRows (kind : ObservationKind) (rows : List Reading) (db : Database) :
    Except Violation (Database × HistoryOutcome) := do
  if rows = [] then
    return (db,{})
  else
    let db := db.upsertRows kind rows
    let (versions,outcome) ← record hash kind rows db.versions
    return ({ db with versions := versions },outcome)

/-- The order in which a batch writes its kinds. -/
def writeOrder : List ObservationKind :=
  [.principal, .membershipEdge, .server, .smbShare, .smbAce, .ntfsResource, .ntfsAce]

def writeAliases (b : Batch) (db : Database) : Database :=
  { db with aliases := db.aliases.upsertAll newestAlias (plannedAliases b) }

def writeReferences (b : Batch) (db : Database) : Database :=
  { db with references := db.references.upsertAll newestWins (plannedReferences b) }

def writeObservations (b : Batch) (db : Database) : Database :=
  { db with observations := db.observations.insertNew (b.observations.map (observationRow b)) }

def writeKinds (b : Batch) : List ObservationKind → HistoryOutcome → Database →
    Except Violation (Database × HistoryOutcome)
  | [], outcome, db => return (db,outcome)
  | kind :: kinds, outcome, db => do
    let (db,more) ← writeRows hash kind (plannedRows b kind) db
    writeKinds b kinds (outcome.add more) db

end Writing

/-! ### Affirmations -/

inductive RefusedReason where
  | unknownObject
  | noStoredDigest
  | digestMismatch
  | absent
  | untracked
  deriving DecidableEq, Repr

def RefusedReason.value : RefusedReason → String
  | .unknownObject => "unknown_object"
  | .noStoredDigest => "no_stored_digest"
  | .digestMismatch => "digest_mismatch"
  | .absent => "absent"
  | .untracked => "untracked"

structure RefusedAffirmation where
  sourceKey : String
  reason : RefusedReason
  deriving DecidableEq, Repr

structure AffirmationResult where
  applied : ℕ := 0
  refused : List RefusedAffirmation := []
  entriesConfirmed : ℕ := 0
  history : AffirmationOutcome := {}
  deriving DecidableEq, Repr

/-- `AffirmationOutcome.__add__`. -/
def addAffirmed (a b : AffirmationOutcome) : AffirmationOutcome where
  extended := a.extended+b.extended
  unchanged := a.unchanged+b.unchanged
  untracked := a.untracked ++ b.untracked
  absent := a.absent ++ b.absent

def aclHash (r : StoredRow) : Option String := textColumn r.columns "acl_hash"

/-- Whether the stored digest confirms an affirmation. -/
def verdict (db : Database) (a : Affirmation) : Option RefusedReason :=
  match db.row .ntfsResource a.objectKey with
  | none => some .unknownObject
  | some r =>
    match aclHash r with
    | none => some .noStoredDigest
    | some held => if held ≠ a.digest then some .digestMismatch else none

/-- `by_key`: a repeated key keeps its place and takes the last row. -/
def byKey (affirmations : List Affirmation) : List Affirmation :=
  ((KeyedTable.empty.upsertAll (fun _ next => next)
    (affirmations.map fun a => (a.objectKey,a))).entries).map (·.2)

/-- The accepted keys, by the instant they were affirmed at, earliest first. -/
def acceptedGroups (accepted : List Affirmation) : List (Instant × List String) :=
  ((accepted.map (·.observedAt)).dedup.insertionSort (· ≤ ·)).map fun t =>
    (t,(accepted.filter (·.observedAt = t)).map (·.objectKey))

/-- Whether a row of entries hangs under one of the resources. -/
def hangsUnder (keys : List String) (r : StoredRow) : Bool :=
  (textColumn r.columns "resource_key").any (· ∈ keys)

def confirmRow (observedAt : Instant) (runId : RunId) (r : StoredRow) : StoredRow :=
  { r with lastObservedAt := observedAt, lastObservedRunId := runId }

/-- The observations inserted for the stored rows of a kind. -/
def affirmedObservations (runId : RunId) (batchId : String) (kind : ObservationKind)
    (observedAt : Instant) (entries : List (String × StoredRow)) :
    List ((RunId × String) × ObservationRow) :=
  entries.filterMap fun e => (textColumn e.2.columns sourceKey).map fun source =>
    ((runId,source),
      { kind := kind
        batchId := batchId
        observedAt := observedAt
        subjectKey := e.1 })

/-- `_confirm_current_state`, with the number of entries it confirmed. -/
def confirmCurrentState (runId : RunId) (batchId : String) (keys : List String)
    (observedAt : Instant) (db : Database) : Database × ℕ :=
  let resources := (db.current .ntfsResource).update
    (fun k r => k ∈ keys ∧ r.lastObservedAt ≤ observedAt) (confirmRow observedAt runId)
  let aces := (db.current .ntfsAce).update
    (fun _ r => hangsUnder keys r ∧ r.lastObservedAt ≤ observedAt) (confirmRow observedAt runId)
  let seen :=
    affirmedObservations runId batchId .ntfsResource observedAt
      (resources.entries.filter fun e => e.1 ∈ keys) ++
    affirmedObservations runId batchId .ntfsAce observedAt
      (aces.entries.filter fun e => hangsUnder keys e.2)
  ({ db with
      current := fun k => if k = .ntfsResource then resources else if k = .ntfsAce then aces
        else db.current k
      observations := db.observations.insertNew seen },
    ((db.current .ntfsAce).entries.filter fun e =>
      hangsUnder keys e.2 ∧ e.2.lastObservedAt ≤ observedAt).length)

/-- One group of accepted keys. What the timeline would not confirm is confirmed nowhere. -/
def applyGroup (runId : RunId) (batchId : String) (sources : List Affirmation)
    (group : Instant × List String) (result : AffirmationResult) (db : Database) :
    Except Violation (Database × AffirmationResult) := do
  let (versions,outcome) ← affirm .ntfsResource group.2 group.1 runId db.versions
  let db := { db with versions := versions }
  let blocked := uniqueSorted outcome.refusedKeys
  let refused := blocked.filterMap fun k => (sources.find? (·.objectKey = k)).map fun a =>
    RefusedAffirmation.mk a.sourceKey (if k ∈ outcome.absent then .absent else .untracked)
  let result := { result with
    refused := result.refused ++ refused, history := addAffirmed result.history outcome }
  let confirmed := (uniqueSorted group.2).filter (· ∉ blocked)
  if confirmed = [] then
    return (db,result)
  else
    let (versions,contained) ← affirmContained .ntfsAce confirmed group.1 runId db.versions
    let (db,entries) := confirmCurrentState runId batchId confirmed group.1
      { db with versions := versions }
    return (db,{ result with
      applied := result.applied+confirmed.length
      entriesConfirmed := result.entriesConfirmed+entries
      history := addAffirmed result.history contained })

def applyGroups (runId : RunId) (batchId : String) (sources : List Affirmation) :
    List (Instant × List String) → AffirmationResult → Database →
    Except Violation (Database × AffirmationResult)
  | [], result, db => return (db,result)
  | group :: groups, result, db => do
    let (db,result) ← applyGroup runId batchId sources group result db
    applyGroups runId batchId sources groups result db

/-- `_apply_affirmations`. The verdicts are all given before anything is confirmed. -/
def applyAffirmations (b : Batch) (db : Database) :
    Except Violation (Database × AffirmationResult) := do
  let sources := byKey b.affirmations
  let refused := sources.filterMap fun a =>
    (verdict db a).map fun reason => RefusedAffirmation.mk a.sourceKey reason
  let accepted := sources.filter fun a => (verdict db a).isNone
  let (db,result) ←
    applyGroups b.runId b.batchId sources (acceptedGroups accepted) { refused := refused } db
  return (db,{ result with
    refused := result.refused.insertionSort fun x y => x.sourceKey ≤ y.sourceKey })

/-! ### The transactions -/

/-- What `apply_batch` writes for a batch it has not seen before. -/
def applyBatch (hash : State → String) (b : Batch) (db : Database) :
    Except Violation (Database × HistoryOutcome × AffirmationResult) := do
  let (db,history) ← writeKinds hash b writeOrder {} db
  let db := writeObservations b (writeReferences b (writeAliases b db))
  let (db,affirmations) ← applyAffirmations b db
  return (db,history.add { extended := affirmations.history.extended
                           unchanged := affirmations.history.unchanged },affirmations)

/-- A completion that the server accepted, with the scopes it reconciles. -/
structure Completion where
  runId : RunId
  collector : CollectorKind
  scopes : List (ScopeKind × String)
  completedAt : Instant
  deriving DecidableEq, Repr

/-- `_close_reconciled`. -/
def closeReconciled (casefold : String → String) (runId : RunId) (collector : CollectorKind)
    (completedAt : Instant) : List (ScopeKind × String) → Database →
    Except Violation (Database × List ClosureOutcome)
  | [], db => return (db,[])
  | scope :: scopes, db => do
    let (versions,outcome) ←
      closeAbsent casefold db runId collector scope.1 scope.2 completedAt
    let (db,outcomes) ←
      closeReconciled casefold runId collector completedAt scopes { db with versions := versions }
    return (db,outcome :: outcomes)

/-- One transaction. -/
inductive Transaction where
  | batch (b : Batch)
  | completion (c : Completion)
  deriving Repr

def Transaction.write (hash : State → String) (casefold : String → String) (db : Database) :
    Transaction → Except Violation Database
  | .batch b => (·.1) <$> applyBatch hash b db
  | .completion c =>
    (·.1) <$> closeReconciled casefold c.runId c.collector c.completedAt c.scopes db

/-- A transaction that is refused leaves what was there. -/
def commit (hash : State → String) (casefold : String → String) (db : Database)
    (x : Transaction) : Database :=
  match x.write hash casefold db with
  | .error _ => db
  | .ok db' => db'

def commitAll (hash : State → String) (casefold : String → String) (db : Database)
    (xs : List Transaction) : Database :=
  xs.foldl (commit hash casefold) db

end Adg.Ingestion
