import Adg.FindingModel
import Adg.KeyedTables

/-!
# Reconciling findings

An evaluation writes what it found and closes what it covered and did not
find. It reads the stored findings first and decides each key from what it
read: a finding never seen is inserted, a resolved one is opened again, an open
one is updated, and an open one that was not matched is resolved where the
scope covers every key its subject names. Every write leaves an event.
-/

set_option autoImplicit false

namespace Adg.FindingRecords
open Adg.Observation Adg.ObjectVersions Adg.SortedLists Adg.KeyedTables Adg.CanonicalJson
open Adg.AlertModel Adg.FindingModel

variable (sha256 : String → String)

/-! ### Rows and records -/

inductive FindingStatus where
  | «open»
  | resolved
  deriving DecidableEq, Repr

/-- A row of `risk_findings`. -/
structure FindingRow where
  key : String
  ruleId : String
  ruleVersion : String
  status : FindingStatus
  severity : String
  confidence : String
  severityBand : String
  qualifiers : List String
  resourceKey : Option String
  shareKey : Option String
  principalKey : Option String
  discriminator : Option String
  evidence : Json
  evidenceDigest : String
  detail : List (String × Json)
  firstDetectedAt : Instant
  detectedAt : Instant
  lastEvaluatedAt : Instant
  resolvedAt : Option Instant
  occurrenceCount : ℕ
  firstEvaluationId : String
  lastEvaluationId : String
  resolvedEvaluationId : Option String

structure StoredFinding where
  key : String
  ruleId : RuleId
  ruleVersion : String
  status : FindingStatus
  severity : Severity
  confidence : Confidence
  band : SeverityBand
  qualifiers : List FactQualifier
  subject : FindingSubject
  evidence : Evidence
  evidenceDigest : String
  detail : List (String × Json)
  firstDetectedAt : Instant
  detectedAt : Instant
  lastEvaluatedAt : Instant
  resolvedAt : Option Instant
  occurrenceCount : ℕ
  firstEvaluationId : String
  lastEvaluationId : String
  resolvedEvaluationId : Option String

/-- `_stored`. -/
def stored (row : FindingRow) : Option StoredFinding := do
  let ruleId ← RuleId.ofValue row.ruleId
  let severity ← Severity.ofValue row.severity
  let confidence ← Confidence.ofValue row.confidence
  let band ← SeverityBand.ofValue row.severityBand
  let qualifiers ← row.qualifiers.mapM FactQualifier.ofValue
  let subject ← (FindingSubject.build row.resourceKey row.shareKey row.principalKey
    row.discriminator).toOption
  let evidence ← Evidence.fromJson row.evidence
  some
    { key := row.key
      ruleId := ruleId
      ruleVersion := row.ruleVersion
      status := row.status
      severity := severity
      confidence := confidence
      band := band
      qualifiers := qualifiers
      subject := subject
      evidence := evidence
      evidenceDigest := row.evidenceDigest
      detail := row.detail
      firstDetectedAt := row.firstDetectedAt
      detectedAt := row.detectedAt
      lastEvaluatedAt := row.lastEvaluatedAt
      resolvedAt := row.resolvedAt
      occurrenceCount := row.occurrenceCount
      firstEvaluationId := row.firstEvaluationId
      lastEvaluationId := row.lastEvaluationId
      resolvedEvaluationId := row.resolvedEvaluationId }

/-- `rebuild_finding`. The key is recomputed rather than trusted. -/
def rebuildFinding (record : StoredFinding) : Except DomainError (RiskFinding sha256) :=
  RiskFinding.build sha256 record.ruleId record.ruleVersion
    (findingKey sha256 record.ruleId record.subject) record.subject record.band record.severity
    record.confidence record.qualifiers record.evidence record.detail

inductive FindingEventType where
  | opened
  | reaffirmed
  | evidenceChanged
  | resolved
  | reopened
  deriving DecidableEq, Repr

/-- A row of `risk_finding_events`. -/
structure FindingEvent where
  findingKey : String
  eventType : FindingEventType
  evaluationId : String
  ruleId : String
  ruleVersion : String
  severity : Option String
  confidence : Option String
  evidenceDigest : Option String
  previousEvidenceDigest : Option String
  occurredAt : Instant

/-- The findings, and their events in the order they were written. -/
structure FindingStore where
  findings : KeyedTable String FindingRow
  events : List FindingEvent

def FindingStore.blank : FindingStore := ⟨KeyedTable.empty,[]⟩

/-- `events_for`. Events of one instant stand in the order they were written. -/
def FindingStore.eventsFor (s : FindingStore) (key : String) : List FindingEvent :=
  sortedBy FindingEvent.occurredAt (s.events.filter (·.findingKey = key))

/-! ### Writes -/

/-- What an evaluation writes about one key, with the row it decided from. -/
inductive FindingWrite where
  | insert (finding : RiskFinding sha256)
  | reopen (finding : RiskFinding sha256) (current : StoredFinding)
  | replaceEvidence (finding : RiskFinding sha256) (current : StoredFinding)
  | reaffirm (finding : RiskFinding sha256)
  | resolve (record : StoredFinding)

variable {sha256 : String → String}

def FindingWrite.key : FindingWrite sha256 → String
  | .insert f | .reopen f _ | .replaceEvidence f _ | .reaffirm f => f.key
  | .resolve record => record.key

section Statements
variable (evaluationId : String) (now : Instant)

/-- The row `_insert` puts in. -/
def inserted (f : RiskFinding sha256) : FindingRow where
  key := f.key
  ruleId := f.ruleId.value
  ruleVersion := f.ruleVersion
  status := .open
  severity := f.severity.value
  confidence := f.confidence.value
  severityBand := f.band.value
  qualifiers := f.qualifiers.map FactQualifier.value
  resourceKey := f.subject.resourceKey
  shareKey := f.subject.shareKey
  principalKey := f.subject.principalKey
  discriminator := f.subject.discriminator
  evidence := f.evidence.toJson
  evidenceDigest := f.evidenceDigest
  detail := f.detail
  firstDetectedAt := now
  detectedAt := now
  lastEvaluatedAt := now
  resolvedAt := none
  occurrenceCount := 1
  firstEvaluationId := evaluationId
  lastEvaluationId := evaluationId
  resolvedEvaluationId := none

/-- What `_insert` sets where the key is taken. -/
def merged (held arriving : FindingRow) : FindingRow :=
  { held with
    lastEvaluatedAt := arriving.lastEvaluatedAt
    lastEvaluationId := arriving.lastEvaluationId
    severity := arriving.severity
    confidence := arriving.confidence }

/-- `_update`. -/
def updated (f : RiskFinding sha256) (replaceEvidence : Bool) (row : FindingRow) : FindingRow :=
  { row with
    ruleVersion := f.ruleVersion
    severity := f.severity.value
    confidence := f.confidence.value
    severityBand := f.band.value
    qualifiers := f.qualifiers.map FactQualifier.value
    detail := f.detail
    lastEvaluatedAt := now
    lastEvaluationId := evaluationId
    evidence := if replaceEvidence then f.evidence.toJson else row.evidence
    evidenceDigest := if replaceEvidence then f.evidenceDigest else row.evidenceDigest }

/-- `_reopen`. -/
def reopened (f : RiskFinding sha256) (current : StoredFinding) (row : FindingRow) : FindingRow :=
  { row with
    status := .open
    ruleVersion := f.ruleVersion
    severity := f.severity.value
    confidence := f.confidence.value
    severityBand := f.band.value
    qualifiers := f.qualifiers.map FactQualifier.value
    evidence := f.evidence.toJson
    evidenceDigest := f.evidenceDigest
    detail := f.detail
    detectedAt := now
    lastEvaluatedAt := now
    resolvedAt := none
    resolvedEvaluationId := none
    occurrenceCount := current.occurrenceCount+1
    lastEvaluationId := evaluationId }

/-- `_resolve`. -/
def resolved (row : FindingRow) : FindingRow :=
  { row with
    status := .resolved
    resolvedAt := some now
    resolvedEvaluationId := some evaluationId
    lastEvaluatedAt := now
    lastEvaluationId := evaluationId }

/-- What the row of its key becomes under a write. An update finds the row or does nothing. -/
def rowAfter (w : FindingWrite sha256) (row : Option FindingRow) : Option FindingRow :=
  match w with
  | .insert f => some (KeyedTable.arrive merged row (inserted evaluationId now f))
  | .reopen f current => row.map (reopened evaluationId now f current)
  | .replaceEvidence f _ => row.map (updated evaluationId now f true)
  | .reaffirm f => row.map (updated evaluationId now f false)
  | .resolve _ => row.map (resolved evaluationId now)

/-- The statement of a write on the findings. -/
def writeRow (w : FindingWrite sha256) (t : KeyedTable String FindingRow) :
    KeyedTable String FindingRow :=
  match w with
  | .insert f => t.upsert merged (f.key,inserted evaluationId now f)
  | .reopen f current => t.update (fun k _ => k = f.key) (reopened evaluationId now f current)
  | .replaceEvidence f _ => t.update (fun k _ => k = f.key) (updated evaluationId now f true)
  | .reaffirm f => t.update (fun k _ => k = f.key) (updated evaluationId now f false)
  | .resolve record => t.update (fun k _ => k = record.key) (resolved evaluationId now)

/-- `_event`. -/
def event (f : RiskFinding sha256) (type : FindingEventType) (previousDigest : Option String) :
    FindingEvent where
  findingKey := f.key
  eventType := type
  evaluationId := evaluationId
  ruleId := f.ruleId.value
  ruleVersion := f.ruleVersion
  severity := some f.severity.value
  confidence := some f.confidence.value
  evidenceDigest := some f.evidenceDigest
  previousEvidenceDigest := previousDigest
  occurredAt := now

/-- The event a write leaves. A resolution has no evidence to carry. -/
def eventOf : FindingWrite sha256 → FindingEvent
  | .insert f => event evaluationId now f .opened none
  | .reopen f _ => event evaluationId now f .reopened none
  | .replaceEvidence f current =>
    event evaluationId now f .evidenceChanged (some current.evidenceDigest)
  | .reaffirm f => event evaluationId now f .reaffirmed none
  | .resolve record =>
    { findingKey := record.key
      eventType := .resolved
      evaluationId := evaluationId
      ruleId := record.ruleId.value
      ruleVersion := record.ruleVersion
      severity := some record.severity.value
      confidence := some record.confidence.value
      evidenceDigest := none
      previousEvidenceDigest := none
      occurredAt := now }

def perform (s : FindingStore) (w : FindingWrite sha256) : FindingStore where
  findings := writeRow evaluationId now w s.findings
  events := s.events ++ [eventOf evaluationId now w]

end Statements

/-! ### One evaluation -/

variable (sha256) in
/-- A call of `reconcile`. -/
structure Call where
  evaluationId : String
  now : Instant
  findings : List (RiskFinding sha256)
  scope : RiskScope
  rulesRun : List RuleId

/-- The findings by their keys, in order. Of two with one key the later one stands. -/
def matched (findings : List (RiskFinding sha256)) : List (RiskFinding sha256) :=
  (sortedBy id (findings.map (·.key)).dedup).filterMap fun key =>
    findings.reverse.find? (·.key = key)

/-- `by_keys`, of one key. -/
def FindingStore.get (s : FindingStore) (key : String) : Option (Option StoredFinding) :=
  match s.findings.get? key with
  | none => some none
  | some row => (stored row).map some

/-- `open_findings`, of the rules named, by their keys. -/
def FindingStore.openFindings (s : FindingStore) (rules : List RuleId) :
    Option (List StoredFinding) :=
  (sortedBy (·.key) (s.findings.values.filter fun row =>
    row.status = .open && row.ruleId ∈ rules.map RuleId.value)).mapM stored

/-- What is written about a finding that was matched. -/
def decideMatched (f : RiskFinding sha256) : Option StoredFinding → FindingWrite sha256
  | none => .insert f
  | some current =>
    if current.status = .resolved then .reopen f current
    else if current.evidenceDigest ≠ f.evidenceDigest then .replaceEvidence f current
    else .reaffirm f

/-- The evaluation is entitled to resolve the finding. -/
def entitled (call : Call sha256) (record : StoredFinding) : Bool :=
  record.ruleId.value ∈ call.rulesRun.map RuleId.value && scopeCovers call.scope record.subject

structure ReconcileOutcome where
  opened : List String := []
  reopened : List String := []
  reaffirmed : List String := []
  evidenceChanged : List String := []
  resolved : List String := []
  outOfScope : List String := []

/-- The key of a write whose event has some type. -/
def keyOf (call : Call sha256) (type : FindingEventType) (w : FindingWrite sha256) :
    Option String :=
  if (eventOf call.evaluationId call.now w).eventType = type then some w.key else none

/-- What an evaluation decides from what it has read: the open findings it leaves, and its
writes. -/
def decide (call : Call sha256) (existing : List (Option StoredFinding))
    (openRows : List StoredFinding) : List StoredFinding × List (FindingWrite sha256) :=
  let found := matched call.findings
  let missed := openRows.filter fun record => record.key ∉ found.map (·.key)
  (missed.filter fun record => !entitled call record,
    List.zipWith decideMatched found existing ++ (missed.filter (entitled call)).map .resolve)

/-- `reconcile`. -/
def reconcile (call : Call sha256) (s : FindingStore) : Option (FindingStore × ReconcileOutcome) :=
    do
  let existing ← (matched call.findings).mapM fun f => s.get f.key
  let openRows ← s.openFindings call.rulesRun
  let decided := decide call existing openRows
  let keys := fun type => decided.2.filterMap (keyOf call type)
  some (decided.2.foldl (perform call.evaluationId call.now) s,
    { opened := keys .opened
      reopened := keys .reopened
      reaffirmed := keys .reaffirmed
      evidenceChanged := keys .evidenceChanged
      resolved := keys .resolved
      outOfScope := decided.1.map (·.key) })

/-- The findings after some calls. -/
def run (calls : List (Call sha256)) : Option FindingStore :=
  calls.foldlM (fun s call => (reconcile call s).map (·.1)) FindingStore.blank

end Adg.FindingRecords
