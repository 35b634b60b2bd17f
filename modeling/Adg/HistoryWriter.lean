import Adg.ScopeClosure

/-!
# Turning readings into versions

Recording folds the rows a batch wrote into the timelines of their objects,
an affirmation confirms what is already recorded, and closing a reconciled
scope puts a tombstone where the run did not see an object. Each works on the
open versions as they stand when the call begins.
-/

set_option autoImplicit false

namespace Adg.HistoryWriter
open Adg.Observation Adg.ObjectVersions Adg.KeyedTables Adg.VersionTable Adg.CurrentState
open Adg.ScopeClosure

structure HistoryOutcome where
  opened : ℕ := 0
  extended : ℕ := 0
  unchanged : ℕ := 0
  superseded : ℕ := 0
  revived : ℕ := 0
  replaced : ℕ := 0
  stale : ℕ := 0
  deriving DecidableEq, Repr

structure ClosureOutcome where
  scopeKind : ScopeKind
  scopeKey : String
  closed : List (ObservationKind × ℕ) := []
  reaffirmed : List (ObservationKind × ℕ) := []
  skippedReason : Option String := none
  deriving DecidableEq, Repr

structure AffirmationOutcome where
  extended : ℕ := 0
  unchanged : ℕ := 0
  untracked : List String := []
  absent : List String := []
  deriving DecidableEq, Repr

def AffirmationOutcome.refusedKeys (o : AffirmationOutcome) : List String := o.untracked ++ o.absent

/-- `_Incoming`: one observed state, with its digest. -/
structure Incoming where
  key : String
  state : State
  digest : String
  observedAt : Instant
  runId : RunId
  containerKey : Option String
  relatedKey : Option String
  deriving DecidableEq, Repr

/-- `stored_state`, the columns a version does not carry itself. -/
def storedState (kind : ObservationKind) (r : Reading) : State :=
  (keyColumn kind,.text r.key) :: r.columns

section Recording
variable (hash : State → String)

def incomingOf (kind : ObservationKind) (r : Reading) : Incoming where
  key := r.key
  state := storedState kind r
  digest := stateDigest hash (storedState kind r)
  observedAt := r.observedAt
  runId := r.runId
  containerKey := (containerColumn kind).bind (r.column kind)
  relatedKey := (relatedColumn kind).bind (r.column kind)

/-- One step of `_incoming`: a dictionary keeps the place of a key it has. -/
def keepNewest (latest : List Incoming) (entry : Incoming) : List Incoming :=
  match latest.find? (·.key = entry.key) with
  | none => latest ++ [entry]
  | some previous =>
    if previous.observedAt ≤ entry.observedAt then
      latest.map fun e => if e.key = entry.key then entry else e
    else latest

/-- `_incoming`: one entry an object, the newest reading of a repeated one. -/
def incoming (kind : ObservationKind) (rows : List Reading) : List Incoming :=
  (rows.map (incomingOf hash kind)).foldl keepNewest []

end Recording

/-- `_new_version`. The table numbers it. -/
def newVersion (kind : ObservationKind) (entry : Incoming) : ObjectVersion where
  versionId := 0
  kind := kind
  key := entry.key
  containerKey := entry.containerKey
  relatedKey := entry.relatedKey
  isPresent := true
  state := some entry.state
  stateHash := some entry.digest
  validFrom := entry.observedAt
  lastSeenAt := entry.observedAt
  openedByRunId := entry.runId
  lastSeenRunId := entry.runId

/-- `_extension`: grow an open version at either end, or leave it alone. -/
def extension (current : ObjectVersion) (observedAt : Instant) (runId : RunId) :
    Option Table.Update :=
  let forward := current.lastSeenAt < observedAt
  let backward := observedAt < current.validFrom
  if ¬ forward ∧ ¬ backward then none
  else some (current.versionId,fun v =>
    { v with
      lastSeenAt := if forward then observedAt else current.lastSeenAt
      lastSeenRunId := if forward then runId else v.lastSeenRunId
      validFrom := if backward then observedAt else current.validFrom
      openedByRunId := if backward then runId else v.openedByRunId })

/-- `_replacement`. -/
def replacement (current : ObjectVersion) (entry : Incoming) : Table.Update :=
  (current.versionId,fun v =>
    { v with
      isPresent := true
      state := some entry.state
      stateHash := some entry.digest
      containerKey := entry.containerKey
      relatedKey := entry.relatedKey
      lastSeenAt := entry.observedAt
      lastSeenRunId := entry.runId
      openedByRunId := entry.runId
      origin := .observed })

/-- One row of `_close_versions`. -/
def closing (id : ℕ) (closedAt : Instant) (reason : CloseReason) (runId : RunId) : Table.Update :=
  (id,fun v =>
    { v with validTo := some closedAt, closeReason := some reason, closedByRunId := some runId })

/-- What `record` decides about one entry, given the open version. -/
inductive Decision where
  | start
  | extend (u : Table.Update)
  | unchanged
  | stale
  | replace (u : Table.Update) (revived : Bool)
  | supersede (u : Table.Update) (revived : Bool)

def decision (current : Option ObjectVersion) (entry : Incoming) : Decision :=
  match current with
  | none => .start
  | some v =>
    if v.isPresent ∧ v.stateHash = some entry.digest then
      match extension v entry.observedAt entry.runId with
      | none => .unchanged
      | some u => .extend u
    else if entry.observedAt < v.lastSeenAt then .stale
    else if entry.observedAt = v.validFrom then .replace (replacement v entry) (¬ v.isPresent)
    else .supersede (closing v.versionId entry.observedAt .superseded entry.runId) (¬ v.isPresent)

namespace Decision

def closes : Decision → Option Table.Update
  | .supersede u _ => some u
  | _ => none

def extends? : Decision → Option Table.Update
  | .extend u => some u
  | _ => none

def replaces : Decision → Option Table.Update
  | .replace u _ => some u
  | _ => none

def opens : Decision → Bool
  | .start | .supersede .. => true
  | _ => false

def outcome : Decision → HistoryOutcome
  | .start => { opened := 1 }
  | .extend _ => { extended := 1 }
  | .unchanged => { unchanged := 1 }
  | .stale => { stale := 1 }
  | .replace _ revived => { replaced := 1, revived := if revived then 1 else 0 }
  | .supersede _ revived =>
    if revived then { revived := 1, opened := 1 } else { superseded := 1, opened := 1 }

end Decision

/-- `HistoryOutcome.__add__`. -/
def HistoryOutcome.add (a b : HistoryOutcome) : HistoryOutcome where
  opened := a.opened+b.opened
  extended := a.extended+b.extended
  unchanged := a.unchanged+b.unchanged
  superseded := a.superseded+b.superseded
  revived := a.revived+b.revived
  replaced := a.replaced+b.replaced
  stale := a.stale+b.stale

/-- The entries of a batch, each with what is decided about it. -/
def decisions (hash : State → String) (t : Table) (kind : ObservationKind) (rows : List Reading) :
    List (Incoming × Decision) :=
  (incoming hash kind rows).map fun e => (e,decision (openVersion t kind e.key) e)

/-- `HistoryWriter.record`. Closing comes before opening. -/
def record (hash : State → String) (kind : ObservationKind) (rows : List Reading) (t : Table) :
    Except Violation (Table × HistoryOutcome) := do
  let plan := decisions hash t kind rows
  let t ← t.updateAll (plan.filterMap (·.2.closes))
  let t ← t.updateAll (plan.filterMap (·.2.extends?))
  let t ← t.updateAll (plan.filterMap (·.2.replaces))
  let t ← t.insertAll ((plan.filter (·.2.opens)).map fun p => newVersion kind p.1)
  return (t,plan.foldl (fun o p => o.add p.2.outcome) {})

/-- `sorted(set(keys))`. -/
def uniqueSorted (keys : List String) : List String := keys.dedup.insertionSort (· ≤ ·)

/-- `HistoryWriter.affirm`. -/
def affirm (kind : ObservationKind) (keys : List String) (observedAt : Instant) (runId : RunId)
    (t : Table) : Except Violation (Table × AffirmationOutcome) := do
  let unique := uniqueSorted keys
  let current := unique.map fun k => (k,openVersion t kind k)
  let present := current.filterMap fun c => c.2.filter (·.isPresent)
  let extensions := present.filterMap fun v => extension v observedAt runId
  let t ← t.updateAll extensions
  return (t,
    { extended := extensions.length
      unchanged := present.length-extensions.length
      untracked := (current.filter (·.2.isNone)).map (·.1)
      absent := (current.filter (·.2.any (¬ ·.isPresent))).map (·.1) })

/-- `KEY_CHUNK`. -/
def keyChunk : ℕ := 5000

/-- `_chunks`: the slices that start at the multiples of the size. -/
def chunks {α : Type} (values : List α) (size : ℕ) : List (List α) :=
  (List.range ((values.length+size-1)/size)).map fun i => (values.drop (i*size)).take size

def openPresent (kind : ObservationKind) (containers : List String) (v : ObjectVersion) : Bool :=
  v.kind = kind ∧ v.isOpen ∧ v.isPresent ∧ v.containerKey.any (· ∈ containers)

/-- The two statements `affirm_contained` sends for one chunk of containers. -/
def affirmChunk (kind : ObservationKind) (observedAt : Instant) (runId : RunId)
    (containers : List String) (t : Table) : Except Violation (Table × ℕ) := do
  let forward := t.rows.filter fun v => openPresent kind containers v ∧ v.lastSeenAt < observedAt
  let t ← t.updateWhere (fun v => openPresent kind containers v ∧ v.lastSeenAt < observedAt)
    fun v => { v with lastSeenAt := observedAt, lastSeenRunId := runId }
  let backward := t.rows.filter fun v => openPresent kind containers v ∧ observedAt < v.validFrom
  let t ← t.updateWhere (fun v => openPresent kind containers v ∧ observedAt < v.validFrom)
    fun v => { v with validFrom := observedAt, openedByRunId := runId }
  return (t,max forward.length backward.length)

/-- The chunks one after another, with the rows they extended. -/
def affirmChunks (kind : ObservationKind) (observedAt : Instant) (runId : RunId) :
    List (List String) → ℕ → Table → Except Violation (Table × ℕ)
  | [], extended, t => return (t,extended)
  | chunk :: rest, extended, t => do
    let (t,more) ← affirmChunk kind observedAt runId chunk t
    affirmChunks kind observedAt runId rest (extended+more) t

/-- `HistoryWriter.affirm_contained`. -/
def affirmContained (kind : ObservationKind) (containerKeys : List String) (observedAt : Instant)
    (runId : RunId) (t : Table) : Except Violation (Table × AffirmationOutcome) := do
  let (t,extended) ←
    affirmChunks kind observedAt runId (chunks (uniqueSorted containerKeys) keyChunk) 0 t
  return (t,{ extended := extended })

/-- The tombstone `close_absent` opens where a version was. -/
def tombstone (v : ObjectVersion) (completedAt : Instant) (runId : RunId) : ObjectVersion where
  versionId := 0
  kind := v.kind
  key := v.key
  containerKey := v.containerKey
  relatedKey := v.relatedKey
  isPresent := false
  state := none
  stateHash := none
  validFrom := completedAt
  lastSeenAt := completedAt
  openedByRunId := runId
  lastSeenRunId := runId

/-- A tombstone is confirmed by a run that looked again. -/
def reaffirmation (v : ObjectVersion) (completedAt : Instant) (runId : RunId) : Table.Update :=
  (v.versionId,fun w =>
    { w with lastSeenAt := completedAt, lastSeenRunId := runId, validFrom := v.validFrom })

/-- `_unobserved_open_versions`. -/
def unobservedOpenVersions (db : Database) (kind : ObservationKind) (candidates : List String)
    (runId : RunId) (completedAt : Instant) : List ObjectVersion :=
  (db.versions.rows.filter fun v => v.kind = kind ∧ v.isOpen ∧ v.lastSeenAt ≤ completedAt ∧
    v.key ∈ candidates ∧ ¬ db.observed runId kind v.key).insertionSort fun v w => v.key ≤ w.key

/-- What `close_absent` does for one rule of the scope. -/
def closeRule (db : Database) (kind : ObservationKind) (candidates : List String) (runId : RunId)
    (completedAt : Instant) : Except Violation (Table × ℕ × ℕ) := do
  let unobserved := unobservedOpenVersions db kind candidates runId completedAt
  let present := unobserved.filter (·.isPresent)
  let tombstones := unobserved.filter (¬ ·.isPresent)
  let t ← db.versions.updateAll
    (present.map fun v => closing v.versionId completedAt .absent runId)
  let t ← t.insertAll (present.map fun v => tombstone v completedAt runId)
  let t ← t.updateAll (tombstones.map fun v => reaffirmation v completedAt runId)
  return (t,present.length,tombstones.length)

/-- The rules of a scope one after another, with the counts that are not zero. -/
def closeRules (db : Database) (rules : List ClosureRule) (subtree : Option Selector)
    (runId : RunId) (scopeKey : String) (completedAt : Instant) :
    List ClosureRule → ClosureOutcome → Table → Except Violation (Table × ClosureOutcome)
  | [], outcome, t => return (t,outcome)
  | rule :: rest, outcome, t => do
    let candidates := scopeCandidates db runId scopeKey rules subtree rules.length rule.kind
    let (t,closed,reaffirmed) ←
      closeRule { db with versions := t } rule.kind candidates runId completedAt
    closeRules db rules subtree runId scopeKey completedAt rest
      { outcome with
        closed := if closed = 0 then outcome.closed else outcome.closed ++ [(rule.kind,closed)]
        reaffirmed := if reaffirmed = 0 then outcome.reaffirmed
          else outcome.reaffirmed ++ [(rule.kind,reaffirmed)] } t

/-- `HistoryWriter.close_absent`. -/
def closeAbsent (casefold : String → String) (db : Database) (runId : RunId)
    (collector : CollectorKind) (scopeKind : ScopeKind) (scopeKey : String)
    (completedAt : Instant) : Except Violation (Table × ClosureOutcome) :=
  let rules := closureRulesFor collector scopeKind
  let outcome : ClosureOutcome := { scopeKind := scopeKind, scopeKey := scopeKey }
  if rules = [] then
    return (db.versions,{ outcome with
      skippedReason := s!"The {collector.value} collector has no closure rule for a {scopeKind.value} scope, so nothing inside it may be inferred absent." })
  else if scopeKind = .directoryTree then
    match directorySubtreeOf casefold scopeKey with
    | .error error => return (db.versions,{ outcome with
        skippedReason := s!"The directory_tree scope key '{scopeKey}' is not a UNC path ({error.message}), so its boundary cannot be located and nothing inside it may be inferred absent." })
    | .ok subtree =>
      closeRules db rules (some subtree) runId scopeKey completedAt rules outcome db.versions
  else closeRules db rules none runId scopeKey completedAt rules outcome db.versions

end Adg.HistoryWriter
