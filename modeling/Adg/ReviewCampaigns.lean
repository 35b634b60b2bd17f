import Adg.AuditChain
import Adg.LinkedRows
import Adg.ReviewGeneration
import Adg.Transactions

/-!
# The tables of a review

A campaign asks for decisions on items that were frozen at its baseline. Its row,
its reviewers, its items, the decisions on them, what they propose and the trail
of it all are six tables, written by the statements below.
-/

set_option autoImplicit false

namespace Adg.ReviewCampaigns
open Adg.AuditChain Adg.CanonicalJson Adg.LinkedRows Adg.ReviewGeneration Adg.SecurityIdentifier
open Adg.SortedLists Adg.Transactions Adg.ObjectVersions Adg.VersionTable

inductive CampaignStatus where
  | draft
  | active
  | closed
  | canceled
  deriving DecidableEq, Repr

def CampaignStatus.value : CampaignStatus → String
  | .draft => "draft"
  | .active => "active"
  | .closed => "closed"
  | .canceled => "canceled"

/-- `CAMPAIGN_TRANSITIONS`. -/
def campaignTransitions : CampaignStatus → List CampaignStatus
  | .draft => [.active, .canceled]
  | .active => [.closed, .canceled]
  | .closed => []
  | .canceled => []

inductive ReviewItemStatus where
  | pending
  | decided
  deriving DecidableEq, Repr

inductive DecisionKind where
  | certify
  | revoke
  | modify
  | abstain
  | investigate
  deriving DecidableEq, Repr

def DecisionKind.value : DecisionKind → String
  | .certify => "certify"
  | .revoke => "revoke"
  | .modify => "modify"
  | .abstain => "abstain"
  | .investigate => "investigate"

/-- `Certainty.value`. -/
def certaintyValue : Certainty → String
  | .observed => "observed"
  | .inferred => "inferred"
  | .backfilled => "backfilled"
  | .unobserved => "unobserved"

inductive CommentRequirement where
  | standard
  | always
  deriving DecidableEq, Repr

def CommentRequirement.value : CommentRequirement → String
  | .standard => "standard"
  | .always => "always"

inductive RemediationAction where
  | removeAce
  | reduceRights
  | removeGroupMember
  | replaceWithGroup
  | manualReview
  deriving DecidableEq, Repr

def RemediationAction.value : RemediationAction → String
  | .removeAce => "remove_ace"
  | .reduceRights => "reduce_rights"
  | .removeGroupMember => "remove_group_member"
  | .replaceWithGroup => "replace_with_group"
  | .manualReview => "manual_review"

inductive RemediationStatus where
  | proposed
  | exported
  | withdrawn
  deriving DecidableEq, Repr

structure Actor where
  subject : String
  displayName : Option String := none
  email : Option String := none
  roles : List String := []

structure ReviewCampaign where
  campaignId : Uuid
  name : String
  description : Option String
  focus : CampaignFocus
  status : CampaignStatus
  baselineAt : UtcMoment
  dueAt : Option UtcMoment
  options : GenerationOptions
  scopes : List CampaignScope
  createdBySubject : String
  createdAt : UtcMoment
  commentRequirement : CommentRequirement
  generatedAt : Option UtcMoment := none
  snapshotDigest : Option String := none
  itemCount : ℕ := 0
  excludedCounts : List (String × ℕ) := []
  activatedAt : Option UtcMoment := none
  closedAt : Option UtcMoment := none
  closedBySubject : Option String := none

structure ReviewAssignment where
  assignmentId : Uuid
  campaignId : Uuid
  reviewerSubject : String
  reviewerDisplayName : Option String
  reviewerEmail : Option String
  scope : Option CampaignScope
  dueAt : Option UtcMoment
  assignedBySubject : String
  assignedAt : UtcMoment
  revokedAt : Option UtcMoment := none
  revokedBySubject : Option String := none

def ReviewAssignment.isActive (a : ReviewAssignment) : Bool := a.revokedAt.isNone

/-- An item: what generation froze, and who is asked and what was answered since. -/
structure ReviewItem where
  itemId : Uuid
  campaignId : Uuid
  frozen : DraftItem
  createdAt : UtcMoment
  status : ReviewItemStatus := .pending
  assignmentId : Option Uuid := none
  currentDecisionId : Option Uuid := none
  decidedAt : Option UtcMoment := none

structure ReviewDecision where
  decisionId : Uuid
  itemId : Uuid
  campaignId : Uuid
  decision : DecisionKind
  rationale : Option String
  decidedBySubject : String
  decidedByDisplayName : Option String
  decidedAt : UtcMoment
  decidedLate : Bool
  supersedesDecisionId : Option Uuid := none
  supersededAt : Option UtcMoment := none
  supersededByDecisionId : Option Uuid := none

def ReviewDecision.isCurrent (d : ReviewDecision) : Bool := d.supersededAt.isNone

structure RemediationProposal where
  proposalId : Uuid
  itemId : Uuid
  campaignId : Uuid
  decisionId : Option Uuid
  action : RemediationAction
  status : RemediationStatus
  targetKind : ReviewTargetKind
  targetKey : String
  principalKey : String
  aceKeys : List String
  details : List (String × Json)
  proposedBySubject : String
  proposedAt : UtcMoment

structure Store where
  campaigns : List ReviewCampaign := []
  assignments : List ReviewAssignment := []
  items : List ReviewItem := []
  decisions : List ReviewDecision := []
  proposals : List RemediationProposal := []
  events : List GovernanceEvent := []

def Store.blank : Store := ⟨[],[],[],[],[],[]⟩

/-- Why a call is refused, with what fills its message. The last two are the
database's: a key that is taken or a reference that is not there, and more rows
than one where one is asked for. -/
inductive GovernanceError where
  | noCampaign (campaignId : Uuid)
  | noItem (itemId : Uuid)
  | noAssignment (assignmentId campaignId : Uuid)
  | noScopes
  | scopesNotPermitted (focus : CampaignFocus) (kinds : List ReviewScopeKind)
  | futureBaseline (baselineAt : UtcMoment)
  | dueBeforeBaseline (dueAt baselineAt : UtcMoment)
  | noteTooLong (field : String) (length : ℕ)
  | transition (current requested : CampaignStatus)
  | itemsFrozen (status : CampaignStatus)
  | generation (e : GenerationError)
  | notGenerated
  | nothingToReview
  | takesNoReviewers (status : CampaignStatus)
  | scopeNotAssignable (focus : CampaignFocus) (kind : ReviewScopeKind)
  | noReviewer
  | alreadyRevoked (assignmentId : Uuid)
  | acceptsNoDecisions (status : CampaignStatus)
  | assignedToNobody (itemId : Uuid)
  | assignmentGone (itemId : Uuid)
  | assignedToAnother (itemId : Uuid)
  | stoodDown (campaignId : Uuid)
  | rationaleTooLong (length : ℕ)
  | mustSayWhy (decision : DecisionKind)
  | commentRequired (decision : DecisionKind)
  | emptyBatch
  | batchTooLarge (length : ℕ)
  | notInCampaign (itemIds : List Uuid)
  | mixedTargetKinds
  | mixedAxes (principals targets : ℕ)
  | alreadyDecided (itemIds : List Uuid)
  | drifted (itemIds : List Uuid)
  | noDecisionYet (itemId : Uuid)
  | certified (itemId : Uuid)
  | integrity
  | multipleRows

/-! ### Times -/

def isLeapYear (year : ℕ) : Bool := year % 4 = 0 ∧ (year % 100 ≠ 0 ∨ year % 400 = 0)

/-- The days of a year before the first of a month. -/
def daysBeforeMonth (year month : ℕ) : ℕ :=
  ([0, 31, 59, 90, 120, 151, 181, 212, 243, 273, 304, 334][month-1]?).getD 0 +
    if 2 < month ∧ isLeapYear year then 1 else 0

/-- Where a moment stands on the line of instants, in microseconds. -/
def instant (m : UtcMoment) : Instant :=
  let before := m.year-1
  let days := before*365+before/4-before/100+before/400+daysBeforeMonth m.year m.month+m.day
  ((days*24+m.hour)*60+m.minute)*60*10^6+m.second*10^6+m.microsecond

/-! ### Checks -/

/-- `str.strip`. -/
def stripped (text : String) : String := String.ofList (strip text.toList)

/-- `SCOPE_KINDS_FOR_FOCUS`. -/
def scopeKindsForFocus : CampaignFocus → List ReviewScopeKind
  | .resource => [.server, .share, .directoryTree]
  | .principal => [.principal]

/-- `_ASSIGNABLE_SCOPES`. -/
def assignableScopes : CampaignFocus → List ReviewScopeKind
  | .resource => [.server, .share, .directoryTree]
  | .principal => [.principal]

/-- `validate_transition`. -/
def validateTransition (current requested : CampaignStatus) : Except GovernanceError Unit :=
  if requested ∈ campaignTransitions current then .ok () else .error (.transition current requested)

/-- `validate_scopes`. -/
def validateScopes (focus : CampaignFocus) (scopes : List CampaignScope) :
    Except GovernanceError Unit :=
  let wrong := scopes.filter (·.kind ∉ scopeKindsForFocus focus)
  if scopes.isEmpty then .error .noScopes
  else if wrong.isEmpty then .ok () else .error (.scopesNotPermitted focus (wrong.map (·.kind)))

/-- `validate_baseline`. -/
def validateBaseline (baselineAt now : UtcMoment) : Except GovernanceError UtcMoment :=
  if instant now < instant baselineAt then .error (.futureBaseline baselineAt) else .ok baselineAt

/-- `validate_due_date`. -/
def validateDueDate (dueAt : Option UtcMoment) (baselineAt : UtcMoment) :
    Except GovernanceError (Option UtcMoment) :=
  match dueAt with
  | none => .ok none
  | some due =>
    if instant due ≤ instant baselineAt then .error (.dueBeforeBaseline due baselineAt)
    else .ok (some due)

/-- A text that is left once its ends are stripped. -/
def spokenText (text : Option String) : Option String := (text.map stripped).filter (· ≠ "")

/-- `MAX_NOTE_LENGTH`. -/
def maxNoteLength : ℕ := 2000

/-- `validate_note`. -/
def validateNote (note : Option String) (field : String) :
    Except GovernanceError (Option String) :=
  match spokenText note with
  | none => .ok none
  | some cleaned =>
    if maxNoteLength < cleaned.length then .error (.noteTooLong field cleaned.length)
    else .ok (some cleaned)

/-- `MAX_RATIONALE_LENGTH`. -/
def maxRationaleLength : ℕ := 4000

/-- `DECISIONS_REQUIRING_RATIONALE`. -/
def requiringRationale : List DecisionKind := [.revoke, .modify, .abstain, .investigate]

/-- `decisions_requiring_rationale`. -/
def decisionsRequiringRationale : CommentRequirement → List DecisionKind
  | .always => [.certify, .revoke, .modify, .abstain, .investigate]
  | .standard => requiringRationale

/-- `validate_rationale`. -/
def validateRationale (decision : DecisionKind) (rationale : Option String)
    (requirement : CommentRequirement) : Except GovernanceError (Option String) :=
  match spokenText rationale with
  | some cleaned =>
    if maxRationaleLength < cleaned.length then .error (.rationaleTooLong cleaned.length)
    else .ok (some cleaned)
  | none =>
    if decision ∈ requiringRationale then .error (.mustSayWhy decision)
    else if decision ∈ decisionsRequiringRationale requirement then
      .error (.commentRequired decision)
    else .ok none

/-! ### Statements -/

/-- A row of a table, or a key that at most one row of it takes. -/
inductive Row where
  | campaign (campaignId : Uuid)
  | assignment (assignmentId : Uuid)
  | activeAssignment (campaignId : Uuid) (subject kind key : String)
  | item (itemId : Uuid)
  | naturalKey (campaignId : Uuid) (key : NaturalKey)
  | decision (decisionId : Uuid)
  | currentDecision (itemId : Uuid)
  | proposal (proposalId : Uuid)
  | event (eventId : Uuid)
  | position (chainKey : String) (chainIndex : ℤ)
  deriving DecidableEq

/-- How a row is held: by who refers to it, who updates it, and who inserts it,
deletes it or selects it for update. -/
inductive Hold where
  | keyShare (row : Row)
  | noKeyUpdate (row : Row)
  | forUpdate (row : Row)
  deriving DecidableEq

abbrev Work : Type → Type 1 := Program Store Hold GovernanceError

/-- `get_campaign` of the repository. The scopes are read back in order. -/
def campaignRow (campaignId : Uuid) (db : Store) : Option ReviewCampaign :=
  (db.campaigns.find? (·.campaignId = campaignId)).map fun c =>
    { c with scopes := sortedBy (fun s => toLex (s.kind.value,s.key)) c.scopes }

/-- `get_campaign`. -/
def getCampaign (campaignId : Uuid) : Work ReviewCampaign := do
  let row ← Program.read (campaignRow campaignId)
  Program.found (.noCampaign campaignId) row

/-- `get_item`. -/
def getItem (itemId : Uuid) : Work ReviewItem := do
  let row ← Program.read fun db : Store => db.items.find? (·.itemId = itemId)
  Program.found (.noItem itemId) row

def assignmentRow (assignmentId : Uuid) (db : Store) : Option ReviewAssignment :=
  db.assignments.find? (·.assignmentId = assignmentId)

/-- The rows that `current_decision` selects. -/
def currentDecisions (itemId : Uuid) (db : Store) : List ReviewDecision :=
  db.decisions.filter fun d => d.itemId = itemId && d.isCurrent

/-- `current_decision`. -/
def currentDecision (itemId : Uuid) : Work (Option ReviewDecision) := do
  let rows ← Program.read (currentDecisions itemId)
  Program.require (rows.length ≤ 1) .multipleRows
  return rows.head?

/-- `decisions_for_item`. -/
def decisionsForItem (itemId : Uuid) (db : Store) : List ReviewDecision :=
  inLinkOrder (·.decisionId) (·.supersedesDecisionId)
    (sortedBy (fun d => toLex (instant d.decidedAt,d.decisionId))
      (db.decisions.filter (·.itemId = itemId)))

/-- `items_by_ids`. -/
def itemsByIds (campaignId : Uuid) (itemIds : List Uuid) (db : Store) : List ReviewItem :=
  sortedBy (fun item => item.frozen.naturalKey)
    (db.items.filter fun item => item.campaignId = campaignId && item.itemId ∈ itemIds)

/-- `insert_campaign`. -/
def insertCampaign (c : ReviewCampaign) : Work Unit :=
  Program.insert [.forUpdate (.campaign c.campaignId)]
    (fun db => db.campaigns.all (·.campaignId ≠ c.campaignId) && c.name ≠ "") .integrity
    fun db => { db with campaigns := db.campaigns ++ [c] }

/-- An update of the row of a campaign. -/
def updateCampaign (campaignId : Uuid) (f : ReviewCampaign → ReviewCampaign)
    (allowed : ReviewCampaign → Bool) : Work Unit :=
  Program.change
    (fun db => (db.campaigns.filter (·.campaignId = campaignId)).map
      fun _ => .noKeyUpdate (.campaign campaignId))
    (fun _ db => db.campaigns.all fun c => c.campaignId ≠ campaignId || allowed c) .integrity
    fun _ db => { db with campaigns := db.campaigns.map fun c =>
      if c.campaignId = campaignId then f c else c }

/-- `record_generation`. -/
def recordGeneration (campaignId : Uuid) (digest : String) (itemCount : ℕ)
    (excluded : List (String × ℕ)) (moment : UtcMoment) : Work Unit :=
  updateCampaign campaignId
    (fun c => { c with
      snapshotDigest := some digest
      itemCount := itemCount
      excludedCounts := excluded
      generatedAt := some moment })
    fun _ => true

/-- What `set_campaign_status` writes. -/
def transitionRow (status : CampaignStatus) (moment : UtcMoment) (subject : Option String)
    (c : ReviewCampaign) : ReviewCampaign :=
  match status with
  | .active => { c with status := status, activatedAt := some moment }
  | .closed | .canceled =>
    { c with status := status, closedAt := some moment, closedBySubject := subject }
  | .draft => { c with status := status }

/-- `set_campaign_status`. The table takes no open or closed campaign that has
not been generated. -/
def setCampaignStatus (campaignId : Uuid) (status : CampaignStatus) (moment : UtcMoment)
    (subject : Option String) : Work Unit :=
  updateCampaign campaignId (transitionRow status moment subject)
    fun c => status ∉ [.active, .closed] || c.generatedAt.isSome

/-- `clear_items`. The foreign keys refuse to leave a decision or a proposal
without its item. -/
def clearItems (campaignId : Uuid) : Work Unit :=
  Program.change
    (fun db => (db.items.filter (·.campaignId = campaignId)).map fun i => .forUpdate (.item i.itemId))
    (fun rows db => db.decisions.all (fun d => .forUpdate (.item d.itemId) ∉ rows) &&
      db.proposals.all (fun p => .forUpdate (.item p.itemId) ∉ rows))
    .integrity
    fun rows db => { db with items := db.items.filter fun i => .forUpdate (.item i.itemId) ∉ rows }

/-- The rows that `insert_items` builds. -/
def builtItems (campaignId : Uuid) (drafts : List DraftItem) (moment : UtcMoment)
    (fresh : ℕ → Uuid) : List ReviewItem :=
  drafts.zipIdx.map fun (draft,n) =>
    { itemId := fresh n
      campaignId := campaignId
      frozen := draft
      createdAt := moment }

/-- `insert_items`. -/
def insertItems (campaignId : Uuid) (rows : List ReviewItem) : Work Unit :=
  Program.insert
    (rows.flatMap fun i => [.forUpdate (.item i.itemId),
      .forUpdate (.naturalKey campaignId i.frozen.naturalKey), .keyShare (.campaign campaignId)])
    (fun db =>
      (rows.map (·.itemId)).Nodup && (rows.map (·.frozen.naturalKey)).Nodup &&
      rows.all (fun i => !i.frozen.grants.isEmpty) &&
      db.items.all (fun i => i.itemId ∉ rows.map (·.itemId) &&
        (i.campaignId ≠ campaignId || rows.all fun r => r.frozen.naturalKey ≠ i.frozen.naturalKey)) &&
      (rows.isEmpty || db.campaigns.any (·.campaignId = campaignId)))
    .integrity fun db => { db with items := db.items ++ rows }

/-- The key of the index over the assignments that are not revoked. -/
def activeKey (a : ReviewAssignment) : Row :=
  .activeAssignment a.campaignId a.reviewerSubject
    ((a.scope.map (·.kind.value)).getD "") ((a.scope.map (·.key)).getD "")

/-- `insert_assignment`. -/
def insertAssignment (a : ReviewAssignment) : Work Unit :=
  Program.insert
    [.forUpdate (.assignment a.assignmentId), .forUpdate (activeKey a),
      .keyShare (.campaign a.campaignId)]
    (fun db => db.assignments.all (fun b => b.assignmentId ≠ a.assignmentId &&
        (!b.isActive || activeKey b ≠ activeKey a)) &&
      db.campaigns.any (·.campaignId = a.campaignId))
    .integrity fun db => { db with assignments := db.assignments ++ [a] }

def revokedRow (rows : List Hold) (subject : String) (moment : UtcMoment)
    (a : ReviewAssignment) : ReviewAssignment :=
  if Hold.noKeyUpdate (.assignment a.assignmentId) ∈ rows ∧ a.isActive then
    { a with revokedAt := some moment, revokedBySubject := some subject }
  else a

/-- `revoke_assignment` of the repository. -/
def revokeRow (assignmentId : Uuid) (subject : String) (moment : UtcMoment) : Work Unit :=
  Program.change
    (fun db => (db.assignments.filter fun a => a.assignmentId = assignmentId && a.isActive).map
      fun a => .noKeyUpdate (.assignment a.assignmentId))
    (fun _ _ => true) .integrity
    fun rows db => { db with assignments := db.assignments.map (revokedRow rows subject moment) }

/-- `_scope_predicate`. -/
def scopePredicate (casefold : String → String) (scope : CampaignScope) (item : ReviewItem) :
    Bool :=
  let key := casefold scope.key
  let startsWith (text : String) := text.toList.isPrefixOf item.frozen.targetKey.toList
  match scope.kind with
  | .principal => item.frozen.principalKey = scope.key
  | .share =>
    item.frozen.targetKind = .share && item.frozen.targetKey = key ||
      item.frozen.targetKind = .resource && startsWith (key ++ "\\")
  | .directoryTree =>
    item.frozen.targetKind = .resource &&
      (item.frozen.targetKey = key || startsWith (stripEnd '\\' key ++ "\\"))
  | .server =>
    item.frozen.targetKind = .share && startsWith (key ++ "|") ||
      item.frozen.targetKind = .resource && startsWith ("\\\\" ++ key ++ "\\")

/-- Whether an assignment is for an item of its campaign. -/
def covers (casefold : String → String) (a : ReviewAssignment) (item : ReviewItem) : Bool :=
  item.campaignId = a.campaignId &&
    match a.scope with
    | none => true
    | some scope => scopePredicate casefold scope item

def attaches (casefold : String → String) (rows : List Hold) (a : ReviewAssignment)
    (i : ReviewItem) : Bool :=
  .noKeyUpdate (.item i.itemId) ∈ rows && covers casefold a i

def attachedRow (casefold : String → String) (rows : List Hold) (a : ReviewAssignment)
    (i : ReviewItem) : ReviewItem :=
  if attaches casefold rows a i then { i with assignmentId := some a.assignmentId } else i

/-- `attach_items`, and how many there were. -/
def attachItems (casefold : String → String) (a : ReviewAssignment) : Work ℕ :=
  Program.run
    { find := fun db => (db.items.filter (covers casefold a)).map
        fun i => Hold.noKeyUpdate (.item i.itemId)
      holds := fun rows => rows
      work := fun rows db =>
        .ok ((db.items.filter (attaches casefold rows a)).length,
          { db with items := db.items.map (attachedRow casefold rows a) }) }

def supersededRow (rows : List Hold) (successor : Uuid) (moment : UtcMoment)
    (d : ReviewDecision) : ReviewDecision :=
  if Hold.noKeyUpdate (.decision d.decisionId) ∈ rows ∧ d.isCurrent then
    { d with supersededAt := some moment, supersededByDecisionId := some successor }
  else d

/-- `supersede_decision`. -/
def supersedeDecision (decisionId successor : Uuid) (moment : UtcMoment) : Work Unit :=
  Program.change
    (fun db => (db.decisions.filter fun d => d.decisionId = decisionId && d.isCurrent).map
      fun d => .noKeyUpdate (.decision d.decisionId))
    (fun _ _ => true) .integrity
    fun rows db => { db with decisions := db.decisions.map (supersededRow rows successor moment) }

/-- `insert_decision`. -/
def insertDecision (d : ReviewDecision) : Work Unit :=
  Program.insert
    ([.forUpdate (.decision d.decisionId), .forUpdate (.currentDecision d.itemId),
        .keyShare (.item d.itemId), .keyShare (.campaign d.campaignId)] ++
      d.supersedesDecisionId.toList.map fun p => .keyShare (.decision p))
    (fun db => db.decisions.all (fun x => x.decisionId ≠ d.decisionId &&
        (x.itemId ≠ d.itemId || !x.isCurrent)) &&
      db.items.any (·.itemId = d.itemId) && db.campaigns.any (·.campaignId = d.campaignId) &&
      d.supersedesDecisionId.all fun p => db.decisions.any (·.decisionId = p))
    .integrity fun db => { db with decisions := db.decisions ++ [d] }

def decidedRow (itemId decisionId : Uuid) (moment : UtcMoment) (i : ReviewItem) : ReviewItem :=
  if i.itemId = itemId then
    { i with
      status := .decided
      currentDecisionId := some decisionId
      decidedAt := some moment }
  else i

/-- `mark_item_decided`. -/
def markItemDecided (itemId decisionId : Uuid) (moment : UtcMoment) : Work Unit :=
  Program.change
    (fun db => (db.items.filter (·.itemId = itemId)).map fun i => .noKeyUpdate (.item i.itemId))
    (fun _ _ => true) .integrity
    fun _ db => { db with items := db.items.map (decidedRow itemId decisionId moment) }

/-- `insert_proposal`. -/
def insertProposal (p : RemediationProposal) : Work Unit :=
  Program.insert
    ([.forUpdate (.proposal p.proposalId), .keyShare (.item p.itemId),
        .keyShare (.campaign p.campaignId)] ++
      p.decisionId.toList.map fun d => .keyShare (.decision d))
    (fun db => db.proposals.all (·.proposalId ≠ p.proposalId) &&
      db.items.any (·.itemId = p.itemId) && db.campaigns.any (·.campaignId = p.campaignId) &&
      p.decisionId.all fun d => db.decisions.any (·.decisionId = d))
    .integrity fun db => { db with proposals := db.proposals ++ [p] }

/-- `campaign_chain`. -/
def campaignChain (campaignId : Uuid) : String := "campaign:" ++ campaignId

/-- What a call says of an event, besides who and when. -/
structure Notice where
  eventType : GovernanceEventType
  itemId : Option Uuid := none
  decisionId : Option Uuid := none
  payload : List (String × Json)

/-- The entry of a notice in the chain of its campaign. -/
def entryFor (actor : Actor) (campaignId eventId : Uuid) (now : UtcMoment) (n : Notice) :
    Entry where
  eventId := eventId
  chainKey := campaignChain campaignId
  eventType := n.eventType
  occurredAt := now
  actorSubject := actor.subject
  actorDisplayName := actor.displayName
  actorRoles := actor.roles
  campaignId := some campaignId
  itemId := n.itemId
  decisionId := n.decisionId
  payload := n.payload

/-- `append_event`: the head of the chain is selected for update. -/
def appendNotice (sha256 : String → String) (actor : Actor) (campaignId eventId : Uuid)
    (now : UtcMoment) (n : Notice) : Work Unit := do
  let head ← Program.lock (fun db : Store => chainHead db.events (campaignChain campaignId))
    fun head => head.toList.map fun e => Hold.forUpdate (.position e.chainKey e.chainIndex)
  let event := (entryFor actor campaignId eventId now n).event sha256 head
  Program.insert
    [.forUpdate (.event event.eventId), .forUpdate (.position event.chainKey event.chainIndex)]
    (fun db => db.events.all fun e => e.eventId ≠ event.eventId &&
      (e.chainKey ≠ event.chainKey || e.chainIndex ≠ event.chainIndex))
    .integrity fun db => { db with events := db.events ++ [event] }

end Adg.ReviewCampaigns
