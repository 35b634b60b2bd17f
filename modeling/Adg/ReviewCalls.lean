import Adg.ReviewCampaigns

/-!
# The calls of a review

Ten calls work on the tables of a review. Each checks what it may do against
what it reads, writes, and adds to the trail, in one transaction. The identities
that a call gives out, its clock and what it reads of the estate are its arguments.
-/

set_option autoImplicit false

namespace Adg.ReviewCalls
open Adg.AuditChain Adg.CanonicalJson Adg.ReviewGeneration Adg.ReviewCampaigns Adg.Transactions
open Adg.VersionTable

/-- What a call answers. -/
inductive Answer where
  | campaign (c : ReviewCampaign)
  | generated (c : ReviewCampaign) (items : List ReviewItem) (r : GenerationResult)
      (regenerated : Bool)
  | assigned (a : ReviewAssignment) (attached : ℕ)
  | revoked (a : ReviewAssignment)
  | decided (d : ReviewDecision)
  | decidedAll (campaignId : Uuid) (decision : DecisionKind) (ds : List ReviewDecision)
  | proposed (p : RemediationProposal)

/-- What a call still reads once it has committed. -/
abbrev Reply := Store → Except GovernanceError Answer

/-- `get_campaign`, after the commit. -/
def refreshed (campaignId : Uuid) (db : Store) : Except GovernanceError ReviewCampaign :=
  match campaignRow campaignId db with
  | some c => .ok c
  | none => .error (.noCampaign campaignId)

/-- `MAX_BULK_ITEMS`. -/
def maxBulkItems : ℕ := 200

/-- `_TRANSITION_EVENTS`. -/
def transitionEvent : CampaignStatus → GovernanceEventType
  | .active => .campaignActivated
  | .closed => .campaignClosed
  | .canceled | .draft => .campaignCanceled

/-- `as_digestible` of the options. -/
def optionsDigestible (options : GenerationOptions) : Json :=
  .object
    [("include_inherited",.bool options.includeInherited),
      ("include_builtin",.bool options.includeBuiltin),
      ("include_deny",.bool options.includeDeny)]

def scopeText (scope : CampaignScope) : String := scope.kind.value ++ ":" ++ scope.key

/-- What generation reads of a campaign. -/
def planOf (c : ReviewCampaign) : CampaignPlan where
  focus := c.focus
  scopes := c.scopes
  options := c.options
  baselineAt := instant c.baselineAt

/-- The campaign that `create_campaign` makes of checked arguments. -/
structure CampaignDraft where
  name : String
  focus : CampaignFocus
  scopes : List CampaignScope
  baselineAt : UtcMoment
  description : Option String := none
  dueAt : Option UtcMoment := none
  options : GenerationOptions := {}
  commentRequirement : CommentRequirement := .standard

def newCampaign (actor : Actor) (draft : CampaignDraft) (now : UtcMoment) (campaignId : Uuid) :
    Except GovernanceError ReviewCampaign := do
  validateScopes draft.focus draft.scopes
  let baseline ← validateBaseline draft.baselineAt now
  let due ← validateDueDate draft.dueAt baseline
  let description ← validateNote draft.description "description"
  return { campaignId := campaignId
           name := stripped draft.name
           description := description
           focus := draft.focus
           status := .draft
           baselineAt := baseline
           dueAt := due
           options := draft.options
           scopes := firstByKey (fun s => (s.kind,s.key)) draft.scopes
           createdBySubject := actor.subject
           createdAt := now
           commentRequirement := draft.commentRequirement }

section Calls
variable (casefold sha256 : String → String)

/-- `create_campaign`. -/
def createCampaign (actor : Actor) (draft : CampaignDraft) (now : UtcMoment) (fresh : ℕ → Uuid) :
    Work Reply := do
  let campaign ← Program.ofExcept (newCampaign actor draft now (fresh 0))
  insertCampaign campaign
  appendNotice sha256 actor campaign.campaignId (fresh 1) now
    { eventType := .campaignCreated
      payload :=
        [("name",.text campaign.name),
          ("focus",.text campaign.focus.value),
          ("baseline_at",.text campaign.baselineAt.isoformat),
          ("due_at",optionalJson (fun d => .text (UtcMoment.isoformat d)) campaign.dueAt),
          ("scopes",.array (campaign.scopes.map fun s => .text (scopeText s))),
          ("options",optionsDigestible campaign.options),
          ("comment_requirement",.text campaign.commentRequirement.value)] }
  return fun _ => .ok (.campaign campaign)

/-- `generate`. -/
def generate (actor : Actor) (campaignId : Uuid) (versions : Table) (now : UtcMoment)
    (fresh : ℕ → Uuid) : Work Reply := do
  let campaign ← getCampaign campaignId
  Program.require (campaign.status = .draft) (.itemsFrozen campaign.status)
  let result ← Program.ofExcept
    ((generateFromBaseline casefold sha256 versions (planOf campaign)).mapError .generation)
  let items := builtItems campaignId result.items now fresh
  let regenerated := campaign.generatedAt.isSome
  clearItems campaignId
  insertItems campaignId items
  recordGeneration campaignId result.digest items.length result.excluded now
  appendNotice sha256 actor campaignId (fresh items.length) now
    { eventType := .campaignGenerated
      payload :=
        [("item_count",.whole items.length),
          ("snapshot_digest",.text result.digest),
          ("excluded",.object (result.excluded.map fun (reason,n) => (reason,.whole n))),
          ("regenerated",.bool regenerated)] }
  return fun db => do
    let c ← refreshed campaignId db
    return .generated c items result regenerated

/-- `_transition`. -/
def transition (actor : Actor) (campaignId : Uuid) (status : CampaignStatus)
    (payload : List (String × Json)) (now : UtcMoment) (fresh : ℕ → Uuid) : Work Reply := do
  setCampaignStatus campaignId status now (if status = .active then none else some actor.subject)
  appendNotice sha256 actor campaignId (fresh 0) now
    { eventType := transitionEvent status
      payload := ("status",.text status.value) :: payload }
  return fun db => (refreshed campaignId db).map .campaign

/-- `activate`. -/
def activate (actor : Actor) (campaignId : Uuid) (now : UtcMoment) (fresh : ℕ → Uuid) :
    Work Reply := do
  let campaign ← getCampaign campaignId
  let _ ← Program.ofExcept (validateTransition campaign.status .active)
  Program.require (campaign.generatedAt.isSome) .notGenerated
  Program.require (campaign.itemCount ≠ 0) .nothingToReview
  transition sha256 actor campaignId .active [] now fresh

/-- How many items of a campaign have a status. -/
def statusCount (campaignId : Uuid) (status : ReviewItemStatus) (db : Store) : ℕ :=
  (db.items.filter fun i => i.campaignId = campaignId && i.status = status).length

/-- `close`. -/
def close (actor : Actor) (campaignId : Uuid) (now : UtcMoment) (fresh : ℕ → Uuid) :
    Work Reply := do
  let campaign ← getCampaign campaignId
  let _ ← Program.ofExcept (validateTransition campaign.status .closed)
  let counts ← Program.read fun db : Store =>
    (statusCount campaignId .decided db,statusCount campaignId .pending db)
  transition sha256 actor campaignId .closed
    [("decided",.whole counts.1),("undecided",.whole counts.2)] now fresh

/-- `cancel`. -/
def cancel (actor : Actor) (campaignId : Uuid) (reason : Option String) (now : UtcMoment)
    (fresh : ℕ → Uuid) : Work Reply := do
  let campaign ← getCampaign campaignId
  let _ ← Program.ofExcept (validateTransition campaign.status .canceled)
  let note ← Program.ofExcept (validateNote reason "reason")
  transition sha256 actor campaignId .canceled [("reason",optionalJson .text note)] now fresh

structure Reviewer where
  subject : String
  displayName : Option String := none
  email : Option String := none
  scope : Option CampaignScope := none
  dueAt : Option UtcMoment := none

/-- The assignment that `assign` makes of checked arguments. -/
def newAssignment (actor : Actor) (campaign : ReviewCampaign) (reviewer : Reviewer)
    (now : UtcMoment) (assignmentId : Uuid) : Except GovernanceError ReviewAssignment := do
  if campaign.status ∉ [.draft, .active] then throw (.takesNoReviewers campaign.status)
  for scope in reviewer.scope.toList do
    if scope.kind ∉ assignableScopes campaign.focus then
      throw (.scopeNotAssignable campaign.focus scope.kind)
  if stripped reviewer.subject = "" then throw .noReviewer
  let due ← validateDueDate reviewer.dueAt campaign.baselineAt
  return { assignmentId := assignmentId
           campaignId := campaign.campaignId
           reviewerSubject := stripped reviewer.subject
           reviewerDisplayName := reviewer.displayName
           reviewerEmail := reviewer.email
           scope := reviewer.scope
           dueAt := due
           assignedBySubject := actor.subject
           assignedAt := now }

/-- `assign`. -/
def assign (actor : Actor) (campaignId : Uuid) (reviewer : Reviewer) (now : UtcMoment)
    (fresh : ℕ → Uuid) : Work Reply := do
  let campaign ← getCampaign campaignId
  let assignment ← Program.ofExcept (newAssignment actor campaign reviewer now (fresh 0))
  insertAssignment assignment
  let attached ← attachItems casefold assignment
  appendNotice sha256 actor campaignId (fresh 1) now
    { eventType := .reviewerAssigned
      payload :=
        [("assignment_id",.text assignment.assignmentId),
          ("reviewer_subject",.text assignment.reviewerSubject),
          ("scope",optionalJson (fun s => .text (scopeText s)) assignment.scope),
          ("items_attached",.whole attached)] }
  return fun _ => .ok (.assigned assignment attached)

/-- `revoke_assignment`. -/
def revokeAssignment (actor : Actor) (campaignId assignmentId : Uuid) (now : UtcMoment)
    (fresh : ℕ → Uuid) : Work Reply := do
  let row ← Program.read (assignmentRow assignmentId)
  let assignment ← Program.found (.noAssignment assignmentId campaignId)
    (row.filter (·.campaignId = campaignId))
  Program.require assignment.isActive (.alreadyRevoked assignmentId)
  revokeRow assignmentId actor.subject now
  appendNotice sha256 actor campaignId (fresh 0) now
    { eventType := .reviewerRevoked
      payload :=
        [("assignment_id",.text assignmentId),
          ("reviewer_subject",.text assignment.reviewerSubject)] }
  return fun db => match assignmentRow assignmentId db with
    | some a => .ok (.revoked a)
    | none => .error (.noAssignment assignmentId campaignId)

/-- `_assignment_for`. -/
def assignmentFor (item : ReviewItem) (actor : Actor) : Work ReviewAssignment := do
  let assignmentId ← Program.found (.assignedToNobody item.itemId) item.assignmentId
  let row ← Program.read (assignmentRow assignmentId)
  let assignment ← Program.found (.assignmentGone item.itemId) row
  Program.require (assignment.reviewerSubject = actor.subject) (.assignedToAnother item.itemId)
  Program.require assignment.isActive (.stoodDown item.campaignId)
  return assignment

/-- The row of an answer, which follows what it supersedes. -/
def newDecision (actor : Actor) (item : ReviewItem) (campaign : ReviewCampaign)
    (assignment : ReviewAssignment) (decision : DecisionKind) (rationale : Option String)
    (previous : Option ReviewDecision) (now : UtcMoment) (decisionId : Uuid) : ReviewDecision where
  decisionId := decisionId
  itemId := item.itemId
  campaignId := item.campaignId
  decision := decision
  rationale := rationale
  decidedBySubject := actor.subject
  decidedByDisplayName := actor.displayName
  decidedAt := now
  decidedLate := (assignment.dueAt.or campaign.dueAt).any fun due => instant due < instant now
  supersedesDecisionId := previous.map (·.decisionId)

/-- What the trail says of an answer, the evidence that it is about included. -/
def recordedNotice (item : ReviewItem) (assignment : ReviewAssignment) (record : ReviewDecision)
    (more : List (String × Json)) : Notice where
  eventType := .decisionRecorded
  itemId := some item.itemId
  decisionId := some record.decisionId
  payload :=
    [("decision",.text record.decision.value),
      ("evidence_digest",.text item.frozen.digest),
      ("target_kind",.text item.frozen.targetKind.value),
      ("target_key",.text item.frozen.targetKey),
      ("principal_key",.text item.frozen.principalKey),
      ("certainty",.text (certaintyValue item.frozen.certainty)),
      ("late",.bool record.decidedLate),
      ("assignment_id",.text assignment.assignmentId),
      ("has_rationale",.bool record.rationale.isSome)] ++ more

/-- What the trail says of the answer before. -/
def supersededNotice (previous record : ReviewDecision) : Notice where
  eventType := .decisionSuperseded
  itemId := some record.itemId
  decisionId := some previous.decisionId
  payload :=
    [("superseded_decision",.text previous.decision.value),
      ("superseded_by",.text record.decisionId),
      ("originally_decided_by",.text previous.decidedBySubject)]

def supersedePrevious (previous : Option ReviewDecision) (record : ReviewDecision)
    (now : UtcMoment) : Work Unit :=
  match previous with
  | none => pure ()
  | some p => supersedeDecision p.decisionId record.decisionId now

/-- The rows of an answer: what it supersedes first, so that the index over the
current decisions never sees two. -/
def answer (item : ReviewItem) (previous : Option ReviewDecision) (record : ReviewDecision)
    (now : UtcMoment) : Work Unit := do
  supersedePrevious previous record now
  insertDecision record
  markItemDecided item.itemId record.decisionId now

def appendSuperseded (actor : Actor) (item : ReviewItem) (previous : Option ReviewDecision)
    (record : ReviewDecision) (now : UtcMoment) (eventId : Uuid) : Work Unit :=
  match previous with
  | none => pure ()
  | some p => appendNotice sha256 actor item.campaignId eventId now (supersededNotice p record)

/-- `decide`. -/
def decide (actor : Actor) (itemId : Uuid) (decision : DecisionKind) (rationale : Option String)
    (now : UtcMoment) (fresh : ℕ → Uuid) : Work Reply := do
  let item ← getItem itemId
  let campaign ← getCampaign item.campaignId
  Program.require (campaign.status = .active) (.acceptsNoDecisions campaign.status)
  let assignment ← assignmentFor item actor
  let cleaned ← Program.ofExcept
    (validateRationale decision rationale campaign.commentRequirement)
  let previous ← currentDecision itemId
  let record := newDecision actor item campaign assignment decision cleaned previous now (fresh 0)
  answer item previous record now
  appendSuperseded sha256 actor item previous record now (fresh 1)
  appendNotice sha256 actor item.campaignId (fresh 2) now
    (recordedNotice item assignment record [])
  return fun _ => .ok (.decided record)

/-- `_require_homogeneous`. -/
def requireHomogeneous (items : List ReviewItem) : Except GovernanceError Unit :=
  let kinds := (items.map (·.frozen.targetKind)).dedup
  let principals := (items.map (·.frozen.principalKey)).dedup
  let targets := (items.map (·.frozen.targetKey)).dedup
  if 1 < kinds.length then .error .mixedTargetKinds
  else if 1 < principals.length ∧ 1 < targets.length then
    .error (.mixedAxes principals.length targets.length)
  else .ok ()

/-- The answers of a batch, one item after the other. -/
def answerEach (actor : Actor) (campaign : ReviewCampaign) (decision : DecisionKind)
    (rationale : Option String) (size : ℕ) (now : UtcMoment) (fresh : ℕ → Uuid) :
    ℕ → List ReviewItem → Work (List ReviewDecision)
  | _, [] => pure []
  | n, item :: rest => do
    let assignment ← assignmentFor item actor
    let record :=
      newDecision actor item campaign assignment decision rationale none now (fresh (2*n))
    answer item none record now
    appendNotice sha256 actor campaign.campaignId (fresh (2*n+1)) now
      (recordedNotice item assignment record [("bulk",.bool true),("bulk_size",.whole size)])
    let records ← answerEach actor campaign decision rationale size now fresh (n+1) rest
    return record :: records

/-- `bulk_decide`. What drifted is for the comparison with the estate to say. -/
def bulkDecide (actor : Actor) (campaignId : Uuid) (itemIds : List Uuid) (decision : DecisionKind)
    (rationale : Option String) (drifts : ReviewItem → Bool) (now : UtcMoment)
    (fresh : ℕ → Uuid) : Work Reply := do
  let campaign ← getCampaign campaignId
  Program.require (campaign.status = .active) (.acceptsNoDecisions campaign.status)
  let requested := firstByKey id itemIds
  Program.require (requested ≠ []) .emptyBatch
  Program.require (requested.length ≤ maxBulkItems) (.batchTooLarge requested.length)
  let items ← Program.read (itemsByIds campaignId requested)
  let missing := requested.filter (· ∉ items.map (·.itemId))
  Program.require (missing = []) (.notInCampaign missing)
  let _ ← Program.ofExcept (requireHomogeneous items)
  let decided := (items.filter (·.status = .decided)).map (·.itemId)
  Program.require (decided = []) (.alreadyDecided decided)
  let moved := (items.filter drifts).map (·.itemId)
  Program.require (moved = []) (.drifted moved)
  let cleaned ← Program.ofExcept
    (validateRationale decision rationale campaign.commentRequirement)
  let records ← answerEach sha256 actor campaign decision cleaned items.length now fresh 0 items
  return fun _ => .ok (.decidedAll campaignId decision records)

/-- `propose_remediation`. -/
def proposeRemediation (actor : Actor) (itemId : Uuid) (action : RemediationAction)
    (details : List (String × Json)) (now : UtcMoment) (fresh : ℕ → Uuid) : Work Reply := do
  let item ← getItem itemId
  let campaign ← getCampaign item.campaignId
  Program.require (campaign.status = .active) (.acceptsNoDecisions campaign.status)
  let assignment ← assignmentFor item actor
  let found ← currentDecision itemId
  let current ← Program.found (.noDecisionYet itemId) found
  Program.require (current.decision ≠ .certify) (.certified itemId)
  let proposal : RemediationProposal :=
    { proposalId := fresh 0
      itemId := itemId
      campaignId := item.campaignId
      decisionId := some current.decisionId
      action := action
      status := .proposed
      targetKind := item.frozen.targetKind
      targetKey := item.frozen.targetKey
      principalKey := item.frozen.principalKey
      aceKeys := item.frozen.grants.map (·.entry.aceKey)
      details := details
      proposedBySubject := actor.subject
      proposedAt := now }
  insertProposal proposal
  appendNotice sha256 actor item.campaignId (fresh 1) now
    { eventType := .remediationProposed
      itemId := some itemId
      decisionId := some current.decisionId
      payload :=
        [("proposal_id",.text proposal.proposalId),
          ("action",.text action.value),
          ("target_key",.text item.frozen.targetKey),
          ("principal_key",.text item.frozen.principalKey),
          ("ace_keys",.array (proposal.aceKeys.map .text)),
          ("assignment_id",.text assignment.assignmentId)] }
  return fun _ => .ok (.proposed proposal)

end Calls

/-- A call with its arguments, but for who makes it, when, and with which fresh identities. -/
inductive Request where
  | createCampaign (draft : CampaignDraft)
  | generate (campaignId : Uuid) (versions : Table)
  | activate (campaignId : Uuid)
  | close (campaignId : Uuid)
  | cancel (campaignId : Uuid) (reason : Option String)
  | assign (campaignId : Uuid) (reviewer : Reviewer)
  | revokeAssignment (campaignId assignmentId : Uuid)
  | decide (itemId : Uuid) (decision : DecisionKind) (rationale : Option String)
  | bulkDecide (campaignId : Uuid) (itemIds : List Uuid) (decision : DecisionKind)
      (rationale : Option String) (drifts : ReviewItem → Bool)
  | proposeRemediation (itemId : Uuid) (action : RemediationAction)
      (details : List (String × Json))

structure ServiceCall where
  actor : Actor
  now : UtcMoment
  fresh : ℕ → Uuid
  request : Request

section Serving
variable (casefold sha256 : String → String)

def program (c : ServiceCall) : Work Reply :=
  match c.request with
  | .createCampaign draft => createCampaign sha256 c.actor draft c.now c.fresh
  | .generate campaignId versions =>
    generate casefold sha256 c.actor campaignId versions c.now c.fresh
  | .activate campaignId => activate sha256 c.actor campaignId c.now c.fresh
  | .close campaignId => close sha256 c.actor campaignId c.now c.fresh
  | .cancel campaignId reason => cancel sha256 c.actor campaignId reason c.now c.fresh
  | .assign campaignId reviewer => assign casefold sha256 c.actor campaignId reviewer c.now c.fresh
  | .revokeAssignment campaignId assignmentId =>
    revokeAssignment sha256 c.actor campaignId assignmentId c.now c.fresh
  | .decide itemId decision rationale =>
    decide sha256 c.actor itemId decision rationale c.now c.fresh
  | .bulkDecide campaignId itemIds decision rationale drifts =>
    bulkDecide sha256 c.actor campaignId itemIds decision rationale drifts c.now c.fresh
  | .proposeRemediation itemId action details =>
    proposeRemediation sha256 c.actor itemId action details c.now c.fresh

/-- A call with the database to itself: its answer, and what it leaves. -/
def serve (c : ServiceCall) (db : Store) : Except GovernanceError Answer × Store :=
  Call.perform ⟨program casefold sha256 c,fun reply db => reply db⟩ db

/-- The database after some calls, from the tables as they are installed. -/
def afterAll (calls : List ServiceCall) : Store :=
  calls.foldl (fun db c => (serve casefold sha256 c db).2) Store.blank

end Serving

end Adg.ReviewCalls
