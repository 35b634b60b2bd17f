import Adg.PlanPreconditions
import Adg.SimulationOverlays
import Adg.StoredPlans

/-!
# The lifecycle of a plan

A plan is drafted, measured, submitted, answered and exported, each by a call that
reads the plan, refuses or writes, and commits. What a call writes is decided by
what it has read. Between the calls collectors move the estate.
-/

set_option autoImplicit false

namespace Adg.PlanLifecycle
open Adg.Observation Adg.SecurityIdentifier Adg.SortedLists Adg.CanonicalJson Adg.ChangePlans
open Adg.KeyedTables Adg.ObjectVersions Adg.VersionTable
open Adg.PlanDigests Adg.PlanRecords Adg.StoredPlans Adg.PlanPreconditions Adg.SimulationOverlays
open Adg.AuditChain (UtcMoment GovernanceEventType)
open Adg.ReviewCampaigns (Actor)
open Adg.ReviewGeneration (optionalJson)
open Adg.Fallible (bind_ok)

/-! ### What a plan accumulates -/

def statusValue : ChangePlanStatus → String
  | .draft => "draft"
  | .pendingApproval => "pending_approval"
  | .approved => "approved"
  | .rejected => "rejected"
  | .exported => "exported"
  | .invalidated => "invalidated"
  | .canceled => "canceled"

/-- `PLAN_TRANSITIONS`. -/
def planTransitions : ChangePlanStatus → List ChangePlanStatus
  | .draft => [.pendingApproval, .canceled, .invalidated]
  | .pendingApproval => [.approved, .rejected, .canceled, .invalidated]
  | .approved => [.exported, .canceled, .invalidated]
  | .exported | .rejected | .invalidated | .canceled => []

/-- `validate_transition`. -/
def validateTransition (current requested : ChangePlanStatus) : Except DomainError Unit :=
  let allowed := sortedBy id ((planTransitions current).map statusValue)
  let permitted := if allowed = [] then "nothing" else String.intercalate ", " allowed
  refuseWhen (requested ∉ planTransitions current)
    s!"A plan that is {statusValue current} cannot become {statusValue requested}. From {statusValue current} it may become: {permitted}."
    "status"

inductive ApprovalDecision where
  | approve
  | reject
  deriving DecidableEq, Repr

structure ApprovalRecord where
  approvalId : String
  decision : ApprovalDecision
  approverSubject : String
  approverDisplayName : Option String
  approverRoles : List String
  decidedAt : UtcMoment
  rationale : Option String
  planDigest : String
  basisToken : String
  simulationId : Option String

/-- An event of the chain of a plan. -/
structure PlanEvent where
  eventType : GovernanceEventType
  actor : Actor
  occurredAt : UtcMoment
  payload : Document

/-- A row of `remediation_exports`, with what its document holds. -/
structure PlanExport where
  exportId : String
  exportedBySubject : String
  exportedByDisplayName : Option String
  exportedAt : UtcMoment
  plan : ChangePlan
  approvals : List ApprovalRecord
  preconditions : List ChangePrecondition
  auditHead : Option PlanEvent
  basisToken : String

/-- Everything stored under one plan. The steps are those that are read from its rows. -/
structure PlanState where
  row : PlanRow
  changes : List RecordedChange
  approvals : List ApprovalRecord := []
  exports : List PlanExport := []
  events : List PlanEvent := []

/-- `get_plan`. -/
def PlanState.plan (p : PlanState) : ChangePlan := { p.row with changes := p.changes }

/-- `ChangePlan.has_current_simulation`. -/
def hasCurrentSimulation (p : PlanRow) : Bool :=
  p.simulationId ≠ none ∧ p.simulationBasisToken = some p.basisToken

/-- `ChangePlan.approval_is_current`. -/
def approvalIsCurrent (sha256 : String → String) (p : ChangePlan) : Bool :=
  p.status = .approved ∧ p.approvedPlanDigest = some (p.digest sha256)

/-! ### The estate and the deployment -/

/-- What has been collected: the versions, and the token of the basis. -/
structure Estate where
  table : Table
  token : String
  latestRunId : Option String := none
  readable : ∀ moment, Readable table moment

/-- What a simulation reports. -/
structure Measurement where
  complete : Bool
  inert : Bool
  summary : Document

/-- A row of `simulations`. -/
structure StoredSimulation where
  overlay : SimulationOverlay
  baselineToken : String

structure Deployment where
  sha256 : String → String
  casefold : String → String
  measure : Estate → SimulationOverlay → Except DomainError Measurement
  signingKey : String

/-- Who calls, and when. -/
structure Caller where
  actor : Actor
  now : UtcMoment
  moment : Instant

inductive Refusal where
  | notFound
  | conflict
  | forbidden
  | invalid (error : DomainError)
  | unreadable (error : ReadError)
  | integrity

/-! ### What a call writes -/

inductive PlanWrite where
  | replaceChanges (changes : List RecordedChange)
  | attachSimulation (simulationId : String) (simulation : StoredSimulation)
    (impact : Document) (event : PlanEvent)
  | submit (event : PlanEvent)
  | approve (approval : ApprovalRecord) (event : PlanEvent)
  | reject (approval : ApprovalRecord) (event : PlanEvent)
  | invalidate (reason : String) (event : PlanEvent)
  | issueExport (issued : PlanExport) (event : PlanEvent)
  | cancel (event : PlanEvent)

/-- The updates of a transaction. -/
def PlanState.write (p : PlanState) : PlanWrite → PlanState
  | .replaceChanges changes =>
    { p with
      changes := (performed changes).map kept
      row := { p.row with
        simulationId := none
        simulationBasisToken := none
        impactSummary := [] } }
  | .attachSimulation simulationId simulation impact event =>
    { p with
      row := { p.row with
        simulationId := some simulationId
        simulationBasisToken := some simulation.baselineToken
        impactSummary := impact }
      events := p.events ++ [event] }
  | .submit event =>
    { p with
      row := { p.row with
        status := .pendingApproval
        submittedAt := some event.occurredAt }
      events := p.events ++ [event] }
  | .approve approval event =>
    { p with
      row := { p.row with
        status := .approved
        decidedAt := some event.occurredAt
        approvedBySubject := some approval.approverSubject
        approvedPlanDigest := some approval.planDigest
        approvedBasisToken := some approval.basisToken }
      approvals := p.approvals ++ [approval]
      events := p.events ++ [event] }
  | .reject approval event =>
    { p with
      row := { p.row with
        status := .rejected
        decidedAt := some event.occurredAt
        rejectionReason := approval.rationale }
      approvals := p.approvals ++ [approval]
      events := p.events ++ [event] }
  | .invalidate reason event =>
    { p with
      row := { p.row with
        status := .invalidated
        invalidatedAt := some event.occurredAt
        invalidationReason := some reason }
      events := p.events ++ [event] }
  | .issueExport issued event =>
    { p with
      row := { p.row with
        status := .exported
        exportedAt := some event.occurredAt }
      exports := p.exports ++ [issued]
      events := p.events ++ [event] }
  | .cancel event =>
    { p with
      row := { p.row with
        status := .canceled
        canceledAt := some event.occurredAt
        canceledBySubject := some event.actor.subject }
      events := p.events ++ [event] }

/-- What a call does: nothing when it is refused, or one write, after which it may raise. -/
abbrev Answer := Except Refusal (PlanWrite × Option Refusal)

/-! ### The calls -/

def ensure (p : Prop) [Decidable p] (r : Refusal) : Except Refusal Unit :=
  if p then .ok () else .error r

@[simp] theorem ensure_ok {p : Prop} [Decidable p] {r : Refusal} {u : Unit} :
    ensure p r = .ok u ↔ p := by
  unfold ensure
  split_ifs with h <;> simp [h]

/-- `_append`, the event of a call on a plan. -/
def eventOf (c : Caller) (planId : String) (eventType : GovernanceEventType)
    (payload : Document) : PlanEvent where
  eventType := eventType
  actor := c.actor
  occurredAt := c.now
  payload := ("plan_id",.text planId) :: payload

def verdictValue : PreconditionVerdict → String
  | .satisfied => "satisfied"
  | .changed => "changed"
  | .missing => "missing"
  | .unobserved => "unobserved"

def verdictCount (report : List ChangePrecondition) (v : PreconditionVerdict) : ℕ :=
  (report.filter (·.verdict = v)).length

/-- `PreconditionReport.counts`. -/
def verdictCounts (report : List ChangePrecondition) : Json :=
  .object ([.satisfied, .changed, .missing, .unobserved].map fun v =>
    (verdictValue v,.whole (verdictCount report v)))

/-- `summarize_verdict`, of a report that is not satisfied. -/
def summarizeVerdict (report : List ChangePrecondition) : String :=
  let blocking := (report.filter (·.verdict.blocksExport)).length
  let parts := ([.changed, .missing, .unobserved].filter (verdictCount report · ≠ 0)).map fun v =>
    s!"{verdictCount report v} {verdictValue v}"
  let said := String.intercalate ", " parts
  s!"{blocking} of {report.length} changes no longer match what ADG observed ({said}). The plan cannot be exported until it is rewritten against current state."

/-- Whether the database takes the rows of the steps of a plan, beside those of others. -/
def acceptable (sha256 : String → String) (taken : List ℕ) (planId : String)
    (changes : List RecordedChange) : Bool :=
  (changes.all fun c => ChangeRow.accepted (changeValues sha256 planId c.toRecordedFields)) ∧
    (taken ++ changes.map (·.changeId)).Nodup

section Calls
variable (d : Deployment) (estate : Estate) (p : PlanState) (c : Caller)

/-- `preconditions`. -/
def preconditionsOf : Except ReadError (List ChangePrecondition) := do
  let planned := p.changes.map (·.planned)
  let states ← observedState estate.table c.moment planned
  return evaluatePlan d.sha256 planned (dictionary states)

/-- `_require_author`. -/
def requireAuthor : Except Refusal Unit :=
  ensure (c.actor.subject = p.row.requestedBySubject) .forbidden

/-- `replace_changes`, where the steps of the other plans have taken their identities. -/
def replaceChanges (taken : List ℕ) (changes : List RecordedChange) : Answer := do
  ensure (p.row.status = .draft) .conflict
  requireAuthor p c
  (validateChanges (changes.map (·.planned))).mapError .invalid
  ensure (acceptable d.sha256 taken p.row.planId changes = true) .integrity
  return (.replaceChanges changes,none)

/-- `simulate`, where the identity of the simulation is new or not. -/
def simulate (simulationId : String) (isNew : Bool) : Answer := do
  ensure (p.row.status = .draft ∨ p.row.status = .pendingApproval) .conflict
  let overlay ← (overlayForChanges d.casefold (p.changes.map (·.planned))).mapError .invalid
  let report ← (d.measure estate overlay).mapError .invalid
  ensure (isNew = true) .integrity
  return (.attachSimulation simulationId ⟨overlay,estate.token⟩ report.summary
    (eventOf c p.row.planId .planSimulated [("simulation_id",.text simulationId),
      ("basis_token",.text estate.token),("complete",.bool report.complete),
      ("inert",.bool report.inert),("summary",.object report.summary)]),none)

/-- `submit`. -/
def submit : Answer := do
  (validateTransition p.row.status .pendingApproval).mapError .invalid
  requireAuthor p c
  ensure (hasCurrentSimulation p.row = true) .conflict
  let report ← (preconditionsOf d estate p c).mapError .unreadable
  ensure (satisfied report = true) .conflict
  return (.submit (eventOf c p.row.planId .planSubmitted
    [("plan_digest",.text (p.plan.digest d.sha256)),
      ("simulation_id",optionalJson .text p.row.simulationId),
      ("precondition_counts",verdictCounts report)]),none)

/-- `_invalidate`, after which the call raises. -/
def invalidated (report : List ChangePrecondition) : PlanWrite × Option Refusal :=
  (.invalidate (summarizeVerdict report) (eventOf c p.row.planId .planInvalidated
    [("reason",.text (summarizeVerdict report)),
      ("from_status",.text (statusValue p.row.status))]),some .conflict)

/-- The record of an answer. -/
def approvalOf (decision : ApprovalDecision) (said approvalId : String) : ApprovalRecord where
  approvalId := approvalId
  decision := decision
  approverSubject := c.actor.subject
  approverDisplayName := c.actor.displayName
  approverRoles := sortedBy id c.actor.roles
  decidedAt := c.now
  rationale := if said = "" then none else some said
  planDigest := p.plan.digest d.sha256
  basisToken := estate.token
  simulationId := p.row.simulationId

def answered (approval : ApprovalRecord) : PlanWrite :=
  let payload : Document := [("approval_id",.text approval.approvalId),
    ("plan_digest",.text approval.planDigest),("basis_token",.text approval.basisToken),
    ("simulation_id",optionalJson .text approval.simulationId),
    ("rationale_present",.bool approval.rationale.isSome)]
  match approval.decision with
  | .approve => .approve approval (eventOf c p.row.planId .planApproved payload)
  | .reject => .reject approval (eventOf c p.row.planId .planRejected payload)

/-- `decide`. -/
def decide (decision : ApprovalDecision) (rationale : Option String) (approvalId : String) :
    Answer := do
  let said := stripped (rationale.getD "")
  ensure (p.row.status = .pendingApproval) .conflict
  ensure (c.actor.subject ≠ p.row.requestedBySubject) .forbidden
  ensure (decision = .reject → said ≠ "") (.invalid {
    message := "A rejection must say why. The planner's next step depends entirely on the reason, and 'rejected' on its own sends them back to guess at it."
    field := some "rationale" })
  let report ← (preconditionsOf d estate p c).mapError .unreadable
  if decision = .approve ∧ satisfied report = false then return invalidated p c report
  else return (answered p c (approvalOf d estate p c decision said approvalId),none)

/-- The export that is issued: `build_document`, and the row around it. -/
def exportOf (report : List ChangePrecondition) (exportId : String) : PlanExport where
  exportId := exportId
  exportedBySubject := c.actor.subject
  exportedByDisplayName := c.actor.displayName
  exportedAt := c.now
  plan := p.plan
  approvals := p.approvals
  preconditions := report
  auditHead := p.events.getLast?
  basisToken := estate.token

/-- `export`. -/
def exportPlan (exportId : String) : Answer := do
  ensure (p.row.status = .approved) .conflict
  ensure (approvalIsCurrent d.sha256 p.plan = true) .conflict
  ensure (c.actor.subject ≠ p.row.requestedBySubject ∧
    p.row.approvedBySubject ≠ some c.actor.subject) .forbidden
  let report ← (preconditionsOf d estate p c).mapError .unreadable
  if satisfied report = false then return invalidated p c report
  else
    ensure (d.signingKey ≠ "") .conflict
    return (.issueExport (exportOf estate p c report exportId) (eventOf c p.row.planId .planExported
      [("export_id",.text exportId),("basis_token",.text estate.token),
        ("performed_by_adg",.bool false)]),none)

/-- `cancel`. -/
def cancel (reason : Option String) : Answer := do
  let said := stripped (reason.getD "")
  (validateTransition p.row.status .canceled).mapError .invalid
  return (.cancel (eventOf c p.row.planId .planCanceled
    [("reason",if said = "" then .null else .text said),
      ("from_status",.text (statusValue p.row.status))]),none)

end Calls

/-! ### The system -/

structure System where
  plans : KeyedTable String PlanState
  simulations : KeyedTable String StoredSimulation
  estate : Estate

inductive Request where
  | create (title rationale : String) (changes : List RecordedChange)
    (campaignId : Option String)
  | replaceChanges (changes : List RecordedChange)
  | simulate (simulationId : String)
  | submit
  | decide (decision : ApprovalDecision) (rationale : Option String) (approvalId : String)
  | exportPlan (exportId : String)
  | cancel (reason : Option String)

structure Call where
  caller : Caller
  planId : String
  request : Request

section Service
variable (d : Deployment) (s : System) (c : Caller)

/-- The identities of the steps of the other plans. -/
def takenIds (planId : String) : List ℕ :=
  (s.plans.entries.filter (·.1 ≠ planId)).flatMap fun e => e.2.changes.map (·.changeId)

/-- What `create_plan` stores: its steps as they are read back, and its event. -/
def created (r : PlanRequest) : PlanState where
  row := r.plan.toPlanRow
  changes := r.plan.changes.map kept
  events := [eventOf c r.planId .planCreated [("title",.text r.plan.title),
    ("change_count",.whole r.plan.changes.length),("basis_token",.text r.basisToken),
    ("kinds",.array ((sortedBy id (r.plan.changes.map (·.kind.value)).dedup).map .text))]]

/-- `create_plan`. -/
def createPlan (r : PlanRequest) : Except Refusal PlanState := do
  (StoredPlans.validateTitle (stripped r.title)).mapError .invalid
  (StoredPlans.validateRationale (stripped r.rationale)).mapError .invalid
  (validateChanges (r.changes.map (·.planned))).mapError .invalid
  ensure ((s.plans.get? r.planId).isNone = true) .integrity
  ensure (acceptable d.sha256 (takenIds s r.planId) r.planId r.plan.changes = true) .integrity
  return created c r

/-- What a call is answered on a plan that is stored. -/
def answer (planId : String) (p : PlanState) : Request → Answer
  | .create _ _ _ _ => .error .integrity
  | .replaceChanges changes => replaceChanges d p c (takenIds s planId) changes
  | .simulate simulationId =>
    simulate d s.estate p c simulationId (s.simulations.get? simulationId).isNone
  | .submit => submit d s.estate p c
  | .decide decision rationale approvalId => decide d s.estate p c decision rationale approvalId
  | .exportPlan exportId => exportPlan d s.estate p c exportId
  | .cancel reason => cancel p c reason

/-- A write of a transaction on a plan, and the simulation it stores. -/
def System.apply (planId : String) (w : PlanWrite) : System :=
  { s with
    plans := s.plans.update (fun key _ => key = planId) (·.write w)
    simulations := match w with
      | .attachSimulation simulationId simulation _ _ =>
        s.simulations.insertNew [(simulationId,simulation)]
      | _ => s.simulations }

end Service

/-- The request of a call that creates a plan. -/
def requestOf (s : System) (c : Call) (title rationale : String) (changes : List RecordedChange)
    (campaignId : Option String) : PlanRequest where
  actor := c.caller.actor
  title := title
  rationale := rationale
  changes := changes
  campaignId := campaignId
  planId := c.planId
  now := c.caller.now
  basisToken := s.estate.token
  latestRunId := s.estate.latestRunId

/-- A call: the system it leaves, and the refusal it raises. -/
def perform (d : Deployment) (s : System) (c : Call) : System × Option Refusal :=
  match c.request with
  | .create title rationale changes campaignId =>
    match createPlan d s c.caller (requestOf s c title rationale changes campaignId) with
    | .ok p => ({ s with plans := s.plans.insertNew [(c.planId,p)] },none)
    | .error r => (s,some r)
  | request =>
    match s.plans.get? c.planId with
    | none => (s,some .notFound)
    | some p =>
      match answer d s c.caller c.planId p request with
      | .ok (w,raised) => (s.apply c.planId w,raised)
      | .error r => (s,some r)

/-- A call, or a collector that writes. -/
inductive Move where
  | call (c : Call)
  | ingest (estate : Estate)

def step (d : Deployment) (s : System) : Move → System
  | .call c => (perform d s c).1
  | .ingest estate => { s with estate := estate }

def emptySystem (estate : Estate) : System where
  plans := .empty
  simulations := .empty
  estate := estate

def run (d : Deployment) (s : System) (moves : List Move) : System := moves.foldl (step d) s

/-! ### What a call may write -/

/-- The writes of a call on a stored plan, with the guards that let them through. -/
inductive Writes (d : Deployment) (s : System) (c : Caller) (planId : String) (p : PlanState) :
    Request → PlanWrite → Option Refusal → Prop where
  | replaceChanges {changes : List RecordedChange} (hstatus : p.row.status = .draft)
      (hauthor : c.actor.subject = p.row.requestedBySubject)
      (hvalid : validateChanges (changes.map (·.planned)) = .ok ())
      (hrows : acceptable d.sha256 (takenIds s planId) p.row.planId changes = true) :
      Writes d s c planId p (.replaceChanges changes) (.replaceChanges changes) none
  | simulate {simulationId : String} {overlay : SimulationOverlay} {report : Measurement}
      {event : PlanEvent} (hstatus : p.row.status = .draft ∨ p.row.status = .pendingApproval)
      (hoverlay : overlayForChanges d.casefold (p.changes.map (·.planned)) = .ok overlay)
      (hreport : d.measure s.estate overlay = .ok report)
      (hnew : s.simulations.get? simulationId = none)
      (hevent : event.eventType = .planSimulated) :
      Writes d s c planId p (.simulate simulationId)
        (.attachSimulation simulationId ⟨overlay,s.estate.token⟩ report.summary event) none
  | submit {report : List ChangePrecondition} {event : PlanEvent}
      (hstatus : p.row.status = .draft) (hauthor : c.actor.subject = p.row.requestedBySubject)
      (hcurrent : hasCurrentSimulation p.row = true)
      (hreport : preconditionsOf d s.estate p c = .ok report)
      (hsatisfied : satisfied report = true)
      (hevent : event.eventType = .planSubmitted ∧
        ("plan_digest",.text (p.plan.digest d.sha256)) ∈ event.payload) :
      Writes d s c planId p .submit (.submit event) none
  | invalidateApproval {rationale : Option String} {approvalId : String} {event : PlanEvent}
      {report : List ChangePrecondition} (hstatus : p.row.status = .pendingApproval)
      (hreport : preconditionsOf d s.estate p c = .ok report)
      (hblocked : satisfied report = false)
      (hevent : event.eventType = .planInvalidated) :
      Writes d s c planId p (.decide .approve rationale approvalId)
        (.invalidate (summarizeVerdict report) event) (some .conflict)
  | approve {rationale : Option String} {approvalId said : String} {event : PlanEvent}
      {report : List ChangePrecondition} (hstatus : p.row.status = .pendingApproval)
      (hother : c.actor.subject ≠ p.row.requestedBySubject)
      (hreport : preconditionsOf d s.estate p c = .ok report)
      (hsatisfied : satisfied report = true) :
      Writes d s c planId p (.decide .approve rationale approvalId)
        (.approve (approvalOf d s.estate p c .approve said approvalId) event) none
  | reject {rationale : Option String} {approvalId said : String} {event : PlanEvent}
      (hstatus : p.row.status = .pendingApproval)
      (hother : c.actor.subject ≠ p.row.requestedBySubject) (hsaid : said ≠ "") :
      Writes d s c planId p (.decide .reject rationale approvalId)
        (.reject (approvalOf d s.estate p c .reject said approvalId) event) none
  | invalidateExport {exportId : String} {event : PlanEvent} {report : List ChangePrecondition}
      (hstatus : p.row.status = .approved)
      (hreport : preconditionsOf d s.estate p c = .ok report)
      (hblocked : satisfied report = false)
      (hevent : event.eventType = .planInvalidated) :
      Writes d s c planId p (.exportPlan exportId)
        (.invalidate (summarizeVerdict report) event) (some .conflict)
  | issueExport {exportId : String} {event : PlanEvent} {report : List ChangePrecondition}
      (hcurrent : approvalIsCurrent d.sha256 p.plan = true)
      (hthird : c.actor.subject ≠ p.row.requestedBySubject ∧
        p.row.approvedBySubject ≠ some c.actor.subject)
      (hreport : preconditionsOf d s.estate p c = .ok report)
      (hsatisfied : satisfied report = true) :
      Writes d s c planId p (.exportPlan exportId)
        (.issueExport (exportOf s.estate p c report exportId) event) none
  | cancel {reason : Option String} {event : PlanEvent}
      (hstatus : .canceled ∈ planTransitions p.row.status) :
      Writes d s c planId p (.cancel reason) (.cancel event) none

theorem transition_ok {current requested : ChangePlanStatus} {u : Unit} :
    validateTransition current requested = .ok u ↔ requested ∈ planTransitions current := by
  unfold validateTransition
  rw [refuseWhen_ok, not_not]

/-- A call writes what its guards let through, and nothing else. -/
theorem answer_writes {d : Deployment} {s : System} {c : Caller} {planId : String}
    {p : PlanState} {request : Request} {w : PlanWrite} {raised : Option Refusal}
    (h : answer d s c planId p request = .ok (w,raised)) :
    Writes d s c planId p request w raised := by
  unfold answer at h
  cases request with
  | create title rationale changes campaignId => cases h
  | replaceChanges changes =>
    unfold replaceChanges requireAuthor at h
    obtain ⟨_,hstatus,h⟩ := bind_ok.mp h
    obtain ⟨_,hauthor,h⟩ := bind_ok.mp h
    obtain ⟨_,hvalid,h⟩ := bind_ok.mp h
    obtain ⟨_,hrows,h⟩ := bind_ok.mp h
    cases h
    exact .replaceChanges (ensure_ok.mp hstatus) (ensure_ok.mp hauthor)
      (Fallible.mapError_ok.mp hvalid) (ensure_ok.mp hrows)
  | simulate simulationId =>
    unfold simulate at h
    obtain ⟨_,hstatus,h⟩ := bind_ok.mp h
    obtain ⟨overlay,hoverlay,h⟩ := bind_ok.mp h
    obtain ⟨report,hreport,h⟩ := bind_ok.mp h
    obtain ⟨_,hnew,h⟩ := bind_ok.mp h
    cases h
    exact .simulate (ensure_ok.mp hstatus) (Fallible.mapError_ok.mp hoverlay)
      (Fallible.mapError_ok.mp hreport) (Option.isNone_iff_eq_none.mp (ensure_ok.mp hnew)) rfl
  | submit =>
    unfold submit requireAuthor at h
    obtain ⟨_,hstatus,h⟩ := bind_ok.mp h
    obtain ⟨_,hauthor,h⟩ := bind_ok.mp h
    obtain ⟨_,hcurrent,h⟩ := bind_ok.mp h
    obtain ⟨report,hreport,h⟩ := bind_ok.mp h
    obtain ⟨_,hsatisfied,h⟩ := bind_ok.mp h
    cases h
    have hdraft : p.row.status = .draft := by
      have hallowed := transition_ok.mp (Fallible.mapError_ok.mp hstatus)
      cases hcase : p.row.status <;> rw [hcase] at hallowed <;> simp [planTransitions] at hallowed
    exact .submit hdraft (ensure_ok.mp hauthor) (ensure_ok.mp hcurrent)
      (Fallible.mapError_ok.mp hreport) (ensure_ok.mp hsatisfied)
      ⟨rfl,List.mem_cons_of_mem _ List.mem_cons_self⟩
  | decide decision rationale approvalId =>
    unfold decide at h
    obtain ⟨_,hstatus,h⟩ := bind_ok.mp h
    obtain ⟨_,hother,h⟩ := bind_ok.mp h
    obtain ⟨_,hsaid,h⟩ := bind_ok.mp h
    obtain ⟨report,hreport,hanswer⟩ := bind_ok.mp h
    have hstatus := ensure_ok.mp hstatus
    have hreport := Fallible.mapError_ok.mp hreport
    split_ifs at hanswer with hblocked
    · obtain ⟨rfl,hblocked⟩ := hblocked
      cases hanswer
      exact .invalidateApproval hstatus hreport hblocked rfl
    · cases hanswer
      cases decision with
      | approve =>
        have hsatisfied : satisfied report = true := by simpa using hblocked
        exact .approve hstatus (ensure_ok.mp hother) hreport hsatisfied
      | reject => exact .reject hstatus (ensure_ok.mp hother) (ensure_ok.mp hsaid rfl)
  | exportPlan exportId =>
    unfold exportPlan at h
    obtain ⟨_,hstatus,h⟩ := bind_ok.mp h
    obtain ⟨_,hcurrent,h⟩ := bind_ok.mp h
    obtain ⟨_,hthird,h⟩ := bind_ok.mp h
    obtain ⟨report,hreport,h⟩ := bind_ok.mp h
    have hreport := Fallible.mapError_ok.mp hreport
    split_ifs at h with hblocked
    · cases h
      exact .invalidateExport (ensure_ok.mp hstatus) hreport hblocked rfl
    · obtain ⟨_,-,h⟩ := bind_ok.mp h
      cases h
      exact .issueExport (ensure_ok.mp hcurrent) (ensure_ok.mp hthird) hreport (by simpa using hblocked)
  | cancel reason =>
    unfold cancel at h
    obtain ⟨_,hstatus,h⟩ := bind_ok.mp h
    cases h
    exact .cancel (transition_ok.mp (Fallible.mapError_ok.mp hstatus))

/-! ### What a move does -/

theorem get?_apply (s : System) (planId : String) (w : PlanWrite) (id : String) :
    (s.apply planId w).plans.get? id =
      (s.plans.get? id).map fun p => if id = planId then p.write w else p := by
  show (s.plans.update (fun key _ => key = planId) (·.write w)).get? id = _
  rw [KeyedTable.get?_update]
  simp only [decide_eq_true_eq]

/-- A write on a plan stores at most one simulation, and no other is touched. -/
theorem simulations_within (s : System) (planId : String) (w : PlanWrite) :
    s.simulations.Within (s.apply planId w).simulations := by
  cases w with
  | attachSimulation simulationId simulation impact event =>
    exact KeyedTable.within_insertNew s.simulations [(simulationId,simulation)]
  | replaceChanges _ | submit _ | approve _ _ | reject _ _ | invalidate _ _ | issueExport _ _
  | cancel _ => exact KeyedTable.Within.refl _

/-- What a call leaves: the system as it was, with a plan that was not there, or with one
write on a plan that was. -/
inductive Performs (d : Deployment) (s : System) (c : Call) : System × Option Refusal → Prop where
  | refused (r : Refusal) : Performs d s c (s,some r)
  | created {p : PlanState} {r : PlanRequest} (hid : r.planId = c.planId)
      (hbasis : r.basisToken = s.estate.token)
      (hrequest : ∃ title rationale campaignId,
        c.request = .create title rationale r.changes campaignId)
      (hcreate : createPlan d s c.caller r = .ok p) :
      Performs d s c ({ s with plans := s.plans.insertNew [(c.planId,p)] },none)
  | wrote {p : PlanState} {w : PlanWrite} {raised : Option Refusal}
      (hp : s.plans.get? c.planId = some p)
      (hwrites : Writes d s c.caller c.planId p c.request w raised) :
      Performs d s c (s.apply c.planId w,raised)

theorem perform_cases (d : Deployment) (s : System) (c : Call) :
    Performs d s c (perform d s c) := by
  have hstored : ∀ request, c.request = request →
      Performs d s c (match s.plans.get? c.planId with
        | none => (s,some .notFound)
        | some p =>
          match answer d s c.caller c.planId p request with
          | .ok (w,raised) => (s.apply c.planId w,raised)
          | .error r => (s,some r)) := by
    intro request hrequest
    cases hp : s.plans.get? c.planId with
    | none => exact .refused _
    | some p =>
      dsimp only
      cases hanswer : answer d s c.caller c.planId p request with
      | error r => exact .refused r
      | ok pair =>
        obtain ⟨w,raised⟩ := pair
        exact .wrote hp (hrequest ▸ answer_writes hanswer)
  unfold perform
  cases hrequest : c.request with
  | create title rationale changes campaignId =>
    dsimp only
    cases hcreate : createPlan d s c.caller (requestOf s c title rationale changes campaignId) with
    | error r => exact .refused r
    | ok p => exact .created rfl rfl ⟨title,rationale,campaignId,hrequest⟩ hcreate
  | replaceChanges _ | simulate _ | submit | decide _ _ _ | exportPlan _ | cancel _ =>
    exact hstored _ hrequest

/-- A plan that was made is the one that was asked for. -/
theorem createPlan_created {d : Deployment} {s : System} {c : Caller} {r : PlanRequest}
    {p : PlanState} (h : createPlan d s c r = .ok p) : p = created c r ∧
      s.plans.get? r.planId = none ∧
      acceptable d.sha256 (takenIds s r.planId) r.planId r.plan.changes = true := by
  unfold createPlan at h
  obtain ⟨_,-,h⟩ := bind_ok.mp h
  obtain ⟨_,-,h⟩ := bind_ok.mp h
  obtain ⟨_,-,h⟩ := bind_ok.mp h
  obtain ⟨_,hnew,h⟩ := bind_ok.mp h
  obtain ⟨_,hrows,h⟩ := bind_ok.mp h
  cases h
  exact ⟨rfl,Option.isNone_iff_eq_none.mp (ensure_ok.mp hnew),ensure_ok.mp hrows⟩

/-- How a plan came to be what it is after a move. -/
inductive After (d : Deployment) (s : System) (id : String) (p' : PlanState) : Move → Prop where
  | kept (m : Move) (hp : s.plans.get? id = some p') : After d s id p' m
  | created {c : Call} {r : PlanRequest} (hid : r.planId = id)
      (hbasis : r.basisToken = s.estate.token)
      (hrequest : ∃ title rationale campaignId,
        c.request = .create title rationale r.changes campaignId)
      (hnew : s.plans.get? id = none)
      (hcreate : createPlan d s c.caller r = .ok p') : After d s id p' (.call c)
  | written {c : Call} {p : PlanState} {w : PlanWrite} {raised : Option Refusal}
      (hid : c.planId = id) (hp : s.plans.get? id = some p)
      (hwrites : Writes d s c.caller id p c.request w raised) (hp' : p' = p.write w)
      (hstep : step d s (.call c) = s.apply id w) : After d s id p' (.call c)

/-- Every plan that is there after a move was there, was made, or was written once. -/
theorem step_after {d : Deployment} {s : System} {m : Move} {id : String} {p' : PlanState}
    (h : (step d s m).plans.get? id = some p') : After d s id p' m := by
  cases m with
  | ingest estate => exact .kept _ h
  | call c =>
    have hcases := perform_cases d s c
    have hs : step d s (.call c) = (perform d s c).1 := rfl
    rw [hs] at h
    generalize hresult : perform d s c = result at h hcases hs
    cases hcases with
    | refused r => exact .kept _ h
    | @created p r hid hbasis hrequest hcreate =>
      have hnew := (createPlan_created hcreate).2.1
      rw [hid] at hnew
      rw [KeyedTable.get?_insertNew] at h
      by_cases hsame : c.planId = id
      · subst hsame
        rw [hnew, Option.none_or] at h
        have hp : p = p' := by simpa [KeyedTable.arrivals] using h
        exact .created hid hbasis hrequest hnew (hp ▸ hcreate)
      · have hother : KeyedTable.arrivals [(c.planId,p)] id = [] := by
          simp [KeyedTable.arrivals, hsame]
        rw [hother, List.head?_nil, Option.or_none] at h
        exact .kept _ h
    | @wrote p w raised hp hwrites =>
      rw [get?_apply] at h
      by_cases hsame : id = c.planId
      · subst hsame
        rw [hp, Option.map_some, if_pos rfl] at h
        exact .written rfl hp hwrites (Option.some.inj h).symm hs
      · simp only [if_neg hsame, Option.map_id'] at h
        exact .kept _ h

/-- A plan that is there stays, and is what it was or is written once. -/
theorem step_before {d : Deployment} {s : System} (m : Move) {id : String} {p : PlanState}
    (h : s.plans.get? id = some p) : ∃ p', (step d s m).plans.get? id = some p' := by
  cases m with
  | ingest estate => exact ⟨p,h⟩
  | call c =>
    have hcases := perform_cases d s c
    have hs : step d s (.call c) = (perform d s c).1 := rfl
    rw [hs]
    generalize perform d s c = result at hcases
    cases hcases with
    | refused r => exact ⟨p,h⟩
    | created hid hbasis hrequest hcreate => exact ⟨p,KeyedTable.within_insertNew _ _ _ _ h⟩
    | wrote hp hwrites =>
      rw [get?_apply, h]
      exact ⟨_,rfl⟩

theorem run_append (d : Deployment) (s : System) (earlier later : List Move) :
    run d s (earlier ++ later) = run d (run d s earlier) later := List.foldl_append

theorem run_snoc (d : Deployment) (s : System) (earlier : List Move) (m : Move) :
    run d s (earlier ++ [m]) = step d (run d s earlier) m := by
  rw [run_append]
  rfl

end Adg.PlanLifecycle
