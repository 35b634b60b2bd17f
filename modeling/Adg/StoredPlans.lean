import Adg.PlanRecords
import Adg.ReviewCampaigns

/-!
# Reading plans back

Writing a plan inserts its row and the rows of its steps, or nothing when the
database refuses one of them. Reading it selects the steps that name it, in their
order. What is read is the plan that was written, but for the memberships of its
steps, which are read as far as their rows hold them.
-/

set_option autoImplicit false

namespace Adg.StoredPlans
open Adg.Observation Adg.SecurityIdentifier Adg.SortedLists Adg.CanonicalJson Adg.ChangePlans
open Adg.PlanDigests Adg.PlanRecords
open Adg.AuditChain (UtcMoment)
open Adg.ReviewCampaigns (Actor)
open Adg.Fallible (bind_ok mapError_ok mapM_of_ok)

inductive ChangePlanStatus where
  | draft
  | pendingApproval
  | approved
  | rejected
  | exported
  | invalidated
  | canceled
  deriving DecidableEq, Repr

/-- A row of `remediation_change_plans`. -/
structure PlanRow where
  planId : String
  title : String
  rationale : String
  status : ChangePlanStatus
  requestedBySubject : String
  requestedByDisplayName : Option String
  requestedAt : UtcMoment
  basisToken : String
  basisRunId : Option String := none
  basisCapturedAt : Option UtcMoment := none
  campaignId : Option String := none
  simulationId : Option String := none
  simulationBasisToken : Option String := none
  impactSummary : Document := []
  submittedAt : Option UtcMoment := none
  decidedAt : Option UtcMoment := none
  approvedBySubject : Option String := none
  approvedPlanDigest : Option String := none
  approvedBasisToken : Option String := none
  rejectionReason : Option String := none
  exportedAt : Option UtcMoment := none
  invalidatedAt : Option UtcMoment := none
  invalidationReason : Option String := none
  canceledAt : Option UtcMoment := none
  canceledBySubject : Option String := none

structure ChangePlan extends PlanRow where
  changes : List RecordedChange

/-- The steps of a plan in the order they are performed. -/
def performed (changes : List RecordedChange) : List RecordedChange :=
  sortedBy (·.sequenceIndex) changes

/-- What of a plan is digested. -/
def planContent (p : ChangePlan) : PlanContent where
  planId := p.planId
  title := p.title
  rationale := p.rationale
  campaignId := p.campaignId
  requestedBySubject := p.requestedBySubject
  basisToken := p.basisToken
  simulationId := p.simulationId
  changes := (performed p.changes).map fun c => digested c.toRecordedFields.toChange

/-- `ChangePlan.digest`. -/
def ChangePlan.digest (sha256 : String → String) (p : ChangePlan) : String :=
  planDigest sha256 (planContent p)

/-! ### The tables -/

/-- The constraints that the table of the steps puts on a row. -/
def ChangeRow.accepted (r : ChangeRow) : Bool :=
  0 ≤ r.sequenceIndex ∧ (r.afterAccessMask.all is32Bit) ∧
  (r.kind = .removeGroupMember ↔ r.aceKey = none) ∧
  (r.kind = .removeGroupMember → r.groupKey ≠ none ∧ r.memberKey ≠ none ∧ r.edgeKind ≠ none) ∧
  (r.kind = .replaceWithGroup → r.groupKey ≠ none ∧ r.memberKey ≠ none ∧
    r.replacementGroupKey ≠ none ∧ r.replacementGroupSid ≠ none) ∧
  (r.kind ≠ .modifyNtfsAce → r.kind ≠ .modifyShareAce →
    r.afterAccessMask = none ∧ r.afterPermission = none) ∧
  (r.kind = .modifyNtfsAce → r.afterAccessMask ≠ none) ∧
  (r.kind = .modifyShareAce → (r.afterAccessMask ≠ none) ≠ (r.afterPermission ≠ none))

/-- The tables of the plans and of their steps, where a step names a plan. -/
structure PlanTables where
  plans : List PlanRow
  changes : List ChangeRow
  referenced : ∀ r ∈ changes, r.planId ∈ plans.map (·.planId)

section Tables
variable (sha256 : String → String) (t : PlanTables) (p : ChangePlan)

def changeRows : List ChangeRow :=
  p.changes.map fun c => changeValues sha256 p.planId c.toRecordedFields

theorem inserted_referenced : ∀ r ∈ t.changes ++ changeRows sha256 p,
    r.planId ∈ (t.plans ++ [p.toPlanRow]).map (·.planId) := by
  intro r hr
  rw [List.map_append]
  rcases List.mem_append.mp hr with hold | hnew
  · exact List.mem_append_left _ (t.referenced r hold)
  · obtain ⟨c,-,rfl⟩ := List.mem_map.mp hnew
    exact List.mem_append_right _ List.mem_cons_self

/-- `insert_plan` and `insert_changes`. -/
def inserted : PlanTables :=
  ⟨t.plans ++ [p.toPlanRow],t.changes ++ changeRows sha256 p,inserted_referenced sha256 t p⟩

/-- Whether the database takes the rows of a plan. -/
def insertable : Bool :=
  p.planId ∉ t.plans.map (·.planId) ∧ (changeRows sha256 p).all ChangeRow.accepted ∧
  ((t.changes ++ changeRows sha256 p).map (·.changeId)).Nodup

/-- `RemediationRepository.get_plan`. -/
def getPlan (planId : String) : Except ReadFailure (Option ChangePlan) :=
  match t.plans.find? (·.planId = planId) with
  | none => .ok none
  | some row => do
    let rows := sortedBy (·.sequenceIndex) (t.changes.filter (·.planId = planId))
    let changes ← rows.mapM changeOf
    return some { row with changes := changes }

end Tables

/-! ### Creating a plan -/

/-- `MAX_TITLE_LENGTH`. -/
def maxTitleLength : ℕ := 200

/-- `MAX_RATIONALE_LENGTH`. -/
def maxRationaleLength : ℕ := 4000

def stripped (text : String) : String := String.ofList (strip text.toList)

/-- `validate_title`, but for the title it returns. -/
def validateTitle (title : String) : Except DomainError Unit := do
  refuseWhen (title = "")
    "A change plan needs a title: it is what appears in a change ticket and in the approval request, and an untitled plan is one nobody can refer to."
    "title"
  refuseWhen (maxTitleLength < title.length)
    s!"A title is at most {maxTitleLength} characters; this one is {title.length}."
    "title"

/-- `validate_rationale`, but for the rationale it returns. -/
def validateRationale (rationale : String) : Except DomainError Unit := do
  refuseWhen (rationale = "")
    "A change plan must say why. Somebody is about to lose access; 'it was on the list' is not an answer they can be given, and an approver has nothing to weigh without one."
    "rationale"
  refuseWhen (maxRationaleLength < rationale.length)
    s!"A rationale is at most {maxRationaleLength} characters; this one is {rationale.length}. Attach the detail to the change ticket and summarize here."
    "rationale"

/-- What a plan is made from: the call, and what it reads of the clock and of the basis. -/
structure PlanRequest where
  actor : Actor
  title : String
  rationale : String
  changes : List RecordedChange
  campaignId : Option String := none
  planId : String
  now : UtcMoment
  basisToken : String
  latestRunId : Option String := none

/-- The plan a request asks for. -/
def PlanRequest.plan (r : PlanRequest) : ChangePlan where
  planId := r.planId
  title := stripped r.title
  rationale := stripped r.rationale
  status := .draft
  changes := performed r.changes
  requestedBySubject := r.actor.subject
  requestedByDisplayName := r.actor.displayName
  requestedAt := r.now
  basisToken := r.basisToken
  basisRunId := r.latestRunId
  basisCapturedAt := some r.now
  campaignId := r.campaignId

inductive CreateFailure where
  | refused (error : DomainError)
  | integrity

/-- `create_plan`, but for the event it appends. -/
def createPlan (sha256 : String → String) (t : PlanTables) (r : PlanRequest) :
    Except CreateFailure (PlanTables × ChangePlan) := do
  (validateTitle (stripped r.title)).mapError .refused
  (validateRationale (stripped r.rationale)).mapError .refused
  (validateChanges (r.changes.map (·.planned))).mapError .refused
  if insertable sha256 t r.plan then return (inserted sha256 t r.plan,r.plan)
  else .error .integrity

/-- A plan that was made is the one asked for, and its rows are in the tables. -/
theorem createPlan_ok {sha256 : String → String} {t t' : PlanTables} {r : PlanRequest}
    {p : ChangePlan} (h : createPlan sha256 t r = .ok (t',p)) :
    p = r.plan ∧ t' = inserted sha256 t r.plan ∧ insertable sha256 t r.plan = true ∧
      validateChanges (r.changes.map (·.planned)) = .ok () := by
  unfold createPlan at h
  obtain ⟨_,-,h⟩ := bind_ok.mp h
  obtain ⟨_,-,h⟩ := bind_ok.mp h
  obtain ⟨_,hchanges,h⟩ := bind_ok.mp h
  by_cases hinsert : insertable sha256 t r.plan
  · rw [if_pos hinsert] at h
    cases h
    exact ⟨rfl,rfl,hinsert,mapError_ok.mp hchanges⟩
  · rw [if_neg hinsert] at h
    cases h

/-- Steps that are accepted have different numbers. -/
theorem numbers_nodup {changes : List RecordedChange}
    (h : validateChanges (changes.map (·.planned)) = .ok ()) :
    (changes.map (·.sequenceIndex)).Nodup := by
  have hnumbers := (accepted_distinct h).2
  rw [List.map_map] at hnumbers
  exact hnumbers

/-- A plan is read from the tables that its rows were put into. -/
theorem getPlan_inserted (sha256 : String → String) (t : PlanTables) (p : ChangePlan)
    (hnew : p.planId ∉ t.plans.map (·.planId))
    (hordered : p.changes.Pairwise fun c d => c.sequenceIndex < d.sequenceIndex) :
    getPlan (inserted sha256 t p) p.planId =
      .ok (some { p with changes := p.changes.map kept }) := by
  have hrow : (t.plans ++ [p.toPlanRow]).find? (·.planId = p.planId) = some p.toPlanRow := by
    have hnone : t.plans.find? (·.planId = p.planId) = none := by
      apply List.find?_eq_none.mpr
      intro row hrow hid
      exact hnew (List.mem_map.mpr ⟨row,hrow,of_decide_eq_true hid⟩)
    rw [List.find?_append, hnone, Option.none_or]
    exact List.find?_cons_of_pos (decide_eq_true rfl)
  have hold : t.changes.filter (·.planId = p.planId) = [] := by
    apply List.filter_eq_nil_iff.mpr
    intro row hrow hid
    have hplan := t.referenced row hrow
    rw [of_decide_eq_true hid] at hplan
    exact hnew hplan
  have hrows : (t.changes ++ changeRows sha256 p).filter (·.planId = p.planId) =
      changeRows sha256 p := by
    rw [List.filter_append, hold, List.nil_append]
    apply List.filter_eq_self.mpr
    intro row hrow
    obtain ⟨c,-,rfl⟩ := List.mem_map.mp hrow
    exact decide_eq_true rfl
  have hsorted : sortedBy (·.sequenceIndex) (changeRows sha256 p) = changeRows sha256 p :=
    sortedBy_eq_of_perm _ (List.Perm.refl _) (List.pairwise_map.mpr hordered)
  have hread : (changeRows sha256 p).mapM changeOf = .ok (p.changes.map kept) := by
    rw [changeRows, List.mapM_map]
    exact mapM_of_ok fun c _ => changeOf_values sha256 p.planId c
  unfold getPlan inserted
  rw [hrow]
  dsimp only
  rw [hrows, hsorted, hread]
  rfl

/-- What is read of a plan that was made. -/
theorem plan_read {sha256 : String → String} {t t' : PlanTables} {r : PlanRequest}
    {p : ChangePlan} (h : createPlan sha256 t r = .ok (t',p)) :
    getPlan t' p.planId = .ok (some { p with changes := p.changes.map kept }) := by
  obtain ⟨rfl,rfl,hinsert,hchanges⟩ := createPlan_ok h
  apply getPlan_inserted
  · unfold insertable at hinsert
    exact (of_decide_eq_true hinsert).1
  · exact sortedBy_strict (numbers_nodup hchanges)

/-- A plan that was made is read as it was written, step by step and with its digest, and so
is every snapshot from its document, when the membership of each step is remembered. -/
theorem stored_plan_iff {sha256 : String → String} {t t' : PlanTables} {r : PlanRequest}
    {p : ChangePlan} (h : createPlan sha256 t r = .ok (t',p)) :
    ((∃ q, getPlan t' p.planId = .ok (some q) ∧ q.digest sha256 = p.digest sha256 ∧
        q.changes = p.changes) ∧
      (∀ e, entryFromDocument (entryRecordDocument sha256 e) = .ok e) ∧
      ∀ m, membershipFromDocument (membershipRecordDocument sha256 m) = .ok m) ↔
    ∀ c ∈ r.changes, ∀ m, c.membership = some m → Remembered c.entry m := by
  have hread := plan_read h
  have hsteps : ∀ c, c ∈ p.changes ↔ c ∈ r.changes := by
    intro c
    rw [(createPlan_ok h).1]
    exact mem_sortedBy _
  have hall : p.changes.map kept = p.changes ↔
      ∀ c ∈ r.changes, ∀ m, c.membership = some m → Remembered c.entry m := by
    have hkept : p.changes.map kept = p.changes.map id ↔ ∀ c ∈ p.changes, kept c = id c :=
      List.map_inj_left
    rw [List.map_id] at hkept
    rw [hkept]
    apply forall_congr'
    intro c
    rw [hsteps, id_eq, kept_iff]
  rw [← hall]
  constructor
  · rintro ⟨⟨q,hq,-,hchanges⟩,-⟩
    rw [hread] at hq
    cases hq
    exact hchanges
  · intro hchanges
    rw [hchanges] at hread
    exact ⟨⟨p,hread,rfl,rfl⟩,entryFromDocument_back sha256,membershipFromDocument_back sha256⟩

namespace Sample

theorem morning_calendar : 2026 < 10^4 ∧ 3 < 10^2 ∧ 1 < 10^2 := by decide

theorem morning_clock : 9 < 10^2 ∧ 0 < 10^2 ∧ 0 < 10^2 ∧ 0 < 10^6 := by decide

def morning : UtcMoment := ⟨2026,3,1,9,0,0,0,morning_calendar,morning_clock⟩

def request (changes : List RecordedChange) : PlanRequest where
  actor := { subject := "ada" }
  title := "Move the team into a group"
  rationale := "Direct entries are not reviewed"
  changes := changes
  planId := "p1"
  now := morning
  basisToken := "b1"

theorem none_referenced : ∀ r ∈ ([] : List ChangeRow),
    r.planId ∈ ([] : List PlanRow).map (·.planId) := by
  intro r hr
  cases hr

def noPlans : PlanTables := ⟨[],[],none_referenced⟩

def edge : MembershipFields where
  groupKey := "S-1-5-21-1-2-3-600"
  memberKey := "S-1-5-21-1-2-3-1001"
  memberSid := "S-1-5-21-1-2-3-1001"

theorem edge_checked : checkMembership edge = .ok () := by decide

def entry : EntryFields where
  aceKey := "e1"
  trusteeSid := "S-1-5-21-1-2-3-1001"
  trusteeKey := "S-1-5-21-1-2-3-1001"
  aceType := .allow
  accessMask := some 1179785

theorem entry_checked : checkEntry entry = .ok () := by decide

/-- Take a member out of a group. -/
def leaving : RecordedFields where
  changeId := 1
  sequenceIndex := 0
  kind := .removeGroupMember
  targetKind := .group
  targetKey := "S-1-5-21-1-2-3-600"
  membership := some ⟨⟨edge,edge_checked⟩,{ versionId := some 4 }⟩

theorem leaving_checked : checkChange leaving.toChange = .ok () := by decide

/-- Take an entry away, and put its trustee into a group. -/
def replaced : RecordedFields where
  changeId := 1
  sequenceIndex := 0
  kind := .replaceWithGroup
  targetKind := .resource
  targetKey := "fs01|data"
  entry := some ⟨⟨entry,entry_checked⟩,{ versionId := some 7 }⟩
  membership := some ⟨⟨edge,edge_checked⟩,{}⟩
  replacementGroupKey := some "S-1-5-21-1-2-3-600"
  replacementGroupSid := some "S-1-5-21-1-2-3-600"

theorem replaced_checked : checkChange replaced.toChange = .ok () := by decide

theorem leaving_created : createPlan id noPlans (request [⟨leaving,leaving_checked⟩]) =
    .ok (inserted id noPlans (request [⟨leaving,leaving_checked⟩]).plan,
      (request [⟨leaving,leaving_checked⟩]).plan) := by
  rfl

theorem replaced_created : createPlan id noPlans (request [⟨replaced,replaced_checked⟩]) =
    .ok (inserted id noPlans (request [⟨replaced,replaced_checked⟩]).plan,
      (request [⟨replaced,replaced_checked⟩]).plan) := by
  rfl

end Sample

theorem stored_plan_sample :
    ((∃ q, getPlan (inserted id Sample.noPlans
          (Sample.request [⟨Sample.leaving,Sample.leaving_checked⟩]).plan) "p1" =
            .ok (some q) ∧
          q.digest id =
            (Sample.request [⟨Sample.leaving,Sample.leaving_checked⟩]).plan.digest id ∧
          q.changes = (Sample.request [⟨Sample.leaving,Sample.leaving_checked⟩]).plan.changes) ∧
      (∀ e, entryFromDocument (entryRecordDocument id e) = .ok e) ∧
      ∀ m, membershipFromDocument (membershipRecordDocument id m) = .ok m) ↔
    ∀ c ∈ [(⟨Sample.leaving,Sample.leaving_checked⟩ : RecordedChange)],
      ∀ m, c.membership = some m → Remembered c.entry m :=
  stored_plan_iff Sample.leaving_created

/-- A step that puts a trustee into a group is read back without the identifier of the
member, and the plan that was read has another digest than the one that was written. -/
theorem replacement_member_lost : ∃ t p q,
    createPlan id Sample.noPlans (Sample.request [⟨Sample.replaced,Sample.replaced_checked⟩]) =
      .ok (t,p) ∧
    getPlan t p.planId = .ok (some q) ∧
    p.changes.map (fun c => c.membership.map (·.snapshot.memberSid)) =
      [some "S-1-5-21-1-2-3-1001"] ∧
    q.changes.map (fun c => c.membership.map (·.snapshot.memberSid)) = [some ""] ∧
    q.digest id ≠ p.digest id := by
  have hcreated := Sample.replaced_created
  refine ⟨_,_,_,hcreated,plan_read hcreated,rfl,rfl,?_⟩
  intro hdigest
  have hcontent := (planDigest_iff Function.injective_id).mp hdigest
  have hmembers := congrArg
    (fun c : PlanContent => c.changes.map fun d => d.membership.map (·.memberSid)) hcontent
  exact absurd hmembers (by decide)

end Adg.StoredPlans
