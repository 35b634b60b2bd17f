import Adg.PlanLifecycle

/-!
# Three people and one digest

Every call on a plan writes what its guards let through, and each guard looks at
the plan as it is. An approval holds the digest of the plan that was approved, and
nothing that is digested is written after it; so the plan that is exported is the
one that somebody else approved, and the third person who exports it does so while
what it was written against still stands.
-/

set_option autoImplicit false

namespace Adg.PlanApprovals
open Adg.Observation Adg.SecurityIdentifier Adg.SortedLists Adg.ChangePlans Adg.KeyedTables
open Adg.PlanDigests Adg.PlanRecords Adg.StoredPlans Adg.PlanPreconditions Adg.PlanLifecycle
open Adg.Fallible (bind_ok)

variable {d : Deployment}

/-! ### What holds of every stored plan -/

/-- The approval that a plan stands on. -/
structure Approved (d : Deployment) (p : PlanState) (a : ApprovalRecord) : Prop where
  recorded : a ∈ p.approvals
  decision : a.decision = .approve
  digest : a.planDigest = p.plan.digest d.sha256
  simulation : a.simulationId = p.row.simulationId
  approver : p.row.approvedBySubject = some a.approverSubject
  other : a.approverSubject ≠ p.row.requestedBySubject

/-- The steps of a plan are told apart, and a plan that is approved or exported stands on an
approval of what it is now. -/
structure Sound (d : Deployment) (p : PlanState) : Prop where
  ids : (p.changes.map (·.changeId)).Nodup
  approved : p.row.status = .approved ∨ p.row.status = .exported → ∃ a, Approved d p a

theorem kept_ids (changes : List RecordedChange) :
    (changes.map kept).map (·.changeId) = changes.map (·.changeId) := by
  rw [List.map_map]
  rfl

theorem acceptable_ids {sha256 : String → String} {taken : List ℕ} {planId : String}
    {changes : List RecordedChange} (h : acceptable sha256 taken planId changes = true) :
    (changes.map (·.changeId)).Nodup := by
  unfold acceptable at h
  exact (List.nodup_append.mp (of_decide_eq_true h).2).2.1

theorem created_sound {s : System} {c : Caller} {r : PlanRequest} {p : PlanState}
    (h : createPlan d s c r = .ok p) : Sound d p := by
  obtain ⟨rfl,-,hrows⟩ := createPlan_created h
  constructor
  · show ((r.plan.changes.map kept).map (·.changeId)).Nodup
    rw [kept_ids]
    exact acceptable_ids hrows
  · rintro (hstatus | hstatus) <;> cases hstatus

/-- A write that its guards let through leaves a sound plan. -/
theorem written_sound {s : System} {c : Caller} {id : String} {p : PlanState}
    {request : Request} {w : PlanWrite} {raised : Option Refusal} (hp : Sound d p)
    (h : Writes d s c id p request w raised) : Sound d (p.write w) := by
  cases h with
  | @replaceChanges changes hstatus hauthor hvalid hrows =>
    constructor
    · show (((performed changes).map kept).map (·.changeId)).Nodup
      rw [kept_ids]
      have hperm := (sortedBy_perm (fun c : RecordedChange => c.sequenceIndex) changes).map
        (·.changeId)
      exact hperm.nodup_iff.mpr (acceptable_ids hrows)
    · intro happroved
      have hdraft : (p.write (.replaceChanges changes)).row.status = .draft := hstatus
      rw [hdraft] at happroved
      rcases happroved with happroved | happroved <;> cases happroved
  | @simulate simulationId overlay report event hstatus hoverlay hreport hnew =>
    refine ⟨hp.ids,fun happroved => ?_⟩
    have hsame : (p.write (.attachSimulation simulationId ⟨overlay,s.estate.token⟩ report.summary
      event)).row.status = p.row.status := rfl
    rw [hsame] at happroved
    rcases hstatus with hstatus | hstatus <;> rw [hstatus] at happroved <;>
      rcases happroved with happroved | happroved <;> cases happroved
  | submit =>
    refine ⟨hp.ids,fun happroved => ?_⟩
    rcases happroved with happroved | happroved <;> cases happroved
  | invalidateApproval | invalidateExport =>
    refine ⟨hp.ids,fun happroved => ?_⟩
    rcases happroved with happroved | happroved <;> cases happroved
  | approve hstatus hother hreport hsatisfied =>
    exact ⟨hp.ids,fun _ => ⟨_,List.mem_append_right _ List.mem_cons_self,rfl,rfl,rfl,rfl,hother⟩⟩
  | reject =>
    refine ⟨hp.ids,fun happroved => ?_⟩
    rcases happroved with happroved | happroved <;> cases happroved
  | issueExport hcurrent hthird hreport hsatisfied =>
    have hstatus : p.row.status = .approved := (of_decide_eq_true hcurrent).1
    obtain ⟨a,ha⟩ := hp.approved (.inl hstatus)
    exact ⟨hp.ids,fun _ => ⟨a,ha.recorded,ha.decision,ha.digest,ha.simulation,ha.approver,ha.other⟩⟩
  | cancel =>
    refine ⟨hp.ids,fun happroved => ?_⟩
    rcases happroved with happroved | happroved <;> cases happroved

/-- Every plan is sound after every run. -/
theorem run_sound (estate : Estate) (moves : List Move) :
    ∀ id p, (run d (emptySystem estate) moves).plans.get? id = some p → Sound d p := by
  induction moves using List.reverseRecOn with
  | nil =>
    intro id p hp
    cases hp
  | append_singleton earlier m ih =>
    intro id p hp
    rw [run_snoc] at hp
    cases step_after hp with
    | kept _ hold => exact ih id p hold
    | created _ _ _ _ hcreate => exact created_sound hcreate
    | written _ hold hwrites hp' _ =>
      rw [hp']
      exact written_sound (ih id _ hold) hwrites

/-! ### What a move may change -/

/-- A write moves the status along the lifecycle, or leaves it. -/
theorem write_transition {s : System} {c : Caller} {id : String} {p : PlanState}
    {request : Request} {w : PlanWrite} {raised : Option Refusal}
    (h : Writes d s c id p request w raised) : (p.write w).row.status = p.row.status ∨
      (p.write w).row.status ∈ planTransitions p.row.status := by
  cases h with
  | replaceChanges | simulate => exact .inl rfl
  | submit hstatus | invalidateApproval hstatus | approve hstatus | reject hstatus
  | invalidateExport hstatus =>
    right
    simp [hstatus, PlanState.write, planTransitions]
  | issueExport hcurrent =>
    right
    have hstatus : p.row.status = .approved := (of_decide_eq_true hcurrent).1
    simp [hstatus, PlanState.write, planTransitions]
  | cancel hstatus => exact .inr hstatus

/-- The steps of a plan that is no draft are not written. -/
theorem write_changes {s : System} {c : Caller} {id : String} {p : PlanState}
    {request : Request} {w : PlanWrite} {raised : Option Refusal}
    (h : Writes d s c id p request w raised) (hstatus : p.row.status ≠ .draft) :
    (p.write w).changes = p.changes := by
  cases h with
  | replaceChanges hdraft => exact absurd hdraft hstatus
  | simulate | submit | invalidateApproval | approve | reject | invalidateExport | issueExport
  | cancel => rfl

/-- What any move leaves of a plan that is there. -/
theorem step_lawful (s : System) (m : Move) {id : String} {p : PlanState}
    (h : s.plans.get? id = some p) : ∃ p', (step d s m).plans.get? id = some p' ∧
      (p'.row.status = p.row.status ∨ p'.row.status ∈ planTransitions p.row.status) ∧
      (p.row.status ≠ .draft → p'.changes = p.changes) := by
  obtain ⟨p',hp'⟩ := step_before (d := d) m h
  refine ⟨p',hp',?_⟩
  cases step_after hp' with
  | kept _ hold =>
    obtain rfl := Option.some.inj (hold.symm.trans h)
    exact ⟨.inl rfl,fun _ => rfl⟩
  | created _ _ _ hnew _ =>
    rw [hnew] at h
    cases h
  | written _ hold hwrites hwritten _ =>
    obtain rfl := Option.some.inj (hold.symm.trans h)
    rw [hwritten]
    exact ⟨write_transition hwrites,write_changes hwrites⟩

/-- No status leads back to a draft. -/
theorem no_way_back {status : ChangePlanStatus} (h : .draft ∈ planTransitions status) : False := by
  cases status <;> simp [planTransitions] at h

/-- Over a run, the steps of a plan that is no draft stay what they are. -/
theorem run_changes (s : System) (moves : List Move) {id : String} {p : PlanState}
    (h : s.plans.get? id = some p) (hstatus : p.row.status ≠ .draft) :
    ∃ p', (run d s moves).plans.get? id = some p' ∧ p'.row.status ≠ .draft ∧
      p'.changes = p.changes := by
  induction moves using List.reverseRecOn with
  | nil => exact ⟨p,h,hstatus,rfl⟩
  | append_singleton earlier m ih =>
    obtain ⟨q,hq,hqstatus,hqchanges⟩ := ih
    obtain ⟨p',hp',hmoved,hsame⟩ := step_lawful (d := d) (run d s earlier) m hq
    rw [run_snoc]
    refine ⟨p',hp',?_,(hsame hqstatus).trans hqchanges⟩
    rcases hmoved with hmoved | hmoved
    · rw [hmoved]
      exact hqstatus
    · intro hdraft
      rw [hdraft] at hmoved
      exact no_way_back hmoved

/-- What a call that is refused leaves: everything, or everything but a plan that is
invalidated because what it was written against no longer stands. -/
def RefusedRightly (d : Deployment) (s : System) (c : Call) : Prop :=
  (perform d s c).1 = s ∨ ∃ p report event, s.plans.get? c.planId = some p ∧
    (p.row.status = .pendingApproval ∨ p.row.status = .approved) ∧
    preconditionsOf d s.estate p c.caller = .ok report ∧ satisfied report = false ∧
    event.eventType = .planInvalidated ∧
    (perform d s c).1 = s.apply c.planId (.invalidate (summarizeVerdict report) event)

theorem refused_rightly (s : System) (c : Call) (h : (perform d s c).2 ≠ none) :
    RefusedRightly d s c := by
  have hcases := perform_cases d s c
  unfold RefusedRightly
  generalize perform d s c = result at h hcases
  cases hcases with
  | refused r => exact .inl rfl
  | created => exact absurd rfl h
  | @wrote p w raised hp hwrites =>
    generalize hrequest : c.request = request at hwrites
    cases hwrites with
    | invalidateApproval hstatus hreport hblocked hevent =>
      exact .inr ⟨p,_,_,hp,.inl hstatus,hreport,hblocked,hevent,rfl⟩
    | invalidateExport hstatus hreport hblocked hevent =>
      exact .inr ⟨p,_,_,hp,.inr hstatus,hreport,hblocked,hevent,rfl⟩
    | replaceChanges | simulate | submit | approve | reject | issueExport | cancel =>
      exact absurd rfl h

/-! ### What was exported -/

/-- The steps of a plan are as they were frozen, in an estate at a moment. -/
def AllFrozen (estate : Estate) (moment : Adg.ObjectVersions.Instant) (p : PlanState) : Prop :=
  ∀ c ∈ p.changes,
    (∀ e, c.entry = some e → Carries estate.table moment (reviewTarget c.toRecordedFields.toChange)
      e.snapshot.toEntryFields) ∧
    ∀ m, c.entry = none → c.membership = some m →
      Joined estate.table moment m.snapshot.toMembershipFields

theorem frozen_of_satisfied (collisionFree : Function.Injective d.sha256) {estate : Estate}
    {p : PlanState} (hp : Sound d p) {c : Caller} {report : List ChangePrecondition}
    (hreport : preconditionsOf d estate p c = .ok report) (hsatisfied : satisfied report = true) :
    AllFrozen estate c.moment p := by
  unfold preconditionsOf at hreport
  obtain ⟨states,hstates,hreport⟩ := bind_ok.mp hreport
  cases hreport
  have hids : ((p.changes.map (·.planned)).map (·.changeId)).Nodup := by
    rw [List.map_map]
    exact hp.ids
  intro change hchange
  have hfrozen := satisfied_frozen collisionFree (estate.readable c.moment) hids hstates
    hsatisfied (List.mem_map_of_mem hchange)
  constructor
  · intro e he
    apply hfrozen.1 e.snapshot
    show change.entry.map (·.snapshot) = some e.snapshot
    rw [he, Option.map_some]
  · intro m hn hm
    apply hfrozen.2 m.snapshot
    · show change.entry.map (·.snapshot) = none
      rw [hn, Option.map_none]
    · show change.membership.map (·.snapshot) = some m.snapshot
      rw [hm, Option.map_some]

/-- What holds of an export that was issued on a plan, in the system before it. -/
structure ExportedRightly (d : Deployment) (s : System) (c : Call) (id : String)
    (p : PlanState) : Prop where
  call : c.planId = id ∧ ∃ exportId, c.request = .exportPlan exportId
  stands : ∃ q issued a, s.plans.get? id = some q ∧ issued ∈ p.exports ∧ issued.plan = q.plan ∧
    issued.exportedBySubject = c.caller.actor.subject ∧ a ∈ p.approvals ∧
    a.decision = .approve ∧ a.planDigest = issued.plan.digest d.sha256 ∧
    a.simulationId = issued.plan.simulationId ∧
    p.row.approvedBySubject = some a.approverSubject ∧
    [p.row.requestedBySubject, a.approverSubject, issued.exportedBySubject].Nodup ∧
    p.changes = q.changes ∧ AllFrozen s.estate c.caller.moment q

/-- An export that is issued is issued rightly. -/
theorem issued_rightly (collisionFree : Function.Injective d.sha256) {s : System} {c : Call}
    {id : String} {p : PlanState} (hp : Sound d p) (hstored : s.plans.get? id = some p)
    (hid : c.planId = id) {w : PlanWrite} {raised : Option Refusal}
    (h : Writes d s c.caller id p c.request w raised)
    (hexported : (p.write w).row.status = .exported) (hbefore : p.row.status ≠ .exported) :
    ExportedRightly d s c id (p.write w) := by
  generalize hrequest : c.request = request at h
  cases h with
  | replaceChanges | simulate => exact absurd hexported hbefore
  | submit | invalidateApproval | approve | reject | invalidateExport | cancel => cases hexported
  | @issueExport exportId event report hcurrent hthird hreport hsatisfied =>
    have hstatus : p.row.status = .approved := (of_decide_eq_true hcurrent).1
    obtain ⟨a,ha⟩ := hp.approved (.inl hstatus)
    have happrover := hthird.2
    rw [ha.approver] at happrover
    refine ⟨⟨hid,exportId,hrequest⟩,p,_,a,hstored,List.mem_append_right _ List.mem_cons_self,rfl,rfl,
      ha.recorded,ha.decision,ha.digest,ha.simulation,ha.approver,?_,rfl,
      frozen_of_satisfied collisionFree hp hreport hsatisfied⟩
    have happrover : a.approverSubject ≠ c.caller.actor.subject :=
      fun hsame => happrover (congrArg some hsame)
    simp only [List.nodup_cons, List.mem_cons, List.not_mem_nil, or_false, not_or,
      not_false_iff, List.nodup_nil, and_true]
    exact ⟨⟨fun hsame => ha.other hsame.symm,fun hsame => hthird.1 hsame.symm⟩,happrover⟩

/-- A plan that was exported is written by nobody. -/
theorem exported_unwritten {s : System} {c : Caller} {id : String} {p : PlanState}
    {request : Request} {w : PlanWrite} {raised : Option Refusal}
    (h : Writes d s c id p request w raised) : p.row.status ≠ .exported := by
  intro hexported
  cases h with
  | replaceChanges hstatus | submit hstatus | invalidateApproval hstatus | approve hstatus
  | reject hstatus | invalidateExport hstatus =>
    rw [hexported] at hstatus
    cases hstatus
  | simulate hstatus =>
    rw [hexported] at hstatus
    rcases hstatus with hstatus | hstatus <;> cases hstatus
  | issueExport hcurrent =>
    have hstatus : p.row.status = .approved := (of_decide_eq_true hcurrent).1
    rw [hexported] at hstatus
    cases hstatus
  | cancel hstatus =>
    rw [hexported] at hstatus
    simp [planTransitions] at hstatus

/-- A plan that is exported after a run was exported rightly by one of its calls. -/
theorem run_exported (collisionFree : Function.Injective d.sha256) (estate : Estate)
    (moves : List Move) {id : String} {p : PlanState}
    (h : (run d (emptySystem estate) moves).plans.get? id = some p)
    (hexported : p.row.status = .exported) :
    ∃ earlier c later, moves = earlier ++ .call c :: later ∧
      ExportedRightly d (run d (emptySystem estate) earlier) c id p := by
  induction moves using List.reverseRecOn with
  | nil => cases h
  | append_singleton earlier m ih =>
    rw [run_snoc] at h
    have hearlier : (run d (emptySystem estate) earlier).plans.get? id = some p →
        ∃ before c later, earlier ++ [m] = before ++ .call c :: later ∧
          ExportedRightly d (run d (emptySystem estate) before) c id p := by
      intro hold
      obtain ⟨before,c,later,rfl,hright⟩ := ih hold
      exact ⟨before,c,later ++ [m],by rw [List.append_assoc, List.cons_append],hright⟩
    cases step_after h with
    | kept _ hold => exact hearlier hold
    | created _ _ _ _ hcreate =>
      obtain ⟨rfl,-,-⟩ := createPlan_created hcreate
      cases hexported
    | @written c q w raised hid hold hwrites hwritten _ =>
      subst hwritten
      exact ⟨earlier,c,[],rfl,issued_rightly collisionFree (run_sound estate earlier id q hold)
        hold hid hwrites hexported (exported_unwritten hwrites)⟩

/-- What a run keeps of the gates of its plans. -/
structure GatesHold (d : Deployment) (estate : Estate) (moves : List Move) : Prop where
  exported : ∀ id p, (run d (emptySystem estate) moves).plans.get? id = some p →
    p.row.status = .exported → ∃ earlier c later, moves = earlier ++ .call c :: later ∧
      ExportedRightly d (run d (emptySystem estate) earlier) c id p
  submitted : ∀ earlier later, moves = earlier ++ later → ∀ id p,
    (run d (emptySystem estate) earlier).plans.get? id = some p → p.row.status ≠ .draft →
      ∃ p', (run d (emptySystem estate) moves).plans.get? id = some p' ∧ p'.changes = p.changes
  transitions : ∀ earlier m later, moves = earlier ++ m :: later → ∀ id p,
    (run d (emptySystem estate) earlier).plans.get? id = some p →
      ∃ p', (run d (emptySystem estate) (earlier ++ [m])).plans.get? id = some p' ∧
        (p'.row.status = p.row.status ∨ p'.row.status ∈ planTransitions p.row.status)
  refused : ∀ earlier c later, moves = earlier ++ .call c :: later →
    (perform d (run d (emptySystem estate) earlier) c).2 ≠ none →
      RefusedRightly d (run d (emptySystem estate) earlier) c

/-- In every run of calls and collections, what is exported was written, approved and
exported by three people under one digest, while what it was written against stood; the
steps of a plan stay what was submitted, statuses follow the lifecycle, and a call that is
refused writes nothing, or that the plan is invalidated. -/
theorem three_people_one_digest (d : Deployment) (collisionFree : Function.Injective d.sha256)
    (estate : Estate) (moves : List Move) : GatesHold d estate moves where
  exported := fun _ _ => run_exported collisionFree estate moves
  submitted := by
    rintro earlier later rfl id p hp hstatus
    rw [run_append]
    obtain ⟨p',hp',-,hchanges⟩ := run_changes (d := d) _ later hp hstatus
    exact ⟨p',hp',hchanges⟩
  transitions := by
    rintro earlier m later rfl id p hp
    rw [run_snoc]
    obtain ⟨p',hp',hmoved,-⟩ := step_lawful (d := d) _ m hp
    exact ⟨p',hp',hmoved⟩
  refused := fun earlier c _ _ => refused_rightly (run d (emptySystem estate) earlier) c

namespace Sample
open Adg.StoredPlans.Sample (leaving leaving_checked morning)
open Adg.ObjectVersions Adg.VersionTable Adg.VersionReads Adg.ReviewGeneration

def group : ObjectVersion where
  versionId := 0
  kind := .principal
  key := "S-1-5-21-1-2-3-600"
  isPresent := true
  state := some [("name",.text "Team")]
  stateHash := some "group"
  validFrom := 1
  lastSeenAt := 5
  openedByRunId := "r1"
  lastSeenRunId := "r2"

def membership : ObjectVersion where
  versionId := 1
  kind := .membershipEdge
  key := "edge"
  containerKey := some "S-1-5-21-1-2-3-600"
  relatedKey := some "S-1-5-21-1-2-3-1001"
  isPresent := true
  state := some [("edge_kind",.text "directory_group_member")]
  stateHash := some "edge"
  validFrom := 1
  lastSeenAt := 5
  openedByRunId := "r1"
  lastSeenRunId := "r2"

def record : Table where
  rows := [group, membership]
  nextId := 2
  ids_fresh := by decide
  ids_nodup := by decide
  checked := by decide
  compatible := by decide

theorem record_readable (moment : Instant) : Readable record moment where
  once := by
    intro v hv w hw hobject _ _
    rcases List.mem_pair.mp hv with rfl | rfl <;> rcases List.mem_pair.mp hw with rfl | rfl
    · rfl
    · exact absurd hobject (by decide)
    · exact absurd hobject (by decide)
    · rfl
  entries := by
    intro kind v hv hkind
    obtain ⟨hrow,-⟩ := List.mem_filter.mp hv
    rcases List.mem_pair.mp hrow with rfl | rfl <;> cases kind <;> cases hkind

def estate : Estate := ⟨record,"b1",none,record_readable⟩

def measured : Measurement := ⟨true,false,[]⟩

def deployment : Deployment where
  sha256 := id
  casefold := id
  measure := fun _ _ => .ok measured
  signingKey := "key"

def call (subject : String) (request : Request) : Move :=
  .call ⟨⟨{ subject := subject },morning,6⟩,"p1",request⟩

/-- A plan to take somebody out of a group, which somebody else approves. -/
def moves : List Move :=
  [call "ada" (.create "Leave" "Moved on" [⟨leaving,leaving_checked⟩] none),
    call "ada" (.simulate "s1"), call "ada" .submit,
    call "bob" (.decide .approve none "a1")]

end Sample

theorem three_people_sample :
    ((run Sample.deployment (emptySystem Sample.estate) Sample.moves).plans.get? "p1").map
      (·.row.status) = some .approved ∧
    GatesHold Sample.deployment Sample.estate Sample.moves :=
  ⟨by decide +kernel,
    three_people_one_digest Sample.deployment Function.injective_id Sample.estate Sample.moves⟩

end Adg.PlanApprovals
