import Adg.PlanApprovals

/-!
# Measuring a plan on its own basis

A plan keeps the token of the basis it was written against, and its simulation the
token of the basis it was measured against. Measuring again moves the second and
never the first. So a draft that outlives a collection can never be submitted, and
a plan that is measured again while it waits for an answer can be approved on a
measurement of another basis than its own.
-/

set_option autoImplicit false

namespace Adg.PlanMeasurements
open Adg.Observation Adg.SecurityIdentifier Adg.SortedLists Adg.ChangePlans Adg.KeyedTables
open Adg.PlanDigests Adg.PlanRecords Adg.StoredPlans Adg.PlanPreconditions Adg.PlanLifecycle
open Adg.SimulationOverlays Adg.PlanApprovals
open Adg.Fallible (bind_ok)

variable {d : Deployment}

/-- The overlay of the present steps of a plan. -/
def overlayOf (d : Deployment) (changes : List RecordedChange) :
    Except DomainError SimulationOverlay :=
  overlayForChanges d.casefold (changes.map (·.planned))

/-- Steps whose overlay can be built and measured in an estate. -/
def Measurable (d : Deployment) (estate : Estate) (changes : List RecordedChange) : Prop :=
  ∃ overlay report, overlayOf d changes = .ok overlay ∧ d.measure estate overlay = .ok report

/-- The simulation that is attached to a plan, if any, is of its present steps. -/
def AttachedToSteps (d : Deployment) (s : System) (p : PlanState) : Prop :=
  ∀ id, p.row.simulationId = some id → ∃ stored, s.simulations.get? id = some stored ∧
    overlayOf d p.changes = .ok stored.overlay ∧
    p.row.simulationBasisToken = some stored.baselineToken

/-! ### What the claim says of a state -/

/-- A plan that is approved or exported was measured, as it is, on its own basis. -/
def MeasuredWhenApproved (d : Deployment) (s : System) : Prop :=
  ∀ id p, s.plans.get? id = some p → p.row.status = .approved ∨ p.row.status = .exported →
    hasCurrentSimulation p.row = true ∧ ∃ simulationId stored,
      p.row.simulationId = some simulationId ∧ s.simulations.get? simulationId = some stored ∧
      overlayOf d p.changes = .ok stored.overlay

/-- A draft can be measured now, and then be submitted if its preconditions hold. -/
def DraftsMeasurable (d : Deployment) (s : System) : Prop :=
  ∀ id p, s.plans.get? id = some p → p.row.status = .draft →
    ∀ (c : Caller) (simulationId : String), s.simulations.get? simulationId = none →
      ∃ p', (perform d s ⟨c,id,.simulate simulationId⟩).2 = none ∧
        (perform d s ⟨c,id,.simulate simulationId⟩).1.plans.get? id = some p' ∧
        hasCurrentSimulation p'.row = true ∧
        ∀ (author : Caller) (report : List ChangePrecondition),
          author.actor.subject = p.row.requestedBySubject →
          preconditionsOf d s.estate p' author = .ok report → satisfied report = true →
          ∃ p'', (perform d (perform d s ⟨c,id,.simulate simulationId⟩).1
              ⟨author,id,.submit⟩).1.plans.get? id = some p'' ∧
            p''.row.status = .pendingApproval

/-! ### What the moves of a run have to meet -/

/-- A draft stands on the basis that is collected, and its steps can be measured. -/
def DraftsCurrent (d : Deployment) (s : System) (estate : Estate) : Prop :=
  ∀ id p, s.plans.get? id = some p → p.row.status = .draft →
    p.row.basisToken = estate.token ∧ Measurable d estate p.changes

/-- A collection lands while every draft still stands on the basis; steps that are written can
be measured; and a plan that waits for its answer is measured again on its own basis only. -/
def Timely (d : Deployment) (s : System) : Move → Prop
  | .ingest estate => DraftsCurrent d s estate
  | .call c =>
    match c.request with
    | .create _ _ changes _ => Measurable d s.estate ((performed changes).map kept)
    | .replaceChanges changes => Measurable d s.estate ((performed changes).map kept)
    | .simulate _ => ∀ p, s.plans.get? c.planId = some p → p.row.status = .pendingApproval →
        p.row.basisToken = s.estate.token
    | _ => True

/-! ### The invariant -/

/-- What holds of a plan in a run whose moves are timely. -/
structure Settled (d : Deployment) (s : System) (p : PlanState) : Prop where
  attached : AttachedToSteps d s p
  draft : p.row.status = .draft → p.row.basisToken = s.estate.token ∧
    Measurable d s.estate p.changes
  current : p.row.status = .pendingApproval ∨ p.row.status = .approved ∨
    p.row.status = .exported → hasCurrentSimulation p.row = true

theorem attached_within {s s' : System} {p p' : PlanState} (h : AttachedToSteps d s p)
    (hrow : p'.row.simulationId = p.row.simulationId)
    (hbasis : p'.row.simulationBasisToken = p.row.simulationBasisToken)
    (hchanges : p'.changes = p.changes) (hwithin : s.simulations.Within s'.simulations) :
    AttachedToSteps d s' p' := by
  intro id hid
  rw [hrow] at hid
  obtain ⟨stored,hstored,hoverlay,htoken⟩ := h id hid
  rw [hbasis, hchanges]
  exact ⟨stored,hwithin id stored hstored,hoverlay,htoken⟩

theorem created_settled {s s' : System} {c : Caller} {r : PlanRequest} {p : PlanState}
    (h : createPlan d s c r = .ok p) (hbasis : r.basisToken = s.estate.token)
    (hestate : s'.estate = s.estate)
    (hmeasurable : Measurable d s.estate ((performed r.changes).map kept)) : Settled d s' p := by
  obtain ⟨rfl,-,-⟩ := createPlan_created h
  constructor
  · intro id hid
    cases hid
  · intro _
    rw [hestate]
    exact ⟨hbasis,hmeasurable⟩
  · rintro (hstatus | hstatus | hstatus) <;> cases hstatus

/-- A write that its guards let through in a timely move leaves a settled plan. -/
theorem written_settled {s : System} {c : Call} {p : PlanState} {w : PlanWrite}
    {raised : Option Refusal} (hp : Settled d s p)
    (hstored : s.plans.get? c.planId = some p) (htimely : Timely d s (.call c))
    (h : Writes d s c.caller c.planId p c.request w raised) :
    Settled d (s.apply c.planId w) (p.write w) := by
  have hwithin := simulations_within s c.planId w
  dsimp only [Timely] at htimely
  generalize hrequest : c.request = request at h htimely
  cases h with
  | @replaceChanges changes hstatus hauthor hvalid hrows =>
    constructor
    · intro id hid
      cases hid
    · intro _
      exact ⟨(hp.draft hstatus).1,htimely⟩
    · have hdraft : (p.write (.replaceChanges changes)).row.status = .draft := hstatus
      rw [hdraft]
      rintro (hstatus | hstatus | hstatus) <;> cases hstatus
  | @simulate simulationId overlay report event hstatus hoverlay hreport hnew =>
    have hbasis : p.row.basisToken = s.estate.token := by
      rcases hstatus with hstatus | hstatus
      · exact (hp.draft hstatus).1
      · exact htimely p hstored hstatus
    constructor
    · intro id hid
      have hsame : simulationId = id := Option.some.inj hid
      subst hsame
      refine ⟨⟨overlay,s.estate.token⟩,?_,hoverlay,rfl⟩
      show (s.simulations.insertNew [(simulationId,_)]).get? simulationId = _
      rw [KeyedTable.get?_insertNew, hnew]
      simp [KeyedTable.arrivals]
    · exact hp.draft
    · intro _
      exact decide_eq_true ⟨by simp [PlanState.write],congrArg some hbasis.symm⟩
  | submit hstatus hauthor hcurrent hreport hsatisfied =>
    refine ⟨attached_within hp.attached rfl rfl rfl hwithin,?_,fun _ => hcurrent⟩
    intro hdraft
    cases hdraft
  | approve hstatus hother hreport hsatisfied =>
    refine ⟨attached_within hp.attached rfl rfl rfl hwithin,?_,fun _ => ?_⟩
    · intro hdraft
      cases hdraft
    · exact hp.current (.inl hstatus)
  | issueExport hcurrent hthird hreport hsatisfied =>
    have hstatus : p.row.status = .approved := (of_decide_eq_true hcurrent).1
    refine ⟨attached_within hp.attached rfl rfl rfl hwithin,?_,fun _ => ?_⟩
    · intro hdraft
      cases hdraft
    · exact hp.current (.inr (.inl hstatus))
  | invalidateApproval | reject | invalidateExport | cancel =>
    refine ⟨attached_within hp.attached rfl rfl rfl hwithin,?_,?_⟩
    · intro hdraft
      cases hdraft
    · rintro (hstatus | hstatus | hstatus) <;> cases hstatus

/-! ### What guards that hold let through -/

theorem simulate_writes {estate : Estate} {p : PlanState} {overlay : SimulationOverlay}
    {report : Measurement} (c : Caller) (simulationId : String) (hdraft : p.row.status = .draft)
    (hoverlay : overlayOf d p.changes = .ok overlay)
    (hreport : d.measure estate overlay = .ok report) :
    ∃ event, simulate d estate p c simulationId true =
      .ok (.attachSimulation simulationId ⟨overlay,estate.token⟩ report.summary event,none) := by
  unfold overlayOf at hoverlay
  unfold simulate
  rw [(ensure_ok (u := ())).mpr (.inl hdraft), hoverlay, (ensure_ok (u := ())).mpr rfl]
  apply Exists.intro
  show (do
    let report ← (d.measure estate overlay).mapError Refusal.invalid
    _) = _
  rw [hreport]
  rfl

theorem submit_writes {estate : Estate} {p : PlanState} {c : Caller}
    {report : List ChangePrecondition} (hdraft : p.row.status = .draft)
    (hauthor : c.actor.subject = p.row.requestedBySubject)
    (hcurrent : hasCurrentSimulation p.row = true)
    (hreport : preconditionsOf d estate p c = .ok report) (hsatisfied : satisfied report = true) :
    ∃ event, submit d estate p c = .ok (.submit event,none) := by
  unfold submit requireAuthor
  have hallowed : .pendingApproval ∈ planTransitions p.row.status := by
    rw [hdraft]
    exact List.mem_cons_self
  rw [(transition_ok (u := ())).mpr hallowed, (ensure_ok (u := ())).mpr hauthor,
    (ensure_ok (u := ())).mpr hcurrent, hreport]
  apply Exists.intro
  show (do
    ensure (satisfied report = true) .conflict
    _) = _
  rw [(ensure_ok (u := ())).mpr hsatisfied]
  rfl

/-- What a call that is answered writes. -/
theorem perform_answered {s : System} {c : Caller} {id : String} {p : PlanState}
    {request : Request} {w : PlanWrite} {raised : Option Refusal}
    (hp : s.plans.get? id = some p) (h : answer d s c id p request = .ok (w,raised)) :
    perform d s ⟨c,id,request⟩ = (s.apply id w,raised) := by
  unfold perform
  cases request with
  | create => cases h
  | replaceChanges | simulate | submit | decide | exportPlan | cancel =>
    dsimp only
    rw [hp]
    dsimp only
    rw [h]

theorem get?_written {s : System} {id : String} {p : PlanState} (w : PlanWrite)
    (hp : s.plans.get? id = some p) : (s.apply id w).plans.get? id = some (p.write w) := by
  rw [get?_apply, hp, Option.map_some, if_pos rfl]

/-! ### Over a run -/

/-- A call leaves the estate, and every simulation that is stored. -/
theorem call_leaves (s : System) (c : Call) : (step d s (.call c)).estate = s.estate ∧
    s.simulations.Within (step d s (.call c)).simulations := by
  have hcases := perform_cases d s c
  show (perform d s c).1.estate = s.estate ∧ s.simulations.Within (perform d s c).1.simulations
  generalize perform d s c = result at hcases
  cases hcases with
  | refused | created => exact ⟨rfl,KeyedTable.Within.refl _⟩
  | wrote hp hwrites => exact ⟨rfl,simulations_within s c.planId _⟩

/-- What a timely move keeps of a plan it does not write. -/
theorem settled_kept {s : System} {p : PlanState} (m : Move) (hp : Settled d s p)
    (hstored : ∃ id, s.plans.get? id = some p) (htimely : Timely d s m) :
    Settled d (step d s m) p := by
  cases m with
  | ingest estate =>
    obtain ⟨id,hid⟩ := hstored
    exact ⟨hp.attached,fun hdraft => htimely id p hid hdraft,hp.current⟩
  | call c =>
    obtain ⟨hestate,hwithin⟩ := call_leaves (d := d) s c
    refine ⟨attached_within hp.attached rfl rfl rfl hwithin,fun hdraft => ?_,hp.current⟩
    rw [hestate]
    exact hp.draft hdraft

/-- A timely move leaves settled plans. -/
theorem step_settled {s : System} {m : Move}
    (hs : ∀ id p, s.plans.get? id = some p → Settled d s p) (htimely : Timely d s m) :
    ∀ id p, (step d s m).plans.get? id = some p → Settled d (step d s m) p := by
  intro id p hp
  cases step_after hp with
  | kept _ hold => exact settled_kept m (hs id p hold) ⟨id,hold⟩ htimely
  | @created c r hid hbasis hrequest hnew hcreate =>
    obtain ⟨title,rationale,campaignId,hrequest⟩ := hrequest
    dsimp only [Timely] at htimely
    rw [hrequest] at htimely
    exact created_settled hcreate hbasis (call_leaves s c).1 htimely
  | @written c q w raised hid hold hwrites hp' hstep =>
    subst hid hp'
    rw [hstep]
    exact written_settled (hs c.planId q hold) hold htimely hwrites

/-- Every move of a run is timely where it is made. -/
def TimelyRun (d : Deployment) : System → List Move → Prop
  | _, [] => True
  | s, m :: later => Timely d s m ∧ TimelyRun d (step d s m) later

theorem timely_start {moves later : List Move} : ∀ {s : System},
    TimelyRun d s (moves ++ later) → TimelyRun d s moves := by
  induction moves with
  | nil =>
    intro s _
    trivial
  | cons m rest ih => exact fun h => ⟨h.1,ih h.2⟩

theorem run_settled {moves : List Move} : ∀ {s : System},
    (∀ id p, s.plans.get? id = some p → Settled d s p) → TimelyRun d s moves →
    ∀ id p, (run d s moves).plans.get? id = some p → Settled d (run d s moves) p := by
  induction moves with
  | nil => exact fun hs _ => hs
  | cons m rest ih => exact fun hs h => ih (step_settled hs h.1) h.2

theorem settled_approved {s : System} (hs : ∀ id p, s.plans.get? id = some p → Settled d s p) :
    MeasuredWhenApproved d s := by
  intro id p hp hstatus
  have hcurrent := (hs id p hp).current (.inr hstatus)
  refine ⟨hcurrent,?_⟩
  obtain ⟨hattached,-⟩ := of_decide_eq_true hcurrent
  obtain ⟨simulationId,hid⟩ := Option.ne_none_iff_exists'.mp hattached
  obtain ⟨stored,hstored,hoverlay,-⟩ := (hs id p hp).attached simulationId hid
  exact ⟨simulationId,stored,hid,hstored,hoverlay⟩

theorem settled_measurable {s : System} (hs : ∀ id p, s.plans.get? id = some p → Settled d s p) :
    DraftsMeasurable d s := by
  intro id p hp hdraft c simulationId hnew
  obtain ⟨hbasis,overlay,report,hoverlay,hreport⟩ := (hs id p hp).draft hdraft
  obtain ⟨event,hevent⟩ := simulate_writes c simulationId hdraft hoverlay hreport
  have hanswer : answer d s c id p (.simulate simulationId) =
      .ok (.attachSimulation simulationId ⟨overlay,s.estate.token⟩ report.summary event,none) := by
    show simulate d s.estate p c simulationId (s.simulations.get? simulationId).isNone = _
    rw [hnew]
    exact hevent
  have hcurrent : hasCurrentSimulation (p.write (.attachSimulation simulationId
      ⟨overlay,s.estate.token⟩ report.summary event)).row = true :=
    decide_eq_true ⟨by simp [PlanState.write],congrArg some hbasis.symm⟩
  have hstill : (p.write (.attachSimulation simulationId ⟨overlay,s.estate.token⟩
    report.summary event)).row.status = .draft := hdraft
  have hauthored : (p.write (.attachSimulation simulationId ⟨overlay,s.estate.token⟩
    report.summary event)).row.requestedBySubject = p.row.requestedBySubject := rfl
  generalize PlanWrite.attachSimulation simulationId ⟨overlay,s.estate.token⟩ report.summary event
    = w at hanswer hcurrent hstill hauthored
  have hmeasured := get?_written w hp
  rw [perform_answered hp hanswer]
  refine ⟨p.write w,rfl,hmeasured,hcurrent,?_⟩
  intro author preconditions hauthor hpreconditions hsatisfied
  rw [← hauthored] at hauthor
  obtain ⟨submitted,hsubmitted⟩ := submit_writes hstill hauthor hcurrent hpreconditions hsatisfied
  have hanswered : answer d (s.apply id w) author id (p.write w) .submit =
    .ok (.submit submitted,none) := hsubmitted
  rw [perform_answered hmeasured hanswered]
  exact ⟨_,get?_written _ hmeasured,rfl⟩

/-- In a run whose moves are timely, what is approved was measured, as it is, on its own basis,
and every draft can be measured and then be submitted. -/
theorem measured_on_its_basis (d : Deployment) (estate : Estate) (moves : List Move)
    (h : TimelyRun d (emptySystem estate) moves) :
    ∀ earlier later, moves = earlier ++ later →
      MeasuredWhenApproved d (run d (emptySystem estate) earlier) ∧
      DraftsMeasurable d (run d (emptySystem estate) earlier) := by
  rintro earlier later rfl
  have hsettled := run_settled (s := emptySystem estate) (fun id p hp => by cases hp)
    (timely_start h)
  exact ⟨settled_approved hsettled,settled_measurable hsettled⟩

namespace Sample
open Adg.PlanApprovals.Sample (estate record record_readable deployment call moves)
open Adg.StoredPlans.Sample (leaving leaving_checked morning)

/-- The estate after a collector has written. -/
def collected : Estate := ⟨record,"b2",none,record_readable⟩

def drafted : Move := call "ada" (.create "Leave" "Moved on" [⟨leaving,leaving_checked⟩] none)

/-- A draft that outlives a collection. -/
def outlived : List Move := [drafted, .ingest collected]

/-- A plan that is measured again while it waits for its answer. -/
def remeasured : List Move :=
  [drafted, call "ada" (.simulate "s1"), call "ada" .submit, .ingest collected,
    call "ada" (.simulate "s2"), call "bob" (.decide .approve none "a1")]

def author : Caller := ⟨{ subject := "ada" },morning,6⟩

theorem outlived_draft :
    ((run deployment (emptySystem estate) outlived).plans.get? "p1").map (·.row.status) =
      some .draft ∧
    (run deployment (emptySystem estate) outlived).simulations.get? "s1" = none ∧
    ((perform deployment (run deployment (emptySystem estate) outlived)
      ⟨author,"p1",.simulate "s1"⟩).1.plans.get? "p1").map (hasCurrentSimulation ·.row) =
      some false := by
  refine ⟨by decide +kernel,?_,by decide +kernel⟩
  rfl

theorem remeasured_approved :
    ((run deployment (emptySystem estate) remeasured).plans.get? "p1").map
      (fun p => (p.row.status,hasCurrentSimulation p.row)) = some (.approved,false) := by
  decide +kernel

theorem leaving_measurable :
    Measurable deployment estate ((performed [⟨leaving,leaving_checked⟩]).map kept) := by
  have hbuilt : (overlayOf deployment ((performed [⟨leaving,leaving_checked⟩]).map kept)).toOption
    ≠ none := by decide +kernel
  obtain ⟨overlay,hoverlay⟩ := Option.ne_none_iff_exists'.mp hbuilt
  exact ⟨overlay,_,Fallible.toOption_some.mp hoverlay,rfl⟩

theorem drafted_current : ((run deployment (emptySystem estate) [drafted]).plans.get? "p1").all
    (fun p => p.row.basisToken = "b1") = true := by decide +kernel

theorem moves_timely : TimelyRun deployment (emptySystem estate) moves := by
  refine ⟨leaving_measurable,?_,trivial,trivial,trivial⟩
  intro p hp _
  have hcurrent := drafted_current
  have hp : (run deployment (emptySystem estate) [drafted]).plans.get? "p1" = some p := hp
  rw [hp] at hcurrent
  exact of_decide_eq_true hcurrent

end Sample

theorem measured_on_its_basis_sample :
    MeasuredWhenApproved PlanApprovals.Sample.deployment (run PlanApprovals.Sample.deployment
      (emptySystem PlanApprovals.Sample.estate) PlanApprovals.Sample.moves) ∧
    DraftsMeasurable PlanApprovals.Sample.deployment (run PlanApprovals.Sample.deployment
      (emptySystem PlanApprovals.Sample.estate) PlanApprovals.Sample.moves) :=
  measured_on_its_basis PlanApprovals.Sample.deployment PlanApprovals.Sample.estate
    PlanApprovals.Sample.moves Sample.moves_timely PlanApprovals.Sample.moves []
    (List.append_nil _).symm

/-- A draft that outlived a collection is not current however it is measured, and a plan that
was measured again after a collection, while it waited, was approved. -/
theorem approved_on_another_basis :
    ¬ DraftsMeasurable PlanApprovals.Sample.deployment (run PlanApprovals.Sample.deployment
      (emptySystem PlanApprovals.Sample.estate) Sample.outlived) ∧
    ¬ MeasuredWhenApproved PlanApprovals.Sample.deployment (run PlanApprovals.Sample.deployment
      (emptySystem PlanApprovals.Sample.estate) Sample.remeasured) := by
  constructor
  · intro h
    obtain ⟨hdraft,hnew,hstale⟩ := Sample.outlived_draft
    obtain ⟨p,hp,hstatus⟩ := Option.map_eq_some_iff.mp hdraft
    obtain ⟨p',-,hp',hcurrent,-⟩ := h "p1" p hp hstatus Sample.author "s1" hnew
    rw [hp', Option.map_some, hcurrent] at hstale
    cases hstale
  · intro h
    obtain ⟨p,hp,happroved⟩ := Option.map_eq_some_iff.mp Sample.remeasured_approved
    obtain ⟨hstatus,hstale⟩ := Prod.mk.inj happroved
    have hcurrent := (h "p1" p hp (.inl hstatus)).1
    rw [hstale] at hcurrent
    cases hcurrent

end Adg.PlanMeasurements
