import Adg.PlanApprovals

/-!
# Calls on one plan that overlap

A call reads the row of its plan, then its steps, and works on what it has read. It
then writes, holding the row of the plan until it commits. Nothing it has read is held,
and nothing that it writes asks whether the plan is still what it read. So what a call
relies on may be gone when it commits.
-/

set_option autoImplicit false

namespace Adg.PlanRaces
open Adg.Observation Adg.CanonicalJson Adg.KeyedTables Adg.PlanRecords Adg.StoredPlans
open Adg.PlanDigests Adg.PlanPreconditions Adg.PlanLifecycle

/-- How far a transaction has come. What it has read it keeps to its end. -/
inductive Phase where
  | arrived
  | read (row : PlanRow)
  | seen (row : PlanRow) (changes : List RecordedChange)
  | decided (view : PlanState) (w : PlanWrite) (raised : Option Refusal)
  | replacing (view : PlanState) (w : PlanWrite) (raised : Option Refusal)
  | holding (view : PlanState) (w : PlanWrite) (raised : Option Refusal)
  | committed (raised : Option Refusal)
  | refused (r : Refusal)

structure Txn where
  caller : Caller
  request : Request
  phase : Phase := .arrived

/-- The plan as it is committed, the simulations, and the transactions. -/
structure Session (ι : Type) where
  plan : PlanState
  simulations : KeyedTable String StoredSimulation
  txns : ι → Txn

/-- Whose next statements come. What a transaction reads of the collected estate, statement
by statement, is whatever collectors have made of it. -/
inductive Turn (ι : Type) where
  | readRow (i : ι)
  | readChanges (i : ι)
  | work (i : ι) (estate : Estate)
  | replaceRows (i : ι)
  | write (i : ι)
  | commit (i : ι)

/-- The write replaces the rows of the steps. -/
def PlanWrite.replaces : PlanWrite → Bool
  | .replaceChanges _ => true
  | _ => false

/-- The rows of the steps are held, or the row of the plan is. -/
def Phase.holdsSteps : Phase → Bool
  | .replacing _ w _ | .holding _ w _ => PlanWrite.replaces w
  | _ => false

def Phase.holdsPlan : Phase → Bool
  | .holding _ _ _ => true
  | _ => false

/-- A row that a write inserts has a key that is taken. -/
def collides (plan : PlanState) (simulations : KeyedTable String StoredSimulation) :
    PlanWrite → Bool
  | .attachSimulation simulationId _ _ _ => (simulations.get? simulationId).isSome
  | .approve a _ | .reject a _ => plan.approvals.any fun b =>
      b.approvalId = a.approvalId ∨
        (b.approverSubject = a.approverSubject ∧ b.planDigest = a.planDigest)
  | .issueExport issued _ => plan.exports.any (·.exportId = issued.exportId)
  | .replaceChanges _ | .submit _ | .invalidate _ _ | .cancel _ => false

section Turns
variable (d : Deployment) (others : KeyedTable String PlanState) (planId : String)
variable {ι : Type} [DecidableEq ι]

def Session.set (s : Session ι) (i : ι) (phase : Phase) : Session ι :=
  { s with txns := Function.update s.txns i { s.txns i with phase := phase } }

/-- What a transaction has read of its plan. The answers and the events it reads last. -/
def Session.viewed (s : Session ι) (row : PlanRow) (changes : List RecordedChange) : PlanState :=
  { s.plan with
    row := row
    changes := changes }

/-- What a transaction works in: the other plans, and what it reads of the estate. -/
def Session.system (s : Session ι) (estate : Estate) : System where
  plans := others
  simulations := s.simulations
  estate := estate

/-- The commit of a write. -/
def Session.apply (s : Session ι) (w : PlanWrite) : Session ι :=
  { s with
    plan := s.plan.write w
    simulations := match w with
      | .attachSimulation simulationId simulation _ _ =>
        s.simulations.insertNew [(simulationId,simulation)]
      | _ => s.simulations }

variable [Fintype ι]

def Session.stepsHeld (s : Session ι) (i : ι) : Bool :=
  Decidable.decide (∃ j, j ≠ i ∧ (s.txns j).phase.holdsSteps = true)

def Session.planHeld (s : Session ι) (i : ι) : Bool :=
  Decidable.decide (∃ j, j ≠ i ∧ (s.txns j).phase.holdsPlan = true)

/-- The next statements of one transaction, unless it has to wait. A replacement that
meets another one waits for it, and then its rows take places that are taken. -/
def step (s : Session ι) : Turn ι → Option (Session ι)
  | .readRow i =>
    match (s.txns i).phase with
    | .arrived => some (s.set i (.read s.plan.row))
    | _ => none
  | .readChanges i =>
    match (s.txns i).phase with
    | .read row => some (s.set i (.seen row s.plan.changes))
    | _ => none
  | .work i estate =>
    match (s.txns i).phase with
    | .seen row changes =>
      match answer d (s.system others estate) (s.txns i).caller planId (s.viewed row changes)
        (s.txns i).request with
      | .ok (w,raised) => some (s.set i (.decided (s.viewed row changes) w raised))
      | .error r => some (s.set i (.refused r))
    | _ => none
  | .replaceRows i =>
    match (s.txns i).phase with
    | .decided view w raised =>
      if PlanWrite.replaces w then
        if s.stepsHeld i then some (s.set i (.refused .integrity))
        else some (s.set i (.replacing view w raised))
      else none
    | _ => none
  | .write i =>
    match (s.txns i).phase with
    | .decided view w raised =>
      if PlanWrite.replaces w ∨ s.planHeld i then none
      else if collides s.plan s.simulations w then some (s.set i (.refused .integrity))
      else some (s.set i (.holding view w raised))
    | .replacing view w raised =>
      if s.planHeld i then none else some (s.set i (.holding view w raised))
    | _ => none
  | .commit i =>
    match (s.txns i).phase with
    | .holding _ w raised => some ((s.apply w).set i (.committed raised))
    | _ => none

def run : Session ι → List (Turn ι) → Option (Session ι)
  | s, [] => some s
  | s, turn :: turns => (step d others planId s turn).bind fun s' => run s' turns

end Turns

/-- The calls on a plan, none of which has begun. -/
def begin {ι : Type} (plan : PlanState) (simulations : KeyedTable String StoredSimulation)
    (calls : ι → Caller × Request) : Session ι where
  plan := plan
  simulations := simulations
  txns := fun i => { caller := (calls i).1, request := (calls i).2 }

/-! ### What the claim says of a run -/

/-- The digest that a submission recorded is of the plan as it is. -/
def SubmittedAsIs (d : Deployment) (p : PlanState) : Prop :=
  (∃ e ∈ p.events, e.eventType = .planSubmitted) ∧
  ∀ e ∈ p.events, e.eventType = .planSubmitted →
    ("plan_digest",.text (p.plan.digest d.sha256)) ∈ e.payload

/-- The digest that an approval recorded is of the plan as it is. -/
def ApprovedAsIs (d : Deployment) (p : PlanState) : Prop :=
  p.row.approvedPlanDigest = some (p.plan.digest d.sha256) ∧
  (∃ a ∈ p.approvals, a.decision = .approve) ∧
  ∀ a ∈ p.approvals, a.decision = .approve → a.planDigest = p.plan.digest d.sha256

/-- `TERMINAL_STATUSES`. -/
def terminalStatuses : List ChangePlanStatus := [.rejected, .invalidated, .canceled, .exported]

section Runs
variable (d : Deployment) (others : KeyedTable String PlanState) (planId : String)
variable {ι : Type} [DecidableEq ι] [Fintype ι]

/-- The gates of a plan over the turns of the transactions on it. -/
structure GatesKept (s : Session ι) (turns : List (Turn ι)) : Prop where
  terminal : ∀ earlier later s₁ s₂, turns = earlier ++ later →
    run d others planId s earlier = some s₁ → run d others planId s₁ later = some s₂ →
    s₁.plan.row.status ∈ terminalStatuses → s₂.plan.row.status = s₁.plan.row.status
  recorded : ∀ earlier later s₁, turns = earlier ++ later →
    run d others planId s earlier = some s₁ →
    (s₁.plan.row.status = .pendingApproval → SubmittedAsIs d s₁.plan) ∧
    (s₁.plan.row.status = .approved → ApprovedAsIs d s₁.plan)
  exportedOnce : ∀ earlier later s₁, turns = earlier ++ later →
    run d others planId s earlier = some s₁ → s₁.plan.exports.length ≤ 1
  unsigned : ∀ earlier later s₁ s₂, turns = earlier ++ later →
    run d others planId s earlier = some s₁ → run d others planId s₁ later = some s₂ →
    s₁.plan.row.status = .canceled ∨ s₁.plan.row.status = .rejected →
      s₂.plan.exports = s₁.plan.exports

/-- What a call relies on is still so: the status it has read, and under a submission or an
approval what the digest covers. A plan is measured again only while it is a draft. -/
def Current (request : Request) (view plan : PlanState) : Prop :=
  view.row.status = plan.row.status ∧
  match request with
  | .simulate _ => plan.row.status = .draft
  | .submit | .decide .approve _ _ => planContent view.plan = planContent plan.plan
  | _ => True

/-- A transaction commits only where what it relies on is still so. -/
def Unraced (s : Session ι) : Turn ι → Prop
  | .commit i => ∀ view w raised, (s.txns i).phase = .holding view w raised →
      Current (s.txns i).request view s.plan
  | _ => True

def UnracedRun : Session ι → List (Turn ι) → Prop
  | _, [] => True
  | s, turn :: turns => Unraced s turn ∧
      ∀ s', step d others planId s turn = some s' → UnracedRun s' turns

end Runs

/-! ### What a turn does -/

section Moves
variable {d : Deployment} {others : KeyedTable String PlanState} {planId : String}
variable {ι : Type} [DecidableEq ι]

/-- What a transaction is about to write, and the plan it has read. -/
def Phase.answer : Phase → Option (PlanState × PlanWrite × Option Refusal)
  | .decided view w raised | .replacing view w raised | .holding view w raised =>
    some (view,w,raised)
  | .arrived | .read _ | .seen _ _ | .committed _ | .refused _ => none

/-- The write of a transaction is one that its guards let through on what it has read. -/
def Answered (d : Deployment) (planId : String) (t : Txn) : Prop :=
  ∀ view w raised, t.phase.answer = some (view,w,raised) →
    ∃ system, Writes d system t.caller planId view t.request w raised

/-- What a turn leaves: a transaction that has moved on, or the commit of one that was
holding the plan. -/
inductive Moved (d : Deployment) (planId : String) (s : Session ι) : Turn ι → Session ι → Prop where
  | on {turn : Turn ι} {i : ι} {phase : Phase}
      (hphase : Answered d planId (s.txns i) →
        Answered d planId { s.txns i with phase := phase }) :
      Moved d planId s turn (s.set i phase)
  | committed {i : ι} {view : PlanState} {w : PlanWrite} {raised : Option Refusal}
      (hphase : (s.txns i).phase = .holding view w raised) :
      Moved d planId s (.commit i) ((s.apply w).set i (.committed raised))

/-- A phase with no answer, or with the answer of the one before it. -/
theorem answered_on {t : Txn} {phase : Phase}
    (h : phase.answer = none ∨ phase.answer = t.phase.answer) (ht : Answered d planId t) :
    Answered d planId { t with phase := phase } := by
  intro view w raised hanswer
  have hanswer : phase.answer = some (view,w,raised) := hanswer
  rcases h with h | h
  · rw [h] at hanswer
    cases hanswer
  · exact ht view w raised (h.symm.trans hanswer)

theorem set_answered {s : Session ι} {i : ι} {phase : Phase}
    (hs : ∀ j, Answered d planId (s.txns j))
    (h : Answered d planId { s.txns i with phase := phase }) (j : ι) :
    Answered d planId ((s.set i phase).txns j) := by
  show Answered d planId (Function.update s.txns i { s.txns i with phase := phase } j)
  by_cases hj : j = i
  · subst hj
    rw [Function.update_self]
    exact h
  · rw [Function.update_of_ne hj]
    exact hs j

variable [Fintype ι]

theorem step_moved {s s' : Session ι} {turn : Turn ι} (h : step d others planId s turn = some s') :
    Moved d planId s turn s' := by
  unfold step at h
  cases turn with
  | readRow i | readChanges i =>
    dsimp only at h
    split at h
    · cases h
      exact .on (answered_on (.inl rfl))
    · cases h
  | work i estate =>
    dsimp only at h
    split at h
    · split at h
      · rename_i w raised hanswer
        cases h
        apply Moved.on
        intro _ view w raised hphase
        cases hphase
        exact ⟨_,answer_writes hanswer⟩
      · cases h
        exact .on (answered_on (.inl rfl))
    · cases h
  | replaceRows i =>
    dsimp only at h
    split at h
    · rename_i hphase
      split_ifs at h
      · cases h
        exact .on (answered_on (.inl rfl))
      · cases h
        exact .on (answered_on (.inr (by rw [hphase]; rfl)))
    · cases h
  | write i =>
    dsimp only at h
    split at h
    · rename_i hphase
      split_ifs at h
      · cases h
        exact .on (answered_on (.inl rfl))
      · cases h
        exact .on (answered_on (.inr (by rw [hphase]; rfl)))
    · rename_i hphase
      split_ifs at h
      cases h
      exact .on (answered_on (.inr (by rw [hphase]; rfl)))
    · cases h
  | commit i =>
    dsimp only at h
    split at h
    · rename_i hphase
      cases h
      exact .committed hphase
    · cases h

/-! ### What a plan keeps -/

/-- What holds, under its status, of a plan whose calls commit on what they rely on. -/
def KeptAt (d : Deployment) (p : PlanState) : ChangePlanStatus → Prop
  | .draft => (∀ e ∈ p.events, e.eventType ≠ .planSubmitted) ∧ p.approvals = [] ∧ p.exports = []
  | .pendingApproval => SubmittedAsIs d p ∧ p.approvals = [] ∧ p.exports = []
  | .approved => ApprovedAsIs d p ∧ p.exports = []
  | .exported => p.exports.length ≤ 1
  | .rejected | .invalidated | .canceled => p.exports = []

def Kept (d : Deployment) (p : PlanState) : Prop := KeptAt d p p.row.status

theorem kept_at {p : PlanState} {status : ChangePlanStatus} (hp : Kept d p)
    (hstatus : p.row.status = status) : KeptAt d p status := by
  rw [← hstatus]
  exact hp

theorem kept_unexported {p : PlanState} (hp : Kept d p) (hstatus : p.row.status ≠ .exported) :
    p.exports = [] := by
  unfold Kept at hp
  cases hcase : p.row.status with
  | draft | pendingApproval =>
    rw [hcase] at hp
    exact hp.2.2
  | approved =>
    rw [hcase] at hp
    exact hp.2
  | exported => exact absurd hcase hstatus
  | rejected | invalidated | canceled =>
    rw [hcase] at hp
    exact hp

theorem kept_once {p : PlanState} (hp : Kept d p) : p.exports.length ≤ 1 := by
  by_cases hstatus : p.row.status = .exported
  · exact kept_at hp hstatus
  · rw [kept_unexported hp hstatus]
    exact Nat.zero_le 1

theorem created_kept {s : System} {c : Caller} {r : PlanRequest} {p : PlanState}
    (h : createPlan d s c r = .ok p) : Kept d p := by
  obtain ⟨rfl,-,-⟩ := createPlan_created h
  refine ⟨?_,rfl,rfl⟩
  intro e he
  rw [List.mem_singleton.mp he]
  intro hevent
  cases hevent

/-- A plan that calls still write on is at no end. -/
theorem writes_open {system : System} {c : Caller} {view : PlanState} {request : Request}
    {w : PlanWrite} {raised : Option Refusal}
    (h : Writes d system c planId view request w raised) :
    view.row.status ∉ terminalStatuses := by
  have hopen : ∀ {status : ChangePlanStatus}, view.row.status = status →
      planTransitions status ≠ [] → view.row.status ∉ terminalStatuses := by
    rintro status rfl hmore hterminal
    unfold terminalStatuses at hterminal
    cases hstatus : view.row.status <;> rw [hstatus] at hterminal hmore <;>
      simp [planTransitions] at hterminal hmore
  cases h with
  | replaceChanges hstatus | submit hstatus | invalidateApproval hstatus | approve hstatus
  | reject hstatus | invalidateExport hstatus => exact hopen hstatus (by simp [planTransitions])
  | simulate hstatus =>
    rcases hstatus with hstatus | hstatus
    · exact hopen hstatus (by simp [planTransitions])
    · exact hopen hstatus (by simp [planTransitions])
  | issueExport hcurrent =>
    have hstatus : view.row.status = .approved := (of_decide_eq_true hcurrent).1
    exact hopen hstatus (by simp [planTransitions])
  | cancel hstatus => exact hopen rfl (List.ne_nil_of_mem hstatus)

/-- A write that commits on what it relies on keeps the plan. -/
theorem written_kept {system : System} {c : Caller} {view p : PlanState} {request : Request}
    {w : PlanWrite} {raised : Option Refusal} (hp : Kept d p)
    (h : Writes d system c planId view request w raised) (hcurrent : Current request view p) :
    Kept d (p.write w) := by
  obtain ⟨hsame,hrelied⟩ := hcurrent
  have hexports : p.exports = [] := by
    apply kept_unexported hp
    rw [← hsame]
    intro hexported
    exact writes_open h (by simp [terminalStatuses, hexported])
  cases h with
  | @replaceChanges changes hstatus =>
    have hdraft : p.row.status = .draft := hsame.symm.trans hstatus
    obtain ⟨hevents,happrovals,-⟩ := kept_at hp hdraft
    show KeptAt d (p.write (.replaceChanges changes)) p.row.status
    rw [hdraft]
    exact ⟨hevents,happrovals,hexports⟩
  | @simulate simulationId overlay report event _ _ _ _ hevent =>
    have hdraft : p.row.status = .draft := hrelied
    obtain ⟨hevents,happrovals,-⟩ := kept_at hp hdraft
    show KeptAt d (p.write (.attachSimulation _ _ _ event)) p.row.status
    rw [hdraft]
    refine ⟨?_,happrovals,hexports⟩
    intro e he
    rcases List.mem_append.mp he with he | he
    · exact hevents e he
    · rw [List.mem_singleton.mp he, hevent]
      intro hsubmitted
      cases hsubmitted
  | @submit report event hstatus _ _ _ _ hevent =>
    have hdraft : p.row.status = .draft := hsame.symm.trans hstatus
    have hdigest : view.plan.digest d.sha256 = p.plan.digest d.sha256 :=
      congrArg (planDigest d.sha256) hrelied
    obtain ⟨hevents,happrovals,-⟩ := kept_at hp hdraft
    refine ⟨⟨?_,?_⟩,happrovals,hexports⟩
    · exact ⟨event,List.mem_append_right _ List.mem_cons_self,hevent.1⟩
    · intro e he hsubmitted
      rcases List.mem_append.mp he with he | he
      · exact absurd hsubmitted (hevents e he)
      · rw [List.mem_singleton.mp he]
        show ("plan_digest",.text (p.plan.digest d.sha256)) ∈ event.payload
        rw [← hdigest]
        exact hevent.2
  | @approve rationale approvalId said event report hstatus _ _ _ =>
    have hpending : p.row.status = .pendingApproval := hsame.symm.trans hstatus
    have hdigest : view.plan.digest d.sha256 = p.plan.digest d.sha256 :=
      congrArg (planDigest d.sha256) hrelied
    obtain ⟨-,happrovals,-⟩ := kept_at hp hpending
    refine ⟨⟨congrArg some hdigest,?_,?_⟩,hexports⟩
    · exact ⟨_,List.mem_append_right _ List.mem_cons_self,rfl⟩
    · intro a ha _
      have ha : a ∈ p.approvals ++ [_] := ha
      rw [happrovals, List.nil_append] at ha
      rw [List.mem_singleton.mp ha]
      exact hdigest
  | reject | invalidateApproval | invalidateExport | cancel => exact hexports
  | issueExport =>
    show (p.exports ++ [_]).length ≤ 1
    rw [hexports]
    exact le_refl 1

/-! ### Over the turns -/

/-- The plan is kept, and no transaction is about to write what its guards refused. -/
structure Sound (d : Deployment) (planId : String) (s : Session ι) : Prop where
  kept : Kept d s.plan
  answered : ∀ i, Answered d planId (s.txns i)

/-- A turn in which nobody commits on what is gone leaves the plan kept, and a plan that is
at its end as it was. -/
theorem step_sound {s s' : Session ι} {turn : Turn ι} (hs : Sound d planId s)
    (hunraced : Unraced s turn) (h : step d others planId s turn = some s') :
    Sound d planId s' ∧ (s.plan.row.status ∈ terminalStatuses → s'.plan = s.plan) := by
  cases step_moved h with
  | @on _ i phase hphase =>
    exact ⟨⟨hs.kept,set_answered hs.answered (hphase (hs.answered i))⟩,fun _ => rfl⟩
  | @committed i view w raised hphase =>
    have hcurrent := hunraced view w raised hphase
    obtain ⟨system,hwrites⟩ := hs.answered i view w raised (by rw [hphase]; rfl)
    constructor
    · refine ⟨written_kept hs.kept hwrites hcurrent,?_⟩
      exact set_answered hs.answered (answered_on (.inl rfl) (hs.answered i))
    · intro hterminal
      rw [← hcurrent.1] at hterminal
      exact absurd hterminal (writes_open hwrites)

theorem run_sound {turns : List (Turn ι)} : ∀ {s s' : Session ι}, Sound d planId s →
    UnracedRun d others planId s turns → run d others planId s turns = some s' →
    Sound d planId s' ∧ (s.plan.row.status ∈ terminalStatuses → s'.plan = s.plan) := by
  induction turns with
  | nil =>
    intro s s' hs _ h
    cases h
    exact ⟨hs,fun _ => rfl⟩
  | cons turn rest ih =>
    intro s s' hs hunraced h
    obtain ⟨mid,hmid,h⟩ := Option.bind_eq_some_iff.mp h
    obtain ⟨hsound,hkept⟩ := step_sound hs hunraced.1 hmid
    obtain ⟨hsound',hkept'⟩ := ih hsound (hunraced.2 mid hmid) h
    refine ⟨hsound',fun hterminal => ?_⟩
    have hsame := hkept hterminal
    rw [hkept' (by rw [hsame]; exact hterminal), hsame]

theorem unraced_split {earlier later : List (Turn ι)} : ∀ {s s₁ : Session ι},
    UnracedRun d others planId s (earlier ++ later) →
    run d others planId s earlier = some s₁ →
    UnracedRun d others planId s earlier ∧ UnracedRun d others planId s₁ later := by
  induction earlier with
  | nil =>
    intro s s₁ hunraced h
    cases h
    exact ⟨trivial,hunraced⟩
  | cons turn rest ih =>
    intro s s₁ hunraced h
    obtain ⟨mid,hmid,h⟩ := Option.bind_eq_some_iff.mp h
    have hrest := ih (hunraced.2 mid hmid) h
    refine ⟨⟨hunraced.1,fun s' hs' => ?_⟩,hrest.2⟩
    obtain rfl := Option.some.inj (hmid.symm.trans hs')
    exact hrest.1

end Moves

theorem begin_sound {d : Deployment} {planId : String} {ι : Type} {s : System} {c : Caller}
    {r : PlanRequest} {plan : PlanState} (h : createPlan d s c r = .ok plan)
    (simulations : KeyedTable String StoredSimulation) (calls : ι → Caller × Request) :
    Sound d planId (begin plan simulations calls) where
  kept := created_kept h
  answered := by
    intro i view w raised hanswer
    cases hanswer

/-- Where no call on a plan commits on a status, or on steps, that are gone, and the plan is
not measured again after it was submitted, the gates of the plan hold under every order of
turns. -/
theorem gates_kept_unraced (d : Deployment) (others : KeyedTable String PlanState) {ι : Type}
    [DecidableEq ι] [Fintype ι] (s : System) (c : Caller) (r : PlanRequest) (plan : PlanState)
    (hcreated : createPlan d s c r = .ok plan)
    (simulations : KeyedTable String StoredSimulation) (calls : ι → Caller × Request)
    (turns : List (Turn ι))
    (hunraced : UnracedRun d others r.planId (begin plan simulations calls) turns) :
    GatesKept d others r.planId (begin plan simulations calls) turns := by
  have hreached : ∀ earlier later s₁, turns = earlier ++ later →
      run d others r.planId (begin plan simulations calls) earlier = some s₁ →
      Sound d r.planId s₁ ∧ UnracedRun d others r.planId s₁ later := by
    rintro earlier later s₁ rfl h
    obtain ⟨hearlier,hlater⟩ := unraced_split hunraced h
    exact ⟨(run_sound (begin_sound hcreated simulations calls) hearlier h).1,hlater⟩
  constructor
  · intro earlier later s₁ s₂ hturns h₁ h₂ hterminal
    obtain ⟨hsound,hlater⟩ := hreached earlier later s₁ hturns h₁
    rw [(run_sound hsound hlater h₂).2 hterminal]
  · intro earlier later s₁ hturns h₁
    have hkept := (hreached earlier later s₁ hturns h₁).1.kept
    exact ⟨fun hstatus => (kept_at hkept hstatus).1,fun hstatus => (kept_at hkept hstatus).1⟩
  · intro earlier later s₁ hturns h₁
    exact kept_once (hreached earlier later s₁ hturns h₁).1.kept
  · intro earlier later s₁ s₂ hturns h₁ h₂ hclosed
    obtain ⟨hsound,hlater⟩ := hreached earlier later s₁ hturns h₁
    have hterminal : s₁.plan.row.status ∈ terminalStatuses := by
      rcases hclosed with hclosed | hclosed <;> rw [hclosed] <;> simp [terminalStatuses]
    rw [(run_sound hsound hlater h₂).2 hterminal]

theorem unraced_cons {d : Deployment} {others : KeyedTable String PlanState} {planId : String}
    {ι : Type} [DecidableEq ι] [Fintype ι] {s mid : Session ι} {turn : Turn ι}
    {rest : List (Turn ι)} (hunraced : Unraced s turn) (h : step d others planId s turn = some mid)
    (hrest : UnracedRun d others planId mid rest) :
    UnracedRun d others planId s (turn :: rest) := by
  refine ⟨hunraced,fun s' hs' => ?_⟩
  obtain rfl := Option.some.inj (h.symm.trans hs')
  exact hrest

namespace Sample
open Adg.PlanApprovals.Sample (estate deployment)
open Adg.StoredPlans.Sample (leaving leaving_checked morning)

def caller : Caller := ⟨{ subject := "ada" },morning,6⟩

def request : PlanRequest where
  actor := caller.actor
  title := "Leave"
  rationale := "Moved on"
  changes := [⟨leaving,leaving_checked⟩]
  campaignId := none
  planId := "p1"
  now := morning
  basisToken := "b1"
  latestRunId := none

def drafted : PlanState := created caller request

theorem drafted_created : createPlan deployment (emptySystem estate) caller request =
    .ok drafted := by
  have hmade : (createPlan deployment (emptySystem estate) caller request).toOption.isSome = true := by
    decide +kernel
  obtain ⟨p,hp⟩ := Option.isSome_iff_exists.mp hmade
  have hp := Fallible.toOption_some.mp hp
  rw [hp, (createPlan_created hp).1]
  rfl

/-- A measurement, a submission and a cancellation. -/
def calls : Fin 3 → Caller × Request
  | 0 => (caller,.simulate "s1")
  | 1 => (caller,.submit)
  | 2 => (caller,.cancel none)

def start : Session (Fin 3) := begin drafted .empty calls

/-- A submission that has read the row of the plan when it is canceled. -/
def overtaken : List (Turn (Fin 3)) :=
  [.readRow 1, .readRow 2, .readChanges 2, .work 2 estate, .write 2, .commit 2]

/-- The plan is measured, a submission reads it and works, and the plan is canceled. -/
def canceledFirst : List (Turn (Fin 3)) :=
  [.readRow 0, .readChanges 0, .work 0 estate, .write 0, .commit 0,
    .readRow 1, .readChanges 1, .work 1 estate,
    .readRow 2, .readChanges 2, .work 2 estate, .write 2, .commit 2]

def submittedThen : List (Turn (Fin 3)) := [.write 1, .commit 1]

theorem overtaken_unraced : UnracedRun deployment .empty "p1" start overtaken := by
  refine unraced_cons trivial rfl (unraced_cons trivial rfl (unraced_cons trivial rfl
    (unraced_cons trivial rfl (unraced_cons trivial rfl (unraced_cons ?_ rfl trivial)))))
  intro view w raised hphase
  cases hphase
  exact ⟨rfl,trivial⟩

theorem canceled_then_submitted :
    (run deployment .empty "p1" start canceledFirst).map (·.plan.row.status) = some .canceled ∧
    ((run deployment .empty "p1" start canceledFirst).bind fun s =>
      run deployment .empty "p1" s submittedThen).map (·.plan.row.status) =
      some .pendingApproval := by
  decide +kernel

end Sample

theorem gates_kept_unraced_sample :
    GatesKept PlanApprovals.Sample.deployment .empty "p1" Sample.start Sample.overtaken :=
  gates_kept_unraced PlanApprovals.Sample.deployment .empty
    (emptySystem PlanApprovals.Sample.estate) Sample.caller Sample.request Sample.drafted
    Sample.drafted_created .empty Sample.calls Sample.overtaken Sample.overtaken_unraced

/-- A submission that had read the plan before it was canceled brings it back. -/
theorem submitted_after_canceled :
    ¬ GatesKept PlanApprovals.Sample.deployment .empty "p1" Sample.start
      (Sample.canceledFirst ++ Sample.submittedThen) := by
  intro h
  obtain ⟨hcanceled,hsubmitted⟩ := Sample.canceled_then_submitted
  obtain ⟨s₁,hs₁,hstatus₁⟩ := Option.map_eq_some_iff.mp hcanceled
  rw [hs₁, Option.bind_some] at hsubmitted
  obtain ⟨s₂,hs₂,hstatus₂⟩ := Option.map_eq_some_iff.mp hsubmitted
  have hsame := h.terminal Sample.canceledFirst Sample.submittedThen s₁ s₂ rfl hs₁ hs₂
    (by rw [hstatus₁]; simp [terminalStatuses])
  rw [hstatus₁, hstatus₂] at hsame
  cases hsame

end Adg.PlanRaces
