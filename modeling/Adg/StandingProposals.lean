import Adg.BaselineVerification
import Adg.CampaignRecord

/-!
# Proposals that stand

A proposal is recorded against the current decision on its item, which is no
certification. Nothing withdraws a proposal, so it stands from then on, and the
item can be answered again.
-/

set_option autoImplicit false

namespace Adg.StandingProposals
open Adg.AuditChain Adg.ReviewGeneration Adg.ReviewCampaigns Adg.ReviewCalls Adg.ReviewRecords
open Adg.CampaignRecord Adg.Transactions

/-! ### What a call leaves alone -/

section Frames
variable {δ : Type} {part : Store → δ} {casefold sha256 : String → String} {actor : Actor}
  {now : UtcMoment} {fresh : ℕ → Uuid} {campaignId itemId : Uuid} {item : ReviewItem}

theorem getCampaign_leaves : Leaves part (getCampaign campaignId) :=
  leaves_bind (leaves_read _) fun _ => leaves_found _ _

theorem getItem_leaves : Leaves part (getItem itemId) :=
  leaves_bind (leaves_read _) fun _ => leaves_found _ _

theorem currentDecision_leaves : Leaves part (currentDecision itemId) :=
  leaves_bind (leaves_read _) fun _ => leaves_bind (leaves_require _ _) fun _ => trivial

theorem assignmentFor_leaves : Leaves part (assignmentFor item actor) := by
  apply leaves_bind (leaves_found _ _)
  intro assignmentId
  apply leaves_bind (leaves_read _)
  intro row
  apply leaves_bind (leaves_found _ _)
  intro assignment
  apply leaves_bind (leaves_require _ _)
  intro hsubject
  exact leaves_bind (leaves_require _ _) fun _ => trivial

theorem appendNotice_leaves {eventId : Uuid} {n : Notice}
    (hevents : ∀ (db : Store) events, part { db with events := events } = part db) :
    Leaves part (appendNotice sha256 actor campaignId eventId now n) :=
  leaves_bind (leaves_lock _ _) fun _ => leaves_insert fun _ => hevents _ _

end Frames

/-- The answers and the proposals. -/
def answersOf (db : Store) : List ReviewDecision × List RemediationProposal :=
  (db.decisions,db.proposals)

/-- A call that neither answers nor proposes. -/
def Quiet : Request → Prop
  | .decide .. | .bulkDecide .. | .proposeRemediation .. => False
  | _ => True

section Calls
variable {casefold sha256 : String → String} {actor : Actor} {now : UtcMoment} {fresh : ℕ → Uuid}

theorem transition_leaves {campaignId : Uuid} {status : CampaignStatus}
    {payload : List (String × CanonicalJson.Json)} :
    Leaves answersOf (transition sha256 actor campaignId status payload now fresh) := by
  apply leaves_bind
  · exact leaves_change fun _ _ => rfl
  intro moved
  exact leaves_bind (appendNotice_leaves fun _ _ => rfl) fun _ => trivial

theorem createCampaign_leaves {draft : CampaignDraft} :
    Leaves answersOf (createCampaign sha256 actor draft now fresh) := by
  apply leaves_bind (leaves_ofExcept _)
  intro campaign
  apply leaves_bind
  · exact leaves_insert fun _ => rfl
  intro inserted
  exact leaves_bind (appendNotice_leaves fun _ _ => rfl) fun _ => trivial

theorem generate_leaves {campaignId : Uuid} {versions : VersionTable.Table} :
    Leaves answersOf (generate casefold sha256 actor campaignId versions now fresh) := by
  apply leaves_bind getCampaign_leaves
  intro campaign
  apply leaves_bind (leaves_require _ _)
  intro hdraft
  apply leaves_bind (leaves_ofExcept _)
  intro result
  apply leaves_bind
  · exact leaves_change fun _ _ => rfl
  intro cleared
  apply leaves_bind
  · exact leaves_insert fun _ => rfl
  intro inserted
  apply leaves_bind
  · exact leaves_change fun _ _ => rfl
  intro recorded
  exact leaves_bind (appendNotice_leaves fun _ _ => rfl) fun _ => trivial

theorem activate_leaves {campaignId : Uuid} :
    Leaves answersOf (activate sha256 actor campaignId now fresh) := by
  apply leaves_bind getCampaign_leaves
  intro campaign
  apply leaves_bind (leaves_ofExcept _)
  intro allowed
  apply leaves_bind (leaves_require _ _)
  intro generated
  exact leaves_bind (leaves_require _ _) fun _ => transition_leaves

theorem close_leaves {campaignId : Uuid} :
    Leaves answersOf (close sha256 actor campaignId now fresh) := by
  apply leaves_bind getCampaign_leaves
  intro campaign
  apply leaves_bind (leaves_ofExcept _)
  intro allowed
  exact leaves_bind (leaves_read _) fun _ => transition_leaves

theorem cancel_leaves {campaignId : Uuid} {reason : Option String} :
    Leaves answersOf (cancel sha256 actor campaignId reason now fresh) := by
  apply leaves_bind getCampaign_leaves
  intro campaign
  apply leaves_bind (leaves_ofExcept _)
  intro allowed
  exact leaves_bind (leaves_ofExcept _) fun _ => transition_leaves

theorem attachItems_leaves {a : ReviewAssignment} : Leaves answersOf (attachItems casefold a) := by
  constructor
  · intro rows db b db' h
    cases h
    rfl
  · intro b
    trivial

theorem assign_leaves {campaignId : Uuid} {reviewer : Reviewer} :
    Leaves answersOf (assign casefold sha256 actor campaignId reviewer now fresh) := by
  apply leaves_bind getCampaign_leaves
  intro campaign
  apply leaves_bind (leaves_ofExcept _)
  intro assignment
  apply leaves_bind
  · exact leaves_insert fun _ => rfl
  intro inserted
  apply leaves_bind attachItems_leaves
  intro attached
  exact leaves_bind (appendNotice_leaves fun _ _ => rfl) fun _ => trivial

theorem revokeAssignment_leaves {campaignId assignmentId : Uuid} :
    Leaves answersOf (revokeAssignment sha256 actor campaignId assignmentId now fresh) := by
  apply leaves_bind (leaves_read _)
  intro row
  apply leaves_bind (leaves_found _ _)
  intro assignment
  apply leaves_bind (leaves_require _ _)
  intro active
  apply leaves_bind
  · exact leaves_change fun _ _ => rfl
  intro revoked
  exact leaves_bind (appendNotice_leaves fun _ _ => rfl) fun _ => trivial

/-- A quiet call changes no answer and no proposal. -/
theorem quiet_leaves {c : ServiceCall} (hquiet : Quiet c.request) :
    Leaves answersOf (program casefold sha256 c) := by
  obtain ⟨actor,now,fresh,request⟩ := c
  cases request with
  | createCampaign draft => exact createCampaign_leaves
  | generate campaignId versions => exact generate_leaves
  | activate campaignId => exact activate_leaves
  | close campaignId => exact close_leaves
  | cancel campaignId reason => exact cancel_leaves
  | assign campaignId reviewer => exact assign_leaves
  | revokeAssignment campaignId assignmentId => exact revokeAssignment_leaves
  | decide itemId decision rationale => cases hquiet
  | bulkDecide campaignId itemIds decision rationale drifts => cases hquiet
  | proposeRemediation itemId action details => cases hquiet

theorem answer_leaves {item : ReviewItem} {previous : Option ReviewDecision}
    {record : ReviewDecision} : Leaves Store.proposals (answer item previous record now) := by
  have hsuperseded : Leaves Store.proposals (supersedePrevious previous record now) := by
    cases previous with
    | none => trivial
    | some p => exact leaves_change fun _ _ => rfl
  apply leaves_bind hsuperseded
  intro superseded
  apply leaves_bind
  · exact leaves_insert fun _ => rfl
  intro inserted
  exact leaves_change fun _ _ => rfl

theorem decide_leaves {itemId : Uuid} {decision : DecisionKind} {rationale : Option String} :
    Leaves Store.proposals (decide sha256 actor itemId decision rationale now fresh) := by
  apply leaves_bind getItem_leaves
  intro item
  apply leaves_bind getCampaign_leaves
  intro campaign
  apply leaves_bind (leaves_require _ _)
  intro active
  apply leaves_bind assignmentFor_leaves
  intro assignment
  apply leaves_bind (leaves_ofExcept _)
  intro cleaned
  apply leaves_bind currentDecision_leaves
  intro previous
  apply leaves_bind answer_leaves
  intro answered
  have hsuperseded : ∀ record eventId, Leaves Store.proposals
      (appendSuperseded sha256 actor item previous record now eventId) := by
    intro record eventId
    cases previous with
    | none => trivial
    | some p => exact appendNotice_leaves fun _ _ => rfl
  apply leaves_bind (hsuperseded _ _)
  intro superseded
  exact leaves_bind (appendNotice_leaves fun _ _ => rfl) fun _ => trivial

theorem answerEach_leaves {campaign : ReviewCampaign} {decision : DecisionKind}
    {rationale : Option String} {size : ℕ} (items : List ReviewItem) (n : ℕ) :
    Leaves Store.proposals
      (answerEach sha256 actor campaign decision rationale size now fresh n items) := by
  induction items generalizing n with
  | nil => trivial
  | cons item rest ih =>
    apply leaves_bind assignmentFor_leaves
    intro assignment
    apply leaves_bind answer_leaves
    intro answered
    apply leaves_bind (appendNotice_leaves fun _ _ => rfl)
    intro appended
    exact leaves_bind (ih (n+1)) fun _ => trivial

theorem bulkDecide_leaves {campaignId : Uuid} {itemIds : List Uuid} {decision : DecisionKind}
    {rationale : Option String} {drifts : ReviewItem → Bool} :
    Leaves Store.proposals
      (bulkDecide sha256 actor campaignId itemIds decision rationale drifts now fresh) := by
  apply leaves_bind getCampaign_leaves
  intro campaign
  apply leaves_bind (leaves_require _ _)
  intro active
  apply leaves_bind (leaves_require _ _)
  intro asked
  apply leaves_bind (leaves_require _ _)
  intro few
  apply leaves_bind (leaves_read _)
  intro items
  apply leaves_bind (leaves_require _ _)
  intro found
  apply leaves_bind (leaves_ofExcept _)
  intro homogeneous
  apply leaves_bind (leaves_require _ _)
  intro undecided
  apply leaves_bind (leaves_require _ _)
  intro unmoved
  apply leaves_bind (leaves_ofExcept _)
  intro cleaned
  exact leaves_bind (answerEach_leaves items 0) fun _ => trivial

end Calls

/-! ### The rule and what keeps it -/

/-- A proposal that stands cites the current decision on its item, which is no
certification. -/
def Settled (db : Store) : Prop :=
  ∀ p ∈ db.proposals, p.status = .proposed →
    ∃ d, currentDecisions p.itemId db = [d] ∧ d.decision ≠ .certify ∧
      p.decisionId = some d.decisionId

/-- A call that answers an item for which a proposal stands, by someone who may. -/
def Reanswers (c : ServiceCall) (db : Store) : Prop :=
  match c.request with
  | .decide itemId decision rationale =>
    (∃ p ∈ db.proposals, p.status = .proposed ∧ p.itemId = itemId) ∧
      ∃ campaignId, Entitled db c.actor.subject itemId campaignId ∧
        ∃ campaign cleaned, campaignRow campaignId db = some campaign ∧
          validateRationale decision rationale campaign.commentRequirement = .ok cleaned
  | _ => False

section Steps
variable {casefold sha256 : String → String} {subject : String} {db db' : Store}

theorem Settled.of_same (h : Settled db) (hdecisions : db'.decisions = db.decisions)
    (hproposals : db'.proposals = db.proposals) : Settled db' := by
  intro p hp hstands
  rw [hproposals] at hp
  obtain ⟨d,hcurrent,hd⟩ := h p hp hstands
  refine ⟨d,?_,hd⟩
  rw [← hcurrent]
  unfold currentDecisions
  rw [hdecisions]

/-- An answer changes the current decision on its own item only. -/
theorem answers_current {item : ReviewItem} {record : ReviewDecision}
    (h : Answers subject item record db db') (hkept : WellKept db) {itemId : Uuid}
    (hother : itemId ≠ item.itemId) :
    currentDecisions itemId db' = currentDecisions itemId db := by
  obtain ⟨moment,hdecisions⟩ := h.decisions
  rw [currentDecisions_eq hkept, currentDecisions_eq (answers_kept h hkept),
    answers_decisionsOn h hdecisions, if_neg hother]

theorem answersAll_current {items : List ReviewItem} (h : AnswersAll subject items db db')
    (hkept : WellKept db) {itemId : Uuid} (hother : ∀ i ∈ items, itemId ≠ i.itemId) :
    currentDecisions itemId db' = currentDecisions itemId db := by
  induction h with
  | none db => rfl
  | next first others ih =>
    rw [ih (answers_kept first hkept) fun i hi => hother i (List.mem_cons_of_mem _ hi)]
    exact answers_current first hkept (hother _ List.mem_cons_self)

/-- Answers to items for which no proposal stands leave the others settled. -/
theorem Settled.answered {items : List ReviewItem} (h : Settled db) (hkept : WellKept db)
    (hanswers : AnswersAll subject items db db') (hproposals : db'.proposals = db.proposals)
    (hfree : ∀ p ∈ db.proposals, p.status = .proposed → ∀ i ∈ items, p.itemId ≠ i.itemId) :
    Settled db' := by
  intro p hp hstands
  rw [hproposals] at hp
  obtain ⟨d,hcurrent,hd⟩ := h p hp hstands
  refine ⟨d,?_,hd⟩
  rw [answersAll_current hanswers hkept (hfree p hp hstands)]
  exact hcurrent

/-- An item for which a proposal stands has been decided. -/
theorem Settled.decided (h : Settled db) (hkept : WellKept db) {p : RemediationProposal}
    (hp : p ∈ db.proposals) (hstands : p.status = .proposed) {i : ReviewItem} (hi : i ∈ db.items)
    (hitem : p.itemId = i.itemId) : i.status = .decided := by
  obtain ⟨d,hcurrent,-⟩ := h p hp hstands
  rw [(item_inOrder hkept hi).decided, ← hitem, hcurrent]
  exact List.cons_ne_nil d []

/-- A proposal that is recorded stands as it should. -/
theorem Settled.proposed (h : Settled db) {p : RemediationProposal} {current : ReviewDecision}
    (hone : (currentDecisions p.itemId db).length ≤ 1)
    (hcurrent : (currentDecisions p.itemId db).head? = some current)
    (hcertify : current.decision ≠ .certify) (hcites : p.decisionId = some current.decisionId)
    (hdecisions : db'.decisions = db.decisions) (hproposals : db'.proposals = db.proposals ++ [p]) :
    Settled db' := by
  have hcurrent' : currentDecisions p.itemId db = [current] := by
    cases hrows : currentDecisions p.itemId db with
    | nil =>
      rw [hrows] at hcurrent
      cases hcurrent
    | cons d rest =>
      rw [hrows] at hcurrent hone
      rw [Option.some.inj hcurrent, List.length_eq_zero_iff.mp (Nat.le_zero.mp
        (Nat.le_of_succ_le_succ hone))]
  have hsame : ∀ itemId, currentDecisions itemId db' = currentDecisions itemId db := by
    intro itemId
    unfold currentDecisions
    rw [hdecisions]
  intro q hq hstands
  rw [hproposals] at hq
  rcases List.mem_append.mp hq with hq | hq
  · obtain ⟨d,hd,hrest⟩ := h q hq hstands
    exact ⟨d,(hsame _).trans hd,hrest⟩
  · obtain rfl := List.mem_singleton.mp hq
    exact ⟨current,(hsame _).trans hcurrent',hcertify,hcites⟩

/-- A call that answers no item for which a proposal stands keeps the proposals settled. -/
theorem settled_serve (h : Settled db) (hkept : WellKept db) {c : ServiceCall}
    (hfirst : ¬ Reanswers c db) : Settled (serve casefold sha256 c db).2 := by
  unfold serve
  cases hbody : (program casefold sha256 c).alone db with
  | error e =>
    rw [perform_of_refused hbody]
    exact h
  | ok r =>
    rw [perform_of_committed hbody]
    obtain ⟨reply,db'⟩ := r
    have hquiet : Quiet c.request → answersOf db' = answersOf db :=
      fun hquiet => leaves_alone (quiet_leaves hquiet) hbody
    obtain ⟨actor,now,fresh,request⟩ := c
    cases request with
    | decide itemId decision rationale =>
      have hproposals : db'.proposals = db.proposals := leaves_alone decide_leaves hbody
      obtain ⟨item,record,campaign,cleaned,rfl,hanswers,hcampaign,hreason,-⟩ :=
        decide_answers hkept hbody
      refine h.answered hkept (.next hanswers (.none _)) hproposals ?_
      intro p hp hstands i hi hsame
      rw [List.mem_singleton.mp hi] at hsame
      exact hfirst ⟨⟨p,hp,hstands,hsame⟩,_,hanswers.entitled,campaign,cleaned,hcampaign,hreason⟩
    | bulkDecide campaignId itemIds decision rationale drifts =>
      have hproposals : db'.proposals = db.proposals := leaves_alone bulkDecide_leaves hbody
      obtain ⟨items,hanswers,hundecided,-⟩ := bulkDecide_answers hkept hbody
      refine h.answered hkept hanswers hproposals ?_
      intro p hp hstands i hi hsame
      obtain ⟨hmem,hpending⟩ := hundecided i hi
      exact hpending (h.decided hkept hp hstands hmem hsame)
    | proposeRemediation itemId action details =>
      obtain ⟨p,current,e,hone,hcurrent,hcertify,hcites,-,rfl,-⟩ :=
        proposeRemediation_proposes hbody
      exact h.proposed hone hcurrent hcertify hcites rfl rfl
    | createCampaign _ | generate _ _ | activate _ | close _ | cancel _ _ | assign _ _
    | revokeAssignment _ _ =>
      obtain ⟨hdecisions,hproposals⟩ := Prod.mk.inj (hquiet trivial)
      exact h.of_same hdecisions hproposals

end Steps

/-- Over every run in which no item is answered again while a proposal stands for it,
every proposal that stands cites the current decision on its item, which is no
certification. -/
theorem proposals_settled (casefold sha256 : String → String) (calls : List ServiceCall)
    (hfirst : ∀ earlier c later, calls = earlier ++ c :: later →
      ¬ Reanswers c (afterAll casefold sha256 earlier)) :
    ∀ earlier later, calls = earlier ++ later → Settled (afterAll casefold sha256 earlier) := by
  intro earlier
  induction earlier using List.reverseRecOn with
  | nil =>
    intro later hcalls p hp
    cases hp
  | append_singleton earlier c ih =>
    intro later hcalls
    rw [List.append_assoc] at hcalls
    rw [afterAll_snoc]
    exact settled_serve (ih _ hcalls) (kept_afterAll casefold sha256 earlier)
      (hfirst earlier c later hcalls)

namespace Sample
open Adg.BaselineVerification.Sample

theorem noon_calendar : 2026 < 10^4 ∧ 3 < 10^2 ∧ 1 < 10^2 := by decide

theorem noon_clock : 12 < 10^2 ∧ 0 < 10^2 ∧ 0 < 10^2 ∧ 0 < 10^6 := by decide

def noon : UtcMoment := ⟨2026,3,1,12,0,0,0,noon_calendar,noon_clock⟩

/-- A call by someone, who gives the identities a name. -/
def call (subject name : String) (request : Request) : ServiceCall where
  actor := { subject := subject }
  now := noon
  fresh := fun n => name ++ String.ofList (List.replicate n '+')
  request := request

def quarter : CampaignDraft where
  name := "Q1"
  focus := .resource
  scopes := [⟨.share,"fs01|data",share_keyed⟩]
  baselineAt := noon

/-- A campaign that is open, with all its items asked of one reviewer. -/
def opening : List ServiceCall :=
  [call "admin" "c" (.createCampaign quarter),
    call "admin" "i" (.generate "c" start),
    call "admin" "a" (.activate "c"),
    call "admin" "r" (.assign "c" { subject := "alice" })]

/-- A revocation, and the change that should follow from it. -/
def proposing : List ServiceCall :=
  [call "alice" "d1" (.decide "i" .revoke (some "left the team")),
    call "alice" "p1" (.proposeRemediation "i" .removeAce [])]

/-- A change of mind. -/
def certifying : List ServiceCall :=
  [call "alice" "d2" (.decide "i" .certify none)]

/-- Another item is answered while the proposal stands. -/
def steady : List ServiceCall :=
  opening ++ proposing ++ [call "alice" "d3" (.decide "i+" .certify none)]

def after (calls : List ServiceCall) : Store := afterAll id (fun _ => "") calls

def asksAgain (c : ServiceCall) (db : Store) : Bool :=
  match c.request with
  | .decide itemId _ _ => db.proposals.any fun p => p.status = .proposed && p.itemId = itemId
  | _ => false

end Sample

/-- In a run that answers an item, proposes for it and answers the other one, no item is
answered again. -/
theorem steady_first : ∀ earlier c later, Sample.steady = earlier ++ c :: later →
    ¬ Reanswers c (Sample.after earlier) := by
  intro earlier c later hcalls hagain
  have hnone : ∀ n < Sample.steady.length, (Sample.steady[n]?.any fun c =>
      Sample.asksAgain c (Sample.after (Sample.steady.take n))) = false := by decide +kernel
  have hlength : earlier.length < Sample.steady.length := by
    rw [hcalls, List.length_append, List.length_cons]
    omega
  have hasks := hnone earlier.length hlength
  rw [hcalls, List.getElem?_append_right (le_refl _), Nat.sub_self, List.getElem?_cons_zero,
    List.take_left, Option.any_some] at hasks
  obtain ⟨actor,now,fresh,request⟩ := c
  cases request with
  | decide itemId decision rationale =>
    obtain ⟨⟨p,hp,hstands,hitem⟩,-⟩ := hagain
    refine absurd hasks (ne_false_of_eq_true ?_)
    exact List.any_eq_true.mpr ⟨p,hp,by simp [hstands, hitem]⟩
  | createCampaign _ | generate _ _ | activate _ | close _ | cancel _ _ | assign _ _
  | revokeAssignment _ _ | bulkDecide _ _ _ _ _ | proposeRemediation _ _ _ => exact hagain

theorem proposals_settled_sample : Settled (Sample.after Sample.steady) :=
  proposals_settled id (fun _ => "") Sample.steady steady_first Sample.steady []
    (List.append_nil _).symm

/-- The reviewer changes their mind, and the proposal stands against a certification. -/
theorem certified_under_proposal :
    ¬ ∀ calls : List ServiceCall, Settled (Sample.after calls) := by
  intro h
  have hcheck : (Sample.after (Sample.opening ++ Sample.proposing ++ Sample.certifying)).proposals.any
      (fun p => p.status = .proposed && (currentDecisions p.itemId
        (Sample.after (Sample.opening ++ Sample.proposing ++ Sample.certifying))).any
          (·.decision = .certify)) = true := by
    decide +kernel
  obtain ⟨p,hp,hcheck⟩ := List.any_eq_true.mp hcheck
  rw [Bool.and_eq_true, decide_eq_true_eq, List.any_eq_true] at hcheck
  obtain ⟨hstands,d,hd,hcertify⟩ := hcheck
  obtain ⟨x,hcurrent,hx,-⟩ := h _ p hp hstands
  rw [hcurrent] at hd
  rw [List.mem_singleton.mp hd] at hcertify
  exact hx (of_decide_eq_true hcertify)

end Adg.StandingProposals
