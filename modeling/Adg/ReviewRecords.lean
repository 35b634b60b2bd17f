import Adg.HistorySteps
import Adg.ReviewCalls

/-!
# The record that the calls keep

The decisions on an item supersede one another in the order in which they were
recorded, and the trail holds one event for each. What a call that was not
refused did to the tables is said once, by kind of call; that each kind keeps
the record in order, and no other, is all a run needs.
-/

set_option autoImplicit false

namespace Adg.ReviewRecords
open Adg.AuditChain Adg.CanonicalJson Adg.LinkedRows Adg.ReviewGeneration Adg.ReviewCampaigns
open Adg.ReviewCalls Adg.SortedLists Adg.Transactions

/-- Decisions that supersede one another: each names the one before it and the
one after it, and the last is the current one. -/
def Superseding : Option Uuid → List ReviewDecision → Prop
  | _, [] => True
  | p, d :: rest =>
    d.supersedesDecisionId = p ∧ d.supersededByDecisionId = rest.head?.map (·.decisionId) ∧
      (d.isCurrent = true ↔ rest = []) ∧ Superseding (some d.decisionId) rest

/-- A decision as it is once another supersedes it. -/
def superseded (moment : UtcMoment) (successor : Uuid) (d : ReviewDecision) : ReviewDecision :=
  { d with supersededAt := some moment, supersededByDecisionId := some successor }

section Superseding
variable {p : Option Uuid} {l : List ReviewDecision} {r : ReviewDecision}

theorem Superseding.linked (h : Superseding p l) :
    Linked (·.decisionId) (·.supersedesDecisionId) p l := by
  induction l generalizing p with
  | nil => trivial
  | cons d rest ih => exact ⟨h.1,ih h.2.2.2⟩

theorem Superseding.current (h : Superseding p l) :
    l.filter (·.isCurrent) = l.getLast?.toList := by
  induction l generalizing p with
  | nil => rfl
  | cons d rest ih =>
    cases rest with
    | nil =>
      rw [List.filter_cons_of_pos (h.2.2.1.mpr rfl)]
      rfl
    | cons e rest =>
      have hd : ¬ d.isCurrent = true := fun hc => nomatch h.2.2.1.mp hc
      rw [List.filter_cons_of_neg hd, ih h.2.2.2, List.getLast?_cons_cons]

/-- A decision that follows the last one, once that is superseded by it. -/
theorem Superseding.extend {moment : UtcMoment} (h : Superseding p l)
    {g : ReviewDecision → ReviewDecision}
    (hg : ∀ d ∈ l, g d = if d.isCurrent then superseded moment r.decisionId d else d)
    (hfollows : r.supersedesDecisionId = (l.getLast?.map (·.decisionId)).or p)
    (hcurrent : r.isCurrent = true) (hlast : r.supersededByDecisionId = none) :
    Superseding p (l.map g ++ [r]) := by
  induction l generalizing p with
  | nil => exact ⟨hfollows,hlast,by simp [hcurrent],trivial⟩
  | cons d rest ih =>
    have hd := hg d List.mem_cons_self
    have htail := ih h.2.2.2 (fun e he => hg e (List.mem_cons_of_mem d he))
    cases rest with
    | nil =>
      rw [if_pos (h.2.2.1.mpr rfl)] at hd
      have hr : Superseding (some d.decisionId) [r] := htail (by simpa using hfollows)
      rw [List.map_cons, hd]
      have hsettled : (superseded moment r.decisionId d).isCurrent = true ↔ [r] = [] := by
        constructor
        · intro hc
          exact nomatch hc
        · intro hc
          exact nomatch hc
      exact ⟨h.1,rfl,hsettled,hr⟩
    | cons e rest =>
      have hold : ¬ d.isCurrent = true := fun hc => nomatch h.2.2.1.mp hc
      rw [if_neg hold] at hd
      have hr := htail (by
        rw [hfollows, List.getLast?_cons_cons, List.getLast?_cons]
        rfl)
      have he : (g e).decisionId = e.decisionId := by
        rw [hg e (by simp)]
        split <;> rfl
      rw [List.map_cons, hd]
      have hnext : d.supersededByDecisionId =
          (((e :: rest).map g ++ [r]).head?).map (·.decisionId) := by
        rw [h.2.1]
        simp [he]
      have hsettled : d.isCurrent = true ↔ (e :: rest).map g ++ [r] = [] := by
        simp [hold]
      exact ⟨h.1,hnext,hsettled,hr⟩

end Superseding

/-! ### The tables in order -/

/-- The decisions on an item, in the order in which they were recorded. -/
def decisionsOn (itemId : Uuid) (db : Store) : List ReviewDecision :=
  db.decisions.filter (·.itemId = itemId)

/-- The events that record decisions. -/
def recordings (db : Store) : List GovernanceEvent :=
  db.events.filter (·.eventType = .decisionRecorded)

/-- An event records a decision, with the evidence of its item. -/
def Records (items : List ReviewItem) (e : GovernanceEvent) (d : ReviewDecision) : Prop :=
  e.decisionId = some d.decisionId ∧ e.itemId = some d.itemId ∧
    ∀ i ∈ items, i.itemId = d.itemId →
      e.payload.lookup "evidence_digest" = some (.text i.frozen.digest)

structure WellKept (db : Store) : Prop where
  campaignIds : (db.campaigns.map (·.campaignId)).Nodup
  itemIds : (db.items.map (·.itemId)).Nodup
  decisionIds : (db.decisions.map (·.decisionId)).Nodup
  placed : ∀ d ∈ db.decisions, ∃ i ∈ db.items, i.itemId = d.itemId ∧ i.campaignId = d.campaignId
  opened : ∀ d ∈ db.decisions, ∃ c ∈ db.campaigns,
    c.campaignId = d.campaignId ∧ c.status ≠ .draft
  chains : ∀ itemId, Superseding none (decisionsOn itemId db)
  pointed : ∀ i ∈ db.items,
    i.currentDecisionId = (decisionsOn i.itemId db).getLast?.map (·.decisionId)
  answered : ∀ i ∈ db.items, i.status = .decided ↔ i.currentDecisionId ≠ none
  trail : List.Forall₂ (Records db.items) (recordings db) db.decisions

theorem blank_kept : WellKept Store.blank where
  campaignIds := List.nodup_nil
  itemIds := List.nodup_nil
  decisionIds := List.nodup_nil
  placed := fun _ h => nomatch h
  opened := fun _ h => nomatch h
  chains := fun _ => trivial
  pointed := fun _ h => nomatch h
  answered := fun _ h => nomatch h
  trail := .nil

/-! ### What a call does -/

/-- Who may answer an item, and that its campaign is open for answers. -/
structure Entitled (db : Store) (subject : String) (itemId campaignId : Uuid) : Prop where
  asked : ∃ item ∈ db.items, item.itemId = itemId ∧ item.campaignId = campaignId ∧
    ∃ id a, item.assignmentId = some id ∧ assignmentRow id db = some a ∧ a.isActive = true ∧
      a.reviewerSubject = subject
  accepting : ∃ c ∈ db.campaigns, c.campaignId = campaignId ∧ c.status = .active

/-- One answer: the current decision on its item, if there is one, is superseded
by it, and the item and the trail name it. -/
structure Answers (subject : String) (item : ReviewItem) (record : ReviewDecision)
    (db db' : Store) : Prop where
  mem : item ∈ db.items
  onItem : record.itemId = item.itemId
  onCampaign : record.campaignId = item.campaignId
  bySubject : record.decidedBySubject = subject
  current : record.isCurrent = true
  last : record.supersededByDecisionId = none
  entitled : Entitled db subject item.itemId item.campaignId
  fresh : ∀ x ∈ db.decisions, x.decisionId ≠ record.decisionId
  follows : record.supersedesDecisionId =
    (currentDecisions item.itemId db).head?.map (·.decisionId)
  decisions : ∃ moment, db'.decisions = db.decisions.map (fun d =>
    if d.itemId = item.itemId ∧ d.isCurrent = true then superseded moment record.decisionId d
    else d) ++ [record]
  items : ∃ moment, db'.items = db.items.map (decidedRow item.itemId record.decisionId moment)
  campaigns : db'.campaigns = db.campaigns
  assignments : db'.assignments = db.assignments
  events : ∃ before e, db'.events = db.events ++ before ++ [e] ∧
    (∀ x ∈ before, x.eventType ≠ .decisionRecorded) ∧ e.eventType = .decisionRecorded ∧
    e.decisionId = some record.decisionId ∧ e.itemId = some item.itemId ∧
    e.payload.lookup "evidence_digest" = some (.text item.frozen.digest)

/-- Answers to some items, one after the other. -/
inductive AnswersAll (subject : String) : List ReviewItem → Store → Store → Prop where
  | none (db : Store) : AnswersAll subject [] db db
  | next {item : ReviewItem} {rest : List ReviewItem} {record : ReviewDecision}
      {db mid db' : Store} (first : Answers subject item record db mid)
      (others : AnswersAll subject rest mid db') : AnswersAll subject (item :: rest) db db'

/-- What a call that was not refused did to the tables. -/
inductive Effect (subject : String) (db db' : Store) : Prop where
  | created (campaign : ReviewCampaign) (e : GovernanceEvent) (hdraft : campaign.status = .draft)
      (hfresh : ∀ x ∈ db.campaigns, x.campaignId ≠ campaign.campaignId)
      (hquiet : e.eventType ≠ .decisionRecorded)
      (h : db' = { db with
        campaigns := db.campaigns ++ [campaign]
        events := db.events ++ [e] })
  | generated (campaignId : Uuid) (rows : List ReviewItem)
      (f : ReviewCampaign → ReviewCampaign) (e : GovernanceEvent)
      (hdraft : ∀ x ∈ db.campaigns, x.campaignId = campaignId → x.status = .draft)
      (hrows : ∀ i ∈ rows, i.campaignId = campaignId ∧ i.status = .pending ∧
        i.currentDecisionId = none)
      (hnodup : (rows.map (·.itemId)).Nodup)
      (hnew : ∀ i ∈ db.items, i.campaignId ≠ campaignId → i.itemId ∉ rows.map (·.itemId))
      (hf : ∀ x, (f x).campaignId = x.campaignId ∧ (f x).status = x.status)
      (hquiet : e.eventType ≠ .decisionRecorded)
      (h : db' = { db with
        campaigns := db.campaigns.map f
        items := db.items.filter (·.campaignId ≠ campaignId) ++ rows
        events := db.events ++ [e] })
  | moved (campaignId : Uuid) (status : CampaignStatus) (f : ReviewCampaign → ReviewCampaign)
      (e : GovernanceEvent)
      (hallowed : ∃ x ∈ db.campaigns, x.campaignId = campaignId ∧
        status ∈ campaignTransitions x.status)
      (hf : ∀ x, (f x).campaignId = x.campaignId ∧ (f x).status = status)
      (hquiet : e.eventType ≠ .decisionRecorded)
      (h : db' = { db with
        campaigns := db.campaigns.map fun x => if x.campaignId = campaignId then f x else x
        events := db.events ++ [e] })
  | assigned (a : ReviewAssignment) (g : ReviewItem → ReviewItem) (e : GovernanceEvent)
      (hg : ∀ i, g i = i ∨ g i = { i with assignmentId := some a.assignmentId })
      (hquiet : e.eventType ≠ .decisionRecorded)
      (h : db' = { db with
        assignments := db.assignments ++ [a]
        items := db.items.map g
        events := db.events ++ [e] })
  | revoked (g : ReviewAssignment → ReviewAssignment) (e : GovernanceEvent)
      (hg : ∀ a, (g a).assignmentId = a.assignmentId)
      (hquiet : e.eventType ≠ .decisionRecorded)
      (h : db' = { db with
        assignments := db.assignments.map g
        events := db.events ++ [e] })
  | answered (items : List ReviewItem) (h : AnswersAll subject items db db')
  | proposed (p : RemediationProposal) (e : GovernanceEvent)
      (hquiet : e.eventType ≠ .decisionRecorded)
      (h : db' = { db with
        proposals := db.proposals ++ [p]
        events := db.events ++ [e] })

/-- A call that was committed had its effect, and answers what it read back. -/
def Served (subject : String) (db db' : Store) (reply : Reply) : Prop :=
  Effect subject db db' ∧ ∃ a, reply db' = .ok a

/-! ### What the parts of a call did -/

/-- An event says what a notice says. -/
def Says (n : Notice) (e : GovernanceEvent) : Prop :=
  e.eventType = n.eventType ∧ e.itemId = n.itemId ∧ e.decisionId = n.decisionId ∧
    e.payload = n.payload

section Parts
variable {β : Type} {db : Store} {r : β × Store} {u : Unit → Work β}

theorem append_ok {sha256 : String → String} {actor : Actor} {campaignId eventId : Uuid}
    {now : UtcMoment} {n : Notice}
    (h : (appendNotice sha256 actor campaignId eventId now n >>= u).alone db = .ok r) :
    ∃ e, Says n e ∧ (u ()).alone { db with events := db.events ++ [e] } = .ok r := by
  simp only [appendNotice, bind_assoc, lock_ok, insert_ok] at h
  exact ⟨_,⟨rfl,rfl,rfl,rfl⟩,h.2⟩

theorem getItem_ok {itemId : Uuid} {k : ReviewItem → Work β}
    (h : (getItem itemId >>= k).alone db = .ok r) :
    ∃ item ∈ db.items, item.itemId = itemId ∧ (k item).alone db = .ok r := by
  simp only [getItem, bind_assoc, read_ok, found_ok] at h
  obtain ⟨item,hitem,h⟩ := h
  exact ⟨item,List.mem_of_find?_eq_some hitem,by simpa using List.find?_some hitem,h⟩

theorem campaignRow_some {campaignId : Uuid} {c : ReviewCampaign}
    (h : campaignRow campaignId db = some c) :
    c.campaignId = campaignId ∧ ∃ x ∈ db.campaigns, x.campaignId = campaignId ∧
      x.status = c.status := by
  unfold campaignRow at h
  obtain ⟨x,hx,rfl⟩ := Option.map_eq_some_iff.mp h
  have hid : x.campaignId = campaignId := by simpa using List.find?_some hx
  exact ⟨hid,x,List.mem_of_find?_eq_some hx,hid,rfl⟩

theorem getCampaign_ok {campaignId : Uuid} {k : ReviewCampaign → Work β}
    (h : (getCampaign campaignId >>= k).alone db = .ok r) :
    ∃ c, campaignRow campaignId db = some c ∧ (k c).alone db = .ok r := by
  simp only [getCampaign, bind_assoc, read_ok, found_ok] at h
  exact h

theorem assignmentFor_ok {item : ReviewItem} {actor : Actor} {k : ReviewAssignment → Work β}
    (h : (assignmentFor item actor >>= k).alone db = .ok r) :
    ∃ a id, item.assignmentId = some id ∧ assignmentRow id db = some a ∧ a.isActive = true ∧
      a.reviewerSubject = actor.subject ∧ (k a).alone db = .ok r := by
  simp only [assignmentFor, bind_assoc, pure_bind, read_ok, found_ok, require_ok] at h
  obtain ⟨id,hid,a,ha,hsubject,hactive,h⟩ := h
  exact ⟨a,id,hid,ha,hactive,hsubject,h⟩

theorem currentDecision_ok {itemId : Uuid} {k : Option ReviewDecision → Work β}
    (h : (currentDecision itemId >>= k).alone db = .ok r) :
    (currentDecisions itemId db).length ≤ 1 ∧
      (k (currentDecisions itemId db).head?).alone db = .ok r := by
  simp only [currentDecision, bind_assoc, pure_bind, read_ok, require_ok] at h
  exact h

theorem updateCampaign_ok {campaignId : Uuid} {f : ReviewCampaign → ReviewCampaign}
    {allowed : ReviewCampaign → Bool}
    (h : (updateCampaign campaignId f allowed >>= u).alone db = .ok r) :
    (u ()).alone { db with campaigns := db.campaigns.map fun c =>
      if c.campaignId = campaignId then f c else c } = .ok r := by
  simp only [updateCampaign, change_ok] at h
  exact h.2

/-- The rows that `supersede_decision` finds are those with the identity that are current. -/
theorem supersededRow_eq {decisionId successor : Uuid} {moment : UtcMoment} {d : ReviewDecision}
    (hd : d ∈ db.decisions) :
    supersededRow ((db.decisions.filter fun d => d.decisionId = decisionId && d.isCurrent).map
        fun d => Hold.noKeyUpdate (.decision d.decisionId)) successor moment d =
      if d.decisionId = decisionId ∧ d.isCurrent = true then superseded moment successor d
      else d := by
  unfold supersededRow
  have hiff : (Hold.noKeyUpdate (.decision d.decisionId) ∈
      ((db.decisions.filter fun d => d.decisionId = decisionId && d.isCurrent).map
        fun d => Hold.noKeyUpdate (.decision d.decisionId)) ∧ d.isCurrent = true) ↔
      (d.decisionId = decisionId ∧ d.isCurrent = true) := by
    constructor
    · intro ⟨hrow,hcurrent⟩
      obtain ⟨x,hx,heq⟩ := List.mem_map.mp hrow
      have hx := (List.mem_filter.mp hx).2
      simp only [Bool.and_eq_true, decide_eq_true_eq] at hx
      simp only [Hold.noKeyUpdate.injEq, Row.decision.injEq] at heq
      exact ⟨heq ▸ hx.1,hcurrent⟩
    · intro ⟨hid,hcurrent⟩
      exact ⟨List.mem_map_of_mem (List.mem_filter.mpr ⟨hd,by simp [hid, hcurrent]⟩),hcurrent⟩
  simp only [hiff, superseded]

end Parts

/-! ### What each call did -/

section Effects
variable {casefold sha256 : String → String} {actor : Actor} {now : UtcMoment} {fresh : ℕ → Uuid}
  {db db' : Store} {reply : Reply}

theorem createCampaign_effect {draft : CampaignDraft}
    (h : (createCampaign sha256 actor draft now fresh).alone db = .ok (reply,db')) :
    Served actor.subject db db' reply := by
  simp only [createCampaign, insertCampaign, ofExcept_ok, insert_ok] at h
  obtain ⟨campaign,hcampaign,hfree,h⟩ := h
  obtain ⟨e,hstates,h⟩ := append_ok h
  rw [done_ok] at h
  have hdraft : campaign.status = .draft := by
    obtain ⟨_,-,hcampaign⟩ := Fallible.bind_ok.mp hcampaign
    obtain ⟨_,-,hcampaign⟩ := Fallible.bind_ok.mp hcampaign
    obtain ⟨_,-,hcampaign⟩ := Fallible.bind_ok.mp hcampaign
    obtain ⟨_,-,hcampaign⟩ := Fallible.bind_ok.mp hcampaign
    cases hcampaign
    rfl
  have hfresh : ∀ x ∈ db.campaigns, x.campaignId ≠ campaign.campaignId := by
    intro x hx
    have hall := (Bool.and_eq_true_iff.mp hfree).1
    simpa using List.all_eq_true.mp hall x hx
  have hquiet : e.eventType ≠ .decisionRecorded := by
    rw [hstates.1]
    simp
  obtain ⟨rfl,hdb⟩ := Prod.mk.inj h
  exact ⟨.created campaign e hdraft hfresh hquiet hdb,_,rfl⟩

/-- A row is found by its key after an update that keeps the keys. -/
theorem found_after {α κ : Type} [DecidableEq κ] {key : α → κ} {f : α → α} {l : List α} {k : κ}
    (hf : ∀ a, key (f a) = key a) (h : ∃ a ∈ l, key a = k) :
    ∃ a, (l.map f).find? (fun a => key a = k) = some a := by
  obtain ⟨a,ha,hk⟩ := h
  apply Option.isSome_iff_exists.mp
  apply List.find?_isSome.mpr
  exact ⟨f a,List.mem_map_of_mem ha,by simpa [hf] using hk⟩

theorem refreshed_ok {campaignId : Uuid} {f : ReviewCampaign → ReviewCampaign}
    (hf : ∀ c, (f c).campaignId = c.campaignId) (hmap : db'.campaigns = db.campaigns.map f)
    (h : ∃ c ∈ db.campaigns, c.campaignId = campaignId) :
    ∃ c, refreshed campaignId db' = .ok c := by
  obtain ⟨x,hx⟩ := found_after hf h
  simp only [refreshed, campaignRow, hmap, hx, Option.map_some]
  exact ⟨_,rfl⟩

theorem transitionRow_keeps {status : CampaignStatus} {subject : Option String}
    (c : ReviewCampaign) : (transitionRow status now subject c).campaignId = c.campaignId ∧
      (transitionRow status now subject c).status = status := by
  cases status <;> exact ⟨rfl,rfl⟩

theorem transition_effect {campaignId : Uuid} {status : CampaignStatus}
    {payload : List (String × Json)}
    (hallowed : ∃ x ∈ db.campaigns, x.campaignId = campaignId ∧
      status ∈ campaignTransitions x.status)
    (h : (transition sha256 actor campaignId status payload now fresh).alone db =
      .ok (reply,db')) : Served actor.subject db db' reply := by
  simp only [transition, setCampaignStatus] at h
  have h := updateCampaign_ok h
  obtain ⟨e,hstates,h⟩ := append_ok h
  rw [done_ok] at h
  have hquiet : e.eventType ≠ .decisionRecorded := by
    rw [hstates.1]
    cases status <;> exact fun hc => nomatch hc
  obtain ⟨rfl,hdb⟩ := Prod.mk.inj h
  constructor
  · exact .moved campaignId status _ e hallowed transitionRow_keeps hquiet hdb
  · obtain ⟨x,hx,hid,-⟩ := hallowed
    have hkeeps : ∀ y : ReviewCampaign, (if y.campaignId = campaignId then
        transitionRow status now (if status = .active then none else some actor.subject) y
        else y).campaignId = y.campaignId := by
      intro y
      split
      · exact (transitionRow_keeps y).1
      · rfl
    obtain ⟨c,hc⟩ := refreshed_ok hkeeps (congrArg Store.campaigns hdb) ⟨x,hx,hid⟩
    exact ⟨.campaign c,congrArg (Except.map _) hc⟩

theorem validated {current requested : CampaignStatus} {a : Unit}
    (h : validateTransition current requested = .ok a) :
    requested ∈ campaignTransitions current := by
  unfold validateTransition at h
  split at h
  · assumption
  · exact nomatch h

theorem activate_effect {campaignId : Uuid}
    (h : (activate sha256 actor campaignId now fresh).alone db = .ok (reply,db')) :
    Served actor.subject db db' reply := by
  obtain ⟨c,hc,h⟩ := getCampaign_ok h
  simp only [ofExcept_ok, require_ok] at h
  obtain ⟨_,hvalid,_,_,h⟩ := h
  obtain ⟨-,x,hx,hid,hstatus⟩ := campaignRow_some hc
  exact transition_effect ⟨x,hx,hid,hstatus ▸ validated hvalid⟩ h

theorem close_effect {campaignId : Uuid}
    (h : (close sha256 actor campaignId now fresh).alone db = .ok (reply,db')) :
    Served actor.subject db db' reply := by
  obtain ⟨c,hc,h⟩ := getCampaign_ok h
  simp only [ofExcept_ok, read_ok] at h
  obtain ⟨_,hvalid,h⟩ := h
  obtain ⟨-,x,hx,hid,hstatus⟩ := campaignRow_some hc
  exact transition_effect ⟨x,hx,hid,hstatus ▸ validated hvalid⟩ h

theorem cancel_effect {campaignId : Uuid} {reason : Option String}
    (h : (cancel sha256 actor campaignId reason now fresh).alone db = .ok (reply,db')) :
    Served actor.subject db db' reply := by
  obtain ⟨c,hc,h⟩ := getCampaign_ok h
  simp only [ofExcept_ok] at h
  obtain ⟨_,hvalid,_,_,h⟩ := h
  obtain ⟨-,x,hx,hid,hstatus⟩ := campaignRow_some hc
  exact transition_effect ⟨x,hx,hid,hstatus ▸ validated hvalid⟩ h

theorem assign_effect {campaignId : Uuid} {reviewer : Reviewer}
    (h : (assign casefold sha256 actor campaignId reviewer now fresh).alone db =
      .ok (reply,db')) : Served actor.subject db db' reply := by
  obtain ⟨c,-,h⟩ := getCampaign_ok h
  simp only [insertAssignment, attachItems, ofExcept_ok, insert_ok] at h
  obtain ⟨a,-,-,h⟩ := h
  obtain ⟨n,mid,hattach,h⟩ := (bind_ok _).mp h
  obtain ⟨e,hstates,h⟩ := append_ok h
  rw [done_ok] at h
  simp only [Program.run, Program.alone, Except.ok.injEq, Prod.mk.injEq] at hattach
  obtain ⟨-,rfl⟩ := hattach
  have hquiet : e.eventType ≠ .decisionRecorded := by
    rw [hstates.1]
    simp
  obtain ⟨rfl,hdb⟩ := Prod.mk.inj h
  refine ⟨.assigned a _ e (fun i => ?_) hquiet hdb,_,rfl⟩
  unfold attachedRow
  split
  · exact .inr rfl
  · exact .inl rfl

theorem revokeAssignment_effect {campaignId assignmentId : Uuid}
    (h : (revokeAssignment sha256 actor campaignId assignmentId now fresh).alone db =
      .ok (reply,db')) : Served actor.subject db db' reply := by
  simp only [revokeAssignment, revokeRow, read_ok, found_ok, require_ok, change_ok] at h
  obtain ⟨a,ha,-,-,h⟩ := h
  obtain ⟨e,hstates,h⟩ := append_ok h
  rw [done_ok] at h
  have hquiet : e.eventType ≠ .decisionRecorded := by
    rw [hstates.1]
    simp
  have hkeeps : ∀ rows b,
      (revokedRow rows actor.subject now b).assignmentId = b.assignmentId := by
    intro rows b
    unfold revokedRow
    split <;> rfl
  obtain ⟨rfl,hdb⟩ := Prod.mk.inj h
  refine ⟨.revoked _ e (hkeeps _) hquiet hdb,?_⟩
  have hrow := (Option.filter_eq_some_iff.mp ha).1
  have hid : a.assignmentId = assignmentId := by simpa using List.find?_some hrow
  obtain ⟨b,hb⟩ := found_after (hkeeps _) ⟨a,List.mem_of_find?_eq_some hrow,hid⟩
  have hafter : assignmentRow assignmentId db' = some b := by
    rw [hdb]
    exact hb
  refine ⟨.revoked b,?_⟩
  simp only [hafter]

/-- A proposal that was recorded cites the current decision on its item, which is no
certification. -/
theorem proposeRemediation_proposes {itemId : Uuid} {action : RemediationAction}
    {details : List (String × Json)}
    (h : (proposeRemediation sha256 actor itemId action details now fresh).alone db =
      .ok (reply,db')) :
    ∃ p current e, (currentDecisions p.itemId db).length ≤ 1 ∧
      (currentDecisions p.itemId db).head? = some current ∧ current.decision ≠ .certify ∧
      p.decisionId = some current.decisionId ∧ e.eventType ≠ .decisionRecorded ∧
      db' = { db with
        proposals := db.proposals ++ [p]
        events := db.events ++ [e] } ∧ ∃ a, reply db' = .ok a := by
  obtain ⟨item,-,-,h⟩ := getItem_ok h
  obtain ⟨c,-,h⟩ := getCampaign_ok h
  simp only [require_ok] at h
  obtain ⟨a,id,-,-,-,-,h⟩ := assignmentFor_ok h.2
  obtain ⟨hone,h⟩ := currentDecision_ok h
  simp only [found_ok, require_ok, insertProposal, insert_ok] at h
  obtain ⟨current,hcurrent,hcertify,-,h⟩ := h
  obtain ⟨e,hstates,h⟩ := append_ok h
  rw [done_ok] at h
  have hquiet : e.eventType ≠ .decisionRecorded := by
    rw [hstates.1]
    simp
  obtain ⟨rfl,hdb⟩ := Prod.mk.inj h
  exact ⟨_,current,e,hone,hcurrent,hcertify,rfl,hquiet,hdb,_,rfl⟩

theorem proposeRemediation_effect {itemId : Uuid} {action : RemediationAction}
    {details : List (String × Json)}
    (h : (proposeRemediation sha256 actor itemId action details now fresh).alone db =
      .ok (reply,db')) : Served actor.subject db db' reply := by
  obtain ⟨p,current,e,-,-,-,-,hquiet,hdb,hreply⟩ := proposeRemediation_proposes h
  exact ⟨.proposed p e hquiet hdb,hreply⟩

theorem clear_eq {campaignId : Uuid} (hids : (db.items.map (·.itemId)).Nodup) :
    db.items.filter (fun i => Hold.forUpdate (.item i.itemId) ∉
        (db.items.filter (·.campaignId = campaignId)).map fun i => Hold.forUpdate (.item i.itemId)) =
      db.items.filter (·.campaignId ≠ campaignId) := by
  apply List.filter_congr
  intro i hi
  have hiff : Hold.forUpdate (.item i.itemId) ∈
      ((db.items.filter (·.campaignId = campaignId)).map
        fun i => Hold.forUpdate (.item i.itemId)) ↔ i.campaignId = campaignId := by
    constructor
    · intro hrow
      obtain ⟨x,hx,heq⟩ := List.mem_map.mp hrow
      obtain ⟨hx,hcampaign⟩ := List.mem_filter.mp hx
      simp only [Hold.forUpdate.injEq, Row.item.injEq] at heq
      rw [← List.inj_on_of_nodup_map hids hx hi heq]
      simpa using hcampaign
    · intro hcampaign
      exact List.mem_map_of_mem (List.mem_filter.mpr ⟨hi,by simpa using hcampaign⟩)
  simp only [hiff]

theorem generate_effect {campaignId : Uuid} {versions : VersionTable.Table} (hkept : WellKept db)
    (h : (generate casefold sha256 actor campaignId versions now fresh).alone db =
      .ok (reply,db')) : Served actor.subject db db' reply := by
  obtain ⟨c,hc,h⟩ := getCampaign_ok h
  simp only [clearItems, insertItems, recordGeneration, require_ok, ofExcept_ok, change_ok,
    insert_ok, clear_eq hkept.itemIds] at h
  obtain ⟨hdraft,result,-,-,hfree,h⟩ := h
  have h := updateCampaign_ok h
  obtain ⟨e,hstates,h⟩ := append_ok h
  rw [done_ok] at h
  obtain ⟨-,x,hx,hid,hstatus⟩ := campaignRow_some hc
  have hquiet : e.eventType ≠ .decisionRecorded := by
    rw [hstates.1]
    simp
  simp only [Bool.and_eq_true, decide_eq_true_eq, List.all_eq_true] at hfree
  obtain ⟨⟨⟨⟨hnodup,-⟩,-⟩,hfree⟩,-⟩ := hfree
  obtain ⟨rfl,hdb⟩ := Prod.mk.inj h
  constructor
  case right =>
    obtain ⟨c,hc⟩ := refreshed_ok (fun y => by split <;> rfl) (congrArg Store.campaigns hdb)
      ⟨x,hx,hid⟩
    simp only [hc]
    exact ⟨_,rfl⟩
  refine .generated campaignId _ _ e ?_ ?_ hnodup ?_ (fun y => ?_) hquiet hdb
  · intro y hy hcampaign
    rw [List.inj_on_of_nodup_map hkept.campaignIds hy hx (hcampaign.trans hid.symm), hstatus, hdraft]
  · intro i hi
    obtain ⟨⟨draft,n⟩,-,rfl⟩ := List.mem_map.mp hi
    exact ⟨rfl,rfl,rfl⟩
  · intro i hi hother
    exact (hfree i (List.mem_filter.mpr ⟨hi,by simpa using hother⟩)).1
  · split <;> exact ⟨rfl,rfl⟩

theorem answer_ok {β : Type} {r : β × Store} {u : Unit → Work β} {item : ReviewItem}
    {previous : Option ReviewDecision} {record : ReviewDecision}
    (hids : (db.decisions.map (·.decisionId)).Nodup)
    (hprevious : ∀ p, previous = some p → p ∈ db.decisions ∧ p.itemId = item.itemId ∧
      p.isCurrent = true ∧ ∀ x ∈ db.decisions, x.itemId = item.itemId → x.isCurrent = true → x = p)
    (hitem : record.itemId = item.itemId)
    (h : (answer item previous record now >>= u).alone db = .ok r) :
    (∀ x ∈ db.decisions, x.decisionId ≠ record.decisionId) ∧
      (previous = none → ∀ x ∈ db.decisions, x.itemId = item.itemId → ¬ x.isCurrent = true) ∧
      (u ()).alone { db with
        decisions := db.decisions.map (fun d =>
          if d.itemId = item.itemId ∧ d.isCurrent = true then superseded now record.decisionId d
          else d) ++ [record]
        items := db.items.map (decidedRow item.itemId record.decisionId now) } = .ok r := by
  cases previous with
  | none =>
    simp only [answer, supersedePrevious, insertDecision, markItemDecided, bind_assoc, pure_bind,
      insert_ok, change_ok] at h
    obtain ⟨hfree,-,h⟩ := h
    simp only [Bool.and_eq_true, List.all_eq_true, Bool.or_eq_true, decide_eq_true_eq,
      Bool.not_eq_true', hitem] at hfree
    have hnone : ∀ x ∈ db.decisions, x.itemId = item.itemId → ¬ x.isCurrent = true := by
      intro x hx hon hcurrent
      rcases (hfree.1.1.1 x hx).2 with hoff | hpast
      · exact hoff hon
      · rw [hcurrent] at hpast
        exact nomatch hpast
    have hsame : db.decisions.map (fun d =>
        if d.itemId = item.itemId ∧ d.isCurrent = true then superseded now record.decisionId d
        else d) = db.decisions := by
      rw [List.map_congr_left fun d hd => if_neg fun hc => hnone d hd hc.1 hc.2, List.map_id']
    rw [hsame]
    exact ⟨fun x hx => (hfree.1.1.1 x hx).1,fun _ => hnone,h⟩
  | some p =>
    simp only [answer, supersedePrevious, supersedeDecision, insertDecision, markItemDecided,
      bind_assoc, insert_ok, change_ok] at h
    obtain ⟨-,hfree,-,h⟩ := h
    obtain ⟨hp,hpitem,hpcurrent,honly⟩ := hprevious p rfl
    have hsame : ∀ d ∈ db.decisions, (d.decisionId = p.decisionId ∧ d.isCurrent = true ↔
        d.itemId = item.itemId ∧ d.isCurrent = true) := by
      intro d hd
      constructor
      · intro ⟨hid,hcurrent⟩
        rw [List.inj_on_of_nodup_map hids hd hp hid]
        exact ⟨hpitem,hpcurrent⟩
      · intro ⟨hon,hcurrent⟩
        exact ⟨congrArg _ (honly d hd hon hcurrent),hcurrent⟩
    have hmarked : db.decisions.map (supersededRow ((db.decisions.filter fun d =>
          d.decisionId = p.decisionId && d.isCurrent).map
            fun d => Hold.noKeyUpdate (.decision d.decisionId)) record.decisionId now) =
        db.decisions.map fun d =>
          if d.itemId = item.itemId ∧ d.isCurrent = true then superseded now record.decisionId d
          else d := by
      apply List.map_congr_left
      intro d hd
      rw [supersededRow_eq hd]
      simp only [hsame d hd]
    rw [hmarked] at hfree h
    have hnone : some p = none → ∀ x ∈ db.decisions, x.itemId = item.itemId →
        ¬ x.isCurrent = true := by
      intro hc
      exact nomatch hc
    refine ⟨fun x hx => ?_,hnone,h⟩
    simp only [Bool.and_eq_true, List.all_eq_true, decide_eq_true_eq] at hfree
    have hnew := (hfree.1.1.1 _ (List.mem_map_of_mem hx)).1
    split at hnew
    · exact hnew
    · exact hnew

theorem appendSuperseded_ok {β : Type} {r : β × Store} {u : Unit → Work β} {item : ReviewItem}
    {previous : Option ReviewDecision} {record : ReviewDecision} {eventId : Uuid}
    (h : (appendSuperseded sha256 actor item previous record now eventId >>= u).alone db = .ok r) :
    ∃ before, (∀ x ∈ before, x.eventType ≠ .decisionRecorded) ∧
      (u ()).alone { db with events := db.events ++ before } = .ok r := by
  cases previous with
  | none => exact ⟨[],by simp,by simpa [appendSuperseded] using h⟩
  | some p =>
    obtain ⟨e,hstates,h⟩ := append_ok h
    have hquiet : e.eventType ≠ .decisionRecorded := by
      rw [hstates.1]
      exact fun hc => nomatch hc
    exact ⟨[e],by simpa using hquiet,h⟩

/-- The rows and the event of an answer by who is entitled to it. -/
theorem answers_of {item : ReviewItem} {campaign : ReviewCampaign} {assignment : ReviewAssignment}
    {decision : DecisionKind} {rationale : Option String} {previous : Option ReviewDecision}
    {decisionId : Uuid} {more : List (String × Json)} {before : List GovernanceEvent}
    {e : GovernanceEvent} (hmem : item ∈ db.items)
    (hentitled : Entitled db actor.subject item.itemId item.campaignId)
    (hprevious : previous = (currentDecisions item.itemId db).head?)
    (hfresh : ∀ x ∈ db.decisions, x.decisionId ≠ decisionId)
    (hbefore : ∀ x ∈ before, x.eventType ≠ .decisionRecorded)
    (hstates : Says (recordedNotice item assignment
      (newDecision actor item campaign assignment decision rationale previous now decisionId)
      more) e) :
    Answers actor.subject item
      (newDecision actor item campaign assignment decision rationale previous now decisionId) db
      { db with
        decisions := db.decisions.map (fun d =>
          if d.itemId = item.itemId ∧ d.isCurrent = true then superseded now decisionId d
          else d) ++
            [newDecision actor item campaign assignment decision rationale previous now decisionId]
        items := db.items.map (decidedRow item.itemId decisionId now)
        events := db.events ++ before ++ [e] } where
  mem := hmem
  onItem := rfl
  onCampaign := rfl
  bySubject := rfl
  current := rfl
  last := rfl
  entitled := hentitled
  fresh := hfresh
  follows := by
    rw [← hprevious]
    rfl
  decisions := ⟨now,rfl⟩
  items := ⟨now,rfl⟩
  campaigns := rfl
  assignments := rfl
  events := by
    refine ⟨before,e,rfl,hbefore,hstates.1,hstates.2.2.1,hstates.2.1,?_⟩
    rw [hstates.2.2.2]
    rfl

/-- A decision that was taken is the answer to its item, and its reason was accepted. -/
theorem decide_answers {itemId : Uuid} {decision : DecisionKind} {rationale : Option String}
    (hkept : WellKept db)
    (h : (decide sha256 actor itemId decision rationale now fresh).alone db = .ok (reply,db')) :
    ∃ item record c cleaned, item.itemId = itemId ∧ Answers actor.subject item record db db' ∧
      campaignRow item.campaignId db = some c ∧
      validateRationale decision rationale c.commentRequirement = .ok cleaned ∧
      ∃ a, reply db' = .ok a := by
  obtain ⟨item,hitem,rfl,h⟩ := getItem_ok h
  obtain ⟨c,hc,h⟩ := getCampaign_ok h
  rw [require_ok] at h
  obtain ⟨hactive,h⟩ := h
  obtain ⟨a,id,hid,ha,hstanding,hsubject,h⟩ := assignmentFor_ok h
  rw [ofExcept_ok] at h
  obtain ⟨cleaned,hcleaned,h⟩ := h
  obtain ⟨hone,h⟩ := currentDecision_ok h
  have hprevious : ∀ p, (currentDecisions item.itemId db).head? = some p →
      p ∈ db.decisions ∧ p.itemId = item.itemId ∧ p.isCurrent = true ∧
        ∀ x ∈ db.decisions, x.itemId = item.itemId → x.isCurrent = true → x = p := by
    intro p hp
    have hmem := List.mem_filter.mp (List.mem_of_head? hp)
    simp only [Bool.and_eq_true, decide_eq_true_eq] at hmem
    refine ⟨hmem.1,hmem.2.1,hmem.2.2,fun x hx hon hcurrent => ?_⟩
    have hx : x ∈ currentDecisions item.itemId db :=
      List.mem_filter.mpr ⟨hx,by simp [hon, hcurrent]⟩
    cases hrows : currentDecisions item.itemId db with
    | nil =>
      rw [hrows] at hp
      exact nomatch hp
    | cons q rest =>
      rw [hrows] at hp hx hone
      have hrest : rest = [] := List.length_eq_zero_iff.mp (by simpa using hone)
      rw [hrest, List.mem_singleton] at hx
      rw [hx]
      exact Option.some.inj hp
  obtain ⟨hfresh,-,h⟩ := answer_ok hkept.decisionIds hprevious rfl h
  obtain ⟨before,hbefore,h⟩ := appendSuperseded_ok h
  obtain ⟨e,hstates,h⟩ := append_ok h
  rw [done_ok] at h
  obtain ⟨-,x,hx,hxid,hxstatus⟩ := campaignRow_some hc
  have hentitled : Entitled db actor.subject item.itemId item.campaignId :=
    ⟨⟨item,hitem,rfl,rfl,id,a,hid,ha,hstanding,hsubject⟩,x,hx,hxid,hxstatus.trans hactive⟩
  cases h
  exact ⟨item,_,c,cleaned,rfl,answers_of hitem hentitled rfl hfresh hbefore hstates,hc,hcleaned,
    _,rfl⟩

theorem decide_effect {itemId : Uuid} {decision : DecisionKind} {rationale : Option String}
    (hkept : WellKept db)
    (h : (decide sha256 actor itemId decision rationale now fresh).alone db = .ok (reply,db')) :
    Served actor.subject db db' reply := by
  obtain ⟨item,record,c,cleaned,-,hanswers,-,-,hreply⟩ := decide_answers hkept h
  exact ⟨.answered [item] (.next hanswers (.none _)),hreply⟩

/-- The rows of an answer keep their identities. -/
theorem Answers.ids {subject : String} {item : ReviewItem} {record : ReviewDecision}
    (h : Answers subject item record db db') :
    db'.decisions.map (·.decisionId) = db.decisions.map (·.decisionId) ++ [record.decisionId] := by
  obtain ⟨moment,hdecisions⟩ := h.decisions
  rw [hdecisions, List.map_append, List.map_map]
  congr 1
  apply List.map_congr_left
  intro d hd
  simp only [Function.comp_apply]
  split <;> rfl

theorem Answers.nodup {subject : String} {item : ReviewItem} {record : ReviewDecision}
    (h : Answers subject item record db db') (hids : (db.decisions.map (·.decisionId)).Nodup) :
    (db'.decisions.map (·.decisionId)).Nodup := by
  rw [h.ids]
  apply List.nodup_append.mpr
  refine ⟨hids,List.nodup_singleton _,?_⟩
  intro x hx y hy hxy
  obtain ⟨d,hd,rfl⟩ := List.mem_map.mp hx
  rw [List.mem_singleton.mp hy] at hxy
  exact h.fresh d hd hxy

/-- Another item stays as it was. -/
theorem Answers.other {subject : String} {item i : ReviewItem} {record : ReviewDecision}
    (h : Answers subject item record db db') (hi : i ∈ db.items) (hother : i.itemId ≠ item.itemId) :
    i ∈ db'.items := by
  obtain ⟨moment,hitems⟩ := h.items
  rw [hitems]
  apply List.mem_map.mpr
  exact ⟨i,hi,if_neg hother⟩

theorem answerEach_effect {β : Type} {r : β × Store} {campaign : ReviewCampaign}
    {decision : DecisionKind} {rationale : Option String} {size n : ℕ} {items : List ReviewItem}
    {k : List ReviewDecision → Work β} (hids : (db.decisions.map (·.decisionId)).Nodup)
    (hmem : ∀ i ∈ items, i ∈ db.items ∧ i.campaignId = campaign.campaignId)
    (hapart : (items.map (·.itemId)).Nodup)
    (hopen : ∃ c ∈ db.campaigns, c.campaignId = campaign.campaignId ∧ c.status = .active)
    (h : (answerEach sha256 actor campaign decision rationale size now fresh n items >>= k).alone
      db = .ok r) :
    ∃ mid records, AnswersAll actor.subject items db mid ∧ (k records).alone mid = .ok r := by
  induction items generalizing db n k with
  | nil => exact ⟨db,[],.none db,h⟩
  | cons item rest ih =>
    simp only [answerEach, bind_assoc] at h
    obtain ⟨a,id,hid,ha,hstanding,hsubject,h⟩ := assignmentFor_ok h
    obtain ⟨hfresh,hnone,h⟩ := answer_ok hids (by simp) rfl h
    obtain ⟨e,hstates,h⟩ := append_ok h
    obtain ⟨hitem,hcampaign⟩ := hmem item List.mem_cons_self
    have hentitled : Entitled db actor.subject item.itemId item.campaignId :=
      ⟨⟨item,hitem,rfl,rfl,id,a,hid,ha,hstanding,hsubject⟩,hcampaign ▸ hopen⟩
    have hprevious : none = (currentDecisions item.itemId db).head? := by
      have hempty : currentDecisions item.itemId db = [] := by
        apply List.filter_eq_nil_iff.mpr
        intro x hx hboth
        simp only [Bool.and_eq_true, decide_eq_true_eq] at hboth
        exact hnone rfl x hx hboth.1 hboth.2
      rw [hempty]
      rfl
    have hquiet : ∀ x ∈ ([] : List GovernanceEvent), x.eventType ≠ .decisionRecorded := by simp
    have hfirst := answers_of hitem hentitled hprevious hfresh hquiet hstates
    rw [List.append_nil] at hfirst
    rw [List.map_cons, List.nodup_cons] at hapart
    have hrest : ∀ i ∈ rest, i.itemId ≠ item.itemId := by
      intro i hi heq
      exact hapart.1 (heq ▸ List.mem_map_of_mem hi)
    obtain ⟨mid,records,hothers,h⟩ := ih (hfirst.nodup hids)
      (fun i hi => ⟨hfirst.other (hmem i (List.mem_cons_of_mem _ hi)).1 (hrest i hi),
        (hmem i (List.mem_cons_of_mem _ hi)).2⟩) hapart.2 hopen h
    exact ⟨mid,_,.next hfirst hothers,h⟩

/-- A batch that was taken answers items that had no answer. -/
theorem bulkDecide_answers {campaignId : Uuid} {itemIds : List Uuid} {decision : DecisionKind}
    {rationale : Option String} {drifts : ReviewItem → Bool} (hkept : WellKept db)
    (h : (bulkDecide sha256 actor campaignId itemIds decision rationale drifts now fresh).alone
      db = .ok (reply,db')) :
    ∃ items, AnswersAll actor.subject items db db' ∧
      (∀ i ∈ items, i ∈ db.items ∧ i.status ≠ .decided) ∧ ∃ a, reply db' = .ok a := by
  obtain ⟨c,hc,h⟩ := getCampaign_ok h
  simp only [require_ok, read_ok, ofExcept_ok] at h
  obtain ⟨hactive,-,-,-,_,-,hundecided,-,cleaned,-,h⟩ := h
  obtain ⟨hid,x,hx,hxid,hxstatus⟩ := campaignRow_some hc
  have hmem : ∀ i ∈ itemsByIds campaignId (firstByKey id itemIds) db,
      i ∈ db.items ∧ i.campaignId = c.campaignId := by
    intro i hi
    have hi := List.mem_filter.mp ((sortedBy_perm _ _).mem_iff.mp hi)
    simp only [Bool.and_eq_true, decide_eq_true_eq] at hi
    exact ⟨hi.1,hi.2.1.trans hid.symm⟩
  have hapart : ((itemsByIds campaignId (firstByKey id itemIds) db).map (·.itemId)).Nodup := by
    unfold itemsByIds
    rw [((sortedBy_perm _ _).map _).nodup_iff]
    exact hkept.itemIds.sublist (List.filter_sublist.map _)
  obtain ⟨mid,records,hall,h⟩ := answerEach_effect hkept.decisionIds hmem hapart
    ⟨x,hx,hxid.trans hid.symm,hxstatus.trans hactive⟩ h
  rw [done_ok] at h
  cases h
  refine ⟨_,hall,fun i hi => ⟨(hmem i hi).1,fun hdecided => ?_⟩,_,rfl⟩
  have hmarked : i.itemId ∈ ((itemsByIds campaignId (firstByKey id itemIds) db).filter
      (·.status = .decided)).map (·.itemId) :=
    List.mem_map_of_mem (List.mem_filter.mpr ⟨hi,by simpa using hdecided⟩)
  rw [hundecided] at hmarked
  cases hmarked

theorem bulkDecide_effect {campaignId : Uuid} {itemIds : List Uuid} {decision : DecisionKind}
    {rationale : Option String} {drifts : ReviewItem → Bool} (hkept : WellKept db)
    (h : (bulkDecide sha256 actor campaignId itemIds decision rationale drifts now fresh).alone
      db = .ok (reply,db')) : Served actor.subject db db' reply := by
  obtain ⟨items,hall,-,hreply⟩ := bulkDecide_answers hkept h
  exact ⟨.answered items hall,hreply⟩

/-- What a call that was not refused did. -/
theorem program_effect {c : ServiceCall} (hkept : WellKept db)
    (h : (program casefold sha256 c).alone db = .ok (reply,db')) :
    Served c.actor.subject db db' reply := by
  obtain ⟨actor,now,fresh,request⟩ := c
  cases request with
  | createCampaign draft => exact createCampaign_effect h
  | generate campaignId versions => exact generate_effect hkept h
  | activate campaignId => exact activate_effect h
  | close campaignId => exact close_effect h
  | cancel campaignId reason => exact cancel_effect h
  | assign campaignId reviewer => exact assign_effect h
  | revokeAssignment campaignId assignmentId => exact revokeAssignment_effect h
  | decide itemId decision rationale => exact decide_effect hkept h
  | bulkDecide campaignId itemIds decision rationale drifts => exact bulkDecide_effect hkept h
  | proposeRemediation itemId action details => exact proposeRemediation_effect h

end Effects

end Adg.ReviewRecords
