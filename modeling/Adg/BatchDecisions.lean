import Adg.CampaignReading
import Adg.StandingProposals

/-!
# A batch of decisions

A batch answers several items in one transaction. It is compared with the same
answers given one call after the other: the rows are the same, and the events
differ in the two keys that a batch adds and in the digests over them.
-/

set_option autoImplicit false

namespace Adg.BatchDecisions
open Adg.AuditChain Adg.CanonicalJson Adg.ReviewGeneration Adg.ReviewCampaigns Adg.ReviewCalls
open Adg.ReviewRecords Adg.CampaignRecord Adg.SortedLists Adg.Transactions

/-! ### The same calls one after the other -/

/-- The identities of an answer of a batch, as a single call gives them out. -/
def turn (fresh : ℕ → Uuid) (n : ℕ) : ℕ → Uuid
  | 0 => fresh (2*n)
  | _ => fresh (2*n+1)

/-- A single answer. -/
def single (actor : Actor) (decision : DecisionKind) (rationale : Option String) (now : UtcMoment)
    (fresh : ℕ → Uuid) (itemId : Uuid) : ServiceCall where
  actor := actor
  now := now
  fresh := fresh
  request := .decide itemId decision rationale

section Runs
variable (casefold sha256 : String → String) (actor : Actor) (decision : DecisionKind)
  (rationale : Option String) (now : UtcMoment) (fresh : ℕ → Uuid)

/-- Answers to some items, each in a call of its own that was not refused. -/
inductive DecidedEach : ℕ → List Uuid → List ReviewDecision → Store → Store → Prop where
  | none (n : ℕ) (db : Store) : DecidedEach n [] [] db db
  | next {n : ℕ} {itemId : Uuid} {rest : List Uuid} {d : ReviewDecision}
      {ds : List ReviewDecision} {db mid db' : Store}
      (first : serve casefold sha256 (single actor decision rationale now (turn fresh n) itemId) db =
        (.ok (.decided d),mid))
      (others : DecidedEach (n+1) rest ds mid db') :
      DecidedEach n (itemId :: rest) (d :: ds) db db'

end Runs

/-- Two events that are alike but for the keys that a batch adds and the digests. -/
structure Twin (size : ℕ) (e o : GovernanceEvent) : Prop where
  eventId : e.eventId = o.eventId
  chainKey : e.chainKey = o.chainKey
  chainIndex : e.chainIndex = o.chainIndex
  eventType : e.eventType = o.eventType
  occurredAt : e.occurredAt = o.occurredAt
  actorSubject : e.actorSubject = o.actorSubject
  actorDisplayName : e.actorDisplayName = o.actorDisplayName
  actorRoles : e.actorRoles = o.actorRoles
  campaignId : e.campaignId = o.campaignId
  itemId : e.itemId = o.itemId
  decisionId : e.decisionId = o.decisionId
  payload : e.payload = o.payload ++ [("bulk",.bool true),("bulk_size",.whole size)]

/-- A batch left what the single calls left. -/
structure Alike (size : ℕ) (db batch singles : Store) : Prop where
  campaigns : batch.campaigns = singles.campaigns
  assignments : batch.assignments = singles.assignments
  items : batch.items = singles.items
  decisions : batch.decisions = singles.decisions
  proposals : batch.proposals = singles.proposals
  events : ∃ es os, batch.events = db.events ++ es ∧ singles.events = db.events ++ os ∧
    List.Forall₂ (Twin size) es os

/-! ### Places in a chain -/

/-- Where an event stands. -/
def place (e : GovernanceEvent) : String × ℤ := (e.chainKey,e.chainIndex)

/-- Where the next event of a chain goes. -/
def nextIndex : Option ℤ → ℤ
  | none => 0
  | some n => n+1

theorem event_index (sha256 : String → String) (entry : Entry) (head : Option GovernanceEvent) :
    (entry.event sha256 head).chainIndex = nextIndex (head.map (·.chainIndex)) := by
  cases head <;> rfl

/-- The head of a chain is found by the places alone. -/
theorem chainHead_index {l m : List GovernanceEvent} (h : l.map place = m.map place)
    (chainKey : String) :
    (chainHead l chainKey).map (·.chainIndex) = (chainHead m chainKey).map (·.chainIndex) := by
  have hplaces : ∀ table : List GovernanceEvent,
      (chainHead table chainKey).map (·.chainIndex) =
        ((sortedBy (fun p : String × ℤ => OrderDual.toDual p.2)
          ((table.map place).filter (·.1 = chainKey))).head?).map (·.2) := by
    intro table
    have hfilter : (table.map place).filter (fun p => decide (p.1 = chainKey)) =
        (table.filter fun e => decide (e.chainKey = chainKey)).map place := by
      rw [List.filter_map]
      rfl
    have hsorted : (sortedBy (fun e : GovernanceEvent => OrderDual.toDual e.chainIndex)
          (chainOf table chainKey)).map place =
        sortedBy (fun p : String × ℤ => OrderDual.toDual p.2) ((chainOf table chainKey).map place) :=
      sortedBy_map (f := place) (k := fun p : String × ℤ => OrderDual.toDual p.2) _ (fun e => rfl) _
    unfold chainOf at hsorted
    rw [hfilter, ← hsorted, List.head?_map, Option.map_map]
    rfl
  rw [hplaces, hplaces, h]

/-- No event of a chain stands where the next one goes. -/
theorem next_free {events : List GovernanceEvent} {chainKey : String} {x : GovernanceEvent}
    (hx : x ∈ events) (hchain : x.chainKey = chainKey) :
    x.chainIndex ≠ nextIndex ((chainHead events chainKey).map (·.chainIndex)) := by
  have hmem : x ∈ sortedBy (fun e => OrderDual.toDual e.chainIndex) (chainOf events chainKey) := by
    rw [mem_sortedBy]
    exact List.mem_filter.mpr ⟨hx,by simpa using hchain⟩
  have hordered := sortedBy_ordered (fun e : GovernanceEvent => OrderDual.toDual e.chainIndex)
    (chainOf events chainKey)
  unfold chainHead
  cases hrows : sortedBy (fun e => OrderDual.toDual e.chainIndex) (chainOf events chainKey) with
  | nil =>
    rw [hrows] at hmem
    cases hmem
  | cons head rest =>
    rw [hrows] at hmem hordered
    have hle : x.chainIndex ≤ head.chainIndex := by
      rcases List.mem_cons.mp hmem with rfl | hrest
      · exact le_refl _
      · exact OrderDual.toDual_le_toDual.mp ((List.pairwise_cons.mp hordered).1 x hrest)
    show x.chainIndex ≠ head.chainIndex+1
    omega

/-! ### What an answer asks for and does -/

section Steps
variable {casefold sha256 : String → String} {actor : Actor} {decision : DecisionKind}
  {rationale : Option String} {now : UtcMoment} {fresh : ℕ → Uuid} {db : Store} {β : Type}
  {r : β × Store} {u : Unit → Work β}

/-- The tables take a first answer. -/
def Takes (db : Store) (d : ReviewDecision) : Prop :=
  (∀ x ∈ db.decisions, x.decisionId ≠ d.decisionId ∧ (x.itemId = d.itemId → x.isCurrent = false)) ∧
    (∃ i ∈ db.items, i.itemId = d.itemId) ∧ ∃ c ∈ db.campaigns, c.campaignId = d.campaignId

/-- The tables with a first answer. -/
def withAnswer (db : Store) (item : ReviewItem) (d : ReviewDecision) (now : UtcMoment) : Store :=
  { db with
    decisions := db.decisions ++ [d]
    items := db.items.map (decidedRow item.itemId d.decisionId now) }

theorem answer_iff {item : ReviewItem} {record : ReviewDecision}
    (hfirst : record.supersedesDecisionId = none) :
    (answer item none record now >>= u).alone db = .ok r ↔
      Takes db record ∧ (u ()).alone (withAnswer db item record now) = .ok r := by
  simp only [answer, supersedePrevious, insertDecision, markItemDecided, bind_assoc, pure_bind,
    insert_ok, change_ok, true_and, withAnswer]
  apply and_congr_left'
  simp only [Bool.and_eq_true, List.all_eq_true, List.any_eq_true, Bool.or_eq_true,
    decide_eq_true_eq, Bool.not_eq_true', hfirst, Option.all_none, and_true, Takes, and_assoc]
  apply and_congr_left'
  apply forall₂_congr
  intro x hx
  apply and_congr_right'
  exact Decidable.imp_iff_not_or.symm

/-- The event that a notice becomes. -/
def eventOf (sha256 : String → String) (actor : Actor) (campaignId eventId : Uuid)
    (now : UtcMoment) (n : Notice) (db : Store) : GovernanceEvent :=
  (entryFor actor campaignId eventId now n).event sha256
    (chainHead db.events (campaignChain campaignId))

/-- No event has its identity or its place. -/
def Unclaimed (db : Store) (e : GovernanceEvent) : Prop :=
  ∀ x ∈ db.events, x.eventId ≠ e.eventId ∧ place x ≠ place e

def withEvent (db : Store) (e : GovernanceEvent) : Store := { db with events := db.events ++ [e] }

theorem append_iff {campaignId eventId : Uuid} {n : Notice} :
    (appendNotice sha256 actor campaignId eventId now n >>= u).alone db = .ok r ↔
      Unclaimed db (eventOf sha256 actor campaignId eventId now n db) ∧
        (u ()).alone (withEvent db (eventOf sha256 actor campaignId eventId now n db)) = .ok r := by
  simp only [appendNotice, bind_assoc, lock_ok, insert_ok]
  apply and_congr_left'
  simp only [List.all_eq_true, Bool.and_eq_true, Bool.or_eq_true, decide_eq_true_eq]
  apply forall₂_congr
  intro x hx
  apply and_congr_right'
  simp only [place, eventOf, ne_eq, Prod.mk.injEq, not_and_or]

/-- An event whose identity is new goes where no other one is. -/
theorem unclaimed_of_new {campaignId eventId : Uuid} {n : Notice}
    (hnew : ∀ x ∈ db.events, x.eventId ≠ eventId) :
    Unclaimed db (eventOf sha256 actor campaignId eventId now n db) := by
  intro x hx
  refine ⟨hnew x hx,fun hplace => ?_⟩
  obtain ⟨hchain,hindex⟩ := Prod.mk.inj hplace
  rw [eventOf, event_index] at hindex
  exact next_free hx hchain hindex

/-- What an answer is given by: its campaign is open, its item asked of the actor, and the
reason accepted. -/
structure Admitted (db : Store) (actor : Actor) (decision : DecisionKind)
    (rationale : Option String) (item : ReviewItem) (campaign : ReviewCampaign)
    (assignment : ReviewAssignment) (cleaned : Option String) : Prop where
  found : db.items.find? (·.itemId = item.itemId) = some item
  inCampaign : campaignRow item.campaignId db = some campaign
  active : campaign.status = .active
  asked : ∃ id, item.assignmentId = some id ∧ assignmentRow id db = some assignment
  subject : assignment.reviewerSubject = actor.subject
  standing : assignment.isActive = true
  reason : validateRationale decision rationale campaign.commentRequirement = .ok cleaned

section Answers
variable {item : ReviewItem} {campaign : ReviewCampaign} {assignment : ReviewAssignment}
  {cleaned : Option String}

/-- The row of a first answer. -/
abbrev firstAnswer (actor : Actor) (item : ReviewItem) (campaign : ReviewCampaign)
    (assignment : ReviewAssignment) (decision : DecisionKind) (cleaned : Option String)
    (now : UtcMoment) (decisionId : Uuid) : ReviewDecision :=
  newDecision actor item campaign assignment decision cleaned none now decisionId

variable (casefold) in
/-- A single answer that is admitted, to an item without one, is recorded. -/
theorem decide_first {record : ReviewDecision} {e : GovernanceEvent}
    (h : Admitted db actor decision rationale item campaign assignment cleaned)
    (hnone : currentDecisions item.itemId db = [])
    (hrecord : record = firstAnswer actor item campaign assignment decision cleaned now (fresh 0))
    (he : e = eventOf sha256 actor item.campaignId (fresh 2) now
      (recordedNotice item assignment record []) db)
    (htakes : Takes db record) (hplace : Unclaimed db e) :
    serve casefold sha256 (single actor decision rationale now fresh item.itemId) db =
      (.ok (.decided record),withEvent (withAnswer db item record now) e) := by
  have halone : (ReviewCalls.decide sha256 actor item.itemId decision rationale now fresh).alone
      db = .ok (fun _ => .ok (.decided record),withEvent (withAnswer db item record now) e) := by
    obtain ⟨id,hid,hrow⟩ := h.asked
    simp only [ReviewCalls.decide, getItem, getCampaign, assignmentFor, currentDecision,
      bind_assoc, pure_bind, read_ok, found_ok, require_ok, ofExcept_ok]
    refine ⟨item,h.found,campaign,h.inCampaign,h.active,id,hid,assignment,hrow,h.subject,
      h.standing,cleaned,h.reason,?_⟩
    rw [hnone]
    refine ⟨Nat.zero_le 1,?_⟩
    rw [List.head?_nil, answer_iff rfl]
    subst hrecord he
    refine ⟨htakes,?_⟩
    show (appendNotice sha256 actor item.campaignId (fresh 2) now _ >>= _).alone _ = _
    rw [append_iff]
    exact ⟨hplace,rfl⟩
  exact perform_of_committed (c := ⟨program casefold sha256
    (single actor decision rationale now fresh item.itemId),fun reply db => reply db⟩) halone

/-- What one step of a batch asked for and did. -/
theorem answerEach_step {size n : ℕ} {rest : List ReviewItem} {k : List ReviewDecision → Work β}
    (h : (answerEach sha256 actor campaign decision cleaned size now fresh n (item :: rest) >>=
      k).alone db = .ok r) :
    ∃ assignment record e, (∃ id, item.assignmentId = some id ∧
        assignmentRow id db = some assignment) ∧
      assignment.reviewerSubject = actor.subject ∧ assignment.isActive = true ∧
      record = firstAnswer actor item campaign assignment decision cleaned now (fresh (2*n)) ∧
      e = eventOf sha256 actor campaign.campaignId (fresh (2*n+1)) now
        (recordedNotice item assignment record [("bulk",.bool true),("bulk_size",.whole size)]) db ∧
      Takes db record ∧ Unclaimed db e ∧
      (answerEach sha256 actor campaign decision cleaned size now fresh (n+1) rest >>=
        fun records => k (record :: records)).alone
          (withEvent (withAnswer db item record now) e) = .ok r := by
  simp only [answerEach, assignmentFor, bind_assoc, pure_bind, read_ok, found_ok, require_ok] at h
  obtain ⟨id,hid,assignment,hrow,hsubject,hstanding,h⟩ := h
  rw [answer_iff rfl] at h
  obtain ⟨htakes,h⟩ := h
  rw [append_iff] at h
  exact ⟨assignment,_,_,⟨id,hid,hrow⟩,hsubject,hstanding,rfl,rfl,htakes,h.1,h.2⟩

end Answers

end Steps

/-! ### Along a batch -/

section Batches
variable {casefold sha256 : String → String} {actor : Actor} {decision : DecisionKind}
  {rationale : Option String} {now : UtcMoment} {fresh : ℕ → Uuid} {db db₀ singles : Store}
  {size : ℕ}

theorem Alike.start (db : Store) : Alike size db db db where
  campaigns := rfl
  assignments := rfl
  items := rfl
  decisions := rfl
  proposals := rfl
  events := ⟨[],[],(List.append_nil _).symm,(List.append_nil _).symm,.nil⟩

/-- The events stand at the same places under the same identities. -/
theorem Alike.places (h : Alike size db₀ db singles) :
    db.events.map (fun e => (e.eventId,place e)) =
      singles.events.map fun e => (e.eventId,place e) := by
  obtain ⟨es,os,hes,hos,htwins⟩ := h.events
  have hsame : es.map (fun e => (e.eventId,place e)) = os.map fun e => (e.eventId,place e) := by
    clear hes hos
    induction htwins with
    | nil => rfl
    | cons htwin _ ih =>
      rw [List.map_cons, List.map_cons, ih, place, place, htwin.eventId, htwin.chainKey,
        htwin.chainIndex]
  rw [hes, hos, List.map_append, List.map_append, hsame]

theorem Alike.head (h : Alike size db₀ db singles) (chainKey : String) :
    (chainHead db.events chainKey).map (·.chainIndex) =
      (chainHead singles.events chainKey).map (·.chainIndex) := by
  have hplaces := congrArg (List.map Prod.snd) h.places
  rw [List.map_map, List.map_map] at hplaces
  exact chainHead_index hplaces chainKey

theorem Alike.unclaimed (h : Alike size db₀ db singles) {e o : GovernanceEvent}
    (hid : e.eventId = o.eventId) (hplace : place e = place o) (he : Unclaimed db e) :
    Unclaimed singles o := by
  intro x hx
  have hmem : (x.eventId,place x) ∈ db.events.map fun e => (e.eventId,place e) := by
    rw [h.places]
    exact List.mem_map_of_mem hx
  obtain ⟨y,hy,hsame⟩ := List.mem_map.mp hmem
  obtain ⟨hyid,hyplace⟩ := Prod.mk.inj hsame
  rw [← hyid, ← hyplace, ← hid, ← hplace]
  exact he y hy

theorem Alike.takes (h : Alike size db₀ db singles) {d : ReviewDecision} (hd : Takes db d) :
    Takes singles d := by
  unfold Takes at hd ⊢
  rw [← h.decisions, ← h.items, ← h.campaigns]
  exact hd

/-- An item that another answer leaves alone is found as it was. -/
theorem found_other {items : List ReviewItem} {i : ReviewItem} {itemId decisionId : Uuid}
    (hother : i.itemId ≠ itemId) (h : items.find? (·.itemId = i.itemId) = some i) :
    (items.map (decidedRow itemId decisionId now)).find? (·.itemId = i.itemId) = some i := by
  have hsame : (fun j : ReviewItem => decide (j.itemId = i.itemId)) ∘
      decidedRow itemId decisionId now = fun j => decide (j.itemId = i.itemId) := by
    funext j
    simp only [Function.comp_apply, (decidedRow_keeps itemId decisionId now j).1]
  rw [List.find?_map, hsame, h, Option.map_some, decidedRow, if_neg hother]

/-- A step of a batch and the single call for it leave the tables alike. -/
theorem Alike.answered (h : Alike size db₀ db singles) {item : ReviewItem}
    {record : ReviewDecision} {e o : GovernanceEvent} (htwin : Twin size e o) :
    Alike size db₀ (withEvent (withAnswer db item record now) e)
      (withEvent (withAnswer singles item record now) o) where
  campaigns := h.campaigns
  assignments := h.assignments
  items := congrArg (List.map (decidedRow item.itemId record.decisionId now)) h.items
  decisions := congrArg (· ++ [record]) h.decisions
  proposals := h.proposals
  events := by
    obtain ⟨es,os,hes,hos,htwins⟩ := h.events
    refine ⟨es ++ [e],os ++ [o],?_,?_,List.rel_append htwins (.cons htwin .nil)⟩
    · show db.events ++ [e] = _
      rw [hes, List.append_assoc]
    · show singles.events ++ [o] = _
      rw [hos, List.append_assoc]

variable (casefold) in
/-- The answers of a batch are those of the single calls. -/
theorem answerEach_singles {β : Type} {r : β × Store} {campaign : ReviewCampaign}
    {cleaned : Option String} {n : ℕ} {items : List ReviewItem}
    {k : List ReviewDecision → Work β} (hlike : Alike size db₀ db singles)
    (hitems : ∀ i ∈ items, db.items.find? (·.itemId = i.itemId) = some i ∧
      i.campaignId = campaign.campaignId)
    (hapart : (items.map (·.itemId)).Nodup)
    (hcampaign : campaignRow campaign.campaignId db = some campaign)
    (hactive : campaign.status = .active)
    (hreason : validateRationale decision rationale campaign.commentRequirement = .ok cleaned)
    (h : (answerEach sha256 actor campaign decision cleaned size now fresh n items >>= k).alone
      db = .ok r) :
    ∃ mid records after, (k records).alone mid = .ok r ∧
      DecidedEach casefold sha256 actor decision rationale now fresh n (items.map (·.itemId))
        records singles after ∧ Alike size db₀ mid after := by
  induction items generalizing db singles n k with
  | nil => exact ⟨db,[],singles,h,.none n singles,hlike⟩
  | cons item rest ih =>
    obtain ⟨assignment,record,e,⟨id,hid,hrow⟩,hsubject,hstanding,hrecord,he,htakes,hfree,h⟩ :=
      answerEach_step h
    obtain ⟨hfound,hon⟩ := hitems item List.mem_cons_self
    have hincampaign : campaignRow item.campaignId singles = some campaign := by
      rw [hon, ← hcampaign]
      unfold campaignRow
      rw [hlike.campaigns]
    have hassigned : assignmentRow id singles = some assignment := by
      rw [← hrow]
      unfold assignmentRow
      rw [hlike.assignments]
    have hadmitted : Admitted singles actor decision rationale item campaign assignment cleaned :=
      ⟨hlike.items ▸ hfound,hincampaign,hactive,⟨id,hid,hassigned⟩,hsubject,hstanding,hreason⟩
    have hnone : currentDecisions item.itemId singles = [] := by
      apply List.filter_eq_nil_iff.mpr
      intro x hx
      rw [← hlike.decisions] at hx
      rw [Bool.and_eq_true, decide_eq_true_eq, not_and]
      intro hitem
      rw [hrecord] at htakes
      rw [(htakes.1 x hx).2 hitem]
      exact Bool.false_ne_true
    have htwin : Twin size e (eventOf sha256 actor item.campaignId (turn fresh n 2) now
        (recordedNotice item assignment record []) singles) := by
      subst he
      rw [hon]
      refine ⟨rfl,rfl,?_,rfl,rfl,rfl,rfl,rfl,rfl,rfl,rfl,?_⟩
      · rw [eventOf, eventOf, event_index, event_index, hlike.head]
      · show _ = (_ ++ []) ++ _
        rw [List.append_nil]
        rfl
    have hfirst := decide_first casefold hadmitted hnone hrecord rfl
      (hlike.takes htakes) (hlike.unclaimed htwin.eventId
        (Prod.ext htwin.chainKey htwin.chainIndex) hfree)
    rw [List.map_cons, List.nodup_cons] at hapart
    obtain ⟨mid,records,after,hk,hothers,hafter⟩ := ih (hlike.answered htwin) (fun i hi => by
      obtain ⟨hfoundi,honi⟩ := hitems i (List.mem_cons_of_mem _ hi)
      refine ⟨found_other (fun hsame => hapart.1 ?_) hfoundi,honi⟩
      rw [← hsame]
      exact List.mem_map_of_mem hi) hapart.2 hcampaign h
    exact ⟨mid,record :: records,after,hk,.next hfirst hothers,hafter⟩

/-- What a batch that was taken found of each of its items. -/
theorem answerEach_admits {β : Type} {r : β × Store} {campaign : ReviewCampaign}
    {cleaned : Option String} {n : ℕ} {items : List ReviewItem}
    {k : List ReviewDecision → Work β}
    (h : (answerEach sha256 actor campaign decision cleaned size now fresh n items >>= k).alone
      db = .ok r) :
    ∀ i ∈ items, ∃ assignment, (∃ id, i.assignmentId = some id ∧
        assignmentRow id db = some assignment) ∧
      assignment.reviewerSubject = actor.subject ∧ assignment.isActive = true ∧
      currentDecisions i.itemId db = [] := by
  induction items generalizing db n k with
  | nil =>
    intro i hi
    cases hi
  | cons item rest ih =>
    obtain ⟨assignment,record,e,hasked,hsubject,hstanding,hrecord,-,htakes,-,h⟩ :=
      answerEach_step h
    intro i hi
    rcases List.mem_cons.mp hi with rfl | hi
    · refine ⟨assignment,hasked,hsubject,hstanding,?_⟩
      apply List.filter_eq_nil_iff.mpr
      intro x hx
      rw [Bool.and_eq_true, decide_eq_true_eq, not_and]
      intro hitem
      rw [hrecord] at htakes
      rw [(htakes.1 x hx).2 hitem]
      exact Bool.false_ne_true
    · obtain ⟨assignment',hasked',hsubject',hstanding',hnone⟩ := ih h i hi
      refine ⟨assignment',hasked',hsubject',hstanding',?_⟩
      have hsplit : currentDecisions i.itemId (withEvent (withAnswer db item record now) e) =
          currentDecisions i.itemId db ++ currentDecisions i.itemId { db with decisions := [record] } :=
        List.filter_append ..
      rw [hsplit] at hnone
      exact (List.append_eq_nil_iff.mp hnone).1

end Batches

/-! ### What a batch refuses -/

/-- The items share a kind of target, and one identity or one target. -/
def SharesAxis (items : List ReviewItem) : Prop :=
  (∀ i ∈ items, ∀ j ∈ items, i.frozen.targetKind = j.frozen.targetKind) ∧
    ((∀ i ∈ items, ∀ j ∈ items, i.frozen.principalKey = j.frozen.principalKey) ∨
      ∀ i ∈ items, ∀ j ∈ items, i.frozen.targetKey = j.frozen.targetKey)

theorem one_value {α β : Type} [DecidableEq β] (f : α → β) (l : List α) :
    ¬ 1 < ((l.map f).dedup).length ↔ ∀ a ∈ l, ∀ b ∈ l, f a = f b := by
  rw [Nat.not_lt]
  constructor
  · intro h a ha b hb
    have ha : f a ∈ (l.map f).dedup := List.mem_dedup.mpr (List.mem_map_of_mem ha)
    have hb : f b ∈ (l.map f).dedup := List.mem_dedup.mpr (List.mem_map_of_mem hb)
    cases hvalues : (l.map f).dedup with
    | nil =>
      rw [hvalues] at ha
      cases ha
    | cons x rest =>
      rw [hvalues] at h ha hb
      have hrest : rest = [] := List.length_eq_zero_iff.mp (Nat.le_zero.mp (Nat.le_of_succ_le_succ h))
      rw [hrest, List.mem_singleton] at ha hb
      rw [ha, hb]
  · intro h
    have hnodup := List.nodup_dedup (l.map f)
    cases hvalues : (l.map f).dedup with
    | nil => exact Nat.zero_le 1
    | cons x rest =>
      cases rest with
      | nil => exact le_refl 1
      | cons y rest =>
        have hmem : ∀ z ∈ (x :: y :: rest), ∃ a ∈ l, f a = z := by
          intro z hz
          rw [← hvalues, List.mem_dedup] at hz
          obtain ⟨a,ha,hz⟩ := List.mem_map.mp hz
          exact ⟨a,ha,hz⟩
        obtain ⟨a,ha,rfl⟩ := hmem x (by simp)
        obtain ⟨b,hb,rfl⟩ := hmem y (by simp)
        rw [hvalues, h a ha b hb] at hnodup
        simp at hnodup

theorem requireHomogeneous_ok {items : List ReviewItem} {u : Unit} :
    requireHomogeneous items = .ok u ↔ SharesAxis items := by
  have hkinds := one_value (fun i : ReviewItem => i.frozen.targetKind) items
  have hprincipals := one_value (fun i : ReviewItem => i.frozen.principalKey) items
  have htargets := one_value (fun i : ReviewItem => i.frozen.targetKey) items
  unfold requireHomogeneous SharesAxis
  rw [← hkinds, ← hprincipals, ← htargets]
  dsimp only
  split
  next hkind => exact iff_of_false (fun h => nomatch h) fun h => h.1 hkind
  next hkind =>
    split
    next hboth =>
      exact iff_of_false (fun h => nomatch h) fun h => h.2.elim (· hboth.1) (· hboth.2)
    next hboth => exact iff_of_true rfl ⟨hkind,not_and_or.mp hboth⟩

/-- A batch. -/
def batch (actor : Actor) (campaignId : Uuid) (itemIds : List Uuid) (decision : DecisionKind)
    (rationale : Option String) (drifts : ReviewItem → Bool) (now : UtcMoment)
    (fresh : ℕ → Uuid) : ServiceCall where
  actor := actor
  now := now
  fresh := fresh
  request := .bulkDecide campaignId itemIds decision rationale drifts

/-- The items of a campaign that a batch names. -/
def named (campaignId : Uuid) (itemIds : List Uuid) (db : Store) : List ReviewItem :=
  db.items.filter fun i => i.campaignId = campaignId && itemIds.contains i.itemId

/-- The identities that a first answer gives out are new. -/
def New (fresh : ℕ → Uuid) (db : Store) : Prop :=
  (∀ d ∈ db.decisions, d.decisionId ≠ fresh 0) ∧ ∀ e ∈ db.events, e.eventId ≠ fresh 2

/-- Why a batch is no single question, or one of its answers no answer on its own. -/
inductive Unfit (casefold sha256 : String → String) (actor : Actor) (campaignId : Uuid)
    (itemIds : List Uuid) (decision : DecisionKind) (rationale : Option String)
    (drifts : ReviewItem → Bool) (now : UtcMoment) (db : Store) : Prop where
  | refused (itemId : Uuid) (fresh : ℕ → Uuid) (e : GovernanceError) (hin : itemId ∈ itemIds)
      (hnew : New fresh db)
      (h : (serve casefold sha256 (single actor decision rationale now fresh itemId) db).1 = .error e)
  | mixed (h : ¬ SharesAxis (named campaignId itemIds db))
  | decided (item : ReviewItem) (hin : item ∈ named campaignId itemIds db)
      (h : item.status = .decided)
  | moved (item : ReviewItem) (hin : item ∈ named campaignId itemIds db) (h : drifts item = true)

section Serving
variable {casefold sha256 : String → String} {actor : Actor} {campaignId : Uuid}
  {itemIds : List Uuid} {decision : DecisionKind} {rationale : Option String}
  {drifts : ReviewItem → Bool} {now : UtcMoment} {fresh : ℕ → Uuid} {db db' : Store}

theorem mem_requested {itemId : Uuid} : itemId ∈ firstByKey id itemIds ↔ itemId ∈ itemIds :=
  CampaignReading.mem_firstByKey fun _ _ _ _ h => h

/-- The items that a batch reads are those it names. -/
theorem itemsByIds_perm :
    (itemsByIds campaignId (firstByKey id itemIds) db).Perm (named campaignId itemIds db) := by
  refine (sortedBy_perm _ _).trans (List.Perm.of_eq ?_)
  apply List.filter_congr
  intro i hi
  rw [List.contains_eq_mem]
  simp only [mem_requested]

/-- What a batch that was taken found. -/
theorem bulkDecide_ok {reply : Reply}
    (h : (bulkDecide sha256 actor campaignId itemIds decision rationale drifts now fresh).alone
      db = .ok (reply,db')) :
    ∃ campaign cleaned items records, campaignRow campaignId db = some campaign ∧
      campaign.status = .active ∧
      validateRationale decision rationale campaign.commentRequirement = .ok cleaned ∧
      items.Perm (named campaignId itemIds db) ∧ (∀ itemId ∈ itemIds, itemId ∈ items.map (·.itemId)) ∧
      SharesAxis items ∧ (∀ i ∈ items, i.status ≠ .decided ∧ drifts i = false) ∧
      (answerEach sha256 actor campaign decision cleaned items.length now fresh 0 items).alone db =
        .ok (records,db') ∧
      reply = fun _ => .ok (.decidedAll campaignId decision records) := by
  obtain ⟨campaign,hcampaign,h⟩ := getCampaign_ok h
  simp only [require_ok, read_ok, ofExcept_ok] at h
  obtain ⟨hactive,-,-,hmissing,u,haxis,hundecided,hunmoved,cleaned,hreason,h⟩ := h
  rw [bind_ok] at h
  obtain ⟨records,mid,heach,h⟩ := h
  rw [done_ok] at h
  obtain ⟨rfl,rfl⟩ := Prod.mk.inj h
  refine ⟨campaign,cleaned,_,records,hcampaign,hactive,hreason,itemsByIds_perm,?_,
    requireHomogeneous_ok.mp haxis,?_,heach,rfl⟩
  · intro itemId hin
    by_contra habsent
    have hmem : itemId ∈ (firstByKey id itemIds).filter
        (· ∉ (itemsByIds campaignId (firstByKey id itemIds) db).map (·.itemId)) :=
      List.mem_filter.mpr ⟨mem_requested.mpr hin,by simpa using habsent⟩
    rw [hmissing] at hmem
    cases hmem
  · intro i hi
    constructor
    · intro hdecided
      have hmem : i ∈ (itemsByIds campaignId (firstByKey id itemIds) db).filter
          (·.status = .decided) := List.mem_filter.mpr ⟨hi,by simpa using hdecided⟩
      rw [List.map_eq_nil_iff.mp hundecided] at hmem
      cases hmem
    · rw [Bool.eq_false_iff]
      intro hmoved
      have hmem := List.mem_filter.mpr ⟨hi,hmoved⟩
      rw [List.map_eq_nil_iff.mp hunmoved] at hmem
      cases hmem

theorem serve_batch {reply : Reply}
    (h : (bulkDecide sha256 actor campaignId itemIds decision rationale drifts now fresh).alone
      db = .ok (reply,db')) :
    serve casefold sha256
        (batch actor campaignId itemIds decision rationale drifts now fresh) db = (reply db',db') :=
  perform_of_committed (c := ⟨program casefold sha256
    (batch actor campaignId itemIds decision rationale drifts now fresh),fun reply db => reply db⟩) h

/-- A batch that was taken leaves what its answers leave when they are given one call after
the other. -/
theorem batch_taken (hids : (db.items.map (·.itemId)).Nodup) {answer : Answer}
    (h : serve casefold sha256
      (batch actor campaignId itemIds decision rationale drifts now fresh) db = (.ok answer,db')) :
    ∃ order records after, order.Perm itemIds.dedup ∧
      answer = .decidedAll campaignId decision records ∧
      DecidedEach casefold sha256 actor decision rationale now fresh 0 order records db after ∧
      Alike order.length db db' after := by
  cases hbody : (bulkDecide sha256 actor campaignId itemIds decision rationale drifts now
    fresh).alone db with
  | error e =>
    rw [serve, perform_of_refused hbody] at h
    cases h
  | ok r =>
    obtain ⟨reply,mid⟩ := r
    rw [serve_batch hbody] at h
    obtain ⟨hanswer,rfl⟩ := Prod.mk.inj h
    obtain ⟨campaign,cleaned,items,records,hcampaign,hactive,hreason,hitems,hall,-,-,heach,rfl⟩ :=
      bulkDecide_ok hbody
    obtain ⟨hid,-⟩ := campaignRow_some hcampaign
    have hnodup : (items.map (·.itemId)).Nodup := by
      rw [(hitems.map _).nodup_iff]
      exact hids.sublist (List.filter_sublist.map _)
    have hmem : ∀ i ∈ items, i ∈ db.items ∧ i.campaignId = campaignId ∧ i.itemId ∈ itemIds := by
      intro i hi
      obtain ⟨hi,hnamed⟩ := List.mem_filter.mp (hitems.mem_iff.mp hi)
      rw [Bool.and_eq_true, decide_eq_true_eq, List.contains_iff_mem] at hnamed
      exact ⟨hi,hnamed⟩
    have hfound : ∀ i ∈ items, db.items.find? (·.itemId = i.itemId) = some i ∧
        i.campaignId = campaign.campaignId := by
      intro i hi
      obtain ⟨hi,hon,-⟩ := hmem i hi
      exact ⟨KeyedTables.find_keyed hids hi,hon.trans hid.symm⟩
    rw [← bind_pure (answerEach _ _ _ _ _ _ _ _ _ _)] at heach
    obtain ⟨after,records',singles,hdone,hsingles,halike⟩ := answerEach_singles
      casefold (Alike.start db) hfound hnodup (hid.symm ▸ hcampaign) hactive hreason
      heach
    rw [done_ok] at hdone
    obtain ⟨rfl,rfl⟩ := Prod.mk.inj hdone
    refine ⟨items.map (·.itemId),records,singles,?_,(Except.ok.inj hanswer).symm,hsingles,?_⟩
    · rw [List.perm_ext_iff_of_nodup hnodup (List.nodup_dedup _)]
      intro itemId
      rw [List.mem_dedup]
      constructor
      · intro hin
        obtain ⟨i,hi,rfl⟩ := List.mem_map.mp hin
        exact (hmem i hi).2.2
      · exact hall itemId
    · rw [List.length_map]
      exact halike

/-- A batch that asks for more than one question, or for an answer that is none on its own, is
refused and changes nothing. -/
theorem batch_refused (hids : (db.items.map (·.itemId)).Nodup)
    (hunfit : Unfit casefold sha256 actor campaignId itemIds decision rationale drifts now db) :
    ∃ e, serve casefold sha256
      (batch actor campaignId itemIds decision rationale drifts now fresh) db = (.error e,db) := by
  cases hbody : (bulkDecide sha256 actor campaignId itemIds decision rationale drifts now
    fresh).alone db with
  | error e => exact ⟨e,perform_of_refused (c := ⟨program casefold sha256
      (batch actor campaignId itemIds decision rationale drifts now fresh),
        fun reply db => reply db⟩) hbody⟩
  | ok r =>
    exfalso
    obtain ⟨campaign,cleaned,items,records,hcampaign,hactive,hreason,hitems,hall,haxis,hfit,heach,-⟩ :=
      bulkDecide_ok hbody
    cases hunfit with
    | refused itemId fresh' e hin hnew h =>
      obtain ⟨i,hi,rfl⟩ := List.mem_map.mp (hall itemId hin)
      rw [← bind_pure (answerEach _ _ _ _ _ _ _ _ _ _)] at heach
      obtain ⟨assignment,hasked,hsubject,hstanding,hnone⟩ := answerEach_admits heach i hi
      obtain ⟨hrow,hnamed⟩ := List.mem_filter.mp (hitems.mem_iff.mp hi)
      rw [Bool.and_eq_true, decide_eq_true_eq] at hnamed
      have hadmitted : Admitted db actor decision rationale i campaign assignment cleaned :=
        ⟨KeyedTables.find_keyed hids hrow,hnamed.1 ▸ hcampaign,hactive,hasked,hsubject,hstanding,
          hreason⟩
      obtain ⟨-,c,hc,hcid,-⟩ := campaignRow_some hcampaign
      have htakes : Takes db (firstAnswer actor i campaign assignment decision cleaned now
          (fresh' 0)) := by
        refine ⟨fun x hx => ⟨hnew.1 x hx,fun hon => ?_⟩,⟨i,hrow,rfl⟩,c,hc,hcid.trans hnamed.1.symm⟩
        by_contra hcurrent
        have hx : x ∈ currentDecisions i.itemId db := by
          apply List.mem_filter.mpr
          refine ⟨hx,?_⟩
          rw [Bool.and_eq_true, decide_eq_true_eq]
          exact ⟨hon,eq_true_of_ne_false hcurrent⟩
        rw [hnone] at hx
        cases hx
      rw [decide_first casefold hadmitted hnone rfl rfl htakes (unclaimed_of_new hnew.2)] at h
      cases h
    | mixed h =>
      apply h
      refine ⟨fun i hi j hj => haxis.1 i (hitems.mem_iff.mpr hi) j (hitems.mem_iff.mpr hj),
        haxis.2.imp ?_ ?_⟩
      · exact fun h i hi j hj => h i (hitems.mem_iff.mpr hi) j (hitems.mem_iff.mpr hj)
      · exact fun h i hi j hj => h i (hitems.mem_iff.mpr hi) j (hitems.mem_iff.mpr hj)
    | decided item hin h => exact (hfit item (hitems.mem_iff.mpr hin)).1 h
    | moved item hin h =>
      rw [(hfit item (hitems.mem_iff.mpr hin)).2] at h
      cases h

/-- A batch equals the same answers one at a time, or nothing. -/
theorem batch_as_singles (hids : (db.items.map (·.itemId)).Nodup) :
    (∀ answer db', serve casefold sha256
        (batch actor campaignId itemIds decision rationale drifts now fresh) db =
          (.ok answer,db') →
      ∃ order records after, order.Perm itemIds.dedup ∧
        answer = .decidedAll campaignId decision records ∧
        DecidedEach casefold sha256 actor decision rationale now fresh 0 order records db after ∧
        Alike order.length db db' after) ∧
    (Unfit casefold sha256 actor campaignId itemIds decision rationale drifts now db →
      ∃ e, serve casefold sha256
        (batch actor campaignId itemIds decision rationale drifts now fresh) db = (.error e,db)) :=
  ⟨fun _ _ h => batch_taken hids h,batch_refused hids⟩

end Serving

namespace Sample
open Adg.StandingProposals.Sample

def alice : Actor := { subject := "alice" }

def fresh (n : ℕ) : Uuid := "b" ++ String.ofList (List.replicate n '+')

/-- An open campaign, whose two items are asked of one reviewer. -/
def opened : Store := StandingProposals.Sample.after opening

/-- Both are certified together. -/
def both : ServiceCall := batch alice "c" ["i", "i+"] .certify none (fun _ => false) noon fresh

end Sample

/-- What certifying both items together leaves is what certifying one after the other does. -/
theorem batch_as_singles_sample :
    ∃ answer db', serve id (fun _ => "") Sample.both Sample.opened = (.ok answer,db') ∧
      ∃ order records after, order.Perm ["i", "i+"].dedup ∧
        answer = .decidedAll "c" .certify records ∧
        DecidedEach id (fun _ => "") Sample.alice .certify none StandingProposals.Sample.noon
          Sample.fresh 0 order records Sample.opened after ∧
        Alike order.length Sample.opened db' after := by
  have htaken : (serve id (fun _ => "") Sample.both Sample.opened).1.toOption.isSome = true := by
    decide +kernel
  obtain ⟨answer,hanswer⟩ := Option.isSome_iff_exists.mp htaken
  have hserve : serve id (fun _ => "") Sample.both Sample.opened =
      (.ok answer,(serve id (fun _ => "") Sample.both Sample.opened).2) :=
    Prod.ext (Fallible.toOption_some.mp hanswer) rfl
  exact ⟨answer,_,hserve,(batch_as_singles
    (kept_afterAll id (fun _ => "") StandingProposals.Sample.opening).itemIds).1 answer _ hserve⟩

end Adg.BatchDecisions
