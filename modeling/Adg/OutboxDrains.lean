import Adg.RetrySchedules

/-!
# Draining the outbox

A pass claims deliveries that are due, oldest first, and hands each to its sink
once. What the sink answers decides whether the delivery is over, tried again
later or given up. A pass that cannot compute when to try again ends there, and
what it had written is undone.
-/

set_option autoImplicit false

namespace Adg.OutboxDrains
open Adg.ObjectVersions Adg.AlertModel Adg.RetrySchedules

/-! ### The outbox -/

inductive DeliveryStatus where
  | pending
  | delivered
  | failed
  | abandoned
  deriving DecidableEq, Repr

/-- A UUID as text. -/
abbrev DeliveryId := String

structure DeliveryEnvelope where
  eventId : String
  alertKey : String
  trigger : AlertTrigger
  transition : AlertTransition
  sinkName : String
  occurredAt : Instant
  summary : String
  payload : Payload
  folds : ℕ := 1
  watchId : Option String := none
  watchLabel : Option String := none

/-- A row of `alert_deliveries`. -/
structure Delivery where
  deliveryId : DeliveryId
  envelope : DeliveryEnvelope
  status : DeliveryStatus
  attempts : ℕ
  lastError : Option String
  enqueuedAt : Instant
  nextAttemptAt : Instant
  lastAttemptAt : Option Instant
  deliveredAt : Option Instant

structure Outbox where
  rows : List Delivery
  unique : (rows.map (·.deliveryId)).Nodup

def Outbox.empty : Outbox := ⟨[],List.nodup_nil⟩

def amended (id : DeliveryId) (f : Delivery → Delivery) (d : Delivery) : Delivery :=
  if d.deliveryId = id then { f d with deliveryId := id } else d

theorem amended_id (id : DeliveryId) (f : Delivery → Delivery) (d : Delivery) :
    (amended id f d).deliveryId = d.deliveryId := by
  unfold amended
  split_ifs with h
  · exact h.symm
  · rfl

theorem amended_ids (id : DeliveryId) (f : Delivery → Delivery) (rows : List Delivery) :
    (rows.map (amended id f)).map (·.deliveryId) = rows.map (·.deliveryId) := by
  rw [List.map_map]
  exact List.map_congr_left fun d _ => amended_id id f d

theorem amended_unique {rows : List Delivery} (h : (rows.map (·.deliveryId)).Nodup)
    (id : DeliveryId) (f : Delivery → Delivery) :
    ((rows.map (amended id f)).map (·.deliveryId)).Nodup := by
  rw [amended_ids]
  exact h

/-- `UPDATE alert_deliveries … WHERE delivery_id = id`. -/
def Outbox.amend (o : Outbox) (id : DeliveryId) (f : Delivery → Delivery) : Outbox :=
  ⟨o.rows.map (amended id f),amended_unique o.unique id f⟩

/-- `enqueue`, of one delivery. -/
def pendingDelivery (id : DeliveryId) (envelope : DeliveryEnvelope) (now : Instant) : Delivery where
  deliveryId := id
  envelope := envelope
  status := .pending
  attempts := 0
  lastError := none
  enqueuedAt := now
  nextAttemptAt := now
  lastAttemptAt := none
  deliveredAt := none

theorem enqueued_unique {o : Outbox} {d : Delivery}
    (hfresh : d.deliveryId ∉ o.rows.map (·.deliveryId)) :
    ((o.rows ++ [d]).map (·.deliveryId)).Nodup := by
  rw [List.map_append]
  apply List.Nodup.append o.unique (List.nodup_singleton _)
  intro id hid hlast
  have hsame : id = d.deliveryId := List.mem_singleton.mp hlast
  rw [hsame] at hid
  exact hfresh hid

def Outbox.enqueue (o : Outbox) (d : Delivery)
    (hfresh : d.deliveryId ∉ o.rows.map (·.deliveryId)) : Outbox :=
  ⟨o.rows ++ [d],enqueued_unique hfresh⟩

/-! ### Claims -/

def Delivery.waits (d : Delivery) : Bool := d.status = .pending || d.status = .failed

/-- What `claim` selects. -/
def due (now : Instant) (d : Delivery) : Bool := d.waits && d.nextAttemptAt ≤ now

/-- What `claim` orders by. -/
def claimKey (d : Delivery) : Instant ×ₗ Instant := toLex (d.nextAttemptAt,d.enqueuedAt)

/-- An answer of `claim`. Rows of one instant are in any order. -/
def Claimed (o : Outbox) (now : Instant) (limit : ℕ) (claimed : List Delivery) : Prop :=
  ∃ sorted : List Delivery, sorted.Perm (o.rows.filter (due now)) ∧
    sorted.Pairwise (fun a b => claimKey a ≤ claimKey b) ∧ claimed = sorted.take limit

structure ClaimedDelivery where
  deliveryId : DeliveryId
  envelope : DeliveryEnvelope
  attempts : ℕ
  firstEnqueuedAt : Instant
  lastError : Option String

def Delivery.claimed (d : Delivery) : ClaimedDelivery where
  deliveryId := d.deliveryId
  envelope := d.envelope
  attempts := d.attempts
  firstEnqueuedAt := d.enqueuedAt
  lastError := d.lastError

/-! ### Records -/

/-- `record_success`. -/
def recordSuccess (now : Instant) (d : Delivery) : Delivery :=
  { d with
    status := .delivered
    attempts := d.attempts+1
    lastAttemptAt := some now
    deliveredAt := some now
    lastError := none }

/-- `record_failure`. -/
def recordFailure (now : Instant) (error : String) (retryAt : Option Instant) (d : Delivery) :
    Delivery :=
  { d with
    status := if retryAt = none then .abandoned else .failed
    attempts := d.attempts+1
    lastAttemptAt := some now
    lastError := some (String.ofList (error.toList.take 2000))
    nextAttemptAt := retryAt.getD now }

/-! ### Sinks -/

structure DeliveryResult where
  delivered : Bool
  detail : Option String := none
  retryable : Bool := true
  deriving DecidableEq, Repr

/-- A sink answers, or raises in spite of the protocol. -/
inductive Answer where
  | result (r : DeliveryResult)
  | raised (kind message : String)

/-- `_attempt`. -/
def attempt : Answer → DeliveryResult
  | .result r => r
  | .raised kind message =>
    { delivered := false
      detail := some s!"sink raised {kind}: {message}"
      retryable := true }

/-- What the sink does at the n-th attempt of a pass. -/
abbrev Sink := ℕ → DeliveryEnvelope → Answer

/-- A dispatcher: its sinks by name, its schedule and its ceiling. -/
structure AlertDispatcher where
  sinks : String → Option Sink
  retry : RetrySchedule
  batchSize : ℕ
  repr : String → String

structure DrainReport where
  attempted : ℕ := 0
  delivered : ℕ := 0
  retrying : ℕ := 0
  abandoned : ℕ := 0
  unroutable : ℕ := 0
  hasMore : Bool := false
  errors : List String := []

/-! ### One pass -/

/-- Where a pass stands: what it has written, counted and handed to sinks. -/
structure Progress where
  outbox : Outbox
  report : DrainReport
  sent : List DeliveryId

/-- The text of a detail that is not blank. -/
def reasonOf (detail : Option String) : String :=
  match detail with
  | none => "delivery failed"
  | some text => if text = "" then "delivery failed" else text

section Passes
variable (a : AlertDispatcher) (now : Instant)

/-- One claimed delivery. The error holds what had happened when the retry could not be placed. -/
def deliver (p : Progress) (d : ClaimedDelivery) : Except Progress Progress :=
  let name := d.envelope.sinkName
  match a.sinks name with
  | none =>
    let quoted := a.repr name
    let id := d.deliveryId
    .ok { p with report := { p.report with
            unroutable := p.report.unroutable+1
            errors := p.report.errors ++ [s!"{quoted} is not a configured sink; delivery {id} left pending"] } }
  | some sink =>
    let result := attempt (sink p.report.attempted d.envelope)
    let tried : Progress := { p with
      report := { p.report with attempted := p.report.attempted+1 }
      sent := p.sent ++ [d.deliveryId] }
    if result.delivered then
      .ok { tried with
        outbox := p.outbox.amend d.deliveryId (recordSuccess now)
        report := { tried.report with delivered := p.report.delivered+1 } }
    else
      let attempts := d.attempts+1
      let reason := reasonOf result.detail
      if !result.retryable || a.retry.exhausted attempts then
        .ok { tried with
          outbox := p.outbox.amend d.deliveryId (recordFailure now reason none)
          report := { tried.report with
            abandoned := p.report.abandoned+1
            errors := p.report.errors ++ [s!"{name}: abandoned after {attempts}: {reason}"] } }
      else
        match a.retry.retryAt now attempts with
        | .error _ => .error tried
        | .ok retryAt => .ok { tried with
            outbox := p.outbox.amend d.deliveryId (recordFailure now reason (some retryAt))
            report := { tried.report with retrying := p.report.retrying+1 } }

def deliverAll : List Delivery → Progress → Except Progress Progress
  | [], p => .ok p
  | d::rest, p => match deliver a now p d.claimed with
    | .ok p' => deliverAll rest p'
    | .error p' => .error p'

/-- `drain`, of what was claimed. -/
def drain (o : Outbox) (limit : Option ℕ) (claimed : List Delivery) : Except Progress Progress :=
  let size := limit.getD a.batchSize
  if claimed = [] then .ok ⟨o,{},[]⟩
  else match deliverAll a now claimed ⟨o,{},[]⟩ with
    | .ok p => .ok { p with report := { p.report with hasMore := claimed.length = size } }
    | .error p => .error p

end Passes

/-! ### What becomes of a delivery -/

inductive Fate where
  | delivered
  | retrying
  | abandoned
  | unroutable
  deriving DecidableEq, Repr

/-- How many claimed deliveries came to an end of a kind. -/
def DrainReport.count (r : DrainReport) : Fate → ℕ
  | .delivered => r.delivered
  | .retrying => r.retrying
  | .abandoned => r.abandoned
  | .unroutable => r.unroutable

/-- The row that an end of this kind leaves. -/
def Fate.leaves (now : Instant) (d : Delivery) : Fate → Delivery → Prop
  | .delivered, r => r.status = .delivered ∧ r.attempts = d.attempts+1
  | .retrying, r => r.status = .failed ∧ r.attempts = d.attempts+1 ∧ now < r.nextAttemptAt
  | .abandoned, r => r.status = .abandoned ∧ r.attempts = d.attempts+1
  | .unroutable, r => r = d

/-- The attempts of one delivery in a pass. -/
def Fate.sends (id : DeliveryId) : Fate → List DeliveryId
  | .unroutable => []
  | _ => [id]

/-- One delivery has come to an end of some kind, and no other row has changed. -/
structure Handled (a : AlertDispatcher) (now : Instant) (d : Delivery) (p p' : Progress)
    (fate : Fate) : Prop where
  others : ∀ r : Delivery, r.deliveryId ≠ d.deliveryId → (r ∈ p'.outbox.rows ↔ r ∈ p.outbox.rows)
  ends : ∃ r ∈ p'.outbox.rows, r.deliveryId = d.deliveryId ∧ fate.leaves now d r
  sent : p'.sent = p.sent ++ fate.sends d.deliveryId
  counts : ∀ f, p'.report.count f = p.report.count f+if f = fate then 1 else 0
  attempted : p'.report.attempted = p.report.attempted+(fate.sends d.deliveryId).length
  routed : fate = .unroutable ↔ a.sinks d.envelope.sinkName = none
  spare : fate = .retrying → (d.attempts+1 : ℕ) < a.retry.maxAttempts

/-- A pass ends at a delivery whose next attempt cannot be placed. -/
structure Stuck (a : AlertDispatcher) (now : Instant) (d : Delivery) (p p' : Progress) : Prop where
  sent : p'.sent = p.sent ++ [d.deliveryId]
  routed : a.sinks d.envelope.sinkName ≠ none
  spare : (d.attempts+1 : ℕ) < a.retry.maxAttempts
  unplaced : ∀ at', a.retry.retryAt now (d.attempts+1) ≠ .ok at'

theorem amend_others {o : Outbox} {id : DeliveryId} {f : Delivery → Delivery} {r : Delivery}
    (h : r.deliveryId ≠ id) : r ∈ (o.amend id f).rows ↔ r ∈ o.rows := by
  unfold Outbox.amend
  rw [List.mem_map]
  constructor
  · rintro ⟨r',hr',rfl⟩
    rw [amended_id] at h
    unfold amended
    rw [if_neg h]
    exact hr'
  · intro hr
    refine ⟨r,hr,?_⟩
    unfold amended
    rw [if_neg h]

theorem amend_own {o : Outbox} {d : Delivery} (h : d ∈ o.rows) (f : Delivery → Delivery) :
    { f d with deliveryId := d.deliveryId } ∈ (o.amend d.deliveryId f).rows := by
  apply List.mem_map.mpr
  refine ⟨d,h,?_⟩
  unfold amended
  rw [if_pos rfl]

section Steps
variable {a : AlertDispatcher} {now : Instant}

theorem handled_amended {p : Progress} {d : Delivery} (h : d ∈ p.outbox.rows)
    {f : Delivery → Delivery} {report : DrainReport} {fate : Fate}
    (hleaves : fate.leaves now d { f d with deliveryId := d.deliveryId })
    (hcounts : ∀ g, report.count g = p.report.count g+if g = fate then 1 else 0)
    (hattempted : report.attempted = p.report.attempted+1) (hfate : fate ≠ .unroutable)
    (hrouted : a.sinks d.envelope.sinkName ≠ none)
    (hspare : fate = .retrying → (d.attempts+1 : ℕ) < a.retry.maxAttempts) :
    Handled a now d p ⟨p.outbox.amend d.deliveryId f,report,p.sent ++ [d.deliveryId]⟩ fate := by
  have hsends : fate.sends d.deliveryId = [d.deliveryId] := by
    cases fate with
    | unroutable => exact absurd rfl hfate
    | _ => rfl
  constructor
  · exact fun r hr => amend_others hr
  · exact ⟨_,amend_own h f,rfl,hleaves⟩
  · rw [hsends]
  · exact hcounts
  · rw [hsends]
    exact hattempted
  · exact ⟨fun hbad => absurd hbad hfate,fun hbad => absurd hbad hrouted⟩
  · exact hspare

/-- A claimed delivery comes to an end, or the pass ends at it. -/
theorem deliver_cases {p : Progress} {d : Delivery} (h : d ∈ p.outbox.rows) :
    (∃ fate p', deliver a now p d.claimed = .ok p' ∧ Handled a now d p p' fate) ∨
    ∃ p', deliver a now p d.claimed = .error p' ∧ Stuck a now d p p' := by
  unfold deliver
  cases hsink : a.sinks d.claimed.envelope.sinkName with
  | none =>
    left
    simp only [hsink]
    refine ⟨.unroutable,_,rfl,fun _ _ => Iff.rfl,⟨d,h,rfl,rfl⟩,(List.append_nil _).symm,?_,rfl,
      ⟨fun _ => hsink,fun _ => rfl⟩,fun hfate => ?_⟩
    · intro f
      cases f <;> rfl
    · cases hfate
  | some sink =>
    have hrouted : a.sinks d.envelope.sinkName ≠ none := by
      intro hnone
      cases hsink.symm.trans hnone
    simp only [hsink]
    by_cases hdelivered : (attempt (sink p.report.attempted d.claimed.envelope)).delivered = true
    · left
      simp only [if_pos hdelivered]
      refine ⟨.delivered,_,rfl,handled_amended h ⟨rfl,rfl⟩ ?_ rfl (by decide) hrouted ?_⟩
      · intro f
        cases f <;> rfl
      · intro hfate
        cases hfate
    · simp only [if_neg hdelivered]
      by_cases hover : (!(attempt (sink p.report.attempted d.claimed.envelope)).retryable ||
          a.retry.exhausted (d.claimed.attempts+1)) = true
      · left
        simp only [if_pos hover]
        refine ⟨.abandoned,_,rfl,handled_amended h ⟨rfl,rfl⟩ ?_ rfl (by decide) hrouted ?_⟩
        · intro f
          cases f <;> rfl
        · intro hfate
          cases hfate
      · simp only [if_neg hover]
        have hspare : (d.attempts+1 : ℕ) < a.retry.maxAttempts := by
          rw [Bool.or_eq_true, not_or] at hover
          have hleft := hover.2
          unfold RetrySchedule.exhausted at hleft
          rw [decide_eq_true_eq] at hleft
          exact not_le.mp hleft
        cases hplaced : a.retry.retryAt now (d.claimed.attempts+1) with
        | ok at' =>
          left
          refine ⟨.retrying,_,rfl,handled_amended h ⟨rfl,rfl,?_⟩ ?_ rfl (by decide) hrouted
            fun _ => hspare⟩
          · exact retryAt_later a.retry (Nat.le_add_left _ _) hplaced
          · intro f
            cases f <;> rfl
        | error e =>
          right
          refine ⟨_,rfl,rfl,hrouted,hspare,?_⟩
          intro at' hat
          cases hplaced.symm.trans hat

end Steps

/-! ### What becomes of a batch -/

/-- What a pass hands to sinks, of deliveries and their ends. -/
def sentBy : List Delivery → List Fate → List DeliveryId
  | d::ds, f::fs => f.sends d.deliveryId ++ sentBy ds fs
  | _, _ => []

/-- What an end of some kind says of a delivery and of the row that is left. -/
structure Ended (a : AlertDispatcher) (now : Instant) (o : Outbox) (d : Delivery) (fate : Fate) :
    Prop where
  leaves : ∃ r ∈ o.rows, r.deliveryId = d.deliveryId ∧ fate.leaves now d r
  routed : fate = .unroutable ↔ a.sinks d.envelope.sinkName = none
  spare : fate = .retrying → (d.attempts+1 : ℕ) < a.retry.maxAttempts

/-- Deliveries have come to their ends, one each, and no other row has changed. -/
structure Passed (a : AlertDispatcher) (now : Instant) (ds : List Delivery) (p p' : Progress)
    (fates : List Fate) : Prop where
  others : ∀ r : Delivery, r.deliveryId ∉ ds.map (·.deliveryId) →
    (r ∈ p'.outbox.rows ↔ r ∈ p.outbox.rows)
  ends : List.Forall₂ (Ended a now p'.outbox) ds fates
  sent : p'.sent = p.sent ++ sentBy ds fates
  counts : ∀ f, p'.report.count f = p.report.count f+fates.count f
  attempted : p'.report.attempted = p.report.attempted+(sentBy ds fates).length

section Batches
variable {a : AlertDispatcher} {now : Instant}

theorem passed_nil (p : Progress) : Passed a now [] p p [] :=
  ⟨fun _ _ => Iff.rfl,.nil,(List.append_nil _).symm,fun _ => rfl,rfl⟩

theorem Passed.cons {d : Delivery} {ds : List Delivery} {p p₁ p₂ : Progress} {fate : Fate}
    {fates : List Fate} (hd : Handled a now d p p₁ fate) (h : Passed a now ds p₁ p₂ fates)
    (hfresh : d.deliveryId ∉ ds.map (·.deliveryId)) :
    Passed a now (d::ds) p p₂ (fate::fates) := by
  constructor
  · intro r hr
    rw [List.map_cons, List.mem_cons, not_or] at hr
    exact (h.others r hr.2).trans (hd.others r hr.1)
  · refine .cons ⟨?_,hd.routed,hd.spare⟩ h.ends
    obtain ⟨r,hr,hid,hleaves⟩ := hd.ends
    refine ⟨r,(h.others r ?_).mpr hr,hid,hleaves⟩
    rw [hid]
    exact hfresh
  · rw [h.sent, hd.sent, List.append_assoc]
    rfl
  · intro f
    rw [h.counts, hd.counts, List.count_cons]
    have hsame : (if f = fate then 1 else 0) = if (fate == f) = true then 1 else 0 := by
      by_cases hf : f = fate
      · rw [if_pos hf, if_pos (beq_iff_eq.mpr hf.symm)]
      · rw [if_neg hf, if_neg fun hb => hf (beq_iff_eq.mp hb).symm]
    omega
  · rw [h.attempted, hd.attempted]
    have hsent : sentBy (d::ds) (fate::fates) = fate.sends d.deliveryId ++ sentBy ds fates := rfl
    rw [hsent, List.length_append]
    omega

/-- A batch is passed through, or the pass ends at one delivery of it. -/
theorem deliverAll_cases {ds : List Delivery} {p : Progress}
    (hrows : ∀ d ∈ ds, d ∈ p.outbox.rows) (hunique : (ds.map (·.deliveryId)).Nodup) :
    (∃ fates p', deliverAll a now ds p = .ok p' ∧ Passed a now ds p p' fates) ∨
    ∃ front d rest fates p₁ p', ds = front ++ d::rest ∧ deliverAll a now ds p = .error p' ∧
      Passed a now front p p₁ fates ∧ Stuck a now d p₁ p' := by
  induction ds generalizing p with
  | nil => exact .inl ⟨[],p,rfl,passed_nil p⟩
  | cons d ds ih =>
    rw [List.map_cons, List.nodup_cons] at hunique
    rcases @deliver_cases a now p d (hrows d List.mem_cons_self) with
      ⟨fate,p₁,hok,hd⟩ | ⟨p',herror,hstuck⟩
    · have hstep : deliverAll a now (d::ds) p = deliverAll a now ds p₁ := by
        show (match deliver a now p d.claimed with
          | .ok p' => deliverAll a now ds p'
          | .error p' => .error p') = _
        rw [hok]
      have hkept : ∀ e ∈ ds, e ∈ p₁.outbox.rows := by
        intro e he
        apply (hd.others e _).mpr (hrows e (List.mem_cons_of_mem _ he))
        intro hid
        apply hunique.1
        rw [← hid]
        exact List.mem_map_of_mem he
      rw [hstep]
      rcases ih hkept hunique.2 with ⟨fates,p',hrest,hpassed⟩ |
        ⟨front,e,rest,fates,p₂,p',hds,hrest,hpassed,hstuck⟩
      · exact .inl ⟨_,p',hrest,hpassed.cons hd hunique.1⟩
      · refine .inr ⟨d::front,e,rest,_,p₂,p',by rw [hds]; rfl,hrest,hpassed.cons hd ?_,hstuck⟩
        intro hmem
        apply hunique.1
        rw [hds, List.map_append]
        exact List.mem_append_left _ hmem
    · right
      refine ⟨[],d,ds,[],p,p',rfl,?_,passed_nil p,hstuck⟩
      show (match deliver a now p d.claimed with
        | .ok p' => deliverAll a now ds p'
        | .error p' => .error p') = _
      rw [herror]

theorem sentBy_other {ds : List Delivery} {id : DeliveryId} (h : id ∉ ds.map (·.deliveryId))
    (fates : List Fate) : id ∉ sentBy ds fates := by
  induction ds generalizing fates with
  | nil => exact List.not_mem_nil
  | cons d ds ih =>
    cases fates with
    | nil => exact List.not_mem_nil
    | cons f fates =>
      rw [List.map_cons, List.mem_cons, not_or] at h
      have hsent : sentBy (d::ds) (f::fates) = f.sends d.deliveryId ++ sentBy ds fates := rfl
      rw [hsent, List.mem_append, not_or]
      refine ⟨?_,ih h.2 fates⟩
      cases f with
      | unroutable => exact List.not_mem_nil
      | _ => exact fun hid => h.1 (List.mem_singleton.mp hid)

/-- A delivery of a batch has one end, and is sent as often as that end sends it. -/
theorem sentBy_own {R : Delivery → Fate → Prop} {ds : List Delivery} {fates : List Fate}
    (h : List.Forall₂ R ds fates) (hunique : (ds.map (·.deliveryId)).Nodup) {d : Delivery}
    (hd : d ∈ ds) : ∃ fate, R d fate ∧
      (sentBy ds fates).count d.deliveryId = (fate.sends d.deliveryId).length := by
  induction h with
  | nil => cases hd
  | @cons e f ds fates hf _ ih =>
    rw [List.map_cons, List.nodup_cons] at hunique
    have hsent : sentBy (e::ds) (f::fates) = f.sends e.deliveryId ++ sentBy ds fates := rfl
    rw [hsent, List.count_append]
    rcases List.mem_cons.mp hd with rfl | hd
    · refine ⟨f,hf,?_⟩
      rw [List.count_eq_zero.mpr (sentBy_other hunique.1 fates), Nat.add_zero]
      cases f with
      | unroutable => rfl
      | _ => exact List.count_singleton_self
    · obtain ⟨fate,hfate,hcount⟩ := ih hunique.2 hd
      refine ⟨fate,hfate,?_⟩
      have hne : e.deliveryId ≠ d.deliveryId := by
        intro heq
        apply hunique.1
        rw [heq]
        exact List.mem_map_of_mem hd
      have hnone : (f.sends e.deliveryId).count d.deliveryId = 0 := by
        apply List.count_eq_zero.mpr
        cases f with
        | unroutable => exact List.not_mem_nil
        | _ => exact fun hid => hne (List.mem_singleton.mp hid).symm
      rw [hnone, hcount, Nat.zero_add]

theorem Fate.sends_length (f : Fate) (id : DeliveryId) : (f.sends id).length ≤ 1 := by
  cases f <;> simp [Fate.sends]

theorem sentBy_nodup {R : Delivery → Fate → Prop} {ds : List Delivery} {fates : List Fate}
    (h : List.Forall₂ R ds fates) (hunique : (ds.map (·.deliveryId)).Nodup) :
    (sentBy ds fates).Nodup := by
  apply List.nodup_iff_count_le_one.mpr
  intro id
  by_cases hid : id ∈ ds.map (·.deliveryId)
  · obtain ⟨d,hd,rfl⟩ := List.mem_map.mp hid
    obtain ⟨fate,-,hcount⟩ := sentBy_own h hunique hd
    rw [hcount]
    exact fate.sends_length d.deliveryId
  · rw [List.count_eq_zero.mpr (sentBy_other hid fates)]
    exact Nat.zero_le 1

theorem claimed_due {o : Outbox} {limit : ℕ} {claimed : List Delivery}
    (h : Claimed o now limit claimed) {d : Delivery} (hd : d ∈ claimed) :
    d ∈ o.rows ∧ due now d = true := by
  obtain ⟨sorted,hperm,-,rfl⟩ := h
  exact List.mem_filter.mp (hperm.mem_iff.mp (List.mem_of_mem_take hd))

theorem claimed_unique {o : Outbox} {limit : ℕ} {claimed : List Delivery}
    (h : Claimed o now limit claimed) : (claimed.map (·.deliveryId)).Nodup := by
  obtain ⟨sorted,hperm,-,rfl⟩ := h
  have hdue : ((o.rows.filter (due now)).map (·.deliveryId)).Nodup :=
    o.unique.sublist (List.filter_sublist.map _)
  have hsorted : (sorted.map (·.deliveryId)).Nodup := (hperm.map _).nodup_iff.mpr hdue
  exact hsorted.sublist ((List.take_sublist _ _).map _)

/-- A row of an outbox is the row of its id. -/
theorem row_unique {o : Outbox} {d e : Delivery} (hd : d ∈ o.rows) (he : e ∈ o.rows)
    (hid : d.deliveryId = e.deliveryId) : d = e := List.inj_on_of_nodup_map o.unique hd he hid

/-- Every claimed delivery is attempted at most once and comes to one end, and the report counts
the ends. -/
structure Accounted (a : AlertDispatcher) (now : Instant) (o : Outbox) (claimed : List Delivery)
    (p : Progress) : Prop where
  attempted_once : p.sent.Nodup
  ends : ∃ fates, List.Forall₂ (Ended a now p.outbox) claimed fates ∧ p.sent = sentBy claimed fates ∧
    ∀ f, p.report.count f = fates.count f
  attempted : p.report.attempted = p.sent.length
  total : p.report.delivered+p.report.retrying+p.report.abandoned+p.report.unroutable =
    claimed.length
  others : ∀ r : Delivery, r.deliveryId ∉ claimed.map (·.deliveryId) →
    (r ∈ p.outbox.rows ↔ r ∈ o.rows)

theorem fates_total (fates : List Fate) : fates.count .delivered+fates.count .retrying+
    fates.count .abandoned+fates.count .unroutable = fates.length := by
  induction fates with
  | nil => rfl
  | cons f fates ih =>
    cases f <;> simp only [List.count_cons, List.length_cons] <;> simp <;> omega

/-- A pass accounts for what it claimed, or ends where no next attempt can be placed. -/
theorem drain_cases {o : Outbox} {limit : Option ℕ} {claimed : List Delivery}
    (h : Claimed o now (limit.getD a.batchSize) claimed) :
    (∃ p, drain a now o limit claimed = .ok p ∧ Accounted a now o claimed p) ∨
    ∃ front d rest fates p₁ p, claimed = front ++ d::rest ∧ drain a now o limit claimed = .error p ∧
      Passed a now front ⟨o,{},[]⟩ p₁ fates ∧ Stuck a now d p₁ p := by
  unfold drain
  have hunique := claimed_unique h
  by_cases hempty : claimed = []
  · left
    simp only [if_pos hempty]
    refine ⟨_,rfl,List.nodup_nil,⟨[],?_,?_,?_⟩,rfl,?_,fun _ _ => Iff.rfl⟩
    · rw [hempty]
      exact .nil
    · rw [hempty]
      rfl
    · intro f
      cases f <;> rfl
    · rw [hempty]
      rfl
  · simp only [if_neg hempty]
    rcases @deliverAll_cases a now claimed ⟨o,{},[]⟩ (fun d hd => (claimed_due h hd).1) hunique with
      ⟨fates,p,hok,hp⟩ | ⟨front,d,rest,fates,p₁,p,hsplit,herror,hp,hstuck⟩
    · left
      rw [hok]
      have hcounts : ∀ f, p.report.count f = fates.count f := by
        intro f
        rw [hp.counts f]
        cases f <;> exact Nat.zero_add _
      refine ⟨_,rfl,?_,⟨fates,hp.ends,hp.sent,?_⟩,?_,?_,hp.others⟩
      · show p.sent.Nodup
        rw [hp.sent]
        exact sentBy_nodup hp.ends hunique
      · intro f
        rw [← hcounts f]
        cases f <;> rfl
      · show p.report.attempted = p.sent.length
        rw [hp.attempted, hp.sent]
        exact Nat.zero_add _
      · show p.report.count .delivered+p.report.count .retrying+p.report.count .abandoned+
          p.report.count .unroutable = claimed.length
        rw [hcounts, hcounts, hcounts, hcounts, fates_total, hp.ends.length_eq]
    · right
      rw [herror]
      exact ⟨front,d,rest,fates,p₁,p,hsplit,rfl,hp,hstuck⟩

theorem drain_hasMore {o : Outbox} {limit : Option ℕ} {claimed : List Delivery} {p : Progress}
    (h : drain a now o limit claimed = .ok p) (hne : claimed ≠ []) :
    p.report.hasMore = decide (claimed.length = limit.getD a.batchSize) := by
  unfold drain at h
  simp only [if_neg hne] at h
  cases hall : deliverAll a now claimed ⟨o,{},[]⟩ with
  | error p' =>
    rw [hall] at h
    cases h
  | ok p' =>
    rw [hall] at h
    rw [← Except.ok.inj h]

end Batches

/-! ### Runs of passes -/

/-- Passes and new deliveries, with what was handed to sinks. An aborted pass leaves the outbox as
it was. -/
inductive Run (s : RetrySchedule) (latest : Instant) (start : Outbox) :
    List DeliveryId → Outbox → Prop
  | start : Run s latest start [] start
  | enqueued {sent : List DeliveryId} {o : Outbox} (h : Run s latest start sent o)
      (id : DeliveryId) (envelope : DeliveryEnvelope) (now : Instant)
      (hfresh : (pendingDelivery id envelope now).deliveryId ∉ o.rows.map (·.deliveryId)) :
      Run s latest start sent (o.enqueue (pendingDelivery id envelope now) hfresh)
  | drained {sent : List DeliveryId} {o : Outbox} (h : Run s latest start sent o)
      {a : AlertDispatcher} {now : Instant} {limit : Option ℕ} {claimed : List Delivery}
      {p : Progress} (hretry : a.retry = s) (hnow : now ≤ latest)
      (hclaimed : Claimed o now (limit.getD a.batchSize) claimed)
      (hok : drain a now o limit claimed = .ok p) : Run s latest start (sent ++ p.sent) p.outbox
  | aborted {sent : List DeliveryId} {o : Outbox} (h : Run s latest start sent o)
      {a : AlertDispatcher} {now : Instant} {limit : Option ℕ} {claimed : List Delivery}
      {p : Progress} (hretry : a.retry = s) (hnow : now ≤ latest)
      (hclaimed : Claimed o now (limit.getD a.batchSize) claimed)
      (herror : drain a now o limit claimed = .error p) : Run s latest start (sent ++ p.sent) o

/-- A delivery that is over. -/
def Delivery.over (d : Delivery) : Prop := d.status = .delivered ∨ d.status = .abandoned

theorem over_waits {d : Delivery} (h : d.over) : d.waits = false := by
  unfold Delivery.waits
  rcases h with h | h <;> rw [h] <;> rfl

section Runs
variable {s : RetrySchedule} {latest : Instant}

/-- What is sent is claimed. -/
theorem sent_claimed {a : AlertDispatcher} {now : Instant} {o : Outbox} {limit : Option ℕ}
    {claimed : List Delivery} {p : Progress} (h : Claimed o now (limit.getD a.batchSize) claimed)
    (hdrain : drain a now o limit claimed = .ok p ∨ drain a now o limit claimed = .error p)
    {id : DeliveryId} (hfree : id ∉ claimed.map (·.deliveryId)) : id ∉ p.sent := by
  rcases @drain_cases a now o limit claimed h with ⟨p',hok,hp⟩ |
    ⟨front,e,rest,fates,p₁,p',hsplit,herror,hp,hstuck⟩
  · have hsame : p' = p := by
      rcases hdrain with hdrain | hdrain
      · exact Except.ok.inj (hok.symm.trans hdrain)
      · cases hok.symm.trans hdrain
    obtain ⟨fates,-,hsent,-⟩ := hp.ends
    rw [← hsame, hsent]
    exact sentBy_other hfree fates
  · have hsame : p' = p := by
      rcases hdrain with hdrain | hdrain
      · cases herror.symm.trans hdrain
      · exact Except.error.inj (herror.symm.trans hdrain)
    rw [hsplit, List.map_append, List.map_cons, List.mem_append, List.mem_cons, not_or,
      not_or] at hfree
    rw [← hsame, hstuck.sent, hp.sent, List.nil_append, List.mem_append, not_or]
    exact ⟨sentBy_other hfree.1 fates,fun hid => hfree.2.1 (List.mem_singleton.mp hid)⟩

theorem over_unclaimed {now : Instant} {o : Outbox} {limit : ℕ} {claimed : List Delivery}
    (h : Claimed o now limit claimed) {d : Delivery} (hd : d ∈ o.rows) (hover : d.over) :
    d.deliveryId ∉ claimed.map (·.deliveryId) := by
  intro hmem
  obtain ⟨e,he,hid⟩ := List.mem_map.mp hmem
  obtain ⟨herow,hedue⟩ := claimed_due h he
  rw [row_unique herow hd hid] at hedue
  unfold due at hedue
  rw [over_waits hover] at hedue
  cases hedue

/-- A delivery that is over stays as it is and is not attempted again. -/
theorem over_kept {start : Outbox} {sent : List DeliveryId} {o : Outbox}
    (h : Run s latest start sent o) {d : Delivery} (hd : d ∈ start.rows) (hover : d.over) :
    d ∈ o.rows ∧ d.deliveryId ∉ sent := by
  induction h with
  | start => exact ⟨hd,List.not_mem_nil⟩
  | enqueued _ id envelope now hfresh ih => exact ⟨List.mem_append_left _ ih.1,ih.2⟩
  | @drained sent o _ a now limit claimed p _ _ hclaimed hok ih =>
    have hfree := over_unclaimed hclaimed ih.1 hover
    have hsent := sent_claimed hclaimed (.inl hok) hfree
    rw [List.mem_append, not_or]
    refine ⟨?_,ih.2,hsent⟩
    rcases @drain_cases a now o limit claimed hclaimed with ⟨p',hok',hp⟩ |
      ⟨_,_,_,_,_,_,_,herror,_⟩
    · rw [← Except.ok.inj (hok'.symm.trans hok)]
      exact (hp.others d hfree).mpr ih.1
    · cases herror.symm.trans hok
  | aborted _ _ _ hclaimed herror ih =>
    have hfree := over_unclaimed hclaimed ih.1 hover
    have hsent := sent_claimed hclaimed (.inr herror) hfree
    rw [List.mem_append, not_or]
    exact ⟨ih.1,ih.2,hsent⟩

/-- The attempts that were made are those that the rows count, and leave room where a delivery
waits. -/
structure Spent (s : RetrySchedule) (sent : List DeliveryId) (o : Outbox) : Prop where
  counted : ∀ d ∈ o.rows, sent.count d.deliveryId = d.attempts
  within : ∀ d ∈ o.rows, d.attempts ≤ s.maxAttempts
  waiting : ∀ d ∈ o.rows, d.waits = true → d.attempts < s.maxAttempts
  unknown : ∀ id, id ∉ o.rows.map (·.deliveryId) → sent.count id = 0

theorem spent_empty (s : RetrySchedule) : Spent s [] .empty := by
  refine ⟨?_,?_,?_,fun _ _ => rfl⟩
  all_goals
    intro d hd
    cases hd

theorem spent_enqueued {sent : List DeliveryId} {o : Outbox} (h : Spent s sent o)
    (id : DeliveryId) (envelope : DeliveryEnvelope) (now : Instant)
    (hfresh : (pendingDelivery id envelope now).deliveryId ∉ o.rows.map (·.deliveryId)) :
    Spent s sent (o.enqueue (pendingDelivery id envelope now) hfresh) := by
  have hpos := s.accepted.attempts_pos
  constructor
  · intro d hd
    rcases List.mem_append.mp hd with hd | hd
    · exact h.counted d hd
    · rw [List.mem_singleton.mp hd]
      exact h.unknown _ hfresh
  · intro d hd
    rcases List.mem_append.mp hd with hd | hd
    · exact h.within d hd
    · rw [List.mem_singleton.mp hd]
      exact le_trans Int.one_nonneg hpos
  · intro d hd
    rcases List.mem_append.mp hd with hd | hd
    · exact h.waiting d hd
    · rw [List.mem_singleton.mp hd]
      exact fun _ => lt_of_lt_of_le Int.one_pos hpos
  · intro id' hid
    apply h.unknown
    intro hmem
    apply hid
    show id' ∈ (o.rows ++ [pendingDelivery id envelope now]).map (·.deliveryId)
    rw [List.map_append]
    exact List.mem_append_left _ hmem

/-- An end counts its attempt, and leaves a delivery waiting only where there is room. -/
theorem end_spends {d r : Delivery} {fate : Fate} {now : Instant} (h : fate.leaves now d r)
    (hspare : fate = .retrying → (d.attempts+1 : ℕ) < s.maxAttempts)
    (hroom : (d.attempts : ℤ) < s.maxAttempts) :
    r.attempts = d.attempts+(fate.sends d.deliveryId).length ∧
      (r.attempts : ℤ) ≤ s.maxAttempts ∧ (r.waits = true → (r.attempts : ℤ) < s.maxAttempts) := by
  cases fate with
  | delivered =>
    obtain ⟨hstatus,hattempts⟩ := h
    refine ⟨hattempts,by omega,fun hwaits => ?_⟩
    rw [over_waits (.inl hstatus)] at hwaits
    cases hwaits
  | retrying =>
    obtain ⟨-,hattempts,-⟩ := h
    have hleft := hspare rfl
    exact ⟨hattempts,by omega,fun _ => by omega⟩
  | abandoned =>
    obtain ⟨hstatus,hattempts⟩ := h
    refine ⟨hattempts,by omega,fun hwaits => ?_⟩
    rw [over_waits (.inr hstatus)] at hwaits
    cases hwaits
  | unroutable =>
    have hsame : r = d := h
    rw [hsame]
    exact ⟨rfl,hroom.le,fun _ => hroom⟩

/-- A row after a pass is a row before it that was not claimed, or the end of one that was. -/
theorem row_after {a : AlertDispatcher} {now : Instant} {o : Outbox} {limit : ℕ}
    {claimed : List Delivery} {p : Progress} (hclaimed : Claimed o now limit claimed)
    (hp : Accounted a now o claimed p) {r : Delivery} (hr : r ∈ p.outbox.rows) :
    (r ∈ o.rows ∧ p.sent.count r.deliveryId = 0) ∨
    ∃ d ∈ o.rows, d.waits = true ∧ r.deliveryId = d.deliveryId ∧ ∃ fate : Fate,
      fate.leaves now d r ∧ (fate = .retrying → (d.attempts+1 : ℕ) < a.retry.maxAttempts) ∧
      p.sent.count r.deliveryId = (fate.sends d.deliveryId).length := by
  obtain ⟨fates,hends,hsent,-⟩ := hp.ends
  by_cases hid : r.deliveryId ∈ claimed.map (·.deliveryId)
  · right
    obtain ⟨d,hd,hsame⟩ := List.mem_map.mp hid
    obtain ⟨hrow,hdue⟩ := claimed_due hclaimed hd
    obtain ⟨fate,hended,hcount⟩ := sentBy_own hends (claimed_unique hclaimed) hd
    obtain ⟨r',hr',hid',hleaves⟩ := hended.leaves
    have hwaits : d.waits = true := by
      unfold due at hdue
      rw [Bool.and_eq_true] at hdue
      exact hdue.1
    refine ⟨d,hrow,hwaits,hsame.symm,fate,?_,hended.spare,?_⟩
    · rw [← row_unique hr' hr (hid'.trans hsame)]
      exact hleaves
    · rw [hsent, ← hsame]
      exact hcount
  · left
    refine ⟨(hp.others r hid).mp hr,?_⟩
    rw [hsent]
    exact List.count_eq_zero.mpr (sentBy_other hid fates)

theorem spent_drained {sent : List DeliveryId} {o : Outbox} (h : Spent s sent o)
    {a : AlertDispatcher} {now : Instant} {limit : ℕ} {claimed : List Delivery} {p : Progress}
    (hretry : a.retry = s) (hclaimed : Claimed o now limit claimed)
    (hp : Accounted a now o claimed p) : Spent s (sent ++ p.sent) p.outbox := by
  have hafter : ∀ r ∈ p.outbox.rows, (sent ++ p.sent).count r.deliveryId = r.attempts ∧
      (r.attempts : ℤ) ≤ s.maxAttempts ∧ (r.waits = true → (r.attempts : ℤ) < s.maxAttempts) := by
    intro r hr
    rw [List.count_append]
    rcases row_after hclaimed hp hr with ⟨hold,hnone⟩ | ⟨d,hd,hwaits,hid,fate,hleaves,hspare,hcount⟩
    · rw [hnone]
      exact ⟨h.counted r hold,h.within r hold,h.waiting r hold⟩
    · rw [hretry] at hspare
      obtain ⟨hattempts,hwithin,hroom⟩ := end_spends hleaves hspare (h.waiting d hd hwaits)
      refine ⟨?_,hwithin,hroom⟩
      rw [hcount, hid, h.counted d hd, hattempts]
  refine ⟨fun r hr => (hafter r hr).1,fun r hr => (hafter r hr).2.1,fun r hr => (hafter r hr).2.2,?_⟩
  intro id hid
  obtain ⟨fates,hends,hsent,-⟩ := hp.ends
  have hclear : id ∉ claimed.map (·.deliveryId) := by
    intro hmem
    obtain ⟨d,hd,rfl⟩ := List.mem_map.mp hmem
    obtain ⟨fate,hended,-⟩ := sentBy_own hends (claimed_unique hclaimed) hd
    obtain ⟨r,hr,hsame,-⟩ := hended.leaves
    apply hid
    rw [← hsame]
    exact List.mem_map_of_mem hr
  have hold : id ∉ o.rows.map (·.deliveryId) := by
    intro hmem
    obtain ⟨d,hd,rfl⟩ := List.mem_map.mp hmem
    exact hid (List.mem_map_of_mem ((hp.others d hclear).mpr hd))
  rw [List.count_append, h.unknown id hold, hsent, List.count_eq_zero.mpr (sentBy_other hclear fates)]

/-! ### When every pass is sound -/

/-- What a schedule promises of passes made no later than some instant. -/
structure DrainsSound (s : RetrySchedule) (latest : Instant) : Prop where
  delays : ∀ n : ℕ, 1 ≤ n → (n : ℤ) < s.maxAttempts →
    ∃ d, s.delayBefore n = .ok d ∧ s.initial ≤ d ∧ d ≤ s.maximum
  nondecreasing : ∀ (m n : ℕ) (d e : Duration), 1 ≤ m → m ≤ n → (n : ℤ) < s.maxAttempts →
    s.delayBefore m = .ok d → s.delayBefore n = .ok e → d ≤ e
  accounted : ∀ (a : AlertDispatcher) (now : Instant) (o : Outbox) (limit : Option ℕ)
    (claimed : List Delivery), a.retry = s → now ≤ latest →
    Claimed o now (limit.getD a.batchSize) claimed →
    ∃ p, drain a now o limit claimed = .ok p ∧ Accounted a now o claimed p
  bounded : ∀ sent o, Run s latest .empty sent o → ∀ id, (sent.count id : ℤ) ≤ s.maxAttempts
  finished : ∀ start sent o, Run s latest start sent o → ∀ d ∈ start.rows, d.over →
    d ∈ o.rows ∧ d.deliveryId ∉ sent

/-- The longest delay that the schedule asks for can be computed, and the clock can show the
instant after it. -/
def Schedulable (s : RetrySchedule) (latest : Instant) : Prop :=
  s.maxAttempts ≤ 1 ∨
    (s.grown (s.maxAttempts.toNat-1) ≤ timedeltaMax ∧
      latest+min (s.grown (s.maxAttempts.toNat-1)) s.maximum ≤ datetimeMax)

theorem schedulable_placed (h : Schedulable s latest) {now : Instant} (hnow : now ≤ latest) {n : ℕ}
    (hn : 1 ≤ n) (hlast : (n : ℤ) < s.maxAttempts) : ∃ at', s.retryAt now n = .ok at' := by
  rcases h with h | ⟨hgrown,hlatest⟩
  · exfalso
    omega
  · have hmono : s.grown n ≤ s.grown (s.maxAttempts.toNat-1) := grown_mono s (by omega)
    have hmin := min_le_min_right s.maximum hmono
    refine ⟨_,(retryAt_ok s hn).mpr ⟨hmono.trans hgrown,?_,rfl⟩⟩
    linarith

theorem schedulable_accounted (h : Schedulable s latest) {a : AlertDispatcher} {now : Instant}
    {o : Outbox} {limit : Option ℕ} {claimed : List Delivery} (hretry : a.retry = s)
    (hnow : now ≤ latest) (hclaimed : Claimed o now (limit.getD a.batchSize) claimed) :
    ∃ p, drain a now o limit claimed = .ok p ∧ Accounted a now o claimed p := by
  rcases @drain_cases a now o limit claimed hclaimed with hok |
    ⟨front,d,rest,fates,p₁,p,-,-,-,hstuck⟩
  · exact hok
  · obtain ⟨at',hat⟩ := schedulable_placed h hnow (Nat.le_add_left 1 d.attempts)
      (hretry ▸ hstuck.spare)
    rw [← hretry] at hat
    exact absurd hat (hstuck.unplaced at')

theorem schedulable_spent (h : Schedulable s latest) {sent : List DeliveryId} {o : Outbox}
    (hrun : Run s latest .empty sent o) : Spent s sent o := by
  induction hrun with
  | start => exact spent_empty s
  | enqueued _ id envelope now hfresh ih => exact spent_enqueued ih id envelope now hfresh
  | @drained sent o _ a now limit claimed p hretry hnow hclaimed hok ih =>
    obtain ⟨p',hok',hp⟩ := schedulable_accounted h hretry hnow hclaimed
    rw [← Except.ok.inj (hok'.symm.trans hok)]
    exact spent_drained ih hretry hclaimed hp
  | aborted _ hretry hnow hclaimed herror =>
    obtain ⟨p',hok',-⟩ := schedulable_accounted h hretry hnow hclaimed
    cases hok'.symm.trans herror

end Runs

namespace Probe

def envelope : DeliveryEnvelope where
  eventId := "event"
  alertKey := "alert"
  trigger := .criticalRiskFindingOpened
  transition := .raised
  sinkName := "hook"
  occurredAt := 0
  summary := "Everyone may write"
  payload := []

/-- A delivery that has been attempted so many times. -/
def delivery (now : Instant) (attempts : ℕ) : Delivery where
  deliveryId := "delivery"
  envelope := envelope
  status := .failed
  attempts := attempts
  lastError := some "refused"
  enqueuedAt := now
  nextAttemptAt := now
  lastAttemptAt := none
  deliveredAt := none

def outbox (now : Instant) (attempts : ℕ) : Outbox :=
  ⟨[delivery now attempts],List.nodup_singleton _⟩

/-- Every sink refuses. -/
def dispatcher (s : RetrySchedule) : AlertDispatcher where
  sinks := fun _ => some fun _ _ => .result ⟨false,none,true⟩
  retry := s
  batchSize := 1
  repr := id

theorem claimed_delivery (now : Instant) (attempts : ℕ) :
    Claimed (outbox now attempts) now 1 [delivery now attempts] := by
  refine ⟨[delivery now attempts],?_,List.pairwise_singleton _ _,rfl⟩
  have hdue : due now (delivery now attempts) = true := by
    unfold due
    rw [Bool.and_eq_true]
    exact ⟨rfl,decide_eq_true le_rfl⟩
  show List.Perm _ ([delivery now attempts].filter (due now))
  rw [List.filter_singleton, hdue]
  exact List.Perm.refl _

/-- The refused delivery is tried again, so the instant of the next attempt is computed. -/
theorem refused_placed {s : RetrySchedule} {now : Instant} {attempts : ℕ} {p : Progress}
    (hroom : ((attempts+1 : ℕ) : ℤ) < s.maxAttempts)
    (h : drain (dispatcher s) now (outbox now attempts) none [delivery now attempts] = .ok p) :
    ∃ at', s.retryAt now (attempts+1) = .ok at' := by
  have hover : (!true || s.exhausted (attempts+1)) = false := by
    unfold RetrySchedule.exhausted
    rw [Bool.not_true, Bool.false_or, decide_eq_false_iff_not]
    exact not_le.mpr hroom
  cases hplaced : s.retryAt now (attempts+1) with
  | ok at' => exact ⟨at',rfl⟩
  | error e =>
    exfalso
    unfold drain at h
    simp only [List.cons_ne_nil, if_false, deliverAll, deliver, dispatcher, attempt, delivery,
      Delivery.claimed, Bool.false_eq_true, hover, hplaced] at h
    cases h

end Probe

open Probe in
/-- Passes made no later than some instant are sound when the longest delay can be computed and
placed there, and only then. -/
theorem drains_sound (s : RetrySchedule) (latest : Instant) :
    DrainsSound s latest ↔ Schedulable s latest := by
  constructor
  · intro h
    by_cases hone : s.maxAttempts ≤ 1
    · exact .inl hone
    · right
      obtain ⟨p,hok,-⟩ := h.accounted (dispatcher s) latest
        (outbox latest (s.maxAttempts.toNat-2)) none _ rfl le_rfl (claimed_delivery _ _)
      have hcount : s.maxAttempts.toNat-2+1 = s.maxAttempts.toNat-1 := by omega
      obtain ⟨at',hat⟩ := refused_placed (by omega) hok
      rw [hcount] at hat
      have hplaced := (retryAt_ok s (by omega)).mp hat
      exact ⟨hplaced.1,hplaced.2.1⟩
  · intro h
    constructor
    · intro n hn hlast
      obtain ⟨at',hat⟩ := schedulable_placed h le_rfl hn hlast
      have hgrown := ((retryAt_ok s hn).mp hat).1
      have hdelay := delayBefore_eq s hn
      rw [if_pos hgrown] at hdelay
      exact ⟨_,hdelay,delayBefore_bounds s hn hdelay⟩
    · intro m n d e hm hmn _ hd he
      exact delayBefore_mono s hm hmn hd he
    · intro a now o limit claimed hretry hnow hclaimed
      exact schedulable_accounted h hretry hnow hclaimed
    · intro sent o hrun id
      have hspent := schedulable_spent h hrun
      by_cases hid : id ∈ o.rows.map (·.deliveryId)
      · obtain ⟨d,hd,rfl⟩ := List.mem_map.mp hid
        rw [hspent.counted d hd]
        exact hspent.within d hd
      · have hpos := s.accepted.attempts_pos
        rw [hspent.unknown id hid]
        omega
    · intro start sent o hrun d hd hover
      exact over_kept hrun hd hover

namespace Sample

/-- Accepted by the constructor: the second delay is more than a duration holds. -/
def parts : RetryParts where
  multiplier := 1000000000000000

theorem parts_accepted : parts.Accepted := by
  constructor <;> norm_num [parts, maxAttemptsCeiling]

def schedule : RetrySchedule := ⟨parts,parts_accepted⟩

end Sample

open Sample in
/-- The second delay of an accepted schedule is not computed. -/
theorem delay_not_computed : ¬ DrainsSound schedule 0 := by
  intro h
  obtain ⟨d,hd,-⟩ := h.delays 2 (by decide) (by decide)
  rw [delayBefore_eq schedule (by decide), if_neg] at hd
  · cases hd
  · have hgrown : schedule.grown 2 = 30000000000000000000000 := by
      have hproduct : (schedule.initial*schedule.multiplier^(2-1) : ℚ) =
          ((30000000000000000000000 : ℤ) : ℚ) := by norm_num [schedule, parts]
      unfold RetrySchedule.grown
      rw [hproduct, roundHalfEven_int]
    rw [hgrown]
    decide

end Adg.OutboxDrains
