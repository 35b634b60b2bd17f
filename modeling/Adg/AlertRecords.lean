import Adg.AlertModel
import Adg.KeyedTables

/-!
# Whether to say it again

The decision reads what is recorded of an alert: whether it is resolved, what
was last delivered and when. The repository applies the decision to the stored
row and writes an occurrence in any case. Only a notification moves what was
delivered and the instant it was.
-/

set_option autoImplicit false

namespace Adg.AlertRecords
open Adg.ObjectVersions Adg.KeyedTables Adg.CanonicalJson Adg.AlertModel

inductive SuppressionReason where
  | identicalContent
  | withinCooldown
  | watchDisabled
  deriving DecidableEq, Repr

structure AlertState where
  key : String
  status : AlertStatus
  lifecycle : AlertLifecycle
  deliveredDigest : Option String
  lastNotifiedAt : Option Instant
  suppressedSinceNotice : ℕ := 0

structure Decision where
  transition : AlertTransition
  reason : Option SuppressionReason := none
  folds : ℕ := 1
  cooldownUntil : Option Instant := none
  deriving DecidableEq, Repr

def Decision.notifies (d : Decision) : Bool := d.transition ∈ notifyingTransitions

/-- `_cooldown_until`, from the last notification. -/
def cooldownUntil (state : Option AlertState) (cooldown : Instant) : Option Instant :=
  (state.bind (·.lastNotifiedAt)).map (· + cooldown)

/-- `decide_raise`. -/
def decideRaise (event : AlertEvent) (state : Option AlertState) (cooldown : Instant)
    (watchEnabled : Bool) : Decision :=
  if watchEnabled = false then
    { transition := .suppressed
      reason := some .watchDisabled
      folds := state.elim 1 (·.suppressedSinceNotice+1)
      cooldownUntil := cooldownUntil state cooldown }
  else match state with
  | none => { transition := .raised }
  | some s =>
    if s.status = .resolved then { transition := .reopened }
    else if s.deliveredDigest = some event.digest then
      { transition := .suppressed
        reason := some .identicalContent
        folds := s.suppressedSinceNotice+1
        cooldownUntil := cooldownUntil state cooldown }
    else if (cooldownUntil state cooldown).any (event.occurredAt < ·) then
      { transition := .suppressed
        reason := some .withinCooldown
        folds := s.suppressedSinceNotice+1
        cooldownUntil := cooldownUntil state cooldown }
    else
      { transition := .repeated
        folds := s.suppressedSinceNotice+1 }

/-- `decide_resolve`. -/
def decideResolve (state : AlertState) : Option Decision :=
  if state.lifecycle = .transient then none
  else if state.status = .resolved then none
  else some { transition := .resolved }

structure StoredAlert where
  key : String
  trigger : AlertTrigger
  lifecycle : AlertLifecycle
  status : AlertStatus
  watchId : Option String
  watchLabel : Option String
  resourceKey : Option String
  shareKey : Option String
  principalKey : Option String
  discriminator : Option String
  summary : String
  payload : Payload
  payloadDigest : String
  deliveredDigest : Option String
  firstRaisedAt : Instant
  lastRaisedAt : Instant
  lastNotifiedAt : Option Instant
  resolvedAt : Option Instant
  occurrenceCount : ℕ
  suppressedSinceNotice : ℕ
  suppressedTotal : ℕ

/-- `StoredAlert.state`. -/
def StoredAlert.state (a : StoredAlert) : AlertState where
  key := a.key
  status := a.status
  lifecycle := a.lifecycle
  deliveredDigest := a.deliveredDigest
  lastNotifiedAt := a.lastNotifiedAt
  suppressedSinceNotice := a.suppressedSinceNotice

/-- A row of `alert_events`. -/
structure Occurrence where
  alertKey : String
  transition : AlertTransition
  trigger : AlertTrigger
  suppressionReason : Option SuppressionReason
  summary : String
  payload : Payload
  payloadDigest : String
  folds : ℕ
  notified : Bool
  occurredAt : Instant
  recordedAt : Instant

structure RecordedAlert where
  alertKey : String
  trigger : AlertTrigger
  transition : AlertTransition
  decision : Decision
  summary : String
  payload : Payload
  occurredAt : Instant
  watchId : Option String
  watchLabel : Option String

def RecordedAlert.notified (r : RecordedAlert) : Bool := r.decision.notifies

/-- The two tables: one row an alert, one row an occurrence. -/
structure AlertStore where
  alerts : KeyedTable String StoredAlert
  events : List Occurrence

def AlertStore.blank : AlertStore := ⟨KeyedTable.empty,[]⟩

/-- `_insert`. -/
def insert (event : AlertEvent) (d : Decision) (now : Instant) (watchLabel : Option String) :
    StoredAlert where
  key := event.key
  trigger := event.trigger
  lifecycle := event.lifecycle
  status := .open
  watchId := event.watchId
  watchLabel := watchLabel
  resourceKey := event.subject.resourceKey
  shareKey := event.subject.shareKey
  principalKey := event.subject.principalKey
  discriminator := event.discriminator
  summary := event.summary
  payload := event.payload
  payloadDigest := event.digest
  deliveredDigest := if d.notifies then some event.digest else none
  firstRaisedAt := event.occurredAt
  lastRaisedAt := event.occurredAt
  lastNotifiedAt := if d.notifies then some now else none
  resolvedAt := none
  occurrenceCount := 1
  suppressedSinceNotice := if d.notifies then 0 else 1
  suppressedTotal := if d.notifies then 0 else 1

/-- `_apply`. -/
def apply (existing : StoredAlert) (event : AlertEvent) (d : Decision) (now : Instant)
    (watchLabel : Option String) : StoredAlert :=
  { existing with
    summary := event.summary
    payload := event.payload
    payloadDigest := event.digest
    lastRaisedAt := max existing.lastRaisedAt event.occurredAt
    occurrenceCount := existing.occurrenceCount+1
    watchLabel := watchLabel.or existing.watchLabel
    deliveredDigest := if d.notifies then some event.digest else existing.deliveredDigest
    lastNotifiedAt := if d.notifies then some now else existing.lastNotifiedAt
    suppressedSinceNotice := if d.notifies then 0 else existing.suppressedSinceNotice+1
    suppressedTotal := if d.notifies then existing.suppressedTotal else existing.suppressedTotal+1
    status := if d.transition = .reopened then .open else existing.status
    resolvedAt := if d.transition = .reopened then none else existing.resolvedAt }

/-- A row under its key, in place of the one that was there. -/
def AlertStore.put (s : AlertStore) (row : StoredAlert) (o : Occurrence) : AlertStore where
  alerts := s.alerts.upsert (fun _ new => new) (row.key,row)
  events := s.events ++ [o]

/-- What the decision of `record` is. -/
def decisionFor (s : AlertStore) (event : AlertEvent) (cooldown : Instant) (watchEnabled : Bool) :
    Decision :=
  decideRaise event ((s.alerts.get? event.key).map (·.state)) cooldown watchEnabled

/-- The row `record` leaves. -/
def rowFor (s : AlertStore) (event : AlertEvent) (d : Decision) (now : Instant)
    (watchLabel : Option String) : StoredAlert :=
  match s.alerts.get? event.key with
  | none => insert event d now watchLabel
  | some existing => { apply existing event d now watchLabel with key := event.key }

/-- `AlertRepository.record`. -/
def record (event : AlertEvent) (now cooldown : Instant) (watchEnabled : Bool)
    (watchLabel : Option String) (s : AlertStore) : AlertStore × RecordedAlert :=
  let d := decisionFor s event cooldown watchEnabled
  (s.put (rowFor s event d now watchLabel)
    { alertKey := event.key
      transition := d.transition
      trigger := event.trigger
      suppressionReason := d.reason
      summary := event.summary
      payload := event.payload
      payloadDigest := event.digest
      folds := d.folds
      notified := d.notifies
      occurredAt := event.occurredAt
      recordedAt := now },
    { alertKey := event.key
      trigger := event.trigger
      transition := d.transition
      decision := d
      summary := event.summary
      payload := event.payload
      occurredAt := event.occurredAt
      watchId := event.watchId
      watchLabel := watchLabel })

/-- `AlertRepository.resolve`. -/
def resolve (isoformat : Instant → String) (key : String) (now : Instant) (s : AlertStore) :
    Option (AlertStore × RecordedAlert) := do
  let existing ← s.alerts.get? key
  let d ← decideResolve existing.state
  let text := "Resolved: " ++ existing.summary
  let row := { existing with
    key := key
    status := .resolved
    resolvedAt := some now
    lastRaisedAt := max existing.lastRaisedAt now
    lastNotifiedAt := some now
    deliveredDigest := some existing.payloadDigest
    suppressedSinceNotice := 0 }
  return (s.put row
    { alertKey := key
      transition := .resolved
      trigger := existing.trigger
      suppressionReason := none
      summary := text
      payload := [("resolved",.bool true), ("resolved_at",.text (isoformat now))]
      payloadDigest := existing.payloadDigest
      folds := 1
      notified := true
      occurredAt := now
      recordedAt := now },
    { alertKey := key
      trigger := existing.trigger
      transition := .resolved
      decision := d
      summary := text
      payload := [("resolved",.bool true)]
      occurredAt := now
      watchId := existing.watchId
      watchLabel := existing.watchLabel })

/-- `open_keys_for_trigger`. -/
def openKeysForTrigger (s : AlertStore) (trigger : AlertTrigger) : List String :=
  (s.alerts.entries.filter fun e => e.2.trigger = trigger ∧ e.2.status = .open).map (·.1)

/-! ### What a record leaves -/

section Rows
variable {s : AlertStore} {event : AlertEvent} {now cooldown : Instant} {enabled : Bool}
  {label : Option String}

/-- The instant of the last notification, by the key of the alert. -/
def lastNotified (s : AlertStore) (key : String) : Option Instant :=
  (s.alerts.get? key).bind (·.lastNotifiedAt)

theorem get?_put (s : AlertStore) (row : StoredAlert) (o : Occurrence) (key : String) :
    (s.put row o).alerts.get? key = if key = row.key then some row else s.alerts.get? key := by
  unfold AlertStore.put
  rw [KeyedTable.get?_upsert]
  split_ifs
  · cases s.alerts.get? key <;> rfl
  · rfl

theorem rowFor_key (d : Decision) : (rowFor s event d now label).key = event.key := by
  unfold rowFor
  split <;> rfl

/-- Only a notification moves the instant of the last one. -/
theorem rowFor_lastNotified (d : Decision) : (rowFor s event d now label).lastNotifiedAt =
    if d.notifies then some now else lastNotified s event.key := by
  unfold rowFor lastNotified
  cases s.alerts.get? event.key <;> rfl

theorem record_lastNotified (key : String) :
    lastNotified (record event now cooldown enabled label s).1 key =
      if key = event.key ∧ (decisionFor s event cooldown enabled).notifies = true then some now
      else lastNotified s key := by
  have hget := get?_put s (rowFor s event (decisionFor s event cooldown enabled) now label)
  simp only [lastNotified, record, hget, rowFor_key]
  by_cases hkey : key = event.key
  · subst hkey
    simp only [if_true, true_and, Option.bind_some]
    exact rowFor_lastNotified _
  · rw [if_neg hkey, if_neg fun h => hkey h.1]

/-- A notification about an alert that is not resolved waits for its cooldown. -/
theorem decideRaise_waits {state : AlertState} {event : AlertEvent} {m : Instant}
    (hopen : state.status = .open) (hm : state.lastNotifiedAt = some m)
    (h : (decideRaise event (some state) cooldown enabled).notifies = true) :
    m+cooldown ≤ event.occurredAt := by
  by_contra hearly
  have hcool : (cooldownUntil (some state) cooldown).any (event.occurredAt < ·) = true := by
    simp only [cooldownUntil, Option.bind_some, hm, Option.map_some, Option.any_some]
    exact decide_eq_true (not_le.mp hearly)
  have hquiet : (decideRaise event (some state) cooldown enabled).transition = .suppressed := by
    unfold decideRaise
    split_ifs with henabled
    · rfl
    · have hlive : state.status ≠ .resolved := by simp [hopen]
      simp only [if_neg hlive]
      split <;> rfl
  unfold Decision.notifies at h
  rw [hquiet] at h
  exact absurd h (by decide)

/-- No alert of the store has been resolved. -/
def Unresolved (s : AlertStore) : Prop := ∀ key a, s.alerts.get? key = some a → a.status = .open

theorem record_unresolved (h : Unresolved s) :
    Unresolved (record event now cooldown enabled label s).1 := by
  intro key a ha
  have hget := get?_put s (rowFor s event (decisionFor s event cooldown enabled) now label)
  simp only [record, hget, rowFor_key] at ha
  split_ifs at ha with hkey
  · cases ha
    unfold rowFor
    cases hold : s.alerts.get? event.key with
    | none => rfl
    | some existing =>
      have hopen := h event.key existing hold
      simp only [apply, hopen, ite_self]
  · exact h key a ha

/-- A notification waits for the quiet after the last one. -/
theorem record_waits (h : Unresolved s)
    (hn : (decisionFor s event cooldown enabled).notifies = true) {m : Instant}
    (hm : lastNotified s event.key = some m) : m+cooldown ≤ event.occurredAt := by
  obtain ⟨a,ha,hlast⟩ := Option.bind_eq_some_iff.mp hm
  unfold decisionFor at hn
  rw [ha] at hn
  exact decideRaise_waits (h event.key a ha) hlast hn

end Rows

end Adg.AlertRecords
