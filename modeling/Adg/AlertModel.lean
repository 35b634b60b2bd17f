import Adg.CanonicalJson
import Adg.Observation
import Adg.ObjectVersions
import Adg.SecurityIdentifier

/-!
# Alerts

An alert is known by its trigger, by what it is about and by a discriminator,
never by what it says. What it says is digested, so that a second occurrence
can be told from the first one arriving twice.
-/

set_option autoImplicit false

namespace Adg.AlertModel
open Adg.Observation Adg.ObjectVersions Adg.SecurityIdentifier Adg.CanonicalJson

inductive WatchKind where
  | resource
  | share
  | group
  deriving DecidableEq, Repr

def WatchKind.value : WatchKind → String
  | .resource => "resource"
  | .share => "share"
  | .group => "group"

inductive AlertTrigger where
  | watchedGroupMembershipChanged
  | watchedResourceAclChanged
  | watchedAccessExpanded
  | criticalRiskFindingOpened
  deriving DecidableEq, Repr

def AlertTrigger.value : AlertTrigger → String
  | .watchedGroupMembershipChanged => "watched_group_membership_changed"
  | .watchedResourceAclChanged => "watched_resource_acl_changed"
  | .watchedAccessExpanded => "watched_access_expanded"
  | .criticalRiskFindingOpened => "critical_risk_finding_opened"

inductive AlertLifecycle where
  | stateful
  | transient
  deriving DecidableEq, Repr

/-- `TRIGGER_LIFECYCLE`. -/
def triggerLifecycle : AlertTrigger → AlertLifecycle
  | .watchedGroupMembershipChanged => .transient
  | .watchedResourceAclChanged => .transient
  | .watchedAccessExpanded => .transient
  | .criticalRiskFindingOpened => .stateful

/-- `UNWATCHED_TRIGGERS`. -/
def unwatchedTriggers : List AlertTrigger := [.criticalRiskFindingOpened]

inductive AlertStatus where
  | open
  | resolved
  deriving DecidableEq, Repr

inductive AlertTransition where
  | raised
  | reopened
  | repeated
  | suppressed
  | resolved
  deriving DecidableEq, Repr

/-- `NOTIFYING_TRANSITIONS`. -/
def notifyingTransitions : List AlertTransition := [.raised,.reopened,.repeated,.resolved]

/-- What the alerts use of the platform. An instant is written in ISO form. -/
structure Platform where
  sha256 : String → String
  casefold : String → String
  isoformat : Instant → String

/-- `_SEPARATOR`. -/
def separator : String := "\x1f"

/-- `part or ""`. -/
def orBlank (part : Option String) : String := part.getD ""

/-- The truth of an optional text. -/
def given (part : Option String) : Bool := part.any (· ≠ "")

/-- The keys a reader would go and look at, one of them at least. -/
structure AlertSubject where
  resourceKey : Option String := none
  shareKey : Option String := none
  principalKey : Option String := none
  named : given resourceKey || given shareKey || given principalKey

def AlertSubject.build (resourceKey shareKey principalKey : Option String) :
    Except DomainError AlertSubject :=
  if h : given resourceKey || given shareKey || given principalKey then
    .ok ⟨resourceKey,shareKey,principalKey,h⟩
  else .error { message := "An alert must name at least one of a resource, a share or a principal. An alert about nothing in particular cannot be investigated, and cannot be deduplicated either: its identity would be the trigger alone, so every occurrence anywhere in the estate would fold into one.", field := "subject" }

def AlertSubject.canonical (s : AlertSubject) : String :=
  separator.intercalate [orBlank s.resourceKey, orBlank s.shareKey, orBlank s.principalKey]

/-- The last four digits of a code unit. -/
def hexUnit (n : ℕ) : List Char :=
  ['\x5c', 'u', Nat.digitChar (n/4096%16), Nat.digitChar (n/256%16), Nat.digitChar (n/16%16),
    Nat.digitChar (n%16)]

/-- `ensure_ascii`. What is beyond a code unit becomes a pair of surrogates. -/
def asciiChar (c : Char) : List Char :=
  let n := c.toNat
  if 32 ≤ n ∧ n < 127 then [c]
  else if n < 0x10000 then hexUnit n
  else hexUnit (0xd800+(n-0x10000)/1024) ++ hexUnit (0xdc00+(n-0x10000)%1024)

/-- A mapping as the payloads build it. -/
abbrev Payload := List (String × Json)

/-- `None` or a text. -/
def textOrNull (part : Option String) : Json := part.elim .null .text

section Identity
variable (p : Platform)

/-- `alert_key`. -/
def alertKey (trigger : AlertTrigger) (subject : AlertSubject) (discriminator : Option String) :
    String :=
  p.sha256 (separator.intercalate [trigger.value, subject.canonical, orBlank discriminator])

/-- The key of the alert about some resource, share and principal, named or not. -/
def keyAbout (trigger : AlertTrigger) (resourceKey shareKey principalKey discriminator :
    Option String) : String :=
  p.sha256 (separator.intercalate [trigger.value, separator.intercalate
    [orBlank resourceKey, orBlank shareKey, orBlank principalKey], orBlank discriminator])

/-- `payload_digest`. -/
def payloadDigest (payload : Payload) : String :=
  p.sha256 (String.ofList ((canonical (.object payload)).toList.flatMap asciiChar))

/-- `_fold`. -/
def fold (key : String) : String := p.casefold (String.ofList (strip key.toList))

end Identity

/-- A standing subscription. A duration is in microseconds. -/
structure Watch where
  watchId : String
  kind : WatchKind
  key : String
  label : String
  triggers : List AlertTrigger
  cooldown : Instant
  enabled : Bool := true
  deriving DecidableEq, Repr

def Watch.watches (w : Watch) (trigger : AlertTrigger) : Bool := w.enabled && trigger ∈ w.triggers

structure AlertEvent where
  trigger : AlertTrigger
  subject : AlertSubject
  occurredAt : Instant
  summary : String
  payload : Payload
  discriminator : Option String
  watchId : Option String
  key : String
  digest : String

def AlertEvent.lifecycle (e : AlertEvent) : AlertLifecycle := triggerLifecycle e.trigger

/-- What an event is built from. -/
structure EventParts where
  trigger : AlertTrigger
  subject : AlertSubject
  occurredAt : Instant
  summary : String
  payload : Payload
  discriminator : Option String := none
  watchId : Option String := none

/-- `AlertEvent.__init__`. An instant is always aware of its zone. -/
def AlertEvent.build (p : Platform) (e : EventParts) : Except DomainError AlertEvent :=
  if strip e.summary.toList = [] then
    .error { message := "An alert must carry a one-line summary. A delivery whose body is a payload and nothing else requires the recipient to hold ADG's data model in their head at whatever hour it arrives.", field := "summary" }
  else if e.watchId = none ∧ e.trigger ∉ unwatchedTriggers then
    let trigger := e.trigger.value
    .error { message := s!"{trigger} requires the watch that subscribed to it. An alert with no watch behind it cannot be silenced by removing a watch, which is the only control an operator has over it.", field := "watch_id" }
  else .ok
    { trigger := e.trigger
      subject := e.subject
      occurredAt := e.occurredAt
      summary := String.ofList (strip e.summary.toList)
      payload := e.payload
      discriminator := e.discriminator
      watchId := e.watchId
      key := alertKey p e.trigger e.subject e.discriminator
      digest := payloadDigest p e.payload }

/-- An event says what it was built from. -/
structure AlertEvent.From (p : Platform) (parts : EventParts) (e : AlertEvent) : Prop where
  trigger : e.trigger = parts.trigger
  occurredAt : e.occurredAt = parts.occurredAt
  payload : e.payload = parts.payload
  watchId : e.watchId = parts.watchId
  key : e.key = alertKey p parts.trigger parts.subject parts.discriminator

theorem AlertEvent.build_from {p : Platform} {parts : EventParts} {e : AlertEvent}
    (h : AlertEvent.build p parts = .ok e) : AlertEvent.From p parts e := by
  unfold AlertEvent.build at h
  split_ifs at h
  cases h
  exact ⟨rfl,rfl,rfl,rfl,rfl⟩

theorem alertKey_build {p : Platform} {r s q : Option String} {subject : AlertSubject}
    (h : AlertSubject.build r s q = .ok subject) (trigger : AlertTrigger) (d : Option String) :
    alertKey p trigger subject d = keyAbout p trigger r s q d := by
  unfold AlertSubject.build at h
  split_ifs at h
  cases h
  rfl

end Adg.AlertModel
