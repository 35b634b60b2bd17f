import Adg.AlertModel
import Adg.ChangeClassification
import Adg.Fallible

/-!
# Detection

A change, a gain of access and a finding become candidate alerts. A change and
a gain are matched against the watches, one candidate for each watch on the
place or the group. A finding needs no watch. Whatever the labels say, the
name of a candidate comes from the keys of what moved.
-/

set_option autoImplicit false

namespace Adg.AlertDetection
open Adg.Observation Adg.ObjectVersions Adg.ChangeRules Adg.ChangeClassification
open Adg.CanonicalJson Adg.AlertModel
open Adg.Fallible (bind_ok mem_mapM)

def actionValue : ChangeAction → String
  | .added => "added"
  | .modified => "modified"
  | .removed => "removed"
  | .firstObserved => "first_observed"

def severityValue : ChangeSeverity → String
  | .critical => "critical"
  | .high => "high"
  | .medium => "medium"
  | .low => "low"
  | .info => "info"

def directionValue : ChangeDirection → String
  | .broadened => "broadened"
  | .narrowed => "narrowed"
  | .mixed => "mixed"
  | .neutral => "neutral"
  | .undetermined => "undetermined"

/-- `ACL_CHANGE_KINDS`. -/
def aclChangeKinds : List ObservationKind := [.ntfsAce,.smbAce,.ntfsResource,.smbShare]

/-- `MEMBERSHIP_CHANGE_KINDS`. -/
def membershipChangeKinds : List ObservationKind := [.membershipEdge]

structure ChangeNotice where
  kind : ObservationKind
  key : String
  action : ChangeAction
  containerKey : Option String
  relatedKey : Option String
  severity : ChangeSeverity
  direction : ChangeDirection
  at' : Instant
  reasons : List String
  containerLabel : Option String
  relatedLabel : Option String
  window : Option ChangeWindow

/-- An expansion names the place access was gained to. -/
structure AccessExpansion where
  principalKey : String
  resourceKey : Option String
  shareKey : Option String
  gained : String
  before : String
  after : String
  at' : Instant
  causeKind : ObservationKind
  causeKey : String
  principalLabel : Option String
  placeLabel : Option String
  placed : given resourceKey || given shareKey

/-- A finding in the terms an alert needs. The texts are those of the risk engine. -/
structure FindingNotice where
  findingKey : String
  ruleId : String
  title : String
  severity : String
  confidence : String
  at' : Instant
  resourceKey : Option String := none
  shareKey : Option String := none
  principalKey : Option String := none
  summary : Option String := none
  detail : Payload := []

/-- `a or b`, between texts that may be missing or empty. -/
def orElse (first : Option String) (second : Option String) : Option String :=
  if given first then first else second

section Matching
variable (p : Platform)

/-- `WatchIndex.matching`, over the watches the index was built from. -/
def matching (index : List Watch) (kind : WatchKind) (key : Option String)
    (trigger : AlertTrigger) : List Watch :=
  match key with
  | none => []
  | some key => index.filter fun w =>
      w.kind = kind && fold p w.key = fold p key && w.watches trigger

/-- `_change_payload`. -/
def changePayload (c : ChangeNotice) : Payload :=
  [("change_kind",.text c.kind.value), ("change_key",.text c.key),
    ("action",.text (actionValue c.action)), ("change_severity",.text (severityValue c.severity)),
    ("direction",.text (directionValue c.direction)), ("reasons",.array (c.reasons.map .text)),
    ("observed_at",.text (p.isoformat c.at')),
    ("window",c.window.elim .null fun w => .object
      [("from",.text (p.isoformat w.after)), ("to",.text (p.isoformat w.atOrBefore))])]

/-- One event for each watch, about one subject. -/
def eventsFor (watches : List Watch) (resourceKey shareKey principalKey : Option String)
    (parts : Watch → AlertSubject → EventParts) : Except DomainError (List AlertEvent) :=
  if watches = [] then .ok []
  else do
    let subject ← AlertSubject.build resourceKey shareKey principalKey
    watches.mapM fun w => AlertEvent.build p (parts w subject)

/-- The verb of `_membership_events`. -/
def joinedOrLeft : ChangeAction → String
  | .added => "joined"
  | .removed => "left"
  | action => actionValue action ++ " in"

/-- `_membership_events`. -/
def membershipEvents (index : List Watch) (enabled : List AlertTrigger) (c : ChangeNotice) :
    Except DomainError (List AlertEvent) :=
  if .watchedGroupMembershipChanged ∉ enabled then .ok []
  else
    let watches := matching p index .group c.containerKey .watchedGroupMembershipChanged
    let member := (orElse (orElse c.relatedLabel c.relatedKey) (some "an unnamed member")).getD ""
    let group := orBlank (orElse c.containerLabel c.containerKey)
    let verb := joinedOrLeft c.action
    eventsFor p watches none none c.containerKey fun w subject =>
      { trigger := .watchedGroupMembershipChanged
        subject := subject
        occurredAt := c.at'
        summary := s!"{member} {verb} {group}."
        payload := changePayload p c ++ [("group_key",textOrNull c.containerKey),
          ("group_label",textOrNull c.containerLabel), ("member_key",textOrNull c.relatedKey),
          ("member_label",textOrNull c.relatedLabel)]
        discriminator := c.relatedKey
        watchId := some w.watchId }

/-- The key that names the place: an entry's container, or the descriptor itself. -/
def placeKey (c : ChangeNotice) : Option String :=
  if c.kind = .ntfsAce ∨ c.kind = .smbAce then c.containerKey else some c.key

/-- The kind of watch on a place of this kind of change. -/
def placeKind (kind : ObservationKind) : WatchKind :=
  if kind = .smbAce ∨ kind = .smbShare then .share else .resource

/-- `_acl_events`. -/
def aclEvents (index : List Watch) (enabled : List AlertTrigger) (c : ChangeNotice) :
    Except DomainError (List AlertEvent) :=
  if .watchedResourceAclChanged ∉ enabled then .ok []
  else
    let kind := placeKind c.kind
    let watches := matching p index kind (placeKey c) .watchedResourceAclChanged
    let place := orBlank (orElse c.containerLabel (placeKey c))
    let action := actionValue c.action
    let severity := severityValue c.severity
    let summary := match orElse c.relatedLabel c.relatedKey with
      | some trustee =>
        s!"The access control list of {place} changed: {action} for {trustee}."
      | none => s!"{place} changed: {action} ({severity})."
    eventsFor p watches (if kind = .share then none else placeKey c)
      (if kind = .share then placeKey c else none) none fun w subject =>
      { trigger := .watchedResourceAclChanged
        subject := subject
        occurredAt := c.at'
        summary := summary
        payload := changePayload p c ++ [("place_key",textOrNull (placeKey c)),
          ("place_kind",.text kind.value), ("place_label",textOrNull c.containerLabel),
          ("trustee_key",textOrNull c.relatedKey), ("trustee_label",textOrNull c.relatedLabel)]
        discriminator := c.relatedKey
        watchId := some w.watchId }

/-- `events_for_changes`, for one change. -/
def eventsForChange (index : List Watch) (enabled : List AlertTrigger) (c : ChangeNotice) :
    Except DomainError (List AlertEvent) := do
  let joined ← (if c.kind ∈ membershipChangeKinds then membershipEvents p index enabled c
    else .ok [])
  let moved ← (if c.kind ∈ aclChangeKinds then aclEvents p index enabled c else .ok [])
  return joined ++ moved

/-- `events_for_changes`. -/
def eventsForChanges (index : List Watch) (enabled : List AlertTrigger)
    (changes : List ChangeNotice) : Except DomainError (List AlertEvent) :=
  List.flatten <$> changes.mapM (eventsForChange p index enabled)

/-- The kind of watch on the place of an expansion. -/
def AccessExpansion.kind (x : AccessExpansion) : WatchKind :=
  if given x.resourceKey then .resource else .share

/-- `events_for_access_expansions`, for one expansion. -/
def eventsForExpansion (index : List Watch) (x : AccessExpansion) :
    Except DomainError (List AlertEvent) :=
  let place := orElse x.resourceKey x.shareKey
  let watches := matching p index x.kind place .watchedAccessExpanded
  let who := (orElse x.principalLabel (some x.principalKey)).getD ""
  let location := orBlank (orElse x.placeLabel place)
  let gained := x.gained
  eventsFor p watches (if x.kind = .resource then x.resourceKey else none)
    (if x.kind = .resource then none else x.shareKey) (some x.principalKey) fun w subject =>
    { trigger := .watchedAccessExpanded
      subject := subject
      occurredAt := x.at'
      summary := s!"{who} gained {gained} on {location}."
      payload := [("principal_key",.text x.principalKey),
        ("principal_label",textOrNull x.principalLabel), ("place_key",textOrNull place),
        ("place_kind",.text x.kind.value), ("gained",.text x.gained),
        ("rights_before",.text x.before), ("rights_after",.text x.after),
        ("cause_kind",.text x.causeKind.value), ("cause_key",.text x.causeKey),
        ("observed_at",.text (p.isoformat x.at'))]
      watchId := some w.watchId }

/-- `events_for_access_expansions`. -/
def eventsForAccessExpansions (index : List Watch) (enabled : List AlertTrigger)
    (expansions : List AccessExpansion) : Except DomainError (List AlertEvent) :=
  if .watchedAccessExpanded ∉ enabled then .ok []
  else List.flatten <$> expansions.mapM (eventsForExpansion p index)

/-- `str.capitalize`, of a text in lower case. -/
def capitalize (text : String) : String :=
  match text.toList with
  | [] => ""
  | c :: cs => String.ofList (c.toUpper :: cs)

/-- The event of one finding. -/
def eventForFinding (f : FindingNotice) : Except DomainError AlertEvent := do
  let subject ← AlertSubject.build f.resourceKey f.shareKey f.principalKey
  let severity := capitalize f.severity
  let title := f.title
  let location := orBlank (orElse (orElse f.resourceKey f.shareKey) f.principalKey)
  let summary := orElse f.summary (some s!"{severity} risk finding opened: {title} on {location}.")
  AlertEvent.build p
    { trigger := .criticalRiskFindingOpened
      subject := subject
      occurredAt := f.at'
      summary := orBlank summary
      payload := [("finding_key",.text f.findingKey), ("rule_id",.text f.ruleId),
        ("title",.text f.title), ("severity",.text f.severity),
        ("confidence",.text f.confidence), ("resource_key",textOrNull f.resourceKey),
        ("share_key",textOrNull f.shareKey), ("principal_key",textOrNull f.principalKey),
        ("detail",.object f.detail), ("opened_at",.text (p.isoformat f.at'))]
      discriminator := some f.findingKey }

/-- `events_for_findings`. -/
def eventsForFindings (enabled : List AlertTrigger) (findings : List FindingNotice) :
    Except DomainError (List AlertEvent) :=
  if .criticalRiskFindingOpened ∉ enabled then .ok []
  else findings.mapM (eventForFinding p)

/-- The key of the alert a finding's resolution closes. -/
def resolutionKey (f : FindingNotice) : Except DomainError String := do
  let subject ← AlertSubject.build f.resourceKey f.shareKey f.principalKey
  let finding := f.findingKey
  let event ← AlertEvent.build p
    { trigger := .criticalRiskFindingOpened
      subject := subject
      occurredAt := f.at'
      summary := s!"resolution of {finding}"
      payload := []
      discriminator := some f.findingKey }
  return event.key

/-- `resolution_keys`. -/
def resolutionKeys (findings : List FindingNotice) : Except DomainError (List String) :=
  findings.mapM (resolutionKey p)

end Matching

/-! ### Where an event comes from -/

section Origins
variable {p : Platform} {index : List Watch} {enabled : List AlertTrigger}

theorem mem_matching {kind : WatchKind} {key : Option String} {trigger : AlertTrigger} {w : Watch}
    (h : w ∈ matching p index kind key trigger) :
    w ∈ index ∧ w.kind = kind ∧ ∃ k, key = some k ∧ fold p w.key = fold p k := by
  cases key with
  | none => cases h
  | some k =>
    obtain ⟨hw,hm⟩ := List.mem_filter.mp h
    simp only [Bool.and_eq_true, decide_eq_true_eq] at hm
    exact ⟨hw,hm.1.1,k,rfl,hm.1.2⟩

/-- An event says what its parts say, and its key comes from the keys it is about. -/
structure Raised (p : Platform) (r s q : Option String) (parts : EventParts) (e : AlertEvent) :
    Prop where
  trigger : e.trigger = parts.trigger
  occurredAt : e.occurredAt = parts.occurredAt
  payload : e.payload = parts.payload
  watchId : e.watchId = parts.watchId
  key : e.key = keyAbout p parts.trigger r s q parts.discriminator

theorem raised_of_build {r s q : Option String} {subject : AlertSubject} {parts : EventParts}
    {e : AlertEvent} (hsubject : AlertSubject.build r s q = .ok subject)
    (hparts : parts.subject = subject) (h : AlertEvent.build p parts = .ok e) :
    Raised p r s q parts e := by
  have hfrom := AlertEvent.build_from h
  refine ⟨hfrom.trigger,hfrom.occurredAt,hfrom.payload,hfrom.watchId,?_⟩
  rw [hfrom.key, hparts]
  exact alertKey_build hsubject _ _

theorem eventsFor_raised {watches : List Watch} {r s q : Option String}
    {parts : Watch → AlertSubject → EventParts} (hparts : ∀ w x, (parts w x).subject = x)
    {es : List AlertEvent} (h : eventsFor p watches r s q parts = .ok es) {e : AlertEvent}
    (he : e ∈ es) : ∃ w ∈ watches, ∃ x, Raised p r s q (parts w x) e := by
  unfold eventsFor at h
  split_ifs at h
  · cases h
    cases he
  · obtain ⟨x,hx,hm⟩ := bind_ok.mp h
    obtain ⟨w,hw,hb⟩ := mem_mapM hm he
    exact ⟨w,hw,x,raised_of_build hx (hparts w x) hb⟩

/-- The text a payload holds under a name. -/
def textField (payload : Payload) (name : String) : Option String :=
  match payload.lookup name with
  | some (.text s) => some s
  | _ => none

/-- The change a payload is about, whichever trigger it was written for. -/
def cause (payload : Payload) : Option String × Option String :=
  ((textField payload "change_kind").or (textField payload "cause_kind"),
    (textField payload "change_key").or (textField payload "cause_key"))

theorem cause_changePayload (c : ChangeNotice) (rest : Payload) :
    cause (changePayload p c ++ rest) = (some c.kind.value,some c.key) := rfl

/-- What an event of a watched thing tells: which change, seen through which watch. -/
structure Tells (e : AlertEvent) (w : Watch) (trigger : AlertTrigger) (kind : ObservationKind)
    (key : String) (moment : Instant) : Prop where
  trigger : e.trigger = trigger
  watch : e.watchId = some w.watchId
  cause : cause e.payload = (some kind.value,some key)
  occurred : e.occurredAt = moment

theorem membershipEvents_tell {c : ChangeNotice} {es : List AlertEvent}
    (h : membershipEvents p index enabled c = .ok es) {e : AlertEvent} (he : e ∈ es) :
    ∃ w ∈ index, Tells e w .watchedGroupMembershipChanged c.kind c.key c.at' ∧
      e.key = keyAbout p .watchedGroupMembershipChanged none none c.containerKey c.relatedKey := by
  unfold membershipEvents at h
  split at h
  · cases h
    cases he
  · obtain ⟨w,hw,x,hr⟩ := eventsFor_raised (fun _ _ => rfl) h he
    have hcause : cause e.payload = (some c.kind.value,some c.key) := by
      rw [hr.payload]
      exact cause_changePayload c _
    exact ⟨w,(mem_matching hw).1,⟨hr.trigger,hr.watchId,hcause,hr.occurredAt⟩,hr.key⟩

theorem aclEvents_tell {c : ChangeNotice} {es : List AlertEvent}
    (h : aclEvents p index enabled c = .ok es) {e : AlertEvent} (he : e ∈ es) :
    ∃ w ∈ index, Tells e w .watchedResourceAclChanged c.kind c.key c.at' ∧
      e.key = keyAbout p .watchedResourceAclChanged
        (if placeKind c.kind = .share then none else placeKey c)
        (if placeKind c.kind = .share then placeKey c else none) none c.relatedKey := by
  unfold aclEvents at h
  split at h
  · cases h
    cases he
  · obtain ⟨w,hw,x,hr⟩ := eventsFor_raised (fun _ _ => rfl) h he
    have hcause : cause e.payload = (some c.kind.value,some c.key) := by
      rw [hr.payload]
      exact cause_changePayload c _
    exact ⟨w,(mem_matching hw).1,⟨hr.trigger,hr.watchId,hcause,hr.occurredAt⟩,hr.key⟩

theorem eventsForExpansion_tell {x : AccessExpansion} {es : List AlertEvent}
    (h : eventsForExpansion p index x = .ok es) {e : AlertEvent} (he : e ∈ es) :
    ∃ w ∈ index, Tells e w .watchedAccessExpanded x.causeKind x.causeKey x.at' ∧
      (∃ k, orElse x.resourceKey x.shareKey = some k ∧ fold p w.key = fold p k) ∧
      e.key = keyAbout p .watchedAccessExpanded (if x.kind = .resource then x.resourceKey else none)
        (if x.kind = .resource then none else x.shareKey) (some x.principalKey) none := by
  simp only [eventsForExpansion] at h
  obtain ⟨w,hw,y,hr⟩ := eventsFor_raised (fun _ _ => rfl) h he
  have hcause : cause e.payload = (some x.causeKind.value,some x.causeKey) := by
    rw [hr.payload]
    rfl
  obtain ⟨hin,-,hplace⟩ := mem_matching hw
  exact ⟨w,hin,⟨hr.trigger,hr.watchId,hcause,hr.occurredAt⟩,hplace,hr.key⟩

end Origins

end Adg.AlertDetection
