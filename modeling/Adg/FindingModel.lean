import Adg.AlertModel

/-!
# Risk findings

A finding is one rule matched at one subject, with the records it was matched
on. Its key digests the rule and the subject, so the same shape in the same
place is the same finding on every evaluation. Its confidence follows from
what qualifies the facts it rests on, and its evidence stands in one order
whatever order it was read in.
-/

set_option autoImplicit false

namespace Adg.FindingModel
open Adg.Observation Adg.SortedLists Adg.CanonicalJson Adg.AlertModel

/-! ### What a finding is made of -/

inductive RuleId where
  | everyoneBroadAccess
  | authenticatedUsersBroadAccess
  | domainUsersBroadAccess
  | directUserAce
  | disabledPrincipalRetainsAccess
  | unresolvedSidOnAcl
  | brokenInheritance
  | deepGroupNesting
  | redundantAccessPaths
  | emptyPermissionBearingGroup
  | broadAccessOnSensitiveResource
  deriving DecidableEq, Repr

namespace RuleId

def value : RuleId → String
  | everyoneBroadAccess => "everyone_broad_access"
  | authenticatedUsersBroadAccess => "authenticated_users_broad_access"
  | domainUsersBroadAccess => "domain_users_broad_access"
  | directUserAce => "direct_user_ace"
  | disabledPrincipalRetainsAccess => "disabled_principal_retains_access"
  | unresolvedSidOnAcl => "unresolved_sid_on_acl"
  | brokenInheritance => "broken_inheritance"
  | deepGroupNesting => "deep_group_nesting"
  | redundantAccessPaths => "redundant_access_paths"
  | emptyPermissionBearingGroup => "empty_permission_bearing_group"
  | broadAccessOnSensitiveResource => "broad_access_on_sensitive_resource"

def all : List RuleId :=
  [everyoneBroadAccess, authenticatedUsersBroadAccess, domainUsersBroadAccess, directUserAce,
    disabledPrincipalRetainsAccess, unresolvedSidOnAcl, brokenInheritance, deepGroupNesting,
    redundantAccessPaths, emptyPermissionBearingGroup, broadAccessOnSensitiveResource]

/-- `RuleId(text)`. -/
def ofValue (text : String) : Option RuleId := all.find? (·.value = text)

@[simp] theorem ofValue_value (r : RuleId) : ofValue r.value = some r := by
  cases r <;> rfl

end RuleId

inductive Severity where
  | informational
  | low
  | medium
  | high
  | critical
  deriving DecidableEq, Repr

namespace Severity

def value : Severity → String
  | informational => "informational"
  | low => "low"
  | medium => "medium"
  | high => "high"
  | critical => "critical"

def ofValue (text : String) : Option Severity :=
  [informational, low, medium, high, critical].find? (·.value = text)

@[simp] theorem ofValue_value (s : Severity) : ofValue s.value = some s := by
  cases s <;> rfl

end Severity

inductive Confidence where
  | confirmed
  | probable
  | possible
  deriving DecidableEq, Repr

namespace Confidence

def value : Confidence → String
  | confirmed => "confirmed"
  | probable => "probable"
  | possible => "possible"

def ofValue (text : String) : Option Confidence :=
  [confirmed, probable, possible].find? (·.value = text)

@[simp] theorem ofValue_value (c : Confidence) : ofValue c.value = some c := by
  cases c <;> rfl

/-- `CONFIDENCE_ORDER`. -/
def order : Confidence → ℕ
  | possible => 0
  | probable => 1
  | confirmed => 2

end Confidence

inductive FactQualifier where
  | aclDerived
  | aclDerivedDistant
  | aceCountShort
  | membershipTruncated
  | membershipUnobserved
  | principalUndescribed
  deriving DecidableEq, Repr

namespace FactQualifier

def value : FactQualifier → String
  | aclDerived => "acl_derived"
  | aclDerivedDistant => "acl_derived_distant"
  | aceCountShort => "ace_count_short"
  | membershipTruncated => "membership_truncated"
  | membershipUnobserved => "membership_unobserved"
  | principalUndescribed => "principal_undescribed"

def ofValue (text : String) : Option FactQualifier :=
  [aclDerived, aclDerivedDistant, aceCountShort, membershipTruncated, membershipUnobserved,
    principalUndescribed].find? (·.value = text)

@[simp] theorem ofValue_value (q : FactQualifier) : ofValue q.value = some q := by
  cases q <;> rfl

/-- `QUALIFIER_CONFIDENCE`. -/
def confidence : FactQualifier → Confidence
  | aclDerived => .probable
  | aclDerivedDistant => .possible
  | aceCountShort => .possible
  | membershipTruncated => .possible
  | membershipUnobserved => .possible
  | principalUndescribed => .probable

end FactQualifier

/-- `confidence_of`. -/
def confidenceOf (qualifiers : List FactQualifier) : Confidence :=
  qualifiers.foldl (fun weakest q =>
    if q.confidence.order < weakest.order then q.confidence else weakest) .confirmed

inductive SeverityBand where
  | default
  | read
  | write
  | fullControl
  | nullDacl
  | «protected»
  | diverged
  deriving DecidableEq, Repr

namespace SeverityBand

def value : SeverityBand → String
  | default => "default"
  | read => "read"
  | write => "write"
  | fullControl => "full_control"
  | nullDacl => "null_dacl"
  | «protected» => "protected"
  | diverged => "diverged"

def ofValue (text : String) : Option SeverityBand :=
  [default, read, write, fullControl, nullDacl, «protected», diverged].find? (·.value = text)

@[simp] theorem ofValue_value (b : SeverityBand) : ofValue b.value = some b := by
  cases b <;> rfl

end SeverityBand

/-! ### Subjects -/

/-- A place, an identity, or a pairing of the two. -/
structure FindingSubject where
  resourceKey : Option String := none
  shareKey : Option String := none
  principalKey : Option String := none
  discriminator : Option String := none
  named : given resourceKey || given shareKey || given principalKey

def FindingSubject.build (resourceKey shareKey principalKey discriminator : Option String) :
    Except DomainError FindingSubject :=
  if h : given resourceKey || given shareKey || given principalKey then
    .ok ⟨resourceKey,shareKey,principalKey,discriminator,h⟩
  else .error { message := "A finding must name at least one of a resource, a share or a principal. A finding about nothing in particular cannot be acted on or resolved.", field := "subject" }

theorem FindingSubject.build_eq (s : FindingSubject) :
    FindingSubject.build s.resourceKey s.shareKey s.principalKey s.discriminator = .ok s :=
  dif_pos s.named

/-- The rendering the finding key is computed over. -/
def FindingSubject.canonical (s : FindingSubject) : String :=
  separator.intercalate [orBlank s.resourceKey, orBlank s.shareKey, orBlank s.principalKey,
    orBlank s.discriminator]

/-- `finding_key`. -/
def findingKey (sha256 : String → String) (rule : RuleId) (subject : FindingSubject) : String :=
  sha256 (rule.value ++ separator ++ subject.canonical)

/-! ### Scopes -/

/-- What a fact bundle covers. No set of keys leaves its axis unrestricted. -/
structure RiskScope where
  complete : Bool := false
  resourceKeys : Option (List String) := none
  shareKeys : Option (List String) := none
  principalKeys : Option (List String) := none

/-- `covers_resource`, `covers_share` and `covers_principal`, on their own axis. -/
def RiskScope.coversOn (s : RiskScope) (keys : Option (List String)) (key : Option String) : Bool :=
  s.complete || (match key with
    | none => false
    | some k => keys.any fun held => held.contains k)

/-- `scope_covers`. Every key the subject names must be covered. -/
def scopeCovers (scope : RiskScope) (subject : FindingSubject) : Bool :=
  if scope.complete then true
  else
    let checks := [(subject.resourceKey,scope.resourceKeys), (subject.shareKey,scope.shareKeys),
      (subject.principalKey,scope.principalKeys)]
    let named := checks.filter fun check => check.1.isSome
    if named.isEmpty then false
    else named.all fun check => scope.coversOn check.2 check.1

/-! ### Evidence -/

inductive EvidenceKind where
  | resource
  | share
  | ace
  | principal
  | membership
  | configuration
  deriving DecidableEq, Repr

namespace EvidenceKind

def value : EvidenceKind → String
  | resource => "resource"
  | share => "share"
  | ace => "ace"
  | principal => "principal"
  | membership => "membership"
  | configuration => "configuration"

def ofValue (text : String) : Option EvidenceKind :=
  [resource, share, ace, principal, membership, configuration].find? (·.value = text)

@[simp] theorem ofValue_value (k : EvidenceKind) : ofValue k.value = some k := by
  cases k <;> rfl

end EvidenceKind

/-- One complete record a rule read, named by kind and key. -/
structure EvidenceItem where
  kind : EvidenceKind
  key : String
  attributes : List (String × Json)
  named : key ≠ ""

namespace EvidenceItem

def sortKey (i : EvidenceItem) : String ×ₗ String := toLex (i.kind.value,i.key)

def toJson (i : EvidenceItem) : Json :=
  .object [("kind",.text i.kind.value), ("key",.text i.key), ("attributes",.object i.attributes)]

/-- `EvidenceItem.__post_init__`. -/
def build (kind : EvidenceKind) (key : String) (attributes : List (String × Json)) :
    Except DomainError EvidenceItem :=
  if h : key ≠ "" then .ok ⟨kind,key,attributes,h⟩
  else .error { message := "An evidence item needs a key.", field := "key" }

end EvidenceItem

/-- `payload[name]`. -/
def field? (fields : List (String × Json)) (name : String) : Option Json :=
  (fields.find? (·.1 = name)).map (·.2)

/-- A text, where one stands. -/
def text? : Option Json → Option String
  | some (.text s) => some s
  | _ => none

/-- `dict(value or {})`. -/
def fieldsOf : Option Json → List (String × Json)
  | some (.object fields) => fields
  | _ => []

/-- `EvidenceItem.from_json`, of a payload whose kind and key are texts. -/
def EvidenceItem.fromJson : Json → Option EvidenceItem
  | .object fields => do
    let kind ← (text? (field? fields "kind")).bind EvidenceKind.ofValue
    let key ← text? (field? fields "key")
    (EvidenceItem.build kind key (fieldsOf (field? fields "attributes"))).toOption
  | _ => none

theorem EvidenceItem.fromJson_toJson (i : EvidenceItem) : fromJson i.toJson = some i := by
  have hkind : field? [("kind",.text i.kind.value), ("key",.text i.key),
      ("attributes",.object i.attributes)] "kind" = some (.text i.kind.value) := rfl
  have hkey : field? [("kind",.text i.kind.value), ("key",.text i.key),
      ("attributes",.object i.attributes)] "key" = some (.text i.key) := rfl
  have hattributes : field? [("kind",.text i.kind.value), ("key",.text i.key),
      ("attributes",.object i.attributes)] "attributes" = some (.object i.attributes) := rfl
  have hbuilt : EvidenceItem.build i.kind i.key i.attributes = .ok i := dif_pos i.named
  unfold fromJson toJson
  simp [hkind, hkey, hattributes, text?, fieldsOf, hbuilt, Except.toOption]

/-- The first record under each kind and key. -/
def firstRecords : List EvidenceItem → List EvidenceItem
  | [] => []
  | i :: rest => i :: (firstRecords rest).filter fun j => j.sortKey ≠ i.sortKey

theorem firstRecords_apart (items : List EvidenceItem) :
    ((firstRecords items).map EvidenceItem.sortKey).Nodup := by
  induction items with
  | nil => exact List.nodup_nil
  | cons i rest ih =>
    rw [firstRecords, List.map_cons, List.nodup_cons]
    constructor
    · intro h
      obtain ⟨j,hj,hkey⟩ := List.mem_map.mp h
      have hne := (List.mem_filter.mp hj).2
      simp [hkey] at hne
    · exact ih.sublist (List.Sublist.map _ List.filter_sublist)

theorem firstRecords_of_apart {items : List EvidenceItem}
    (h : (items.map EvidenceItem.sortKey).Nodup) : firstRecords items = items := by
  induction items with
  | nil => rfl
  | cons i rest ih =>
    rw [List.map_cons, List.nodup_cons] at h
    rw [firstRecords, ih h.2]
    congr 1
    apply List.filter_eq_self.mpr
    intro j hj
    have hne : j.sortKey ≠ i.sortKey := fun hkey => h.1 (hkey ▸ List.mem_map_of_mem hj)
    simpa using hne

/-- The records behind a finding, by kind and then key. -/
structure Evidence where
  items : List EvidenceItem
  ordered : items.Pairwise fun i j => i.sortKey < j.sortKey

namespace Evidence

/-- `Evidence.of`, through which all evidence is made. -/
def of (items : List EvidenceItem) : Evidence :=
  ⟨sortedBy EvidenceItem.sortKey (firstRecords items),sortedBy_strict (firstRecords_apart items)⟩

def toJson (e : Evidence) : Json := .array (e.items.map EvidenceItem.toJson)

/-- `Evidence.from_json`. -/
def fromJson : Json → Option Evidence
  | .array entries => (entries.mapM EvidenceItem.fromJson).map Evidence.of
  | _ => none

/-- The digest of a rendering of evidence. -/
def digestOf (sha256 : String → String) (rendering : Json) : String :=
  sha256 (CanonicalJson.canonical rendering)

def digest (sha256 : String → String) (e : Evidence) : String := digestOf sha256 e.toJson

theorem of_items (e : Evidence) : of e.items = e := by
  have hapart : (e.items.map EvidenceItem.sortKey).Nodup :=
    List.pairwise_map.mpr (e.ordered.imp fun h => h.ne)
  have hitems : sortedBy EvidenceItem.sortKey (firstRecords e.items) = e.items := by
    rw [firstRecords_of_apart hapart]
    exact sortedBy_eq_of_perm _ (List.Perm.refl _) e.ordered
  cases e
  unfold of
  simp only [hitems]

/-- Evidence is read back as it was written. -/
theorem fromJson_toJson (e : Evidence) : fromJson e.toJson = some e := by
  have hitems : ∀ items : List EvidenceItem,
      (items.map EvidenceItem.toJson).mapM EvidenceItem.fromJson = some items := by
    intro items
    induction items with
    | nil => rfl
    | cons i rest ih =>
      rw [List.map_cons, List.mapM_cons, EvidenceItem.fromJson_toJson, ih]
      rfl
  unfold fromJson toJson
  simp only [hitems]
  rw [Option.map_some, of_items]

end Evidence

/-! ### Findings -/

/-- The shape, where it is, how bad it is, and how sure that is. -/
structure RiskFinding (sha256 : String → String) where
  ruleId : RuleId
  ruleVersion : String
  key : String
  subject : FindingSubject
  band : SeverityBand
  severity : Severity
  confidence : Confidence
  qualifiers : List FactQualifier
  evidence : Evidence
  detail : List (String × Json)
  keyed : key = findingKey sha256 ruleId subject
  derived : confidence = confidenceOf qualifiers

variable {sha256 : String → String}

/-- `RiskFinding.__post_init__`. -/
def RiskFinding.build (sha256 : String → String) (ruleId : RuleId) (ruleVersion key : String)
    (subject : FindingSubject) (band : SeverityBand) (severity : Severity)
    (confidence : Confidence) (qualifiers : List FactQualifier) (evidence : Evidence)
    (detail : List (String × Json)) : Except DomainError (RiskFinding sha256) :=
  if hkey : key = findingKey sha256 ruleId subject then
    if hconfidence : confidence = confidenceOf qualifiers then
      .ok ⟨ruleId,ruleVersion,key,subject,band,severity,confidence,qualifiers,evidence,detail,
        hkey,hconfidence⟩
    else
      let given := confidence.value
      let derived := (confidenceOf qualifiers).value
      .error { message := s!"Finding confidence '{given}' is not what its qualifiers support ('{derived}'). Confidence is derived, never chosen.", field := "confidence" }
  else
    let rule := ruleId.value
    let expected := findingKey sha256 ruleId subject
    .error { message := s!"Finding key '{key}' does not match rule '{rule}' and its subject, which digest to '{expected}'. A key computed any other way would stop the same finding matching itself between evaluations.", field := "key" }

/-- `evidence_digest`. -/
def RiskFinding.evidenceDigest (f : RiskFinding sha256) : String := f.evidence.digest sha256

end Adg.FindingModel
