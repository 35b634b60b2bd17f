import Adg.ChangeFields
import Adg.RightsAlgebra
import Adg.SecurityIdentifier

/-!
# Severity and direction

One table of rules, read from the top; the first one that fires decides. A
rule looks at the facts of one transition and at nothing else. The sentence a
rule shows with its outcome is not kept here.
-/

set_option autoImplicit false

namespace Adg.ChangeRules
open Adg.Observation Adg.ObjectVersions Adg.RightsAlgebra Adg.SecurityIdentifier Adg.ChangeFields

inductive ChangeAction where
  | added
  | modified
  | removed
  | firstObserved
  deriving DecidableEq, Repr

inductive ChangeDirection where
  | broadened
  | narrowed
  | mixed
  | neutral
  | undetermined
  deriving DecidableEq, Repr

inductive ChangeSeverity where
  | critical
  | high
  | medium
  | low
  | info
  deriving DecidableEq, Repr

/-- The place of a severity in `SEVERITY_ORDER`. -/
def ChangeSeverity.rank : ChangeSeverity → ℕ
  | .info => 0
  | .low => 1
  | .medium => 2
  | .high => 3
  | .critical => 4

def atLeast (severity floor : ChangeSeverity) : Bool := floor.rank ≤ severity.rank

/-- A column of a state; one that is missing reads as a null. -/
def valueOf (state : State) (name : String) : Value := (state.lookup name).getD .null

/-- `str` of a column that holds text, unless it is empty. -/
def nonEmptyText : Value → Option String
  | .text s => if s = "" then none else some s
  | _ => none

structure FieldDelta where
  field : String
  before : Value
  after : Value
  significance : FieldSignificance
  moved : before ≠ after
  deriving DecidableEq, Repr

namespace Principals

def broadTrusteeSids : List String :=
  ["S-1-1-0", "S-1-5-7", "S-1-5-11", "S-1-5-15", "S-1-5-32-545", "S-1-5-32-546", "S-1-5-113",
    "S-1-5-114", "S-1-15-2-1"]

def broadTrusteeRids : List ℕ := [513, 514, 515]

def privilegedGroupSids : List String := ["S-1-5-32-544", "S-1-5-32-547", "S-1-5-32-551"]

def privilegedGroupRids : List ℕ := [512, 518, 519, 520, 526, 527]

/-- `sid_of_key`: what stands behind the last bar, when it is a SID. -/
def sidOfKey (key : Option String) : Option Sid :=
  match key with
  | none => none
  | some k =>
    if k = "" then none
    else (Sid.parse (String.ofList ((k.toList.splitOn '|').getLastD []))).toOption

/-- `_domain_rid`: `S-1-5-21-x-y-z-RID` only. -/
def domainRid (sid : Sid) : Option ℕ :=
  match matchSid sid.value.toList with
  | none => none
  | some parts =>
    if parts.authority = 5 ∧ 4 < parts.subAuthorities.length ∧ parts.subAuthorities.head? = some 21
    then parts.subAuthorities.getLast? else none

def named (sids : List String) (rids : List ℕ) (key : Option String) : Bool :=
  match sidOfKey key with
  | none => false
  | some sid => sid.value ∈ sids || (domainRid sid).any (· ∈ rids)

def isBroadTrustee : Option String → Bool := named broadTrusteeSids broadTrusteeRids

def isPrivilegedGroup : Option String → Bool := named privilegedGroupSids privilegedGroupRids

end Principals

open Principals

structure ChangeFacts where
  kind : ObservationKind
  key : String
  action : ChangeAction
  before : Option State
  after : Option State
  deltas : List FieldDelta
  containerKey : Option String := none
  relatedKey : Option String := none
  orderingMaterial : Option Bool := none
  siblingAceChanges : Option ℕ := none

def writeBits : AccessMask :=
  NtfsRight.writeData ||| NtfsRight.appendData ||| NtfsRight.writeEa |||
    NtfsRight.writeAttributes ||| NtfsRight.delete ||| NtfsRight.deleteChild |||
    NtfsRight.writeDac ||| NtfsRight.writeOwner

def aceKinds : List ObservationKind := [.smbAce, .ntfsAce]

namespace ChangeFacts
variable (f : ChangeFacts)

/-- The newer state when there is one that says anything. -/
def state : State :=
  match f.after with
  | some (c :: cs) => c :: cs
  | _ => f.before.getD []

def moved (name : String) : Option (Value × Value) :=
  (f.deltas.find? (·.field = name)).map fun d => (d.before,d.after)

def became (name : String) (value : Value) : Bool := (f.moved name).any (·.2 = value)

def hasDelta (significance : FieldSignificance) : Bool :=
  f.deltas.any (·.significance = significance)

def aceType : Option AceType :=
  match valueOf f.state "ace_type" with
  | .text "allow" => some .allow
  | .text "deny" => some .deny
  | _ => none

def isAllow : Bool := f.aceType = some .allow

def isDeny : Bool := f.aceType = some .deny

def permissionLevel : Value → Option SharePermission
  | .text "read" => some .read
  | .text "change" => some .change
  | .text "full" => some .full
  | _ => none

/-- The rights of an entry, by its mask or by the level its source reported. -/
def grantedMask : Option RightsMask :=
  let mask := valueOf f.state "access_mask"
  match f.kind, mask with
  | .ntfsAce, .whole n => some (⟨BitVec.ofInt 32 n,.ntfs⟩ : RightsMask).expandGenerics
  | .smbAce, .whole n => some (⟨BitVec.ofInt 32 n,.smbShare⟩ : RightsMask).expandGenerics
  | .smbAce, _ =>
    (permissionLevel (valueOf f.state "permission")).map fun level =>
      ⟨shareLevelMask level,.smbShare⟩
  | _, _ => none

def grantsFullControl : Bool :=
  f.grantedMask.any fun m => m.value &&& fileAllAccess = fileAllAccess

def grantsEscalation : Bool := f.grantedMask.any fun m => m.value &&& escalationRightBits ≠ 0

def grantsWrite : Bool := f.grantedMask.any fun m => m.value &&& writeBits ≠ 0

def trustee : Option String :=
  (nonEmptyText (valueOf f.state "trustee_key")).or f.relatedKey

def isAdded : Bool := f.action = .added

def isRemoved : Bool := f.action = .removed

end ChangeFacts

structure Rule where
  ruleId : String
  kinds : Option (List ObservationKind)
  severity : ChangeSeverity
  direction : ChangeDirection
  test : ChangeFacts → Bool

def Rule.appliesTo (r : Rule) (kind : ObservationKind) : Bool := r.kinds.all fun ks => kind ∈ ks

structure RuleOutcome where
  ruleId : String
  severity : ChangeSeverity
  direction : ChangeDirection
  deriving DecidableEq, Repr

def Rule.outcome (r : Rule) : RuleOutcome := ⟨r.ruleId,r.severity,r.direction⟩

/-- The rules before anything else. -/
def leadingRules : List Rule :=
  [⟨"first_observed",none,.info,.neutral,fun f => f.action = .firstObserved⟩,
    ⟨"identity.drift",none,.high,.undetermined,fun f => f.hasDelta .identity⟩]

def aceRules : List Rule :=
  [⟨"ace.allow.broad.full",aceKinds,.critical,.broadened,fun f =>
      f.isAdded && f.isAllow && isBroadTrustee f.trustee && f.grantsFullControl⟩,
    ⟨"ace.allow.broad.escalation",aceKinds,.critical,.broadened,fun f =>
      f.isAdded && f.isAllow && isBroadTrustee f.trustee && f.grantsEscalation⟩,
    ⟨"ace.allow.broad.write",aceKinds,.high,.broadened,fun f =>
      f.isAdded && f.isAllow && isBroadTrustee f.trustee && f.grantsWrite⟩,
    ⟨"ace.allow.broad",aceKinds,.high,.broadened,fun f =>
      f.isAdded && f.isAllow && isBroadTrustee f.trustee⟩,
    ⟨"ace.deny.removed",aceKinds,.high,.broadened,fun f => f.isRemoved && f.isDeny⟩,
    ⟨"ace.allow.full",aceKinds,.high,.broadened,fun f =>
      f.isAdded && f.isAllow && f.grantsFullControl⟩,
    ⟨"ace.allow.escalation",aceKinds,.high,.broadened,fun f =>
      f.isAdded && f.isAllow && f.grantsEscalation⟩,
    ⟨"ace.order.material",aceKinds,.high,.undetermined,fun f => f.orderingMaterial = some true⟩,
    ⟨"ace.allow.added",aceKinds,.medium,.broadened,fun f => f.isAdded && f.isAllow⟩,
    ⟨"ace.deny.added",aceKinds,.low,.narrowed,fun f => f.isAdded && f.isDeny⟩,
    ⟨"ace.allow.removed",aceKinds,.low,.narrowed,fun f => f.isRemoved && f.isAllow⟩,
    ⟨"ace.source.explicit",aceKinds,.medium,.neutral,fun f => f.became "source" (.text "explicit")⟩,
    ⟨"ace.source.inherited",aceKinds,.low,.neutral,fun f => f.became "source" (.text "inherited")⟩,
    ⟨"ace.order.immaterial",aceKinds,.info,.neutral,fun f => f.orderingMaterial = some false⟩,
    ⟨"ace.order.undetermined",aceKinds,.medium,.undetermined,fun f =>
      (f.moved "order_index").isSome && f.orderingMaterial.isNone⟩]

def membershipRules : List Rule :=
  [⟨"membership.added.privileged",some [.membershipEdge],.critical,.broadened,fun f =>
      f.isAdded && isPrivilegedGroup f.containerKey⟩,
    ⟨"membership.added.broad",some [.membershipEdge],.high,.broadened,fun f =>
      f.isAdded && isBroadTrustee f.relatedKey⟩,
    ⟨"membership.removed.privileged",some [.membershipEdge],.medium,.narrowed,fun f =>
      f.isRemoved && isPrivilegedGroup f.containerKey⟩,
    ⟨"membership.added",some [.membershipEdge],.medium,.broadened,fun f => f.isAdded⟩,
    ⟨"membership.removed",some [.membershipEdge],.low,.narrowed,fun f => f.isRemoved⟩]

def principalRules : List Rule :=
  [⟨"principal.group_type.security",some [.principal],.high,.broadened,fun f =>
      f.became "group_type" (.text "security")⟩,
    ⟨"principal.group_type.distribution",some [.principal],.medium,.narrowed,fun f =>
      f.became "group_type" (.text "distribution")⟩,
    ⟨"principal.enabled",some [.principal],.medium,.broadened,fun f =>
      f.became "enabled" (.truth true)⟩,
    ⟨"principal.disabled",some [.principal],.low,.narrowed,fun f =>
      f.became "enabled" (.truth false)⟩,
    ⟨"principal.undeleted",some [.principal],.medium,.broadened,fun f =>
      f.became "is_deleted" (.truth false)⟩,
    ⟨"principal.deleted",some [.principal],.medium,.narrowed,fun f =>
      f.became "is_deleted" (.truth true)⟩,
    ⟨"principal.group_scope",some [.principal],.low,.undetermined,fun f =>
      (f.moved "group_scope").isSome⟩,
    ⟨"principal.removed",some [.principal],.low,.narrowed,fun f => f.isRemoved⟩,
    ⟨"principal.added",some [.principal],.low,.neutral,fun f => f.isAdded⟩]

/-- The text a column moved to. -/
def movedTo (f : ChangeFacts) (name : String) : Option String :=
  (f.moved name).bind fun m => nonEmptyText m.2

def resourceRules : List Rule :=
  [⟨"resource.null_dacl",some [.ntfsResource],.critical,.broadened,fun f =>
      f.became "dacl_present" (.truth false)⟩,
    ⟨"resource.added.null_dacl",some [.ntfsResource],.high,.broadened,fun f =>
      f.isAdded && valueOf f.state "dacl_present" = .truth false⟩,
    ⟨"resource.unprotected",some [.ntfsResource],.high,.undetermined,fun f =>
      f.became "dacl_protected" (.truth false)⟩,
    ⟨"resource.protected",some [.ntfsResource],.medium,.undetermined,fun f =>
      f.became "dacl_protected" (.truth true)⟩,
    ⟨"resource.inheritance",some [.ntfsResource],.medium,.undetermined,fun f =>
      (f.moved "inheritance_enabled").isSome⟩,
    ⟨"resource.owner.broad",some [.ntfsResource],.high,.broadened,fun f =>
      (f.moved "owner_sid").isSome && isBroadTrustee (movedTo f "owner_sid")⟩,
    ⟨"resource.owner",some [.ntfsResource],.medium,.broadened,fun f =>
      (f.moved "owner_sid").isSome⟩,
    ⟨"resource.acl_hash.unexplained",some [.ntfsResource],.medium,.undetermined,fun f =>
      (f.moved "acl_hash").isSome && f.siblingAceChanges = some 0⟩,
    ⟨"resource.acl_hash",some [.ntfsResource],.low,.undetermined,fun f =>
      (f.moved "acl_hash").isSome⟩,
    ⟨"resource.removed",some [.ntfsResource],.low,.narrowed,fun f => f.isRemoved⟩,
    ⟨"resource.added",some [.ntfsResource],.info,.neutral,fun f => f.isAdded⟩]

def shareRules : List Rule :=
  [⟨"share.local_path",some [.smbShare],.high,.undetermined,fun f =>
      (f.moved "local_path").isSome⟩,
    ⟨"share.type",some [.smbShare],.medium,.undetermined,fun f => (f.moved "share_type").isSome⟩,
    ⟨"share.added",some [.smbShare],.medium,.broadened,fun f => f.isAdded⟩,
    ⟨"share.removed",some [.smbShare],.low,.narrowed,fun f => f.isRemoved⟩]

def serverRules : List Rule :=
  [⟨"server.computer_sid",some [.server],.high,.undetermined,fun f =>
      (f.moved "computer_sid").isSome⟩,
    ⟨"server.domain",some [.server],.medium,.undetermined,fun f =>
      (f.moved "is_domain_member").isSome || (f.moved "domain_sid").isSome⟩,
    ⟨"server.removed",some [.server],.low,.neutral,fun f => f.isRemoved⟩,
    ⟨"server.added",some [.server],.info,.neutral,fun f => f.isAdded⟩]

def fallbackRules : List Rule :=
  [⟨"unclassified.field",none,.medium,.undetermined,fun f => f.hasDelta .unclassified⟩,
    ⟨"security.other",none,.medium,.undetermined,fun f => f.hasDelta .security⟩,
    ⟨"derived.other",none,.info,.neutral,fun f => f.hasDelta .derived⟩,
    ⟨"metadata.other",none,.info,.neutral,fun f => f.hasDelta .metadata⟩,
    ⟨"provenance.only",none,.info,.neutral,fun f =>
      f.deltas ≠ [] ∧ f.deltas.all (·.significance = .noise)⟩]

/-- The last row of the table, which always fires. -/
def unclassifiedRule : Rule := ⟨"unclassified",none,.medium,.undetermined,fun _ => true⟩

/-- `RULES`. -/
def rules : List Rule :=
  leadingRules ++ aceRules ++ membershipRules ++ principalRules ++ resourceRules ++ shareRules ++
    serverRules ++ fallbackRules ++ [unclassifiedRule]

/-- `evaluate`: the first rule that applies and fires. -/
def evaluate (f : ChangeFacts) : RuleOutcome :=
  ((rules.find? fun r => r.appliesTo f.kind && r.test f).getD unclassifiedRule).outcome

/-- Some rule of the table always fires, so nothing is decided outside it. -/
theorem evaluate_in_table (f : ChangeFacts) :
    ∃ r ∈ rules, r.appliesTo f.kind = true ∧ r.test f = true ∧ evaluate f = r.outcome := by
  unfold evaluate
  cases h : rules.find? fun r => r.appliesTo f.kind && r.test f with
  | none =>
    have := List.find?_eq_none.mp h unclassifiedRule (by simp [rules])
    simp [unclassifiedRule, Rule.appliesTo] at this
  | some r =>
    have hfires := List.find?_some h
    rw [Bool.and_eq_true] at hfires
    exact ⟨r,List.mem_of_find?_eq_some h,hfires.1,hfires.2,rfl⟩

/-- A first sighting is never scored, whatever its state says. -/
theorem evaluate_firstObserved {f : ChangeFacts} (h : f.action = .firstObserved) :
    evaluate f = ⟨"first_observed",.info,.neutral⟩ := by
  simp [evaluate, rules, leadingRules, Rule.appliesTo, h, Rule.outcome]

end Adg.ChangeRules
