import Adg.Observation

/-!
# What an answer could not settle

The closed vocabulary of conditions, one finding per occurrence, and the two
sets that say in which direction a condition may move an answer.
-/

set_option autoImplicit false

namespace Adg.AccessConditions

inductive AccessCondition where
  | nullDacl
  | emptyDacl
  | protectedDacl
  | nonCanonicalDacl
  | orderDependentResult
  | aceCountMismatch
  | aclTruncated
  | ownerImplicitRights
  | ownerRightsAce
  | creatorOwnerAce
  | logonTypeTrustee
  | unresolvedTrustee
  | trusteeMembershipUnobserved
  | subjectUnresolved
  | subjectIsAGroup
  | subjectDisabled
  | membershipTruncated
  | membershipCycle
  | assumedTokenSids
  | systemMappingConfirmed
  | systemMappingAmbiguous
  | systemMappingMissing
  | systemMappingConflicting
  | shareAclNotObserved
  | ntfsAclNotObserved
  | ntfsAclDerived
  | intermediatePathUnobserved
  | resourceNotUnderShare
  | indeterminateRights
  | unrecognizedRightsBits
  | genericRightsExpanded
  | escalationRights
  deriving DecidableEq, Repr

/-- One pair of entries out of canonical order, as a finding reports it. -/
structure ViolationRecord where
  kind : String
  position : ℕ
  trusteeSid : String
  earlierPosition : ℕ
  earlierTrusteeSid : String
  deriving DecidableEq, Repr

/-- A value of a finding's free-form detail. -/
inductive Evidence where
  | absent
  | flag (value : Bool)
  | number (value : ℕ)
  | text (value : String)
  | texts (values : List String)
  | violations (rows : List ViolationRecord)
  deriving DecidableEq, Repr

def Evidence.optional : Option String → Evidence
  | none => .absent
  | some value => .text value

structure AccessFinding where
  condition : AccessCondition
  detail : List (String × Evidence) := []
  deriving DecidableEq, Repr

/-- `OVERSTATING_CONDITIONS`. -/
def overstatingConditions : List AccessCondition :=
  [.shareAclNotObserved, .ntfsAclDerived, .intermediatePathUnobserved,
    .resourceNotUnderShare, .aceCountMismatch, .aclTruncated, .subjectIsAGroup,
    .subjectUnresolved, .subjectDisabled, .systemMappingAmbiguous, .systemMappingMissing,
    .systemMappingConflicting]

/-- `UNDERSTATING_CONDITIONS`. -/
def understatingConditions : List AccessCondition :=
  [.membershipTruncated, .trusteeMembershipUnobserved, .logonTypeTrustee,
    .subjectUnresolved, .aceCountMismatch, .aclTruncated, .ntfsAclNotObserved,
    .systemMappingConfirmed, .systemMappingAmbiguous, .systemMappingMissing,
    .systemMappingConflicting]

def AccessFinding.mayOverstate (f : AccessFinding) : Bool := f.condition ∈ overstatingConditions

def AccessFinding.mayUnderstate (f : AccessFinding) : Bool := f.condition ∈ understatingConditions

end Adg.AccessConditions
