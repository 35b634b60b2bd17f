import Adg.Fallible

/-!
# Observed permission facts

The vocabulary shared by every layer: the domain error, the two entry types
a DACL can hold, the inheritance flag byte and the access-mask bits, exactly
as a descriptor stores them. Nothing here resolves access.
-/

set_option autoImplicit false

namespace Adg.Observation

/-- `DomainValidationError`, and the subclasses the rights algebra raises.
The `raised` tag is the Python class, so that a caller can tell them apart. -/
inductive ErrorClass where
  | domainValidation
  | rights
  | rightsLayer
  | temporalInvariant
  | integrity
  deriving DecidableEq, Repr

structure DomainError where
  message : String
  field : Option String := none
  raised : ErrorClass := .domainValidation
  deriving DecidableEq, Repr

inductive AceType where
  | allow
  | deny
  deriving DecidableEq, Repr

def AceType.value : AceType → String
  | .allow => "allow"
  | .deny => "deny"

theorem AceType.value_injective : Function.Injective AceType.value := by
  intro a b h
  cases a <;> cases b <;> first | rfl | exact absurd h (by decide)

inductive AceSource where
  | explicit
  | inherited
  deriving DecidableEq, Repr

/-- `ACE_HEADER.AceFlags`, one byte. -/
abbrev AceFlags := BitVec 8

namespace AceFlag
def objectInherit : AceFlags := 0x01#8
def containerInherit : AceFlags := 0x02#8
def noPropagateInherit : AceFlags := 0x04#8
def inheritOnly : AceFlags := 0x08#8
def inherited : AceFlags := 0x10#8
end AceFlag

/-- An unsigned 32-bit access mask; `_validate_access_mask` refuses anything else. -/
abbrev AccessMask := BitVec 32

namespace NtfsRight
def readData : AccessMask := 0x00000001#32
def writeData : AccessMask := 0x00000002#32
def appendData : AccessMask := 0x00000004#32
def readEa : AccessMask := 0x00000008#32
def writeEa : AccessMask := 0x00000010#32
def execute : AccessMask := 0x00000020#32
def deleteChild : AccessMask := 0x00000040#32
def readAttributes : AccessMask := 0x00000080#32
def writeAttributes : AccessMask := 0x00000100#32
def delete : AccessMask := 0x00010000#32
def readControl : AccessMask := 0x00020000#32
def writeDac : AccessMask := 0x00040000#32
def writeOwner : AccessMask := 0x00080000#32
def synchronize : AccessMask := 0x00100000#32
def genericAll : AccessMask := 0x10000000#32
def genericExecute : AccessMask := 0x20000000#32
def genericWrite : AccessMask := 0x40000000#32
def genericRead : AccessMask := 0x80000000#32

/-- The single-bit members, in the order the enumeration iterates them. -/
def all : List AccessMask :=
  [readData, writeData, appendData, readEa, writeEa, execute, deleteChild,
    readAttributes, writeAttributes, delete, readControl, writeDac, writeOwner,
    synchronize, genericAll, genericExecute, genericWrite, genericRead]
end NtfsRight

inductive SharePermission where
  | read
  | change
  | full
  deriving DecidableEq, Repr

def SharePermission.value : SharePermission → String
  | .read => "read"
  | .change => "change"
  | .full => "full"

theorem SharePermission.value_injective : Function.Injective SharePermission.value := by
  intro a b h
  cases a <;> cases b <;> first | rfl | exact absurd h (by decide)

inductive PrincipalKind where
  | user
  | domainGroup
  | localGroup
  | computer
  | managedServiceAccount
  | wellKnown
  | foreignSecurityPrincipal
  | unresolved
  deriving DecidableEq, Repr

def PrincipalKind.value : PrincipalKind → String
  | .user => "user"
  | .domainGroup => "domain_group"
  | .localGroup => "local_group"
  | .computer => "computer"
  | .managedServiceAccount => "managed_service_account"
  | .wellKnown => "well_known"
  | .foreignSecurityPrincipal => "foreign_security_principal"
  | .unresolved => "unresolved"

theorem PrincipalKind.value_injective : Function.Injective PrincipalKind.value := by
  intro a b h
  cases a <;> cases b <;> first | rfl | exact absurd h (by decide)

inductive MembershipEdgeKind where
  | directoryGroupMember
  | primaryGroup
  | localGroupMember
  | wellKnownImplicit
  deriving DecidableEq, Repr

def MembershipEdgeKind.value : MembershipEdgeKind → String
  | .directoryGroupMember => "directory_group_member"
  | .primaryGroup => "primary_group"
  | .localGroupMember => "local_group_member"
  | .wellKnownImplicit => "well_known_implicit"

theorem MembershipEdgeKind.value_injective : Function.Injective MembershipEdgeKind.value := by
  intro a b h
  cases a <;> cases b <;> first | rfl | exact absurd h (by decide)

inductive ResourceKind where
  | directory
  | file
  deriving DecidableEq, Repr

end Adg.Observation
