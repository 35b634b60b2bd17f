import Adg.PlanRunbooks

/-!
# What was measured and what is instructed

A plan is measured by the overlay of its steps and carried out by its runbook.
Both are read as edits of memberships, of access lists of directories and of
access lists of shares. The overlay names an entry by its key. A script has no
keys: it addresses every entry that looks to it as the one it is to change, and
of these the plan says which ones it knows.
-/

set_option autoImplicit false

namespace Adg.InstructedEdits
open Adg.Observation Adg.SecurityIdentifier Adg.ResourcePath Adg.ChangePlans
open Adg.SimulationOverlays Adg.PlanRunbooks

/-! ### Edits -/

/-- The SID that a text names, in canonical form when it is one. -/
def sidNamed (text : String) : String :=
  match canonicalizeSid text with
  | .ok sid => sid
  | .error _ => text

/-- A rule of a directory as a script sees it, with its rights a signed 32-bit number. -/
structure Rule where
  trustee : String
  type : AceType
  rights : ℤ
  deriving DecidableEq, Repr

/-- `[int]` of a mask. -/
def signed (mask : ℤ) : ℤ := if mask < 2^31 then mask else mask-2^32

section Runbook
variable (casefold : String → String)

def directoryNamed (path : String) : Option String :=
  (parseUncPath path).toOption.map (·.comparisonKey casefold)

def shareNamed (key : String) : Option String :=
  (parseShareIdentifier key).toOption.map fun s => casefold s.name

/-- The step is about an entry of a share that allows an account. -/
def grants (share trustee : String) (c : PlannedChange) : Bool :=
  c.targetKind = .share ∧ shareNamed casefold c.targetKey = some share ∧
    c.entry.any fun e => sidNamed e.trusteeSid = trustee ∧ e.aceType = .allow

/-- The entries that some of the steps are about. -/
def entriesOf (p : PlannedChange → Bool) (changes : List PlannedChange) : List String :=
  (changes.filter p).filterMap fun c => c.entry.map (·.aceKey)

section Steps
variable (changes : List PlannedChange)

end Steps

end Runbook

/-! ### When the two agree -/

section Agreement
variable (casefold : String → String)

/-- The name that is shown is the one of the share. -/
def NamesShare (c : PlannedChange) : Prop :=
  shareNamed casefold c.targetKey = some (casefold (shareName c))

/-- No other step is about an entry that allows the same account. -/
def AloneOnShare (changes : List PlannedChange) (c : PlannedChange) : Prop :=
  ∀ e, c.entry = some e → ∀ c' ∈ changes,
    grants casefold (casefold (shareName c)) (sidNamed e.trusteeSid) c' = true → c' = c

/-- What a step acts on, as an overlay tells its changes apart. -/
def targetsOf (c : PlannedChange) : List Target :=
  let edges := c.membership.toList.map fun m =>
    Target.edge ("edge:" ++ m.groupKey ++ "->" ++ m.memberKey ++ "|" ++ m.edgeKind.value)
  let entries (named : String → Target) := c.entry.toList.map fun e => named e.aceKey
  match c.kind with
  | .removeGroupMember => edges
  | .removeNtfsAce | .modifyNtfsAce => entries .ntfsAce
  | .removeShareAce | .modifyShareAce => entries .shareAce
  | .replaceWithGroup => entries .ntfsAce ++ edges

end Agreement

end Adg.InstructedEdits
